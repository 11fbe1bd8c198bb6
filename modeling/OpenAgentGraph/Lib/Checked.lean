/-
  64-bit signed arithmetic, and where it is exact.

  `Int64` wraps around; `checkedAdd`, `checkedSub`, ... give no result where
  the exact one leaves the range, and the wrapped one elsewhere
  (`checkedAdd_eq_some`, ...), which there is exact.  Which of the two a
  program computes depends on how it was built (`OverflowChecks`).
-/
import Mathlib

namespace Lib

/-- The range of a 64-bit signed integer. -/
def InI64 (x : ℤ) : Prop := -2 ^ 63 ≤ x ∧ x < 2 ^ 63

instance (x : ℤ) : Decidable (InI64 x) := inferInstanceAs (Decidable (_ ∧ _))

theorem inI64_toInt (a : Int64) : InI64 a.toInt := ⟨a.le_toInt, a.toInt_lt⟩

theorem InI64.of_nonneg {x : ℤ} {a : Int64} (h0 : 0 ≤ x) (h : x ≤ a.toInt) : InI64 x := by
  have ha := a.toInt_lt
  constructor <;> omega

theorem bmod_of_inI64 {x : ℤ} (h : InI64 x) : x.bmod (2 ^ 64) = x := by
  obtain ⟨hlo, hhi⟩ := h
  refine Int.bmod_eq_of_le ?_ ?_
  · norm_num
    omega
  · norm_num
    omega

theorem toInt_add_exact {a b : Int64} (h : InI64 (a.toInt + b.toInt)) :
    (a + b).toInt = a.toInt + b.toInt := by
  rw [Int64.toInt_add, bmod_of_inI64 h]

theorem toInt_sub_exact {a b : Int64} (h : InI64 (a.toInt - b.toInt)) :
    (a - b).toInt = a.toInt - b.toInt := by
  rw [Int64.toInt_sub, bmod_of_inI64 h]

theorem toInt_mul_exact {a b : Int64} (h : InI64 (a.toInt * b.toInt)) :
    (a * b).toInt = a.toInt * b.toInt := by
  rw [Int64.toInt_mul, bmod_of_inI64 h]

/-- A wrapped sum is exact, or off by one turn. -/
theorem toInt_add_cases (a b : Int64) :
    (InI64 (a.toInt + b.toInt) ∧ (a + b).toInt = a.toInt + b.toInt) ∨
    (2 ^ 63 ≤ a.toInt + b.toInt ∧ (a + b).toInt = a.toInt + b.toInt - 2 ^ 64) ∨
    (a.toInt + b.toInt < -2 ^ 63 ∧ (a + b).toInt = a.toInt + b.toInt + 2 ^ 64) := by
  have ha := inI64_toInt a
  have hb := inI64_toInt b
  unfold InI64 at *
  rw [Int64.toInt_add, Int.bmod]
  norm_num
  omega

/-- A wrapped difference is exact, or off by one turn. -/
theorem toInt_sub_cases (a b : Int64) :
    (InI64 (a.toInt - b.toInt) ∧ (a - b).toInt = a.toInt - b.toInt) ∨
    (2 ^ 63 ≤ a.toInt - b.toInt ∧ (a - b).toInt = a.toInt - b.toInt - 2 ^ 64) ∨
    (a.toInt - b.toInt < -2 ^ 63 ∧ (a - b).toInt = a.toInt - b.toInt + 2 ^ 64) := by
  have ha := inI64_toInt a
  have hb := inI64_toInt b
  unfold InI64 at *
  rw [Int64.toInt_sub, Int.bmod]
  norm_num
  omega

/-- The cast of an unsigned number. -/
theorem toInt_toInt64 (n : UInt64) :
    n.toInt64.toInt = if n.toNat < 2 ^ 63 then (n.toNat : ℤ) else n.toNat - 2 ^ 64 := by
  have hn := n.toNat_lt
  rw [← Int64.toInt_toBitVec, UInt64.toBitVec_toInt64, BitVec.toInt_eq_toNat_bmod,
    UInt64.toNat_toBitVec, Int.bmod]
  norm_num
  omega

/-- The absolute value of the least value is the least value. -/
theorem toInt_abs_min {a : Int64} (h : a.toInt = -2 ^ 63) : a.abs.toInt = -2 ^ 63 := by
  have ha : a = Int64.minValue := Int64.toInt_inj.1 (h.trans (by decide))
  rw [ha]
  decide

theorem toInt_abs_exact {a : Int64} (h : a.toInt ≠ -2 ^ 63) : a.abs.toInt = |a.toInt| := by
  have hmin : a.toBitVec ≠ BitVec.intMin 64 := by
    intro heq
    exact h (by rw [← Int64.toInt_toBitVec, heq]; decide)
  calc a.abs.toInt = (a.toBitVec.abs).toInt := rfl
    _ = (a.toBitVec.toInt.natAbs : ℤ) := BitVec.toInt_abs_eq_natAbs_of_ne_intMin hmin
    _ = |a.toInt| := by rw [Int64.toInt_toBitVec, Int.natCast_natAbs]

/-! ## Checked operations -/

def checkedAdd (a b : Int64) : Option Int64 := if InI64 (a.toInt + b.toInt) then some (a + b) else none

def checkedSub (a b : Int64) : Option Int64 := if InI64 (a.toInt - b.toInt) then some (a - b) else none

def checkedMul (a b : Int64) : Option Int64 := if InI64 (a.toInt * b.toInt) then some (a * b) else none

def checkedAbs (a : Int64) : Option Int64 := if a.toInt = -2 ^ 63 then none else some a.abs

/-- Whether a build stops at an overflow or wraps around. -/
inductive OverflowChecks
  | on
  | off
  deriving DecidableEq, Repr

def OverflowChecks.add (checks : OverflowChecks) (a b : Int64) : Option Int64 :=
  match checks with
  | on => checkedAdd a b
  | off => some (a + b)

def OverflowChecks.sub (checks : OverflowChecks) (a b : Int64) : Option Int64 :=
  match checks with
  | on => checkedSub a b
  | off => some (a - b)

def OverflowChecks.mul (checks : OverflowChecks) (a b : Int64) : Option Int64 :=
  match checks with
  | on => checkedMul a b
  | off => some (a * b)

/-- The increment of a 32-bit counter. -/
def OverflowChecks.inc32 (checks : OverflowChecks) (n : UInt32) : Option UInt32 :=
  match checks with
  | on => if n.toNat + 1 < 2 ^ 32 then some (n + 1) else none
  | off => some (n + 1)

variable {a b c : Int64}

theorem checkedAdd_eq_some : checkedAdd a b = some c ↔ InI64 (a.toInt + b.toInt) ∧ a + b = c := by
  unfold checkedAdd
  split <;> simp [*]

theorem checkedSub_eq_some : checkedSub a b = some c ↔ InI64 (a.toInt - b.toInt) ∧ a - b = c := by
  unfold checkedSub
  split <;> simp [*]

theorem checkedMul_eq_some : checkedMul a b = some c ↔ InI64 (a.toInt * b.toInt) ∧ a * b = c := by
  unfold checkedMul
  split <;> simp [*]

theorem checkedAbs_eq_some : checkedAbs a = some c ↔ a.toInt ≠ -2 ^ 63 ∧ a.abs = c := by
  unfold checkedAbs
  by_cases h : a.toInt = -2 ^ 63
  · rw [if_pos h]
    exact ⟨fun hc => (by cases hc), fun hc => absurd h hc.1⟩
  · rw [if_neg h, Option.some.injEq]
    exact ⟨fun hc => ⟨h, hc⟩, And.right⟩

/-- Every build computes what is in range. -/
theorem OverflowChecks.sub_of_inI64 (checks : OverflowChecks) (h : InI64 (a.toInt - b.toInt)) :
    checks.sub a b = some (a - b) := by
  cases checks with
  | on => exact checkedSub_eq_some.2 ⟨h, rfl⟩
  | off => rfl

theorem OverflowChecks.mul_of_inI64 (checks : OverflowChecks) (h : InI64 (a.toInt * b.toInt)) :
    checks.mul a b = some (a * b) := by
  cases checks with
  | on => exact checkedMul_eq_some.2 ⟨h, rfl⟩
  | off => rfl

theorem OverflowChecks.inc32_of_lt (checks : OverflowChecks) {n : UInt32}
    (h : n.toNat + 1 < 2 ^ 32) : checks.inc32 n = some (n + 1) := by
  cases checks with
  | on => exact if_pos h
  | off => rfl

/-- A checked distance exists when the exact difference is in range and is not the least value. -/
theorem checkedAbs_checkedSub :
    (checkedSub a b).bind checkedAbs = some c ↔ |a.toInt - b.toInt| < 2 ^ 63 ∧ (a - b).abs = c := by
  rw [Option.bind_eq_some_iff, abs_lt]
  constructor
  · rintro ⟨d, hd, hc⟩
    obtain ⟨hin, rfl⟩ := checkedSub_eq_some.1 hd
    obtain ⟨hne, rfl⟩ := checkedAbs_eq_some.1 hc
    rw [toInt_sub_exact hin] at hne
    exact ⟨⟨lt_of_le_of_ne hin.1 (Ne.symm hne), hin.2⟩, rfl⟩
  · rintro ⟨⟨hlo, hhi⟩, rfl⟩
    have hin : InI64 (a.toInt - b.toInt) := ⟨hlo.le, hhi⟩
    refine ⟨a - b, checkedSub_eq_some.2 ⟨hin, rfl⟩, checkedAbs_eq_some.2 ⟨?_, rfl⟩⟩
    rw [toInt_sub_exact hin]
    exact hlo.ne'

end Lib
