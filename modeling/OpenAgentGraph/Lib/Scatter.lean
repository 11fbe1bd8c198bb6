/-
  Amounts held under keys, and deposits onto them.

  `addAt` is one deposit, none if nothing is held under the key.  On
  `tabulate ks f`, which holds `f k` under each key `k` of `ks`, deposits add
  up pointwise, in whichever order they come (`foldlM_addAt`), and what they
  add in all is what was deposited (`sum_count_mul`).
-/
import Mathlib

namespace Lib.Scatter

variable {κ : Type} [DecidableEq κ]

/-- The amount under the key. -/
def amount (m : List (κ × ℚ)) (k : κ) : Option ℚ := (m.find? fun e => e.1 = k).map Prod.snd

/-- A deposit of `d` under the key. -/
def addAt (d : ℚ) (m : List (κ × ℚ)) (k : κ) : Option (List (κ × ℚ)) :=
  if m.any fun e => e.1 = k then some (m.map fun e => if e.1 = k then (e.1, e.2 + d) else e)
  else none

def tabulate (ks : List κ) (f : κ → ℚ) : List (κ × ℚ) := ks.map fun k => (k, f k)

variable {ks : List κ} {f : κ → ℚ} {k : κ}

omit [DecidableEq κ] in
@[simp] theorem map_fst_tabulate (ks : List κ) (f : κ → ℚ) : (tabulate ks f).map Prod.fst = ks := by
  simp [tabulate, Function.comp_def]

omit [DecidableEq κ] in
@[simp] theorem map_snd_tabulate (ks : List κ) (f : κ → ℚ) :
    (tabulate ks f).map Prod.snd = ks.map f := by
  simp [tabulate, Function.comp_def]

theorem amount_tabulate (h : k ∈ ks) : amount (tabulate ks f) k = some (f k) := by
  induction ks with
  | nil => cases h
  | cons k' ks ih =>
    by_cases hk : k' = k
    · simp [amount, tabulate, hk]
    · have h := (List.mem_cons.1 h).resolve_left (Ne.symm hk)
      simpa [amount, tabulate, hk] using ih h

theorem mapM_amount {l : List κ} (h : ∀ k ∈ l, k ∈ ks) :
    l.mapM (amount (tabulate ks f)) = some (l.map f) := by
  induction l with
  | nil => rfl
  | cons k l ih =>
    obtain ⟨hk, h⟩ := List.forall_mem_cons.1 h
    rw [List.mapM_cons, amount_tabulate hk, ih h]
    rfl

theorem addAt_tabulate (d : ℚ) (h : k ∈ ks) :
    addAt d (tabulate ks f) k = some (tabulate ks fun v => f v + if k = v then d else 0) := by
  have hheld : (tabulate ks f).any (fun e => e.1 = k) = true := by
    simp [tabulate, h]
  rw [addAt, if_pos hheld, tabulate, List.map_map]
  refine congrArg some (List.map_congr_left fun v _ => ?_)
  by_cases hv : v = k
  · simp [hv]
  · simp [hv, Ne.symm hv]

/-- Deposits of one size, in any order. -/
theorem foldlM_addAt (d : ℚ) {ts : List κ} (h : ∀ t ∈ ts, t ∈ ks) :
    ts.foldlM (addAt d) (tabulate ks f) = some (tabulate ks fun v => f v + d * ts.count v) := by
  induction ts generalizing f with
  | nil => simp
  | cons t ts ih =>
    obtain ⟨ht, h⟩ := List.forall_mem_cons.1 h
    rw [List.foldlM_cons, addAt_tabulate d ht, Option.bind_eq_bind, Option.bind_some, ih h]
    refine congrArg (fun g => some (tabulate ks g)) (funext fun v => ?_)
    rw [List.count_cons]
    by_cases hv : t = v
    · simp only [hv, if_true, beq_self_eq_true, Nat.cast_add, Nat.cast_one]
      ring
    · simp [hv]

/-- All that the deposits add. -/
theorem sum_count_mul (d : ℚ) {ts : List κ} {s : Finset κ} (h : ∀ t ∈ ts, t ∈ s) :
    ∑ v ∈ s, d * (ts.count v : ℚ) = d * ts.length := by
  have hcount : ∑ v ∈ s, ts.count v = ts.length := by
    have := Multiset.sum_count_eq_card (s := s) (m := (ts : Multiset κ)) (by simpa using h)
    simpa using this
  rw [← Finset.mul_sum, ← hcount]
  push_cast
  rfl

end Lib.Scatter
