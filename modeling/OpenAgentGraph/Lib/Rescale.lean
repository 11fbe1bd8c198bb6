/-
  Whole numbers on two scales.

  `rescale a b m` is `m` parts of size `1 / a` counted in parts of size `1 / b`,
  rounded down.  Going to another scale and back loses less than a part when
  the other scale is the finer one (`le_rescale_rescale`), and nothing exactly
  where the first rounding is none (`rescale_rescale_eq_iff`).
-/
import Mathlib.Algebra.Order.Group.Nat
import Mathlib.Tactic.Ring
import Mathlib.Tactic.GCongr

namespace Lib

def rescale (a b m : ℕ) : ℕ := m * b / a

variable {a b m n : ℕ}

theorem rescale_mono (a b : ℕ) (h : m ≤ n) : rescale a b m ≤ rescale a b n :=
  Nat.div_le_div_right (Nat.mul_le_mul_right b h)

/-- Less than one unit before, less than one after. -/
theorem rescale_lt (ha : 0 < a) (h : m < a) (hb : 0 < b) : rescale a b m < b := by
  rw [rescale, Nat.div_lt_iff_lt_mul ha, Nat.mul_comm b a]
  exact Nat.mul_lt_mul_of_pos_right h hb

theorem rescale_rescale_le (a b m : ℕ) : rescale b a (rescale a b m) ≤ m := by
  rcases Nat.eq_zero_or_pos b with rfl | hb
  · simp [rescale]
  · refine (Nat.div_le_iff_le_mul_add_pred hb).2 ?_
    calc m * b / a * a ≤ m * b := Nat.div_mul_le_self _ _
      _ ≤ b * m + (b - 1) := by rw [Nat.mul_comm]; exact Nat.le_add_right _ _

/-- The finer scale keeps a number up to one part. -/
theorem le_rescale_rescale (ha : 0 < a) (h : a ≤ b) (m : ℕ) : m ≤ rescale b a (rescale a b m) + 1 := by
  have hb : 0 < b := Nat.lt_of_lt_of_le ha h
  have hround : m * b < m * b / a * a + a := by
    rw [Nat.mul_comm (m * b / a)]
    exact Nat.lt_mul_div_succ (m * b) ha
  have hback : m * b / a * a < b * (m * b / a * a / b + 1) := Nat.lt_mul_div_succ _ hb
  have hmul : m * b < (m * b / a * a / b + 2) * b := by
    calc m * b < m * b / a * a + a := hround
      _ ≤ m * b / a * a + b := Nat.add_le_add_left h _
      _ < b * (m * b / a * a / b + 1) + b := Nat.add_lt_add_right hback _
      _ = (m * b / a * a / b + 2) * b := by ring
  exact Nat.le_of_lt_succ (Nat.lt_of_mul_lt_mul_right hmul)

/-- A number is the same after a detour over another scale exactly where it is
    a whole number there. -/
theorem rescale_rescale_eq_iff (hb : 0 < b) : rescale b a (rescale a b m) = m ↔ a ∣ m * b := by
  constructor
  · intro heq
    have hle : m * b ≤ m * b / a * a := (Nat.le_div_iff_mul_le hb).1 heq.ge
    exact Nat.dvd_of_mod_eq_zero (by have := Nat.div_add_mod' (m * b) a; omega)
  · intro hdvd
    rw [rescale, rescale, Nat.div_mul_cancel hdvd, Nat.mul_div_cancel _ hb]

end Lib
