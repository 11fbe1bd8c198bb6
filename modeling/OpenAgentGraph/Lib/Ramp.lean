/-
  Ramps between 0 and 1.

  * `ramp r x` is `x / r`, cut off at 0 and 1: it is monotone and climbs by at
    most `d / r` over a distance `d` (`ramp_add_le`);
  * `blend s y` moves from `s` to 1 as `y` moves from 0 to 1.
-/
import Mathlib

namespace Lib

variable {K : Type} [Field K] [LinearOrder K] [IsStrictOrderedRing K]

/-! ## Ramps -/

def ramp (r x : K) : K := max 0 (min (x / r) 1)

variable {r x y d : K}

omit [IsStrictOrderedRing K] in
theorem ramp_nonneg : 0 ≤ ramp r x := le_max_left _ _

theorem ramp_le_one : ramp r x ≤ 1 := max_le zero_le_one (min_le_right _ _)

theorem ramp_of_nonpos (hr : 0 < r) (hx : x ≤ 0) : ramp r x = 0 := by
  have hdiv : x / r ≤ 0 := div_nonpos_of_nonpos_of_nonneg hx hr.le
  exact max_eq_left ((min_le_left _ _).trans hdiv)

theorem ramp_of_le (hr : 0 < r) (hx : r ≤ x) : ramp r x = 1 := by
  have hdiv : 1 ≤ x / r := (one_le_div hr).2 hx
  rw [ramp, min_eq_right hdiv, max_eq_right zero_le_one]

theorem ramp_of_mem (hr : 0 < r) (h0 : 0 ≤ x) (hx : x ≤ r) : ramp r x = x / r := by
  have hdiv : x / r ≤ 1 := (div_le_one hr).2 hx
  rw [ramp, min_eq_left hdiv, max_eq_right (div_nonneg h0 hr.le)]

theorem ramp_mono (hr : 0 < r) (h : x ≤ y) : ramp r x ≤ ramp r y :=
  max_le_max le_rfl (min_le_min ((div_le_div_iff_of_pos_right hr).2 h) le_rfl)

/-- What is cut off below does not count. -/
theorem ramp_max_zero (hr : 0 < r) : ramp r (max 0 x) = ramp r x := by
  rcases le_total x 0 with hx | hx
  · rw [max_eq_left hx, ramp_of_nonpos hr hx, ramp_of_nonpos hr le_rfl]
  · rw [max_eq_right hx]

theorem ramp_le_div (hr : 0 < r) (hx : 0 ≤ x) : ramp r x ≤ x / r :=
  max_le (div_nonneg hx hr.le) (min_le_left _ _)

theorem ramp_add_le (hr : 0 < r) (hd : 0 ≤ d) : ramp r (x + d) ≤ ramp r x + d / r := by
  have hd' : 0 ≤ d / r := div_nonneg hd hr.le
  refine max_le (add_nonneg ramp_nonneg hd') ?_
  calc min ((x + d) / r) 1 ≤ min (x / r + d / r) (1 + d / r) :=
        min_le_min (add_div x d r).le (le_add_of_nonneg_right hd')
    _ = min (x / r) 1 + d / r := (min_add_add_right _ _ _)
    _ ≤ ramp r x + d / r := add_le_add_left (le_max_right _ _) _

theorem ramp_pos (hr : 0 < r) : 0 < ramp r x ↔ 0 < x := by
  constructor
  · intro h
    by_contra hx
    rw [ramp_of_nonpos hr (not_lt.1 hx)] at h
    exact lt_irrefl 0 h
  · intro hx
    exact lt_max_of_lt_right (lt_min (div_pos hx hr) one_pos)

theorem ramp_lt_one (hr : 0 < r) : ramp r x < 1 ↔ x < r := by
  constructor
  · intro h
    by_contra hx
    rw [ramp_of_le hr (not_lt.1 hx)] at h
    exact lt_irrefl 1 h
  · intro hx
    exact max_lt one_pos (min_lt_of_left_lt ((div_lt_one hr).2 hx))

/-! ## Blends -/

def blend (s y : K) : K := s + y * (1 - s)

variable {s : K}

theorem le_blend (hs : s ≤ 1) (hy : 0 ≤ y) : s ≤ blend s y :=
  le_add_of_nonneg_right (mul_nonneg hy (sub_nonneg.2 hs))

theorem blend_nonneg (h0 : 0 ≤ s) (hs : s ≤ 1) (hy : 0 ≤ y) : 0 ≤ blend s y :=
  h0.trans (le_blend hs hy)

omit [LinearOrder K] [IsStrictOrderedRing K] in
theorem one_sub_blend : 1 - blend s y = (1 - y) * (1 - s) := by
  unfold blend
  ring

theorem blend_le_one (hs : s ≤ 1) (hy : y ≤ 1) : blend s y ≤ 1 := by
  have h : 0 ≤ 1 - blend s y := by
    rw [one_sub_blend]
    exact mul_nonneg (sub_nonneg.2 hy) (sub_nonneg.2 hs)
  exact sub_nonneg.1 h

omit [LinearOrder K] [IsStrictOrderedRing K] in
theorem blend_zero_left : blend 0 y = y := by
  unfold blend
  ring

end Lib
