/-
  Fixed windows: a window opens at a check and holds the checks that come no
  more than a fixed time later; the next check opens another.

  `tick` counts the checks of a window exactly, `admitted` are the checks among
  the first `m` of their window.  Two windows can meet a closed interval of the
  length of a window, so it holds at most `2 * m` admitted checks
  (`burst_le_twice`).
-/
import Mathlib

namespace Lib.FixedWindow

/-- When a window opened, and how many checks it has seen. -/
structure Window where
  opened : ℕ
  seen : ℕ
  deriving DecidableEq, Repr

variable (W : ℕ)

/-- The window of a check at `now`, where `w` is the one before it. -/
def tick (now : ℕ) : Option Window → Window
  | none => ⟨now, 1⟩
  | some w => if W < now - w.opened then ⟨now, 1⟩ else ⟨w.opened, w.seen + 1⟩

/-- The window of the last check. -/
def windowAfter (w : Option Window) (times : List ℕ) : Option Window :=
  times.foldl (fun w t => some (tick W t w)) w

/-- The checks among the first `m` of their window. -/
def admitted (m : ℕ) : Option Window → List ℕ → List ℕ
  | _, [] => []
  | w, t :: ts =>
    let next := tick W t w
    if next.seen ≤ m then t :: admitted m (some next) ts else admitted m (some next) ts

variable {W} {m now : ℕ} {w : Window} {ws : Option Window} {ts : List ℕ}

theorem tick_same (h : now - w.opened ≤ W) : tick W now (some w) = ⟨w.opened, w.seen + 1⟩ :=
  if_neg (Nat.not_lt.2 h)

theorem tick_new (h : W < now - w.opened) : tick W now (some w) = ⟨now, 1⟩ := if_pos h

theorem one_le_seen (t : ℕ) : ∀ ws : Option Window, 1 ≤ (tick W t ws).seen
  | none => le_rfl
  | some w => by
    simp only [tick]
    split <;> simp

theorem windowAfter_append (ts : List ℕ) (t : ℕ) :
    windowAfter W ws (ts ++ [t]) = some (tick W t (windowAfter W ws ts)) := by
  simp [windowAfter]

/-- A window holds some of the checks. -/
theorem seen_le_length (h : windowAfter W none ts = some w) : w.seen ≤ ts.length := by
  induction ts using List.reverseRecOn generalizing w with
  | nil => cases h
  | append_singleton ts t ih =>
    rw [windowAfter_append, Option.some.injEq] at h
    subst h
    cases hw : windowAfter W none ts with
    | none => simp [tick]
    | some v =>
      have := ih hw
      simp only [tick, List.length_append, List.length_singleton]
      split <;> simp only <;> omega

theorem admitted_cons (t : ℕ) : admitted W m ws (t :: ts)
    = if (tick W t ws).seen ≤ m then t :: admitted W m (some (tick W t ws)) ts
      else admitted W m (some (tick W t ws)) ts := rfl

theorem admitted_sublist : ∀ (ws : Option Window) (ts : List ℕ), (admitted W m ws ts).Sublist ts
  | _, [] => List.Sublist.slnil
  | ws, t :: ts => by
    rw [admitted_cons]
    split
    · exact (admitted_sublist _ ts).cons_cons t
    · exact (admitted_sublist _ ts).cons t

/-- The admitted checks of a closed interval of the length of a window. -/
def burst (W m a : ℕ) (ws : Option Window) (ts : List ℕ) : ℕ :=
  (admitted W m ws ts).countP fun t => a ≤ t ∧ t ≤ a + W

theorem burst_cons (a t : ℕ) : burst W m a ws (t :: ts)
    = burst W m a (some (tick W t ws)) ts
      + if (tick W t ws).seen ≤ m ∧ a ≤ t ∧ t ≤ a + W then 1 else 0 := by
  unfold burst
  rw [admitted_cons]
  by_cases hm : (tick W t ws).seen ≤ m
  · rw [if_pos hm, List.countP_cons]
    simp [hm]
  · rw [if_neg hm]
    simp [hm]

theorem burst_eq_zero {a : ℕ} (hlate : ∀ t ∈ ts, a + W < t) : burst W m a ws ts = 0 := by
  refine List.countP_eq_zero.2 fun t ht hin => ?_
  have := hlate t ((admitted_sublist ws ts).subset ht)
  simp only [decide_eq_true_eq] at hin
  omega

/-- A window that opened no earlier than `a` is open until `a + W`, and
    admits what is left of its `m` checks. -/
theorem burst_open {a : ℕ} (ha : a ≤ w.opened) (hord : ts.Pairwise (· ≤ ·)) :
    burst W m a (some w) ts ≤ m - w.seen := by
  induction ts generalizing w with
  | nil => exact Nat.zero_le _
  | cons t ts ih =>
    obtain ⟨hfirst, hord⟩ := List.pairwise_cons.1 hord
    rw [burst_cons]
    by_cases ht : t - w.opened ≤ W
    · rw [tick_same ht]
      have hrest := ih (w := ⟨w.opened, w.seen + 1⟩) ha hord
      simp only at hrest ⊢
      split <;> omega
    · -- this check and the later ones are past `a + W`
      have hlate : ∀ u ∈ ts, a + W < u := fun u hu => by
        have := hfirst u hu
        omega
      rw [burst_eq_zero hlate, if_neg (by omega)]
      exact Nat.zero_le _

/-- From `a` on, the window that is open at `a` admits the rest of its `m`
    checks, and the next one at most `m`. -/
theorem burst_from {a : ℕ} (hord : ts.Pairwise (· ≤ ·)) (hfrom : ∀ t ∈ ts, a ≤ t) :
    burst W m a (some w) ts ≤ (m - w.seen) + m := by
  induction ts generalizing w with
  | nil => exact Nat.zero_le _
  | cons t ts ih =>
    obtain ⟨-, hord⟩ := List.pairwise_cons.1 hord
    obtain ⟨ht, hfrom⟩ := List.forall_mem_cons.1 hfrom
    rw [burst_cons]
    by_cases hopen : t - w.opened ≤ W
    · rw [tick_same hopen]
      have hrest := ih (w := ⟨w.opened, w.seen + 1⟩) hord hfrom
      simp only at hrest ⊢
      split <;> omega
    · rw [tick_new (by omega)]
      have hrest := burst_open (W := W) (m := m) (w := ⟨t, 1⟩) ht hord
      simp only at hrest ⊢
      split <;> omega

/-- No closed interval of the length of a window holds more than `2 * m`
    admitted checks. -/
theorem burst_le_twice (a : ℕ) (hord : ts.Pairwise (· ≤ ·)) : burst W m a ws ts ≤ 2 * m := by
  induction ts generalizing ws with
  | nil => exact Nat.zero_le _
  | cons t ts ih =>
    obtain ⟨hfirst, hord⟩ := List.pairwise_cons.1 hord
    rw [burst_cons]
    by_cases ha : a ≤ t
    · have hrest := burst_from (W := W) (m := m) (w := tick W t ws) hord
        fun u hu => ha.trans (hfirst u hu)
      have hseen : 1 ≤ (tick W t ws).seen := one_le_seen t ws
      split <;> omega
    · rw [if_neg (by omega)]
      exact ih hord

end Lib.FixedWindow
