/-
  A loop that changes its state until there is nothing left to do.

  `next s` is the state after one more turn, and `none` where the loop
  returns.  `Ends next s t` says that the loop returns `t` when it starts in
  `s`; a loop that runs forever from `s` ends nowhere.  `Turns next s l t` lists
  the states that the turns start in.
-/
import Mathlib.Data.List.Basic
import Mathlib.Tactic.Common

namespace Lib

variable {σ : Type*}

/-- The state that the loop returns, if it does within `n` looks at its
    condition. -/
def loop (next : σ → Option σ) : ℕ → σ → Option σ
  | 0, _ => none
  | n + 1, s => match next s with
    | none => some s
    | some s' => loop next n s'

def Ends (next : σ → Option σ) (s t : σ) : Prop := ∃ n, loop next n s = some t

/-- The turns of the loop start in the states of `l`, and the last one ends in
    `t`. -/
inductive Turns (next : σ → Option σ) : σ → List σ → σ → Prop
  | nil (s : σ) : Turns next s [] s
  | cons {s s' t : σ} {l : List σ} : next s = some s' → Turns next s' l t → Turns next s (s :: l) t

variable {next next' : σ → Option σ} {s s' t t' : σ} {n : ℕ}

theorem loop_of_none (h : next s = none) : loop next (n + 1) s = some s := by
  rw [loop, h]

theorem loop_of_some (h : next s = some s') : loop next (n + 1) s = loop next n s' := by
  rw [loop, h]

theorem ends_of_none (h : next s = none) : Ends next s t ↔ t = s := by
  constructor
  · rintro ⟨_ | n, hn⟩
    · cases hn
    · rw [loop_of_none h] at hn
      exact (Option.some.inj hn).symm
  · rintro rfl
    exact ⟨1, loop_of_none h⟩

theorem ends_of_some (h : next s = some s') : Ends next s t ↔ Ends next s' t := by
  constructor
  · rintro ⟨_ | n, hn⟩
    · cases hn
    · exact ⟨n, by rwa [loop_of_some h] at hn⟩
  · rintro ⟨n, hn⟩
    exact ⟨n + 1, by rwa [loop_of_some h]⟩

/-- The loop ends in `t` if some turns lead there and it returns there. -/
theorem ends_iff : Ends next s t ↔ next t = none ∧ ∃ l, Turns next s l t := by
  constructor
  · rintro ⟨n, hn⟩
    induction n generalizing s with
    | zero => cases hn
    | succ n ih =>
      cases hs : next s with
      | none =>
        rw [loop_of_none hs] at hn
        cases hn
        exact ⟨hs, [], .nil _⟩
      | some s' =>
        rw [loop_of_some hs] at hn
        obtain ⟨ht, l, hl⟩ := ih hn
        exact ⟨ht, s :: l, .cons hs hl⟩
  · rintro ⟨ht, l, hl⟩
    induction hl with
    | nil s => exact (ends_of_none ht).2 rfl
    | cons h _ ih => exact (ends_of_some h).2 (ih ht)

theorem Ends.unique (h : Ends next s t) (h' : Ends next s t') : t = t' := by
  obtain ⟨n, hn⟩ := h
  induction n generalizing s with
  | zero => cases hn
  | succ n ih =>
    cases hs : next s with
    | none =>
      rw [loop_of_none hs] at hn
      cases hn
      exact ((ends_of_none hs).1 h').symm
    | some s' => exact ih ((ends_of_some hs).1 h') (by rwa [loop_of_some hs] at hn)

/-- The loop returns at once from what it returned. -/
theorem Ends.ends_self (h : Ends next s t) : Ends next t t :=
  (ends_of_none (ends_iff.1 h).1).2 rfl

/-- **Measure rule.**  A loop whose turns all lower a measure ends. -/
theorem exists_loop (m : σ → ℕ) (hm : ∀ s s', next s = some s' → m s' < m s) (s : σ) :
    ∃ t, loop next (m s + 1) s = some t := by
  have hfuel : ∀ n s, m s < n → ∃ t, loop next n s = some t := by
    intro n
    induction n with
    | zero => exact fun s hs => absurd hs (Nat.not_lt_zero _)
    | succ n ih =>
      intro s hs
      cases hnext : next s with
      | none => exact ⟨s, loop_of_none hnext⟩
      | some s' =>
        rw [loop_of_some hnext]
        exact ih s' (by have := hm s s' hnext; omega)
  exact hfuel _ s (Nat.lt_succ_self _)

/-- **Composition.**  A loop that goes on wherever another one does can be run
    after it: the two together do what it does alone. -/
theorem Ends.comp (hnext : ∀ s s', next s = some s' → next' s = some s') (h : Ends next s t) :
    Ends next' t t' ↔ Ends next' s t' := by
  obtain ⟨-, l, hl⟩ := ends_iff.1 h
  clear h
  induction hl with
  | nil => exact Iff.rfl
  | cons h _ ih => exact ih.trans (ends_of_some (hnext _ _ h)).symm

end Lib
