/-
  Steps that each happen whole or not at all, one after the other, until one
  fails.

  What the steps before the failure did stays done.  So a loop over such steps
  fails in one way only: some prefix of the list ran, and the next step failed
  in the state that the prefix left (`runSteps_cases`).
-/
import Mathlib.Tactic.Common

namespace Lib

variable {σ α ε : Type}

/-- Runs the steps of a list from the `n`-th on, with the state that the last
    one left. -/
def runSteps (f : ℕ → σ → α → Except ε σ) : ℕ → σ → List α → σ × Except ε Unit
  | _, s, [] => (s, .ok ())
  | n, s, a :: as =>
    match f n s a with
    | .ok s' => runSteps f (n + 1) s' as
    | .error e => (s, .error e)

variable {f : ℕ → σ → α → Except ε σ} {n : ℕ} {s s' : σ} {a : α} {as bs : List α} {e : ε}

theorem runSteps_cons_ok (h : f n s a = .ok s') :
    runSteps f n s (a :: as) = runSteps f (n + 1) s' as := by
  rw [runSteps, h]

theorem runSteps_cons_error (h : f n s a = .error e) : runSteps f n s (a :: as) = (s, .error e) := by
  rw [runSteps, h]

theorem runSteps_append (h : runSteps f n s as = (s', .ok ())) :
    runSteps f n s (as ++ bs) = runSteps f (n + as.length) s' bs := by
  induction as generalizing n s with
  | nil =>
    cases h
    rfl
  | cons a as ih =>
    cases hf : f n s a with
    | error e =>
      rw [runSteps_cons_error hf] at h
      cases h
    | ok s₁ =>
      rw [runSteps_cons_ok hf] at h
      rw [List.cons_append, runSteps_cons_ok hf, ih h, List.length_cons, Nat.add_right_comm, Nat.add_assoc]

/-- A loop ends, or a prefix of it does and the step after that fails. -/
theorem runSteps_cases (f : ℕ → σ → α → Except ε σ) (n : ℕ) (s : σ) (as : List α) :
    (∃ s', runSteps f n s as = (s', .ok ())) ∨
      ∃ good bad rest s' e, as = good ++ bad :: rest ∧ runSteps f n s good = (s', .ok ()) ∧
        f (n + good.length) s' bad = .error e ∧ runSteps f n s as = (s', .error e) := by
  induction as generalizing n s with
  | nil => exact Or.inl ⟨s, rfl⟩
  | cons a as ih =>
    cases hf : f n s a with
    | error e => exact Or.inr ⟨[], a, as, s, e, rfl, rfl, hf, runSteps_cons_error hf⟩
    | ok s₁ =>
      rw [runSteps_cons_ok hf]
      rcases ih (n + 1) s₁ with hok | ⟨good, bad, rest, s', e, has, hgood, hbad, hrun⟩
      · exact Or.inl hok
      · refine Or.inr ⟨a :: good, bad, rest, s', e, by rw [has]; rfl, ?_, ?_, hrun⟩
        · rw [runSteps_cons_ok hf, hgood]
        · rw [List.length_cons, ← hbad, Nat.add_right_comm, Nat.add_assoc]

/-- **Invariant rule.**  What every step that succeeds keeps holds of the state
    that a loop leaves, and each element was one that its step accepts. -/
theorem runSteps_induction {I : ℕ → σ → Prop} {A : α → Prop}
    (hstep : ∀ n s a s', I n s → f n s a = .ok s' → I (n + 1) s' ∧ A a) (h : I n s)
    (hrun : runSteps f n s as = (s', .ok ())) : I (n + as.length) s' ∧ ∀ a ∈ as, A a := by
  induction as generalizing n s with
  | nil =>
    cases hrun
    exact ⟨h, fun _ ha => absurd ha List.not_mem_nil⟩
  | cons a as ih =>
    cases hf : f n s a with
    | error e =>
      rw [runSteps_cons_error hf] at hrun
      cases hrun
    | ok s₁ =>
      rw [runSteps_cons_ok hf] at hrun
      obtain ⟨hI, hA⟩ := hstep n s a s₁ h hf
      obtain ⟨hend, hall⟩ := ih hI hrun
      refine ⟨?_, ?_⟩
      · rwa [List.length_cons, Nat.add_comm as.length, ← Nat.add_assoc]
      · rintro b (_ | ⟨_, hb⟩)
        · exact hA
        · exact hall b hb

/-- **Invariant rule, on either exit.** -/
theorem runSteps_keeps {I : σ → Prop} (hstep : ∀ n s a s', I s → f n s a = .ok s' → I s') (n : ℕ)
    (h : I s) (as : List α) : I (runSteps f n s as).1 := by
  induction as generalizing n s with
  | nil => exact h
  | cons a as ih =>
    cases hf : f n s a with
    | error e =>
      rw [runSteps_cons_error hf]
      exact h
    | ok s' =>
      rw [runSteps_cons_ok hf]
      exact ih (n + 1) (hstep n s a s' h hf)

/-- **Progress rule.**  A loop whose steps cannot fail ends. -/
theorem runSteps_progress {I : ℕ → σ → Prop} {A : α → Prop}
    (hstep : ∀ n s a s', I n s → f n s a = .ok s' → I (n + 1) s' ∧ A a)
    (hok : ∀ m s a, a ∈ as → m < n + as.length → I m s → ∃ s', f m s a = .ok s') (h : I n s) :
    ∃ s', runSteps f n s as = (s', .ok ()) := by
  rcases runSteps_cases f n s as with hend | ⟨good, bad, rest, s', e, rfl, hgood, hbad, -⟩
  · exact hend
  · have hI := (runSteps_induction hstep h hgood).1
    obtain ⟨s'', hs''⟩ := hok (n + good.length) s' bad (by simp) (by simp) hI
    rw [hs''] at hbad
    cases hbad

end Lib
