/-
  Triples for programs that run against an environment.

  `Triple I m Q E`: from a state in `I`, a run of `m` that returns `a` ends in a
  state in `Q a`, and one that fails with `e` ends in a state in `E e`.  Nothing
  is said of what is recorded.  There is a rule for each way to build a program.
-/
import OpenAgentGraph.Lib.Sending

namespace Lib.Sending

variable {Ω T S ε ε' α β : Type}

/-! ## More programs -/

/-- The outcome of a program as a value: the caller goes on after a failure. -/
def attempt (m : Program Ω S ε α) : Program Ω S ε' (Except ε α) := fun w => (.ok (m w).1, (m w).2)

/-- A program on the first part of the state. -/
def onFirst (m : Program Ω S ε α) : Program (Ω × T) S ε α := fun w =>
  ((m (w.1.1, w.2)).1, ((m (w.1.1, w.2)).2.1, w.1.2), (m (w.1.1, w.2)).2.2)

/-- An operation on the second part of the state, which it leaves on either
    exit. -/
def onSecond (f : T → T × Except ε α) : Program (Ω × T) S ε α := fun w =>
  ((f w.1.2).2, (w.1.1, (f w.1.2).1), w.2)

/-! ## Triples -/

def Triple (I : Ω → Prop) (m : Program Ω S ε α) (Q : α → Ω → Prop) (E : ε → Ω → Prop) : Prop :=
  ∀ w, I w.1 → (∀ a, (m w).1 = .ok a → Q a (m w).2.1) ∧ ∀ e, (m w).1 = .error e → E e (m w).2.1

variable {I J : Ω → Prop} {m : Program Ω S ε α} {Q Q' : α → Ω → Prop} {R : β → Ω → Prop}
  {E E' : ε → Ω → Prop}

theorem Triple.mono (h : Triple I m Q E) (hI : ∀ x, J x → I x) (hQ : ∀ a x, Q a x → Q' a x)
    (hE : ∀ e x, E e x → E' e x) : Triple J m Q' E' := by
  intro w hw
  obtain ⟨hok, herror⟩ := h w (hI _ hw)
  exact ⟨fun a ha => hQ a _ (hok a ha), fun e he => hE e _ (herror e he)⟩

/-- A precondition that does not depend on the state. -/
theorem Triple.of_and {p : Prop} (h : p → Triple I m Q E) : Triple (fun x => p ∧ I x) m Q E :=
  fun w hw => h hw.1 w hw.2

theorem Triple.of_pure {a : α} (h : ∀ x, I x → Q a x) : Triple I (pure a : Program Ω S ε α) Q E := by
  intro w hw
  refine ⟨?_, ?_⟩
  · rintro b ⟨⟩
    exact h _ hw
  · rintro e ⟨⟩

theorem Triple.of_throw {e : ε} (h : ∀ x, I x → E e x) : Triple I (throw e : Program Ω S ε α) Q E := by
  intro w hw
  refine ⟨?_, ?_⟩
  · rintro b ⟨⟩
  · rintro e' ⟨⟩
    exact h _ hw

theorem Triple.of_call {f : Ω → α × Ω} (h : ∀ x, I x → Q (f x).1 (f x).2) :
    Triple I (call f : Program Ω S ε α) Q E := by
  intro w hw
  refine ⟨?_, ?_⟩
  · rintro b ⟨⟩
    exact h _ hw
  · rintro e ⟨⟩

theorem Triple.of_settle {r : Except ε α} (hok : ∀ a, r = .ok a → ∀ x, I x → Q a x)
    (herror : ∀ e, r = .error e → ∀ x, I x → E e x) : Triple I (settle r : Program Ω S ε α) Q E :=
  fun _ hw => ⟨fun a ha => hok a ha _ hw, fun e he => herror e he _ hw⟩

theorem Triple.of_mapError {f : ε → ε'} {E' : ε' → Ω → Prop} (h : Triple I m Q fun e x => E' (f e) x) :
    Triple I (mapError f m) Q E' := by
  intro w hw
  obtain ⟨hok, herror⟩ := h w hw
  cases hr : (m w).1 with
  | ok a =>
    simp only [mapError, hr]
    refine ⟨?_, ?_⟩
    · rintro b ⟨⟩
      exact hok a hr
    · rintro e ⟨⟩
  | error e =>
    simp only [mapError, hr]
    refine ⟨?_, ?_⟩
    · rintro b ⟨⟩
    · rintro e' ⟨⟩
      exact herror e hr

theorem Triple.of_attempt {Q' : Except ε α → Ω → Prop} {E' : ε' → Ω → Prop}
    (h : Triple I m (fun a => Q' (.ok a)) fun e => Q' (.error e)) : Triple I (attempt m) Q' E' := by
  intro w hw
  obtain ⟨hok, herror⟩ := h w hw
  refine ⟨?_, ?_⟩
  · rintro r ⟨⟩
    show Q' (m w).1 (m w).2.1
    cases hr : (m w).1 with
    | ok a => exact hok a hr
    | error e => exact herror e hr
  · rintro e ⟨⟩

theorem Triple.bind {f : α → Program Ω S ε β} (h : Triple I m Q E) (hf : ∀ a, Triple (Q a) (f a) R E) :
    Triple I (m >>= f) R E := by
  intro w hw
  obtain ⟨hok, herror⟩ := h w hw
  rw [bind_eq]
  cases hr : (m w).1 with
  | ok a => exact hf a _ (hok a hr)
  | error e =>
    refine ⟨?_, ?_⟩
    · rintro b ⟨⟩
    · rintro e' ⟨⟩
      exact herror e hr

/-- A program that is known to return. -/
theorem Triple.of_ok (h : ∀ w, I w.1 → ∃ a w', m w = (.ok a, w') ∧ Q a w'.1) : Triple I m Q E := by
  intro w hw
  obtain ⟨a, w', hm, hQ⟩ := h w hw
  rw [hm]
  refine ⟨?_, ?_⟩
  · rintro b ⟨⟩
    exact hQ
  · rintro e ⟨⟩

/-- A loop over a list whose body keeps an invariant. -/
theorem Triple.of_foldlM {γ : Type} {f : β → γ → Program Ω S ε β} {l : List γ}
    (hf : ∀ b, ∀ x ∈ l, Triple I (f b x) (fun _ => I) E) (b : β) :
    Triple I (l.foldlM f b) (fun _ => I) E := by
  induction l generalizing b with
  | nil => exact Triple.of_pure fun _ h => h
  | cons x l ih =>
    rw [List.foldlM_cons]
    exact (hf b x List.mem_cons_self).bind fun b' => ih (fun b y hy => hf b y (List.mem_cons_of_mem _ hy)) b'

theorem Triple.any (m : Program Ω S ε α) : Triple (fun _ => True) m (fun _ _ => True) fun _ _ => True :=
  fun _ _ => ⟨fun _ _ => True.intro, fun _ _ => True.intro⟩

/-- What holds of the result of every last round holds of that of a loop. -/
theorem Triple.of_loop {T : Type} {body : ℕ → T → Program Ω S ε (Round T β)} {V : β → Prop}
    (h : ∀ n a, Triple (fun _ => True) (body n a) (fun r _ => ∀ b, r = .done b → V b) fun _ _ => True)
    (exhausted : ε) (left round : ℕ) (a : T) :
    Triple (fun _ => True) (loop body exhausted left round a) (fun b _ => V b) fun _ _ => True := by
  induction left generalizing round a with
  | zero => exact Triple.of_throw fun _ _ => True.intro
  | succ left ih =>
    refine (h round a).bind fun r => ?_
    cases r with
    | again a => exact (ih _ a).mono (fun _ _ => True.intro) (fun _ _ h => h) fun _ _ h => h
    | done b => exact Triple.of_pure fun _ hb => hb b rfl

/-! ## The parts of a state -/

/-- It holds of the second part. -/
def OnSecond (I : T → Prop) (x : Ω × T) : Prop := I x.2

/-- A program on the first part leaves what holds of the second. -/
theorem Triple.of_onFirst {m : Program Ω S ε α} {V : α → Prop} {F : ε → Prop} {I : T → Prop}
    {Q : α → T → Prop} {E : ε → T → Prop} (h : Triple (fun _ => True) m (fun a _ => V a) fun e _ => F e)
    (hQ : ∀ a t, V a → I t → Q a t) (hE : ∀ e t, F e → I t → E e t) :
    Triple (OnSecond I) (onFirst m) (fun a => OnSecond (Q a)) fun e => OnSecond (E e) := by
  intro w hw
  obtain ⟨hok, herror⟩ := h (w.1.1, w.2) trivial
  exact ⟨fun a ha => hQ a _ (hok a ha) hw, fun e he => hE e _ (herror e he) hw⟩

theorem Triple.of_onSecond {f : T → T × Except ε α} {I : T → Prop} {Q : α → T → Prop} {E : ε → T → Prop}
    (hok : ∀ t a, I t → (f t).2 = .ok a → Q a (f t).1)
    (herror : ∀ t e, I t → (f t).2 = .error e → E e (f t).1) :
    Triple (OnSecond I) (onSecond f : Program (Ω × T) S ε α) (fun a => OnSecond (Q a))
      fun e => OnSecond (E e) :=
  fun _ hw => ⟨fun a ha => hok _ a hw ha, fun e he => herror _ e hw he⟩

end Lib.Sending
