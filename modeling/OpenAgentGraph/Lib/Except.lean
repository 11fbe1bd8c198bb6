/-
  Taking a computation that may fail apart, once it is known to succeed.
-/
import Mathlib

namespace Lib

variable {ε α β : Type}

/-- A sequence succeeds when its first part does and the rest does on its result. -/
theorem bind_ok {x : Except ε α} {f : α → Except ε β} {b : β} :
    (x >>= f) = .ok b ↔ ∃ a, x = .ok a ∧ f a = .ok b := by
  cases x with
  | error e => simp [bind, Except.bind]
  | ok a => simp [bind, Except.bind]

theorem ok_bind (a : α) (f : α → Except ε β) : (Except.ok a >>= f) = f a := rfl

theorem map_ok {x : Except ε α} {f : α → β} {b : β} :
    (f <$> x) = .ok b ↔ ∃ a, x = .ok a ∧ f a = b := by
  cases x with
  | error e => simp [Functor.map, Except.map]
  | ok a => simp [Functor.map, Except.map]

theorem pure_ok {a b : α} : (pure a : Except ε α) = .ok b ↔ a = b := by
  simp [pure, Except.pure]

/-- An early exit that was not taken. -/
theorem guard_ok {c : Prop} [Decidable c] {e : ε} {k : α → Except ε β} {x : Except ε β} {b : β} :
    (if c then (throw e >>= k) else x) = .ok b ↔ ¬ c ∧ x = .ok b := by
  split
  · rename_i hc
    simp [throw, throwThe, MonadExceptOf.throw, bind, Except.bind, hc]
  · rename_i hc
    simp [hc]

theorem toOption_eq_some {x : Except ε α} {a : α} : x.toOption = some a ↔ x = .ok a := by
  cases x with
  | error e => simp [Except.toOption]
  | ok b => simp [Except.toOption]

theorem mapError_ok {ε' : Type} {x : Except ε α} {f : ε → ε'} {a : α} :
    x.mapError f = .ok a ↔ x = .ok a := by
  cases x with
  | error e => simp [Except.mapError]
  | ok b => simp [Except.mapError]

/-- An optional value that is required. -/
theorem elim_ok {o : Option α} {e : ε} {a : α} :
    o.elim (.error e) (.ok : α → Except ε α) = .ok a ↔ o = some a := by
  cases o with
  | none => simp
  | some b => simp

theorem mapM_ok {f : α → Except ε β} {g : α → β} {l : List α} (h : ∀ a ∈ l, f a = .ok (g a)) :
    l.mapM f = .ok (l.map g) := by
  induction l with
  | nil => rfl
  | cons a l ih =>
    rw [List.mapM_cons, h a (List.mem_cons_self ..), ih fun b hb => h b (List.mem_cons_of_mem _ hb)]
    rfl

theorem of_mapM_ok {f : α → Except ε β} {l : List α} {l' : List β} (h : l.mapM f = .ok l') :
    l'.length = l.length ∧ ∀ b ∈ l', ∃ a ∈ l, f a = .ok b := by
  induction l generalizing l' with
  | nil =>
    obtain rfl : [] = l' := Except.ok.inj h
    exact ⟨rfl, fun b hb => by cases hb⟩
  | cons a l ih =>
    rw [List.mapM_cons, bind_ok] at h
    obtain ⟨b, hb, h⟩ := h
    rw [bind_ok] at h
    obtain ⟨bs, hbs, h⟩ := h
    obtain rfl : b :: bs = l' := Except.ok.inj h
    obtain ⟨hlen, hmem⟩ := ih hbs
    refine ⟨by rw [List.length_cons, List.length_cons, hlen], fun b' hb' => ?_⟩
    rcases List.mem_cons.1 hb' with rfl | hb'
    · exact ⟨a, List.mem_cons_self .., hb⟩
    · obtain ⟨a', ha', hfa⟩ := hmem b' hb'
      exact ⟨a', List.mem_cons_of_mem _ ha', hfa⟩

/-- Where every step succeeds with a value of its own, so does the whole. -/
theorem exists_mapM_ok {f : α → Except ε β} {R : α → β → Prop} {l : List α}
    (h : ∀ a ∈ l, ∃ b, f a = .ok b ∧ R a b) : ∃ l', l.mapM f = .ok l' ∧ List.Forall₂ R l l' := by
  induction l with
  | nil => exact ⟨[], rfl, .nil⟩
  | cons a l ih =>
    obtain ⟨b, hb, hab⟩ := h a (List.mem_cons_self ..)
    obtain ⟨bs, hbs, hall⟩ := ih fun a' ha' => h a' (List.mem_cons_of_mem _ ha')
    refine ⟨b :: bs, ?_, .cons hab hall⟩
    rw [List.mapM_cons, hb, hbs]
    rfl

end Lib
