/-
  Programs that run against an environment, may fail, and record what they
  send.

  `Sends k ok m Q`: run from any state, `m` records at most `k` more messages,
  each of which is `ok`, and a value that it returns satisfies `Q`.  There is a
  rule for each way to build a program.
-/
import Mathlib

namespace Lib.Sending

variable {Ω S ε ε' α β : Type}

/-- A program over the state `Ω` of an environment that it asks and changes;
    it records messages of type `S`. -/
abbrev Program (Ω S ε α : Type) := ExceptT ε (StateM (Ω × List S)) α

/-- A question to the environment. -/
def call (f : Ω → α × Ω) : Program Ω S ε α := fun w => (.ok (f w.1).1, (f w.1).2, w.2)

def record (x : S) : Program Ω S ε Unit := fun w => (.ok (), w.1, w.2 ++ [x])

/-- A computation that neither asks nor sends. -/
def settle (r : Except ε α) : Program Ω S ε α := fun w => (r, w)

/-- `ok_or`. -/
def okOr (e : ε) (o : Option α) : Program Ω S ε α := settle (o.elim (.error e) .ok)

/-- `map_err`. -/
def mapError (f : ε → ε') (m : Program Ω S ε α) : Program Ω S ε' α := fun w =>
  ((m w).1.mapError f, (m w).2)

theorem bind_eq (m : Program Ω S ε α) (f : α → Program Ω S ε β) (w : Ω × List S) :
    (m >>= f) w = match (m w).1 with
      | .ok a => f a (m w).2
      | .error e => (.error e, (m w).2) := by
  show (ExceptT.bindCont f (m w).1) (m w).2 = _
  cases (m w).1 <;> rfl

theorem bind_of_ok {m : Program Ω S ε α} {w w' : Ω × List S} {a : α} (h : m w = (.ok a, w'))
    (f : α → Program Ω S ε β) : (m >>= f) w = f a w' := by rw [bind_eq, h]

theorem bind_of_error {m : Program Ω S ε α} {w w' : Ω × List S} {e : ε} (h : m w = (.error e, w'))
    (f : α → Program Ω S ε β) : (m >>= f) w = (.error e, w') := by rw [bind_eq, h]

def Sends (k : ℕ) (ok : S → Prop) (m : Program Ω S ε α) (Q : α → Prop) : Prop :=
  ∀ w, ∃ new, (m w).2.2 = w.2 ++ new ∧ new.length ≤ k ∧ (∀ x ∈ new, ok x) ∧
    ∀ a, (m w).1 = .ok a → Q a

variable {k l : ℕ} {ok : S → Prop} {m : Program Ω S ε α} {Q : α → Prop} {R : β → Prop}

theorem Sends.mono {Q' : α → Prop} (h : Sends k ok m Q) (hk : k ≤ l) (hQ : ∀ a, Q a → Q' a) :
    Sends l ok m Q' := by
  intro w
  obtain ⟨new, hnew, hlen, hok, hres⟩ := h w
  exact ⟨new, hnew, hlen.trans hk, hok, fun a ha => hQ a (hres a ha)⟩

theorem Sends.of_pure {a : α} (h : Q a) : Sends 0 ok (pure a : Program Ω S ε α) Q := by
  intro w
  refine ⟨[], (List.append_nil _).symm, le_rfl, by simp, ?_⟩
  rintro b hb
  cases hb
  exact h

theorem Sends.of_throw {e : ε} : Sends 0 ok (throw e : Program Ω S ε α) Q := by
  intro w
  refine ⟨[], (List.append_nil _).symm, le_rfl, by simp, ?_⟩
  rintro b hb
  cases hb

theorem Sends.of_call {f : Ω → α × Ω} (h : ∀ ω, Q (f ω).1) :
    Sends 0 ok (call f : Program Ω S ε α) Q := by
  intro w
  refine ⟨[], (List.append_nil _).symm, le_rfl, by simp, ?_⟩
  rintro b hb
  cases hb
  exact h w.1

theorem Sends.of_record {x : S} (h : ok x) :
    Sends 1 ok (record x : Program Ω S ε Unit) fun _ => True := by
  intro w
  refine ⟨[x], rfl, le_rfl, ?_, fun _ _ => trivial⟩
  intro y hy
  rw [List.mem_singleton.1 hy]
  exact h

theorem Sends.of_mapError {f : ε → ε'} (h : Sends k ok m Q) : Sends k ok (mapError f m) Q := by
  intro w
  obtain ⟨new, hnew, hlen, hok, hres⟩ := h w
  refine ⟨new, hnew, hlen, hok, fun a ha => hres a ?_⟩
  simp only [mapError] at ha
  cases hr : (m w).1 with
  | ok b =>
    rw [hr] at ha
    cases ha
    rfl
  | error e =>
    rw [hr] at ha
    cases ha

/-- What the second program sends comes after what the first one sent. -/
theorem Sends.bind {f : α → Program Ω S ε β} (h : Sends k ok m Q)
    (hf : ∀ a, Q a → Sends l ok (f a) R) : Sends (k + l) ok (m >>= f) R := by
  intro w
  obtain ⟨new, hnew, hlen, hok, hres⟩ := h w
  rw [bind_eq]
  cases hr : (m w).1 with
  | error e => exact ⟨new, hnew, by omega, hok, fun a ha => (by cases ha)⟩
  | ok a =>
    obtain ⟨new', hnew', hlen', hok', hres'⟩ := hf a (hres a hr) (m w).2
    refine ⟨new ++ new', ?_, ?_, ?_, hres'⟩
    · rw [hnew', hnew, List.append_assoc]
    · rw [List.length_append]
      omega
    · intro x hx
      rcases List.mem_append.1 hx with hx | hx
      · exact hok x hx
      · exact hok' x hx

/-- A program that sends nothing. -/
theorem Sends.silent_bind {f : α → Program Ω S ε β} (h : Sends 0 ok m Q)
    (hf : ∀ a, Q a → Sends l ok (f a) R) : Sends l ok (m >>= f) R :=
  (h.bind hf).mono (Nat.zero_add l).le fun _ hb => hb

theorem Sends.of_settle {r : Except ε α} (h : ∀ a, r = .ok a → Q a) :
    Sends 0 ok (settle r : Program Ω S ε α) Q :=
  fun _ => ⟨[], (List.append_nil _).symm, le_rfl, by simp, h⟩

theorem Sends.of_okOr {e : ε} {o : Option α} :
    Sends 0 ok (okOr e o : Program Ω S ε α) fun _ => True :=
  Sends.of_settle fun _ _ => trivial

/-! ## Loops -/

/-- How a round of a loop ends: with the state of the next one, or a result. -/
inductive Round (α β : Type)
  | again (a : α)
  | done (b : β)

/-- At most `left` rounds, counted from `round`; `exhausted` if none of them is
    the last. -/
def loop (body : ℕ → α → Program Ω S ε (Round α β)) (exhausted : ε) :
    (left round : ℕ) → α → Program Ω S ε β
  | 0, _, _ => throw exhausted
  | left + 1, round, a => do
    match ← body round a with
    | .again a => loop body exhausted left (round + 1) a
    | .done b => return b

/-- A loop whose rounds send one message at most sends one for each round. -/
theorem Sends.of_loop {body : ℕ → α → Program Ω S ε (Round α β)} {exhausted : ε}
    (hbody : ∀ round a, Sends 1 ok (body round a) fun r => ∀ b, r = .done b → R b)
    (left round : ℕ) (a : α) : Sends left ok (loop body exhausted left round a) R := by
  induction left generalizing round a with
  | zero => exact Sends.of_throw
  | succ left ih =>
    rw [loop, Nat.add_comm]
    refine (hbody round a).bind fun r hr => ?_
    cases r with
    | again a => exact ih (round + 1) a
    | done b => exact (Sends.of_pure (hr b rfl)).mono (Nat.zero_le left) fun _ h => h

end Lib.Sending
