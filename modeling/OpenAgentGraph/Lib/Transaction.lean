/-
  Transactions.

  A program that talks to a database runs its statements on a working copy;
  `commit` makes the copy the database, and a program that ends before it
  loses the copy.  Any statement may fail (`Fate`): with any error, and
  leaving any copy behind, as a statement made of several writes does.

  `Computes m w r` says that `m`, started on the copy `w`, commits nothing
  and has the result `r` unless a statement fails; `Commits m w r` says the
  same of a program that then commits.  The second is shown by executing the
  program step by step, one rule for each kind of step, and a program of
  which it holds is atomic (`Commits.run`).
-/
import OpenAgentGraph.Lib.Except

namespace Lib

variable {σ ε α β : Type}

/-- What the engine does to a statement. -/
inductive Fate (σ ε : Type)
  | runs
  /-- It fails and leaves `torn` as the working copy. -/
  | fails (e : ε) (torn : σ)

structure Session (σ ε : Type) where
  committed : σ
  work : σ
  /-- The fates of the statements to come; after the last one, all run. -/
  fates : List (Fate σ ε)

/-- A program over a session.  An error leaves the session it happened in. -/
abbrev Tx (σ ε : Type) := EStateM ε (Session σ ε)

namespace Tx

/-- One statement, with the working copy it leaves. -/
def statement (f : σ → Except ε (α × σ)) : Tx σ ε α := fun s =>
  match s.fates with
  | .fails e torn :: fates => .error e { s with work := torn, fates := fates }
  | _ =>
    match f s.work with
    | .ok (a, work) => .ok a { s with work := work, fates := s.fates.tail }
    | .error e => .error e { s with fates := s.fates.tail }

/-- A statement that breaks no constraint. -/
def execute (f : σ → α × σ) : Tx σ ε α := statement fun s => .ok (f s)

def query (f : σ → α) : Tx σ ε α := execute fun s => (f s, s)
def update (f : σ → σ) : Tx σ ε Unit := execute fun s => ((), f s)

/-- Opens the transaction: `run` has made the working copy. -/
def begin : Tx σ ε Unit := execute fun s => ((), s)

/-- The working copy becomes the database, or the commit fails. -/
def commit : Tx σ ε Unit := fun s =>
  match s.fates with
  | .fails e _ :: fates => .error e { s with fates := fates }
  | _ => .ok () { s with committed := s.work, fates := s.fates.tail }

/-- A computation that does not touch the database. -/
def lift (x : Except ε α) : Tx σ ε α := fun s =>
  match x with
  | .ok a => .ok a s
  | .error e => .error e s

/-- Runs a program on a database: what is not committed is rolled back. -/
def run (m : Tx σ ε α) (db : σ) (fates : List (Fate σ ε)) : σ × Except ε α :=
  match m ⟨db, db, fates⟩ with
  | .ok a s => (s.committed, .ok a)
  | .error e s => (s.committed, .error e)

theorem bind_ok {m : Tx σ ε α} {k : α → Tx σ ε β} {s s' : Session σ ε} {a : α}
    (h : m s = .ok a s') : (m >>= k) s = k a s' := by
  change EStateM.bind m k s = _
  simp only [EStateM.bind, h]

theorem bind_error {m : Tx σ ε α} {k : α → Tx σ ε β} {s s' : Session σ ε} {e : ε}
    (h : m s = .error e s') : (m >>= k) s = .error e s' := by
  change EStateM.bind m k s = _
  simp only [EStateM.bind, h]

end Tx

variable {w : σ}

/-! ## Programs before their commit -/

def Computes (m : Tx σ ε α) (w : σ) (r : Except ε (α × σ)) : Prop :=
  ∀ s, s.work = w →
    (∃ e s', m s = .error e s' ∧ s'.committed = s.committed ∧ (s.fates = [] → r = .error e)) ∨
    ∃ a s', m s = .ok a s' ∧ s'.committed = s.committed ∧ r = .ok (a, s'.work) ∧
      (s.fates = [] → s'.fates = [])

theorem Computes.statement (f : σ → Except ε (α × σ)) : Computes (Tx.statement f) w (f w) := by
  rintro ⟨db, work, fates⟩ rfl
  -- a statement that runs, whatever fates are left
  have hruns : ∀ rest, (fates = [] → rest = []) →
      (Tx.statement f ⟨db, work, fates⟩ = match f work with
        | .ok (a, work) => .ok a ⟨db, work, rest⟩
        | .error e => .error e ⟨db, work, rest⟩) →
      (∃ e s', Tx.statement f ⟨db, work, fates⟩ = .error e s' ∧ s'.committed = db ∧
        (fates = [] → f work = .error e)) ∨
      ∃ a s', Tx.statement f ⟨db, work, fates⟩ = .ok a s' ∧ s'.committed = db ∧
        f work = .ok (a, s'.work) ∧ (fates = [] → s'.fates = []) := by
    intro rest hrest h
    cases hf : f work with
    | error e =>
      rw [hf] at h
      exact .inl ⟨e, _, h, rfl, fun _ => rfl⟩
    | ok r =>
      rw [hf] at h
      exact .inr ⟨r.1, _, h, rfl, rfl, hrest⟩
  rcases fates with _ | ⟨_ | ⟨e, torn⟩, fates⟩
  · exact hruns [] id rfl
  · exact hruns fates (by simp) rfl
  · exact .inl ⟨e, ⟨db, torn, fates⟩, rfl, rfl, by simp⟩

theorem Computes.lift (x : Except ε α) :
    Computes (Tx.lift x : Tx σ ε α) w (x >>= fun a => .ok (a, w)) := by
  intro s hs
  cases x with
  | error e => exact .inl ⟨e, s, rfl, rfl, fun _ => rfl⟩
  | ok a => exact .inr ⟨a, s, rfl, rfl, by rw [hs, ok_bind], id⟩

/-! ## Programs that commit -/

def Commits (m : Tx σ ε α) (w : σ) (r : Except ε (α × σ)) : Prop :=
  ∀ s, s.work = w →
    (∃ e s', m s = .error e s' ∧ s'.committed = s.committed ∧ (s.fates = [] → r = .error e)) ∨
    ∃ a s', m s = .ok a s' ∧ r = .ok (a, s'.committed)

theorem Computes.bind {m : Tx σ ε α} {k : α → Tx σ ε β} {r : Except ε (α × σ)}
    {g : α × σ → Except ε (β × σ)} (hm : Computes m w r)
    (hk : ∀ x, r = .ok x → Commits (k x.1) x.2 (g x)) : Commits (m >>= k) w (r >>= g) := by
  intro s hs
  rcases hm s hs with ⟨e, s', hs', hdb, hr⟩ | ⟨a, s', hs', hdb, hr, hfates⟩
  · refine .inl ⟨e, s', Tx.bind_error hs', hdb, fun hnil => ?_⟩
    rw [hr hnil]
    rfl
  · rw [hr, ok_bind]
    rcases hk _ hr s' rfl with ⟨e, s'', hs'', hdb', hg⟩ | ⟨b, s'', hs'', hg⟩
    · exact .inl ⟨e, s'', (Tx.bind_ok hs').trans hs'', hdb'.trans hdb,
        fun hnil => hg (hfates hnil)⟩
    · exact .inr ⟨b, s'', (Tx.bind_ok hs').trans hs'', hg⟩

section rules

variable {r : Except ε (β × σ)}

theorem Commits.statement {f : σ → Except ε (α × σ)} {k : α → Tx σ ε β}
    {g : α × σ → Except ε (β × σ)} (hk : ∀ x, f w = .ok x → Commits (k x.1) x.2 (g x)) :
    Commits (Tx.statement f >>= k) w (f w >>= g) := (Computes.statement f).bind hk

/-- A statement that computes `x` and writes what follows from it. -/
theorem Commits.write {γ : Type} {x : σ → Except ε γ} {p : σ → γ → α × σ} {k : α → Tx σ ε β}
    {g : γ → Except ε (β × σ)} (hk : ∀ c, Commits (k (p w c).1) (p w c).2 (g c)) :
    Commits ((Tx.statement fun s => x s >>= fun c => pure (p s c)) >>= k) w (x w >>= g) := by
  cases hx : x w with
  | error e =>
    have h : Commits ((Tx.statement fun s => x s >>= fun c => pure (p s c)) >>= k) w
        ((x w >>= fun c => pure (p w c)) >>= fun _ => .error e) := by
      refine Commits.statement ?_
      intro y hy
      rw [hx] at hy
      cases hy
    rw [hx] at h
    exact h
  | ok c =>
    have h : Commits ((Tx.statement fun s => x s >>= fun c => pure (p s c)) >>= k) w
        ((x w >>= fun c => pure (p w c)) >>= fun _ => g c) := by
      refine Commits.statement ?_
      intro y hy
      rw [hx] at hy
      obtain rfl : p w c = y := Except.ok.inj hy
      exact hk c
    rw [hx] at h
    exact h

theorem Commits.execute {f : σ → α × σ} {k : α → Tx σ ε β} (hk : Commits (k (f w).1) (f w).2 r) :
    Commits (Tx.execute f >>= k) w r := by
  have h : Commits (Tx.execute f >>= k) w (.ok (f w) >>= fun _ => r) := by
    refine Commits.statement ?_
    intro x hx
    obtain rfl : f w = x := Except.ok.inj hx
    exact hk
  exact h

theorem Commits.query {f : σ → α} {k : α → Tx σ ε β} (hk : Commits (k (f w)) w r) :
    Commits (Tx.query f >>= k) w r := Commits.execute hk

theorem Commits.update {f : σ → σ} {k : Unit → Tx σ ε β} (hk : Commits (k ()) (f w) r) :
    Commits (Tx.update f >>= k) w r := Commits.execute hk

theorem Commits.begin {k : Unit → Tx σ ε β} (hk : Commits (k ()) w r) :
    Commits (Tx.begin >>= k) w r := Commits.execute hk

theorem Commits.lift {x : Except ε α} {k : α → Tx σ ε β} {g : α → Except ε (β × σ)}
    (hk : ∀ a, x = .ok a → Commits (k a) w (g a)) : Commits (Tx.lift x >>= k) w (x >>= g) := by
  have h : Commits (Tx.lift x >>= k) w ((x >>= fun a => .ok (a, w)) >>= fun y => g y.1) := by
    refine (Computes.lift x).bind ?_
    rintro y hy
    obtain ⟨a, ha, hy⟩ := bind_ok.1 hy
    obtain rfl : (a, w) = y := Except.ok.inj hy
    exact hk a ha
  cases x with
  | error e => exact h
  | ok a => exact h

theorem Commits.throw (e : ε) : Commits (Tx.lift (.error e) : Tx σ ε β) w (.error e) :=
  fun s _ => .inl ⟨e, s, rfl, rfl, fun _ => rfl⟩

theorem Commits.commit (a : α) : Commits (do Tx.commit; return a : Tx σ ε α) w (.ok (a, w)) := by
  rintro ⟨db, work, fates⟩ rfl
  rcases fates with _ | ⟨_ | ⟨e, torn⟩, fates⟩
  · exact .inr ⟨a, ⟨work, work, []⟩, rfl, rfl⟩
  · exact .inr ⟨a, ⟨work, work, fates⟩, rfl, rfl⟩
  · exact .inl ⟨e, ⟨db, work, fates⟩, rfl, rfl, by simp⟩

/-- The last statement of a program without a result. -/
theorem Commits.last (f : σ → Except ε (Unit × σ)) :
    Commits (do Tx.statement f; Tx.commit; return () : Tx σ ε Unit) w (f w) := by
  have h : Commits (do Tx.statement f; Tx.commit; return () : Tx σ ε Unit) w (f w >>= pure) := by
    refine Commits.statement ?_
    rintro ⟨⟨⟩, w'⟩ _
    exact Commits.commit ()
  rwa [bind_pure (f w)] at h

end rules

/-- **Atomicity.**  A program that commits at its end leaves the database as
    it was and reports an error, or has its result; where no statement fails
    it has its result. -/
theorem Commits.run {m : Tx σ ε α} {db : σ} {r : Except ε (α × σ)} (h : Commits m db r)
    (fates : List (Fate σ ε)) :
    (∃ e, m.run db fates = (db, .error e) ∧ (fates = [] → r = .error e)) ∨
    ∃ a db', m.run db fates = (db', .ok a) ∧ r = .ok (a, db') := by
  rcases h ⟨db, db, fates⟩ rfl with ⟨e, s', hs', hdb, hr⟩ | ⟨a, s', hs', hr⟩
  · refine .inl ⟨e, ?_, hr⟩
    simp only [Tx.run, hs', hdb]
  · refine .inr ⟨a, s'.committed, ?_, hr⟩
    simp only [Tx.run, hs']

end Lib
