/-
  Ingestion is atomic and idempotent.

  The statements of `ingest_remote_event` compute `ingestRemoteEvent` and
  commit once, at the end of the branch they take (`ingest_commits`).  So
  whatever statement fails, the database is the one before or the one that
  the pure function returns.  An event that was applied stays at its place in
  the log, where a second offer finds it.
-/
import OpenAgentGraph.Events.Transaction
import OpenAgentGraph.Proof.Database

namespace OpenAgentGraph

open Lib Repo
open scoped List

variable {H : Type}

/-! ## The transaction and the function it computes -/

/-- The result of `ingestRemoteEvent` in the order of a transaction's. -/
def swapped (r : Except EventsError (Store H × IngestOutcome H)) :
    Except EventsError (IngestOutcome H × Store H) := Prod.swap <$> r

theorem swapped_bind {α : Type} (x : Except EventsError α)
    (f : α → Except EventsError (Store H × IngestOutcome H)) :
    swapped (x >>= f) = x >>= fun a => swapped (f a) := by
  cases x <;> rfl

theorem swapped_ok {r : Except EventsError (Store H × IngestOutcome H)} {s : Store H}
    {o : IngestOutcome H} (h : swapped r = .ok (o, s)) : r = .ok (s, o) := by
  obtain ⟨x, hx, hswap⟩ := map_ok.1 h
  obtain rfl : x = (s, o) := Prod.swap_inj.1 hswap
  exact hx

variable [DecidableEq H] {P : Prims H}

theorem ingestAtTaken_commits (s : Store H) (key : P.VerifyingKey) (signed : SignedEvent)
    {origin existing eventId : H} (hne : existing ≠ eventId) (receivedAt : Int64) :
    Commits (P.ingestAtTaken key signed origin existing eventId receivedAt) s
      (swapped (P.recordForkOf s key signed origin existing eventId receivedAt >>= fun s' =>
        pure (s', .forked existing eventId))) := by
  simp only [Prims.ingestAtTaken, Prims.recordForkOf, if_neg hne, bind_assoc, swapped_bind]
  refine .update ?_
  refine .lift fun json _ => ?_
  refine .update ?_
  refine .update ?_
  exact .commit _

theorem ingestAtFree_commits (s : Store H) (signed : SignedEvent) (origin eventId : H)
    (previousEvent : Option H) (receivedAt : Int64) :
    Commits (P.ingestAtFree signed origin eventId previousEvent receivedAt) s
      (swapped (P.applyRemoteEvent s signed eventId origin previousEvent receivedAt >>= fun r =>
        pure (r.1, .applied eventId r.2))) := by
  simp only [Prims.ingestAtFree, Prims.applyRemoteEvent, bind_assoc, swapped_bind]
  refine .query ?_
  refine .lift fun _ _ => ?_
  refine .lift fun canonical _ => ?_
  refine .lift fun signature _ => ?_
  refine .write fun inserted => ?_
  refine .write fun projected => ?_
  refine .update ?_
  exact .commit _

/-- **The statements compute `ingestRemoteEvent`** and commit what it returns. -/
theorem ingest_commits (s : Store H) (key : P.VerifyingKey) (signed : SignedEvent)
    (receivedAt : Int64) :
    Commits (P.ingestTransaction key signed receivedAt) s
      (swapped (P.ingestRemoteEvent s key signed receivedAt)) := by
  simp only [Prims.ingestTransaction, Prims.ingestRemoteEvent, swapped_bind]
  refine .lift fun eventId _ => ?_
  refine .lift fun claimed _ => ?_
  by_cases hkey : claimed ≠ P.peerIdOfKey key
  · rw [if_pos hkey, if_pos hkey]
    exact .throw _
  · rw [if_neg hkey, if_neg hkey, swapped_bind]
    refine .lift fun previous _ => ?_
    refine .begin ?_
    refine .query ?_
    cases findEventIdAt s.events claimed signed.unsigned.sequence.toInt64 with
    | none => exact ingestAtFree_commits s signed claimed eventId previous receivedAt
    | some existing =>
      by_cases hid : existing = eventId
      · subst hid
        simp only [Prims.ingestAtTaken, if_pos]
        exact .commit _
      · simp only [if_neg hid]
        exact ingestAtTaken_commits s key signed hid receivedAt

/-- What a transaction leaves: an error and the old database, or what the
    function returns.  Without a failing statement it is the function. -/
theorem ingest_run (s : Store H) (key : P.VerifyingKey) (signed : SignedEvent) (receivedAt : Int64)
    (fates : List (Fate (Store H) EventsError)) :
    (∃ e, (P.ingestTransaction key signed receivedAt).run s fates = (s, .error e) ∧
      (fates = [] → P.ingestRemoteEvent s key signed receivedAt = .error e)) ∨
    ∃ o s', (P.ingestTransaction key signed receivedAt).run s fates = (s', .ok o) ∧
      P.ingestRemoteEvent s key signed receivedAt = .ok (s', o) := by
  rcases (ingest_commits s key signed receivedAt).run fates with ⟨e, he, hpure⟩ | ⟨o, s', hs', ho⟩
  · refine .inl ⟨e, he, fun hnil => ?_⟩
    have h := hpure hnil
    cases hr : P.ingestRemoteEvent s key signed receivedAt with
    | error e' =>
      rw [hr] at h
      cases h
      rfl
    | ok r =>
      rw [hr] at h
      cases h
  · exact .inr ⟨o, s', hs', swapped_ok ho⟩

/-! ## Forks -/

/-- Only rows of one peer in `peers` and `peer_forks` differ. -/
structure ForkOnly (origin : H) (s s' : Store H) : Prop where
  eq : s' = { s with peers := s'.peers, peerForks := s'.peerForks }
  peers : s'.peers.filter (fun r => decide (r.peerId ≠ origin))
    = s.peers.filter fun r => decide (r.peerId ≠ origin)
  forks : s'.peerForks.filter (fun r => decide (r.peerId ≠ origin))
    = s.peerForks.filter fun r => decide (r.peerId ≠ origin)

theorem recordForkOf_forkOnly {s s' : Store H} {key : P.VerifyingKey} {signed : SignedEvent}
    {origin existing eventId : H} {receivedAt : Int64}
    (h : P.recordForkOf s key signed origin existing eventId receivedAt = .ok s') :
    ForkOnly origin s s' := by
  obtain ⟨json, rfl⟩ := recordFork_ok h
  refine ⟨rfl, ?_, ?_⟩
  · have hmark : ∀ t : List (PeerRow H), (markForked t origin).filter
        (fun r => decide (r.peerId ≠ origin)) = t.filter fun r => decide (r.peerId ≠ origin) := by
      intro t
      refine Table.filter_updateWhere t fun r hr => ?_
      simp at hr
      simp [hr]
    rw [hmark]
    simp only [upsertPeer, Table.upsert]
    split
    · refine Table.filter_updateWhere _ fun r hr => ?_
      simp at hr
      simp [hr]
    · simp
  · simp only [recordFork, Table.insertOrIgnore]
    split
    · rfl
    · simp

/-! ## A second offer -/

theorem findEventIdAt_prefix {events events' : List (EventRow H)} (h : events <+: events')
    {origin id : H} {n : Int64} (hfind : findEventIdAt events origin n = some id) :
    findEventIdAt events' origin n = some id := by
  obtain ⟨rest, rfl⟩ := h
  obtain ⟨row, hrow, rfl⟩ := Option.map_eq_some_iff.1 hfind
  unfold findEventIdAt
  simp only [Table.find] at hrow ⊢
  rw [List.find?_append, hrow]
  rfl

theorem Appended.findEventIdAt {s s' : Store H} {row : EventRow H} {signed : SignedEvent}
    (h : Appended P s s' row signed) :
    findEventIdAt s'.events row.originPeerId row.sequence = some row.eventId := by
  have hfind : Table.find (fun r : EventRow H => (r.originPeerId, r.sequence))
      (row.originPeerId, row.sequence) (s.events ++ [row]) = some row :=
    Table.find_append_self h.freshSequence
  simp only [Repo.findEventIdAt, h.events_eq, hfind, Option.map_some]

/-- An event found at its place in the log is known. -/
theorem ingest_known {s : Store H} {key : P.VerifyingKey} {signed : SignedEvent} {eventId : H}
    {previous : Option H} (hver : Verified P key signed eventId)
    (horigin : P.peerIdFromStr signed.unsigned.originPeer = .ok (P.peerIdOfKey key))
    (hprev : P.parsePreviousEvent signed.unsigned.previousEvent = .ok previous)
    (hfind : findEventIdAt s.events (P.peerIdOfKey key) signed.unsigned.sequence.toInt64
      = some eventId) (receivedAt : Int64) :
    P.ingestRemoteEvent s key signed receivedAt = .ok (s, .alreadyKnown eventId) := by
  simp only [Prims.ingestRemoteEvent, verify_ok.2 hver, horigin, hprev, hfind, orElse, bind,
    Except.bind, pure, Except.pure, ne_eq, not_true_eq_false, if_false, if_true]

/-- An applied event is known in every database that grows out of this one. -/
theorem applied_known (hJ : JsonLaws P) (hinj : Function.Injective P.blake3) {s s' s'' : Store H}
    (hlog : LogStored P s) {key : P.VerifyingKey} {signed : SignedEvent} {receivedAt : Int64}
    {id : H} {o : ProjectionOutcome H}
    (h : P.ingestRemoteEvent s key signed receivedAt = .ok (s', .applied id o))
    (hext : s'.events <+: s''.events) (receivedAt' : Int64) :
    P.ingestRemoteEvent s'' key signed receivedAt' = .ok (s'', .alreadyKnown id) := by
  obtain ⟨eventId, previous, hver, horigin, hprev, hcases⟩ := ingest_ok h
  rcases hcases with ⟨-, -, ho⟩ | ⟨_, -, -, -, ho⟩ | ⟨hfree, o', happly, ho⟩
  · cases ho
  · cases ho
  · cases ho
    obtain ⟨row, happ, hrowOrigin, hid, -⟩ :=
      apply_appended hJ hinj hlog hver horigin hprev hfree happly
    have hfind := findEventIdAt_prefix hext happ.findEventIdAt
    rw [hrowOrigin, hid, happ.stored.sequence] at hfind
    exact ingest_known hver horigin hprev hfind receivedAt'

/-- A transaction on a known event says so, unless one of its statements fails. -/
theorem transaction_known {s : Store H} {key : P.VerifyingKey} {signed : SignedEvent}
    {receivedAt : Int64} {id : H}
    (h : P.ingestRemoteEvent s key signed receivedAt = .ok (s, .alreadyKnown id))
    (fates : List (Fate (Store H) EventsError)) :
    (P.ingestTransaction key signed receivedAt).run s fates = (s, .ok (.alreadyKnown id)) ∨
      fates ≠ [] ∧ ∃ e, (P.ingestTransaction key signed receivedAt).run s fates = (s, .error e) := by
  rcases ingest_run s key signed receivedAt fates with ⟨e, hrun, he⟩ | ⟨o, s', hrun, hok⟩
  · refine .inr ⟨fun hnil => ?_, e, hrun⟩
    rw [h] at he
    cases he hnil
  · rw [h] at hok
    cases hok
    exact .inl hrun

/-- An applied event that is offered again, to any later database. -/
theorem applied_again (hJ : JsonLaws P) (hinj : Function.Injective P.blake3) {s s' s'' : Store H}
    (hlog : LogStored P s) {key : P.VerifyingKey} {signed : SignedEvent} {receivedAt : Int64}
    {id : H} {out : ProjectionOutcome H}
    (h : P.ingestRemoteEvent s key signed receivedAt = .ok (s', .applied id out))
    (hext : s'.events <+: s''.events) (receivedAt' : Int64) :
    (P.ingestTransaction key signed receivedAt').run s'' [] = (s'', .ok (.alreadyKnown id)) ∧
      ∀ fates o, ((P.ingestTransaction key signed receivedAt').run s'' fates).2 = .ok o →
        o = .alreadyKnown id := by
  have hknown := applied_known hJ hinj hlog h hext receivedAt'
  constructor
  · rcases transaction_known hknown [] with hrun | ⟨hnil, -⟩
    · exact hrun
    · exact absurd rfl hnil
  · intro fates o ho
    rcases transaction_known hknown fates with hrun | ⟨-, e, hrun⟩
    · rw [hrun] at ho
      cases ho
      rfl
    · rw [hrun] at ho
      cases ho

/-- **Ingestion is atomic and idempotent.** -/
theorem ingest_atomic_idempotent (P : Prims H) (hJ : JsonLaws P)
    (hinj : Function.Injective P.blake3) (ops : List (DbOp P)) (key : P.VerifyingKey)
    (signed : SignedEvent) (receivedAt : Int64) (fates : List (Fate (Store H) EventsError)) :
    let db := P.dbRun Database.empty ops
    let after := (P.ingestTransaction key signed receivedAt).run db.store fates
    (∀ e, after.2 = .error e → after.1 = db.store) ∧
    (∀ id, after.2 = .ok (.alreadyKnown id) → after.1 = db.store) ∧
    (∀ existing incoming, after.2 = .ok (.forked existing incoming) →
      ∃ origin, P.peerIdFromStr signed.unsigned.originPeer = .ok origin ∧
        ForkOnly origin db.store after.1) ∧
    ∀ id o, after.2 = .ok (.applied id o) → ∀ (later : List (DbOp P)) (receivedAt' : Int64),
      let s := (P.dbRun ⟨after.1, db.schemaVersion⟩ later).store
      (P.ingestTransaction key signed receivedAt').run s [] = (s, .ok (.alreadyKnown id)) ∧
      ∀ fates' o', ((P.ingestTransaction key signed receivedAt').run s fates').2 = .ok o' →
        o' = .alreadyKnown id := by
  intro db after
  have hinv : DbInv P db.store := dbRun_dbInv hJ hinj dbInv_empty ops
  rcases ingest_run db.store key signed receivedAt fates with ⟨e, hrun, -⟩ | ⟨o, s', hrun, hok⟩
  · have hafter : after = (db.store, .error e) := hrun
    rw [hafter]
    refine ⟨fun _ _ => rfl, ?_, ?_, ?_⟩
    · intro id h
      cases h
    · intro existing incoming h
      cases h
    · intro id o h
      cases h
  · have hafter : after = (s', .ok o) := hrun
    rw [hafter]
    refine ⟨?_, ?_, ?_, ?_⟩
    · intro e h
      cases h
    · intro id h
      cases h
      obtain ⟨_, _, -, -, -, ⟨-, rfl, -⟩ | ⟨_, -, -, -, ho⟩ | ⟨-, _, -, ho⟩⟩ := ingest_ok hok
      · rfl
      · cases ho
      · cases ho
    · intro existing incoming h
      cases h
      obtain ⟨_, _, -, horigin, -, ⟨-, -, ho⟩ | ⟨_, -, -, hfork, -⟩ | ⟨-, _, -, ho⟩⟩ := ingest_ok hok
      · cases ho
      · exact ⟨_, horigin, recordForkOf_forkOnly hfork⟩
      · cases ho
    · intro id out h later receivedAt' s
      cases h
      have hexec : P.exec db.store (.ingest key signed receivedAt) = some s' := by
        rw [Prims.exec, hok]
        rfl
      have hinv' : DbInv P (Database.store ⟨s', db.schemaVersion⟩) := exec_dbInv hJ hinj hinv hexec
      have hext : Extends s' s := dbRun_extends hJ hinj hinv' later
      exact applied_again hJ hinj hinv.log.stored hok hext.events receivedAt'

/-- A declaration is applied, and known when it is offered again. -/
theorem ingest_atomic_idempotent_declaration :
    let P := idealOpen
    let tx := P.ingestTransaction (peerA.verifyingKey P) (declareEvent P peerA)
    let s := ((tx 5).run Store.empty []).1
    ∃ id o, (tx 5).run Store.empty [] = (s, .ok (.applied id o)) ∧
      (tx 9).run s [] = (s, .ok (.alreadyKnown id)) := by
  intro P tx s
  have hver : Verified P (peerA.verifyingKey P) (declareEvent P peerA)
      (P.idOf (declareEvent P peerA)) :=
    eventOf_verified idealOpen_laws trivial (idealOpen_signsCorrectly peerA)
  obtain ⟨o, hok⟩ := ingest_apply idealOpen_laws idealOpen_injective dbInv_empty.log
    (by simp [Store.empty, maxRows]) 5 hver (P.peerIdFromStr_peerIdToString _) rfl rfl rfl
    (declare_admissible peerA _)
  have hout : ((tx 5).run Store.empty []).2 = .ok (.applied (P.idOf (declareEvent P peerA)) o) := by
    rcases ingest_run Store.empty (peerA.verifyingKey P) (declareEvent P peerA) 5 [] with
      ⟨e, -, he⟩ | ⟨o', s', hs', ho'⟩
    · rw [hok] at he
      cases he rfl
    · rw [hok] at ho'
      cases ho'
      exact congrArg Prod.snd hs'
  obtain ⟨-, -, -, hagain⟩ := ingest_atomic_idempotent P idealOpen_laws idealOpen_injective []
    (peerA.verifyingKey P) (declareEvent P peerA) 5 []
  exact ⟨_, o, Prod.ext rfl hout, (hagain _ o hout [] 9).1⟩

end OpenAgentGraph
