/-
  What one operation does to the event log.

  * `Stored`: a row and the signed event it was stored for.
  * `Appended`: an event was appended: the row is fresh, continues its
    origin's chain, and was projected.
  * `commit_appended`, `ingest_ok`: the cases of a successful commit and of a
    successful ingestion.
-/
import OpenAgentGraph.Lib.Except
import OpenAgentGraph.Events.Envelope
import OpenAgentGraph.Run

namespace OpenAgentGraph

open Lib Repo

variable {H : Type} {P : Prims H}

theorem orElse_ok {ε α : Type} {f : ε → EventsError} {x : Except ε α} {a : α} :
    orElse f x = .ok a ↔ x = .ok a := by
  cases x <;> simp [orElse]

theorem okOr_ok {α : Type} {e : EventsError} {x : Option α} {a : α} :
    okOr e x = .ok a ↔ x = some a := by
  cases x <;> simp [okOr]

/-! ## Verification -/

/-- What a verified event satisfies. -/
structure Verified (P : Prims H) (key : P.VerifyingKey) (signed : SignedEvent) (eventId : H) :
    Prop where
  /-- The signature covers the domain prefix and the canonical unsigned body. -/
  signature : ∃ u sig, P.canonicalUnsigned signed.unsigned = .ok u ∧
    hexDecode signed.signature = .ok sig ∧ sig.length = 64 ∧
    P.verifyWithDomain key Prims.eventIdPrefix u sig = true
  /-- The id is derived from the whole envelope. -/
  derived : ∃ c, P.canonicalSigned signed = .ok c ∧ eventId = P.eventIdOf c

theorem verify_ok {signed : SignedEvent} {key : P.VerifyingKey} {eventId : H} :
    P.verifyAndDeriveId signed key = .ok eventId ↔ Verified P key signed eventId := by
  simp only [Prims.verifyAndDeriveId, bind_ok, orElse_ok, guard_ok, pure_ok]
  constructor
  · rintro ⟨u, hu, sig, hsig, hlen, hver, c, hc, rfl⟩
    exact ⟨⟨u, sig, hu, hsig, by simpa using hlen, by simpa using hver⟩, c, hc, rfl⟩
  · rintro ⟨⟨u, sig, hu, hsig, hlen, hver⟩, c, hc, rfl⟩
    exact ⟨u, hu, sig, hsig, by simpa using hlen, by simpa using hver, c, hc, rfl⟩

/-- Events that JSON does not tell apart verify alike. -/
theorem SignedEvent.Same.verified (hJ : JsonLaws P) {key : P.VerifyingKey} {e e' : SignedEvent}
    {eventId : H} (hsame : e.Same e') (h : Verified P key e eventId) : Verified P key e' eventId := by
  obtain ⟨u, sig, hu, hsig⟩ := h.signature
  obtain ⟨c, hc, hid⟩ := h.derived
  refine ⟨⟨u, sig, ?_, ?_⟩, c, ?_, hid⟩
  · rw [← hsame.canonicalUnsigned_eq hJ]; exact hu
  · rw [← hsame.signature]; exact hsig
  · rw [← hsame.canonicalSigned_eq hJ]; exact hc

/-! ## Stored rows -/

/-- The row was stored for the signed event. -/
structure Stored (P : Prims H) (row : EventRow H) (signed : SignedEvent) : Prop where
  canonical : P.canonicalSigned signed = .ok row.canonicalPayload
  eventId : row.eventId = P.eventIdOf row.canonicalPayload
  origin : P.peerIdFromStr signed.unsigned.originPeer = .ok row.originPeerId
  sequence : row.sequence = signed.unsigned.sequence.toInt64
  previous : P.parsePreviousEvent signed.unsigned.previousEvent = .ok row.previousEventId
  eventType : row.eventType = signed.unsigned.payload.typeStr
  createdAt : row.createdAt = signed.unsigned.createdAt
  signature : hexDecode signed.signature = .ok row.signature

theorem Stored.same (hJ : JsonLaws P) {row : EventRow H} {signed signed' : SignedEvent}
    (h : Stored P row signed) (hsame : signed.Same signed') : Stored P row signed' where
  canonical := by rw [← hsame.canonicalSigned_eq hJ]; exact h.canonical
  eventId := h.eventId
  origin := by rw [← hsame.unsigned.originPeer]; exact h.origin
  sequence := by rw [← hsame.unsigned.sequence]; exact h.sequence
  previous := by rw [← hsame.unsigned.previousEvent]; exact h.previous
  eventType := by rw [← hsame.unsigned.payload.typeStr_eq]; exact h.eventType
  createdAt := by rw [← hsame.unsigned.createdAt]; exact h.createdAt
  signature := by rw [← hsame.signature]; exact h.signature

/-- The event read back from a row's bytes is one the row was stored for. -/
theorem Stored.reread (hJ : JsonLaws P) {row : EventRow H} {signed : SignedEvent}
    (h : Stored P row signed) : ∃ signed', P.signedFromSlice row.canonicalPayload = .ok signed' ∧
      signed.Same signed' ∧ Stored P row signed' := by
  obtain ⟨signed', hread, hsame⟩ := Prims.signedFromSlice_canonical hJ h.canonical
  exact ⟨signed', hread, hsame, h.same hJ hsame⟩

/-- Two rows with one payload agree on what the payload determines. -/
theorem Stored.eq_of_payload (hJ : JsonLaws P) {row row' : EventRow H} {signed signed' : SignedEvent}
    (h : Stored P row signed) (h' : Stored P row' signed')
    (hp : row.canonicalPayload = row'.canonicalPayload) :
    row' = { row with receivedAt := row'.receivedAt } := by
  obtain ⟨g, hg, -, hs⟩ := h.reread hJ
  obtain ⟨g', hg', -, hs'⟩ := h'.reread hJ
  obtain rfl : g = g' := by
    rw [hp, hg'] at hg
    exact (Except.ok.inj hg).symm
  have horigin : row.originPeerId = row'.originPeerId :=
    Except.ok.inj (hs.origin.symm.trans hs'.origin)
  have hprev : row.previousEventId = row'.previousEventId :=
    Except.ok.inj (hs.previous.symm.trans hs'.previous)
  have hsig : row.signature = row'.signature := Except.ok.inj (hs.signature.symm.trans hs'.signature)
  have hid : row.eventId = row'.eventId := by rw [hs.eventId, hs'.eventId, hp]
  have hseq : row.sequence = row'.sequence := hs.sequence.trans hs'.sequence.symm
  have htype : row.eventType = row'.eventType := hs.eventType.trans hs'.eventType.symm
  have hcreated : row.createdAt = row'.createdAt := hs.createdAt.trans hs'.createdAt.symm
  cases row
  cases row'
  simp only at *
  simp [*]

/-- With an ideal hash the id determines the row, but for the time of arrival. -/
theorem Stored.eq_of_eventId (hJ : JsonLaws P) (hinj : Function.Injective P.blake3)
    {row row' : EventRow H} {signed signed' : SignedEvent} (h : Stored P row signed)
    (h' : Stored P row' signed') (hid : row.eventId = row'.eventId) :
    row' = { row with receivedAt := row'.receivedAt } := by
  refine h.eq_of_payload hJ h' ?_
  rw [h.eventId, h'.eventId] at hid
  exact P.derive_injective hinj _ hid

/-! ## Building an event -/

/-- The event that a peer builds parses back to its own origin. -/
theorem buildAndSign_ok {identity : Prims.PeerIdentity} {sequence : UInt64} {previous : Option H}
    {createdAt : Int64} {payload : EventPayload} {signed : SignedEvent} {eventId : H}
    (h : P.buildAndSign identity sequence previous createdAt payload = .ok (signed, eventId)) :
    signed.unsigned = ⟨currentVersion, P.peerIdToString (identity.peerId P), sequence,
      previous.map P.toHex, createdAt, payload⟩ ∧
    (∃ u, P.canonicalUnsigned signed.unsigned = .ok u ∧
      signed.signature = hexEncode (P.signWithDomain identity Prims.eventIdPrefix u)) ∧
    ∃ c, P.canonicalSigned signed = .ok c ∧ eventId = P.eventIdOf c := by
  simp only [Prims.buildAndSign, bind_ok, orElse_ok, pure_ok] at h
  obtain ⟨u, hu, c, hc, h⟩ := h
  cases h
  exact ⟨rfl, ⟨u, hu, rfl⟩, c, hc, rfl⟩

theorem parsePreviousEvent_toHex (o : Option H) :
    P.parsePreviousEvent (o.map P.toHex) = .ok o := by
  cases o with
  | none => rfl
  | some h => simp [Prims.parsePreviousEvent, Prims.parseId, orElse, Functor.map, Except.map]

variable [DecidableEq H]

/-! ## Appending an event -/

/-- Every row of the log was stored for some event. -/
def LogStored (P : Prims H) (s : Store H) : Prop := ∀ row ∈ s.events, ∃ signed, Stored P row signed

/-- An event was appended to the log and projected. -/
structure Appended (P : Prims H) (s s' : Store H) (row : EventRow H) (signed : SignedEvent) :
    Prop where
  stored : Stored P row signed
  fresh : ∀ r ∈ s.events, r.eventId ≠ row.eventId
  freshSequence : ∀ r ∈ s.events, (r.originPeerId, r.sequence) ≠ (row.originPeerId, row.sequence)
  room : s.events.length < maxRows
  next : Prims.nextOf (getOrigin s.eventOrigins row.originPeerId)
    = (signed.unsigned.sequence, row.previousEventId)
  projected : ∃ outcome, P.project (s.events ++ [row]) s.proj row.eventId row.createdAt
    signed.unsigned.payload = .ok (outcome, s'.proj)
  eq : s' = { s with
    events := s.events ++ [row]
    proj := s'.proj
    eventOrigins := advanceOrigin s.eventOrigins row.originPeerId row.sequence row.eventId }

theorem insertEvent_ok {events events' : List (EventRow H)} {row : EventRow H} {b : Bool}
    (h : insertEvent events row = .ok (events', b)) :
    (b = false ∧ events' = events ∧ ((∃ r ∈ events, r.eventId = row.eventId) ∨
      ∃ r ∈ events, (r.originPeerId, r.sequence) = (row.originPeerId, row.sequence))) ∨
    (b = true ∧ events' = events ++ [row] ∧ (∀ r ∈ events, r.eventId ≠ row.eventId) ∧
      (∀ r ∈ events, (r.originPeerId, r.sequence) ≠ (row.originPeerId, row.sequence)) ∧
      events.length < maxRows) := by
  unfold insertEvent at h
  split at h
  · rename_i hc
    cases h
    refine Or.inl ⟨rfl, rfl, ?_⟩
    rcases Bool.or_eq_true _ _ ▸ hc with hc | hc
    · exact Or.inl (Table.hasKey_iff.1 hc)
    · exact Or.inr (Table.hasKey_iff.1 hc)
  · rename_i hc
    split at h
    · rename_i hlen
      cases h
      obtain ⟨h₁, h₂⟩ := Bool.or_eq_false_iff.1 (Bool.eq_false_iff.2 hc)
      exact Or.inr ⟨rfl, rfl, Table.hasKey_eq_false.1 h₁, Table.hasKey_eq_false.1 h₂, hlen⟩
    · cases h

/-- **A successful commit** appends an event of this peer. -/
theorem commit_appended {s s' : Store H} {identity : Prims.PeerIdentity} {payload : EventPayload}
    {createdAt : Int64} {eventId : H} {outcome : ProjectionOutcome H}
    (h : P.commitLocalEvent s identity payload createdAt = .ok (s', eventId, outcome)) :
    ∃ row signed, Appended P s s' row signed ∧ row.originPeerId = identity.peerId P ∧
      row.eventId = eventId ∧
      (signed.unsigned.payload = payload ∧ signed.unsigned.createdAt = createdAt) ∧
      ∃ u, P.canonicalUnsigned signed.unsigned = .ok u ∧
        signed.signature = hexEncode (P.signWithDomain identity Prims.eventIdPrefix u) := by
  unfold Prims.commitLocalEvent at h
  cases hnext : Prims.nextOf (getOrigin s.eventOrigins (identity.peerId P)) with
  | mk sequence previous =>
    simp only [hnext, bind_ok, orElse_ok, guard_ok, pure_ok, Prod.exists] at h
    obtain ⟨signed, id, hbuild, c, hc, sig, hsig, events, b, hins, hb, o, proj, hproj, h⟩ := h
    cases h
    obtain ⟨hunsigned, hsigned, c', hc', rfl⟩ := buildAndSign_ok hbuild
    obtain rfl : c = c' := Except.ok.inj (hc.symm.trans hc')
    have hb' : b = true := by simpa using hb
    rcases insertEvent_ok hins with ⟨hf, -⟩ | ⟨-, rfl, hfresh, hseq, hroom⟩
    · rw [hf] at hb'; cases hb'
    · refine ⟨_, signed, ⟨?_, hfresh, hseq, hroom, ?_, ⟨_, hproj⟩, rfl⟩, rfl, rfl, ?_, hsigned⟩
      · exact {
          canonical := hc
          eventId := rfl
          origin := by rw [hunsigned]; exact P.peerIdFromStr_peerIdToString _
          sequence := by rw [hunsigned]
          previous := by rw [hunsigned]; exact parsePreviousEvent_toHex _
          eventType := rfl
          createdAt := by rw [hunsigned]
          signature := hsig }
      · rw [hunsigned]; exact hnext
      · rw [hunsigned]; exact ⟨rfl, rfl⟩

/-! ## Ingesting an event -/

/-- The cases of a successful ingestion. -/
theorem ingest_ok {s s' : Store H} {key : P.VerifyingKey} {signed : SignedEvent}
    {receivedAt : Int64} {outcome : IngestOutcome H}
    (h : P.ingestRemoteEvent s key signed receivedAt = .ok (s', outcome)) :
    ∃ eventId previous, Verified P key signed eventId ∧
      P.peerIdFromStr signed.unsigned.originPeer = .ok (P.peerIdOfKey key) ∧
      P.parsePreviousEvent signed.unsigned.previousEvent = .ok previous ∧
      ((findEventIdAt s.events (P.peerIdOfKey key) signed.unsigned.sequence.toInt64 = some eventId ∧
          s' = s ∧ outcome = .alreadyKnown eventId) ∨
        (∃ existing, existing ≠ eventId ∧
          findEventIdAt s.events (P.peerIdOfKey key) signed.unsigned.sequence.toInt64
            = some existing ∧
          P.recordForkOf s key signed (P.peerIdOfKey key) existing eventId receivedAt = .ok s' ∧
          outcome = .forked existing eventId) ∨
        (findEventIdAt s.events (P.peerIdOfKey key) signed.unsigned.sequence.toInt64 = none ∧
          ∃ o, P.applyRemoteEvent s signed eventId (P.peerIdOfKey key) previous receivedAt
              = .ok (s', o) ∧ outcome = .applied eventId o)) := by
  simp only [Prims.ingestRemoteEvent, bind_ok, orElse_ok, guard_ok] at h
  obtain ⟨eventId, hver, claimed, hclaimed, heq, previous, hprev, h⟩ := h
  obtain rfl : claimed = P.peerIdOfKey key := not_not.1 heq
  refine ⟨eventId, previous, verify_ok.1 hver, hclaimed, hprev, ?_⟩
  split at h
  · rename_i existing hfind
    split at h
    · rename_i hid
      cases h
      exact Or.inl ⟨hid ▸ hfind, rfl, rfl⟩
    · rename_i hid
      simp only [bind_ok, pure_ok] at h
      obtain ⟨s₁, hfork, h⟩ := h
      cases h
      exact Or.inr (Or.inl ⟨existing, hid, hfind, hfork, rfl⟩)
  · rename_i hfind
    simp only [bind_ok, pure_ok] at h
    obtain ⟨⟨s₁, o⟩, happly, h⟩ := h
    cases h
    exact Or.inr (Or.inr ⟨hfind, o, happly, rfl⟩)

theorem validateChain_ok {n m : UInt64} {a b : Option H} {u : Unit}
    (h : P.validateChain n a m b = .ok u) : m = n ∧ b = a := by
  unfold Prims.validateChain at h
  split at h
  · cases h
  · rename_i hm
    split at h
    · cases h
    · rename_i hb
      exact ⟨not_not.1 hm, not_not.1 hb⟩

theorem findEventIdAt_eq_none {events : List (EventRow H)} {origin : H} {n : Int64} :
    findEventIdAt events origin n = none ↔
      ∀ r ∈ events, (r.originPeerId, r.sequence) ≠ (origin, n) := by
  simp [findEventIdAt, Table.find_eq_none]

theorem findEventIdAt_eq_some {events : List (EventRow H)} {origin id : H} {n : Int64}
    (h : findEventIdAt events origin n = some id) :
    ∃ r ∈ events, r.originPeerId = origin ∧ r.sequence = n ∧ r.eventId = id := by
  unfold findEventIdAt at h
  obtain ⟨r, hr, rfl⟩ := Option.map_eq_some_iff.1 h
  obtain ⟨hmem, hkey⟩ := Table.find_eq_some hr
  exact ⟨r, hmem, congrArg Prod.fst hkey, congrArg Prod.snd hkey, rfl⟩

/-- **An applied event** is appended.  Its id is new: an ideal hash gives one
    id to one payload, and the payload names the origin and the sequence at
    which no event is stored. -/
theorem apply_appended (hJ : JsonLaws P) (hinj : Function.Injective P.blake3) {s s' : Store H}
    (hlog : LogStored P s) {key : P.VerifyingKey} {signed : SignedEvent} {eventId : H}
    {previous : Option H} {receivedAt : Int64} {outcome : ProjectionOutcome H}
    (hver : Verified P key signed eventId)
    (horigin : P.peerIdFromStr signed.unsigned.originPeer = .ok (P.peerIdOfKey key))
    (hprev : P.parsePreviousEvent signed.unsigned.previousEvent = .ok previous)
    (hfind : findEventIdAt s.events (P.peerIdOfKey key) signed.unsigned.sequence.toInt64 = none)
    (h : P.applyRemoteEvent s signed eventId (P.peerIdOfKey key) previous receivedAt
      = .ok (s', outcome)) :
    ∃ row, Appended P s s' row signed ∧ row.originPeerId = P.peerIdOfKey key ∧
      row.eventId = eventId ∧ row.receivedAt = receivedAt := by
  unfold Prims.applyRemoteEvent at h
  cases hnext : Prims.nextOf (getOrigin s.eventOrigins (P.peerIdOfKey key)) with
  | mk expected head =>
    simp only [hnext, bind_ok, orElse_ok, pure_ok, Prod.exists] at h
    obtain ⟨u, hchain, c, hc, sig, hsig, events, b, hins, o, proj, hproj, h⟩ := h
    cases h
    obtain ⟨hseq, rfl⟩ := validateChain_ok hchain
    obtain ⟨c', hc', hid⟩ := hver.derived
    obtain rfl : c = c' := Except.ok.inj (hc.symm.trans hc')
    have hnone := findEventIdAt_eq_none.1 hfind
    have hstored : Stored P
        { eventId := eventId, originPeerId := P.peerIdOfKey key,
          sequence := signed.unsigned.sequence.toInt64, previousEventId := previous,
          eventType := signed.unsigned.payload.typeStr, canonicalPayload := c,
          createdAt := signed.unsigned.createdAt, signature := sig, receivedAt := receivedAt }
        signed := ⟨hc, hid, horigin, rfl, hprev, rfl, rfl, hsig⟩
    have hfresh : ∀ r ∈ s.events, r.eventId ≠ eventId := by
      intro r hr heq
      obtain ⟨signed₀, h₀⟩ := hlog r hr
      have hrow := hstored.eq_of_eventId hJ hinj h₀ heq.symm
      exact hnone r hr (by rw [hrow])
    rcases insertEvent_ok hins with ⟨-, -, ⟨r, hr, heq⟩ | ⟨r, hr, heq⟩⟩ | ⟨-, rfl, -, -, hroom⟩
    · exact absurd heq (hfresh r hr)
    · exact absurd heq (hnone r hr)
    · refine ⟨_, ⟨hstored, hfresh, hnone, hroom, ?_, ⟨_, hproj⟩, rfl⟩, rfl, rfl, rfl⟩
      rw [hnext, hseq]

/-- An applied event is the one row that was added. -/
theorem applied_appended (hJ : JsonLaws P) (hinj : Function.Injective P.blake3) {s s' : Store H}
    (hlog : LogStored P s) {key : P.VerifyingKey} {signed : SignedEvent} {now : Int64} {id : H}
    {outcome : ProjectionOutcome H}
    (h : P.ingestRemoteEvent s key signed now = .ok (s', .applied id outcome)) :
    ∃ row, Appended P s s' row signed ∧ row.eventId = id := by
  obtain ⟨eventId, previous, hver, horigin, hprev, hcases⟩ := ingest_ok h
  rcases hcases with ⟨-, -, hout⟩ | ⟨existing, -, -, -, hout⟩ | ⟨hfind, o, happ, hout⟩
  · cases hout
  · cases hout
  · cases hout
    obtain ⟨row, happended, -, hid, -⟩ := apply_appended hJ hinj hlog hver horigin hprev hfind happ
    exact ⟨row, happended, hid⟩

/-- A recorded fork touches the peers and the forks only. -/
theorem recordFork_ok {s s' : Store H} {key : P.VerifyingKey} {signed : SignedEvent}
    {origin existing eventId : H} {receivedAt : Int64}
    (h : P.recordForkOf s key signed origin existing eventId receivedAt = .ok s') :
    ∃ json, s' = { s with
      peers := markForked (upsertPeer s.peers origin key.bytes none receivedAt) origin
      peerForks := recordFork s.peerForks
        ⟨origin, signed.unsigned.sequence.toInt64, existing, eventId, receivedAt, json⟩ } := by
  simp only [Prims.recordForkOf, bind_ok, orElse_ok, pure_ok] at h
  obtain ⟨json, -, h⟩ := h
  exact ⟨json, h.symm⟩

/-! ## What an operation does to the log -/

/-- **The log changes by appending only**: an operation appends one event, or
    leaves the log, its heads and (but for a redaction or a rebuild) the
    projection as they were. -/
inductive LogStep (P : Prims H) (s : Store H) : Op P → Store H → Prop
  | commit {identity payload createdAt s' row signed} : Appended P s s' row signed →
      row.originPeerId = identity.peerId P → signed.unsigned.payload = payload →
      LogStep P s (.commit identity payload createdAt) s'
  | known {key signed receivedAt} : LogStep P s (.ingest key signed receivedAt) s
  | forked {key signed receivedAt eventId existing s'} : Verified P key signed eventId →
      P.peerIdFromStr signed.unsigned.originPeer = .ok (P.peerIdOfKey key) →
      findEventIdAt s.events (P.peerIdOfKey key) signed.unsigned.sequence.toInt64 = some existing →
      existing ≠ eventId →
      P.recordForkOf s key signed (P.peerIdOfKey key) existing eventId receivedAt = .ok s' →
      LogStep P s (.ingest key signed receivedAt) s'
  | applied {key signed receivedAt s' row} : Appended P s s' row signed →
      Verified P key signed row.eventId → row.originPeerId = P.peerIdOfKey key →
      LogStep P s (.ingest key signed receivedAt) s'
  | rebuild {s' summary} : P.rebuildProjection s = .ok (s', summary) → LogStep P s .rebuild s'
  | redactEvidence {auth evidenceId reason now s'} :
      P.redactEvidence s auth evidenceId reason now = .ok s' →
      LogStep P s (.redactEvidence auth evidenceId reason now) s'
  | redactActor {auth actorId reason now s'} :
      P.redactActorIdentityUri s auth actorId reason now = .ok s' →
      LogStep P s (.redactActor auth actorId reason now) s'

theorem exec_logStep (hJ : JsonLaws P) (hinj : Function.Injective P.blake3) {s s' : Store H}
    (hlog : LogStored P s) {op : Op P} (h : P.exec s op = some s') : LogStep P s op s' := by
  cases op with
  | commit identity payload createdAt =>
    obtain ⟨⟨s₁, id, o⟩, hok, rfl⟩ := Option.map_eq_some_iff.1 h
    obtain ⟨row, signed, happ, horigin, -, ⟨hpay, -⟩, -⟩ := commit_appended (toOption_eq_some.1 hok)
    exact .commit happ horigin hpay
  | ingest key signed receivedAt =>
    obtain ⟨⟨s₁, o⟩, hok, rfl⟩ := Option.map_eq_some_iff.1 h
    obtain ⟨eventId, previous, hver, horigin, hprev, hcases⟩ := ingest_ok (toOption_eq_some.1 hok)
    rcases hcases with ⟨-, rfl, -⟩ | ⟨existing, hne, hfind, hfork, -⟩ | ⟨hfind, o', happly, -⟩
    · exact .known
    · exact .forked hver horigin hfind hne hfork
    · obtain ⟨row, happ, hrow, rfl, -⟩ :=
        apply_appended hJ hinj hlog hver horigin hprev hfind happly
      exact .applied happ hver hrow
  | rebuild =>
    obtain ⟨⟨s₁, summary⟩, hok, rfl⟩ := Option.map_eq_some_iff.1 h
    exact .rebuild (toOption_eq_some.1 hok)
  | redactEvidence auth evidenceId reason now => exact .redactEvidence (toOption_eq_some.1 h)
  | redactActor auth actorId reason now => exact .redactActor (toOption_eq_some.1 h)

end OpenAgentGraph
