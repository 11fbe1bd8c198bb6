/-
  Relaying an event.

  A peer stores an event in canonical form, serves it by parsing and writing
  that again, and the next peer parses what it got, verifies it, and stores it
  in canonical form once more.  What travels is the same event, but for what
  JSON does not tell apart, so every hop stores the same bytes and projects
  the same event.
-/
import OpenAgentGraph.Proof.Serve

namespace OpenAgentGraph

open Lib Repo

variable {H : Type} {P : Prims H}

/-! ## Events that JSON does not tell apart -/

theorem metadataValue_idem (o : Option JsonValue) : metadataValue (metadataValue o) = metadataValue o := by
  cases o with
  | none => rfl
  | some v =>
    obtain ⟨j, hj⟩ := v
    cases j <;> rfl

theorem EventPayload.Same.trans {p q r : EventPayload} (h : p.Same q) (h' : q.Same r) : p.Same r := by
  cases p with
  | assertRelation p =>
    cases q with
    | assertRelation q =>
      cases r with
      | assertRelation r =>
        obtain ⟨hpq, hv⟩ := h
        obtain ⟨hqr, hv'⟩ := h'
        refine ⟨?_, hv.trans hv'⟩
        rw [← hqr, ← hpq]
      | _ => cases h'
    | _ => cases h
  | addEvidence p =>
    cases q with
    | addEvidence q =>
      cases r with
      | addEvidence r =>
        obtain rfl : q = _ := h
        obtain rfl : r = _ := h'
        simp only [EventPayload.Same, metadataValue_idem]
      | _ => cases h'
    | _ => cases h
  | _ =>
    cases h
    exact h'

theorem SignedEvent.Same.trans {a b c : SignedEvent} (h : a.Same b) (h' : b.Same c) : a.Same c where
  unsigned := ⟨h.unsigned.version.trans h'.unsigned.version,
    h.unsigned.originPeer.trans h'.unsigned.originPeer,
    h.unsigned.sequence.trans h'.unsigned.sequence,
    h.unsigned.previousEvent.trans h'.unsigned.previousEvent,
    h.unsigned.createdAt.trans h'.unsigned.createdAt, h.unsigned.payload.trans h'.unsigned.payload⟩
  signature := h.signature.trans h'.signature

variable [DecidableEq H]

/-- The projector does not tell such payloads apart either. -/
theorem EventPayload.Same.project_eq {p q : EventPayload} (h : p.Same q) (events : List (EventRow H))
    (g : Projection H) (eventId : H) (createdAt : Int64) :
    P.project events g eventId createdAt q = P.project events g eventId createdAt p := by
  cases p with
  | assertRelation p =>
    cases q with
    | assertRelation q =>
      obtain ⟨hpq, hv⟩ := h
      have hreal := realColumn_congr hv
      rw [← hpq]
      simp only [Prims.project, Prims.projectAssertRelation, hreal]
    | _ => cases h
  | addEvidence p =>
    cases q with
    | addEvidence q =>
      obtain rfl : q = _ := h
      simp only [Prims.project, Prims.projectAddEvidence, buildEvidenceMetadata_metadataValue]
    | _ => cases h
  | _ =>
    cases h
    rfl

/-! ## Hops -/

/-- A client reads the copy of the row in a response of the peer. -/
def Served (P : Prims H) (b : Store H) (row : EventRow H) (signed : SignedEvent) : Prop :=
  ∃ originHex o lo hi body events, P.decodeHex32 originHex = some o ∧
    P.eventsBody b originHex lo hi = .ok body ∧ (P.fromSlice body >>= P.readEvents) = .ok events ∧
    (row, signed) ∈ (listRange b.events o lo.toInt64 (Prims.pageEnd lo.toInt64 hi.toInt64)).zip events

theorem Served.copyOf (hJ : JsonLaws P) {b : Store H} (hlog : LogStored P b) {row : EventRow H}
    {signed : SignedEvent} (h : Served P b row signed) : CopyOf P row signed := by
  obtain ⟨originHex, o, lo, hi, body, events, hdec, hbody, hread, hmem⟩ := h
  have hle : ¬ hi < lo := by
    intro hlt
    simp only [Prims.eventsBody, Prims.getEvents, hdec, if_pos hlt] at hbody
    cases hbody
  obtain ⟨body', events', hbody', hread', hall⟩ := eventsBody_reads hJ hlog hdec hle
  obtain rfl : body = body' := Except.ok.inj (hbody.symm.trans hbody')
  obtain rfl : events = events' := Except.ok.inj (hread.symm.trans hread')
  exact (List.forall₂_iff_zip.1 hall).2 hmem

/-- The rows that hold an event after any number of hops: the origin's own, and
    those stored when a peer took a copy of such a row from another. -/
inductive Relayed (P : Prims H) (first : EventRow H) : EventRow H → Prop
  | origin : Relayed P first first
  | hop {row row' : EventRow H} {opsB opsA : List (SyncOp P)} {signed : SignedEvent}
      {key : P.VerifyingKey} {now : Int64} {a' : Store H} {eventId : H}
      {outcome : ProjectionOutcome H} : Relayed P first row →
      row ∈ (P.syncRun Store.empty opsB).events → Served P (P.syncRun Store.empty opsB) row signed →
      P.ingestRemoteEvent (P.syncRun Store.empty opsA) key signed now
        = .ok (a', .applied eventId outcome) →
      row' ∈ a'.events → row' ∉ (P.syncRun Store.empty opsA).events → Relayed P first row'

/-! ## Transparency -/

/-- A copy that arrives is the event that was committed: it verifies under the
    origin's key with the same id, and a peer that applies it projects the id,
    the time and the payload of the commit. -/
structure Faithful (P : Prims H) (me : Prims.PeerIdentity) (eventId : H) (createdAt : Int64)
    (payload : EventPayload) (signed : SignedEvent) : Prop where
  verifies : P.verifyAndDeriveId signed (me.verifyingKey P) = .ok eventId
  createdAt_eq : signed.unsigned.createdAt = createdAt
  payload_same : payload.Same signed.unsigned.payload
  projects : ∀ opsA key now a' id outcome,
    P.ingestRemoteEvent (P.syncRun Store.empty opsA) key signed now = .ok (a', .applied id outcome) →
    id = eventId ∧ ∃ o, P.project a'.events (P.syncRun Store.empty opsA).proj eventId createdAt payload
      = .ok (o, a'.proj)

/-- What holds of every row that a relayed event is stored in. -/
structure Transparent (P : Prims H) (me : Prims.PeerIdentity) (eventId : H) (createdAt : Int64)
    (payload : EventPayload) (canonical : Bytes) (row : EventRow H) : Prop where
  eventId_eq : row.eventId = eventId
  canonicalPayload_eq : row.canonicalPayload = canonical
  createdAt_eq : row.createdAt = createdAt
  /-- Every page that covers the row can be read. -/
  readable : ∀ ops originHex o (lo hi : UInt64), P.decodeHex32 originHex = some o → ¬ hi < lo →
    row ∈ listRange (P.syncRun Store.empty ops).events o lo.toInt64
      (Prims.pageEnd lo.toInt64 hi.toInt64) →
    ∃ signed, Served P (P.syncRun Store.empty ops) row signed
  served : ∀ ops signed, Served P (P.syncRun Store.empty ops) row signed →
    Faithful P me eventId createdAt payload signed

/-- The event as it was signed, and the row it was committed in. -/
structure Committed (P : Prims H) (me : Prims.PeerIdentity) (eventId : H) (createdAt : Int64)
    (payload : EventPayload) (first : EventRow H) (signed : SignedEvent) : Prop where
  stored : Stored P first signed
  verified : Verified P (me.verifyingKey P) signed eventId
  eventId_eq : first.eventId = eventId
  createdAt_eq : signed.unsigned.createdAt = createdAt
  payload_eq : signed.unsigned.payload = payload

/-- A copy of a row with the committed bytes is the committed event. -/
theorem Committed.faithful (hJ : JsonLaws P) (hinj : Function.Injective P.blake3)
    {me : Prims.PeerIdentity} {eventId : H} {createdAt : Int64} {payload : EventPayload}
    {first row : EventRow H} {signed₀ signed : SignedEvent}
    (h : Committed P me eventId createdAt payload first signed₀)
    (hbytes : row.canonicalPayload = first.canonicalPayload) (hcopy : CopyOf P row signed) :
    signed₀.Same signed ∧ Faithful P me eventId createdAt payload signed := by
  obtain ⟨original, hread, hsame⟩ := hcopy.same
  obtain ⟨original', hread', hsame', -⟩ := h.stored.reread hJ
  rw [hbytes, hread'] at hread
  cases hread
  have hboth := hsame'.trans hsame
  have hver := hboth.verified hJ h.verified
  have hpayload : payload.Same signed.unsigned.payload := h.payload_eq ▸ hboth.unsigned.payload
  have hcreated : signed.unsigned.createdAt = createdAt :=
    hboth.unsigned.createdAt.symm.trans h.createdAt_eq
  refine ⟨hboth, verify_ok.2 hver, hcreated, hpayload, ?_⟩
  intro opsA key now a' id outcome hingest
  obtain ⟨row', happ, hid⟩ :=
    applied_appended hJ hinj (peerInv_run hJ hinj opsA).log.stored hingest
  -- the new row has the committed bytes, and so the committed id
  have hc : row'.canonicalPayload = first.canonicalPayload := by
    have hcanon := happ.stored.canonical
    rw [← hboth.canonicalSigned_eq hJ, h.stored.canonical] at hcanon
    exact (Except.ok.inj hcanon).symm
  have hid' : row'.eventId = eventId := by
    rw [happ.stored.eventId, hc, ← h.stored.eventId, h.eventId_eq]
  refine ⟨hid.symm.trans hid', ?_⟩
  obtain ⟨o, hproject⟩ := happ.projected
  rw [hid', happ.stored.createdAt, hcreated, hpayload.project_eq, ← happ.events_eq] at hproject
  exact ⟨o, hproject⟩

/-- A relayed row is the committed one, but for the time of its arrival. -/
theorem Relayed.row_eq (hJ : JsonLaws P) (hinj : Function.Injective P.blake3)
    {me : Prims.PeerIdentity} {eventId : H} {createdAt : Int64} {payload : EventPayload}
    {first row : EventRow H} {signed₀ : SignedEvent}
    (h : Committed P me eventId createdAt payload first signed₀) (hrow : Relayed P first row) :
    row = { first with receivedAt := row.receivedAt } := by
  induction hrow with
  | origin => rfl
  | @hop row row' opsB opsA signed key now a' id outcome _ _ hserved hingest hrow' hnew ih =>
    have hcopy := hserved.copyOf hJ (peerInv_run hJ hinj opsB).log.stored
    have hbytes : row.canonicalPayload = first.canonicalPayload := by rw [ih]
    obtain ⟨hsame, -⟩ := h.faithful hJ hinj hbytes hcopy
    obtain ⟨added, happ, -⟩ :=
      applied_appended hJ hinj (peerInv_run hJ hinj opsA).log.stored hingest
    rw [happ.events_eq] at hrow'
    obtain rfl : row' = added := by
      rcases List.mem_append.1 hrow' with hold | hadded
      · exact absurd hold hnew
      · exact List.mem_singleton.1 hadded
    have hcanon := happ.stored.canonical
    rw [← hsame.canonicalSigned_eq hJ, h.stored.canonical] at hcanon
    exact h.stored.eq_of_payload hJ happ.stored (Except.ok.inj hcanon)

omit [DecidableEq H] in
theorem forall₂_zip_mem {α β : Type} {R : α → β → Prop} {l : List α} {l' : List β}
    (h : List.Forall₂ R l l') {a : α} (ha : a ∈ l) : ∃ b, (a, b) ∈ l.zip l' := by
  induction h with
  | nil => cases ha
  | @cons x y l l' _ _ ih =>
    rcases List.mem_cons.1 ha with rfl | ha
    · exact ⟨y, List.mem_cons_self ..⟩
    · obtain ⟨b, hb⟩ := ih ha
      exact ⟨b, List.mem_cons_of_mem _ hb⟩

/-- **Relays are transparent.**  For every payload that a peer commits, the
    event is projected from its id, its time and the payload, and every row
    that it reaches through any number of relays has the same id and bytes;
    every copy on the way verifies, and is projected from the same. -/
theorem relay_transparent (P : Prims H) (hJ : JsonLaws P) (hinj : Function.Injective P.blake3)
    (me : Prims.PeerIdentity) (hsign : SignsCorrectly P me) (ops : List (SyncOp P))
    (payload : EventPayload) (createdAt : Int64) (s' : Store H) (eventId : H)
    (outcome : ProjectionOutcome H)
    (hcommit : P.commitLocalEvent (P.syncRun Store.empty ops) me payload createdAt
      = .ok (s', eventId, outcome)) :
    ∃ first, s'.events = (P.syncRun Store.empty ops).events ++ [first] ∧
      (∃ o, P.project s'.events (P.syncRun Store.empty ops).proj eventId createdAt payload
        = .ok (o, s'.proj)) ∧
      ∀ row, Relayed P first row →
        Transparent P me eventId createdAt payload first.canonicalPayload row := by
  obtain ⟨first, signed₀, happ, -, hid, ⟨hpay, hcreated⟩, hver⟩ := commit_verified hsign hcommit
  have hcommitted : Committed P me eventId createdAt payload first signed₀ :=
    ⟨happ.stored, hid ▸ hver, hid, hcreated, hpay⟩
  refine ⟨first, happ.events_eq, ?_, ?_⟩
  · obtain ⟨o, hproject⟩ := happ.projected
    rw [hid, happ.stored.createdAt, hcreated, hpay, ← happ.events_eq] at hproject
    exact ⟨o, hproject⟩
  · intro row hrow
    have heq := hrow.row_eq hJ hinj hcommitted
    have hbytes : row.canonicalPayload = first.canonicalPayload := by rw [heq]
    refine ⟨?_, hbytes, ?_, ?_, ?_⟩
    · rw [heq]
      exact hid
    · rw [heq]
      exact happ.stored.createdAt.trans hcreated
    · intro ops originHex o lo hi hdec hle hmem
      obtain ⟨body, events, hbody, hread, hall⟩ :=
        eventsBody_reads hJ (peerInv_run hJ hinj ops).log.stored hdec hle
      obtain ⟨signed, hzip⟩ := forall₂_zip_mem hall hmem
      exact ⟨signed, originHex, o, lo, hi, body, events, hdec, hbody, hread, hzip⟩
    · intro ops signed hserved
      have hcopy := hserved.copyOf hJ (peerInv_run hJ hinj ops).log.stored
      exact (hcommitted.faithful hJ hinj hbytes hcopy).2

/-- An actor that peer A declares as its first event. -/
theorem relay_transparent_declare : ∃ s' eventId outcome,
    idealOpen.commitLocalEvent (idealOpen.syncRun Store.empty []) peerA declarePayload 1
      = .ok (s', eventId, outcome) ∧
    ∃ first, s'.events = (idealOpen.syncRun Store.empty []).events ++ [first] ∧
      (∃ o, idealOpen.project s'.events (idealOpen.syncRun Store.empty []).proj eventId 1 declarePayload
        = .ok (o, s'.proj)) ∧
      ∀ row, Relayed idealOpen first row →
        Transparent idealOpen peerA eventId 1 declarePayload first.canonicalPayload row := by
  have hinv : LogInv idealOpen (idealOpen.syncRun Store.empty []) := peerInv_empty.log
  have hdeclare : ∃ o, idealOpen.commitLocalEvent (idealOpen.syncRun Store.empty []) peerA
      declarePayload 1 = .ok (_, idealOpen.idOf (declareEvent idealOpen peerA), o) :=
    commit_apply idealOpen_laws idealOpen_injective hinv
      (by simp [Prims.syncRun, Store.empty, maxRows]) trivial rfl (effectOf_eq_effect rfl)
      (declareAt_admissible peerA _ _ 1 _)
  obtain ⟨o, hcommit⟩ := hdeclare
  exact ⟨_, _, o, hcommit, relay_transparent idealOpen idealOpen_laws idealOpen_injective peerA
    (idealOpen_signsCorrectly peerA) [] declarePayload 1 _ _ _ hcommit⟩

end OpenAgentGraph
