/-
  When an operation succeeds, and what it leaves.

  `ingest_apply` and `commit_apply`: an event that continues its origin's
  chain and whose effect is admissible is accepted, and the store after it is
  `appendRow`.
-/
import OpenAgentGraph.Proof.Replay

namespace OpenAgentGraph

open Lib Repo

variable {H : Type} {P : Prims H}

/-! ## Events as values -/

namespace Prims

variable (P : Prims H)

/-- The canonical bytes of an unsigned event. -/
def bodyBytes (u : UnsignedEvent) : Bytes := (P.canonicalUnsigned u).toOption.getD []

/-- The canonical bytes of a signed event. -/
def eventBytes (s : SignedEvent) : Bytes := (P.canonicalSigned s).toOption.getD []

/-- The id of a signed event. -/
def idOf (s : SignedEvent) : H := P.eventIdOf (P.eventBytes s)

/-- The event that a peer builds. -/
def eventOf (identity : PeerIdentity) (sequence : UInt64) (previous : Option H) (createdAt : Int64)
    (payload : EventPayload) : SignedEvent :=
  let unsigned : UnsignedEvent := ⟨currentVersion, P.peerIdToString (identity.peerId P), sequence,
    previous.map P.toHex, createdAt, payload⟩
  ⟨unsigned, hexEncode (P.signWithDomain identity eventIdPrefix (P.bodyBytes unsigned))⟩

/-- The row that stores an event. -/
def rowOf (s : SignedEvent) (origin : H) (previous : Option H) (receivedAt : Int64) : EventRow H :=
  { eventId := P.idOf s, originPeerId := origin, sequence := s.unsigned.sequence.toInt64,
    previousEventId := previous, eventType := s.unsigned.payload.typeStr,
    canonicalPayload := P.eventBytes s, createdAt := s.unsigned.createdAt,
    signature := (hexDecode s.signature).toOption.getD [], receivedAt := receivedAt }

end Prims

theorem body_of_finite {w : Serializer} (hw : w.Law P) {p : EventPayload} (h : p.Finite) :
    ∃ body, p.body w = .ok body := by
  cases p with
  | assertRelation p =>
    have hc : ∃ c, Write.optF32 w p.actorConfidence = .ok c := by
      cases hconf : p.actorConfidence with
      | none => exact ⟨_, rfl⟩
      | some b =>
        obtain ⟨n, hn, -⟩ := hw.f32_finite b (h b hconf)
        exact ⟨_, hn⟩
    obtain ⟨c, hc⟩ := hc
    simp only [EventPayload.body, AssertRelationPayload.fields, hc]
    exact ⟨_, rfl⟩
  | _ => exact ⟨_, rfl⟩

theorem fields_of_finite {w : Serializer} (hw : w.Law P) {u : UnsignedEvent}
    (h : u.payload.Finite) : ∃ fs, u.fields w = .ok fs := by
  obtain ⟨body, hbody⟩ := body_of_finite hw h
  simp only [UnsignedEvent.fields, EventPayload.fields, hbody]
  exact ⟨_, rfl⟩

/-- An event without an infinite or undefined confidence has canonical bytes. -/
theorem canonicalUnsigned_of_finite (hJ : JsonLaws P) {u : UnsignedEvent} (h : u.payload.Finite) :
    P.canonicalUnsigned u = .ok (P.bodyBytes u) := by
  obtain ⟨fs, hfs⟩ := fields_of_finite hJ.jcs h
  simp only [Prims.bodyBytes, Prims.canonicalUnsigned, UnsignedEvent.toJson, hfs]
  rfl

theorem canonicalSigned_of_finite (hJ : JsonLaws P) {s : SignedEvent}
    (h : s.unsigned.payload.Finite) : P.canonicalSigned s = .ok (P.eventBytes s) := by
  obtain ⟨fs, hfs⟩ := fields_of_finite hJ.jcs h
  simp only [Prims.eventBytes, Prims.canonicalSigned, SignedEvent.toJson, hfs]
  rfl

theorem eventBytes_eq {s : SignedEvent} {c : Bytes} (h : P.canonicalSigned s = .ok c) :
    P.eventBytes s = c := by
  rw [Prims.eventBytes, h]
  rfl

theorem Verified.idOf_eq {key : P.VerifyingKey} {s : SignedEvent} {eventId : H}
    (h : Verified P key s eventId) : P.idOf s = eventId := by
  obtain ⟨c, hc, rfl⟩ := h.derived
  rw [Prims.idOf, eventBytes_eq hc]

/-- Events of one id are read back as one event. -/
theorem same_of_idOf_eq (hJ : JsonLaws P) (hinj : Function.Injective P.blake3) {e e' : SignedEvent}
    (hfin : e.unsigned.payload.Finite) (hfin' : e'.unsigned.payload.Finite)
    (h : P.idOf e = P.idOf e') : ∃ r, e.Same r ∧ e'.Same r := by
  have hbytes : P.eventBytes e = P.eventBytes e' := P.derive_injective hinj _ h
  have hc := canonicalSigned_of_finite hJ hfin
  have hc' := canonicalSigned_of_finite hJ hfin'
  rw [← hbytes] at hc'
  obtain ⟨r, hr, hsame⟩ := Prims.signedFromSlice_canonical hJ hc
  obtain ⟨r', hr', hsame'⟩ := Prims.signedFromSlice_canonical hJ hc'
  obtain rfl : r = r' := Except.ok.inj (hr.symm.trans hr')
  exact ⟨r, hsame, hsame'⟩

/-- Building succeeds and gives that event. -/
theorem buildAndSign_eq (hJ : JsonLaws P) {identity : Prims.PeerIdentity} {sequence : UInt64}
    {previous : Option H} {createdAt : Int64} {payload : EventPayload} (h : payload.Finite) :
    P.buildAndSign identity sequence previous createdAt payload
      = .ok (P.eventOf identity sequence previous createdAt payload,
        P.idOf (P.eventOf identity sequence previous createdAt payload)) := by
  have hu := canonicalUnsigned_of_finite hJ (u := ⟨currentVersion,
    P.peerIdToString (identity.peerId P), sequence, previous.map P.toHex, createdAt, payload⟩) h
  have hs := canonicalSigned_of_finite hJ
    (s := P.eventOf identity sequence previous createdAt payload) h
  simp only [Prims.eventOf] at hs
  simp only [Prims.buildAndSign, hu, orElse, bind, Except.bind, hs, pure, Except.pure, Prims.eventOf,
    Prims.idOf]

/-- What a signature scheme satisfies: an honest signature verifies. -/
def SignsCorrectly (P : Prims H) (identity : Prims.PeerIdentity) : Prop :=
  ∀ m, P.verify (P.publicKey identity.signingKey) m (P.sign identity.signingKey m) = true

theorem idealOpen_signsCorrectly (identity : Prims.PeerIdentity) :
    SignsCorrectly idealOpen identity := by
  intro m
  simp [idealOpen]

theorem eventOf_verified (hJ : JsonLaws P) {identity : Prims.PeerIdentity} {sequence : UInt64}
    {previous : Option H} {createdAt : Int64} {payload : EventPayload} (h : payload.Finite)
    (hsign : SignsCorrectly P identity) :
    Verified P (identity.verifyingKey P) (P.eventOf identity sequence previous createdAt payload)
      (P.idOf (P.eventOf identity sequence previous createdAt payload)) where
  signature := by
    refine ⟨_, _, canonicalUnsigned_of_finite hJ h, hexDecode_hexEncode _, P.length_sign _ _, ?_⟩
    exact hsign _
  derived := ⟨_, canonicalSigned_of_finite hJ h, rfl⟩

variable [DecidableEq H]

/-! ## The next event -/

/-- The store after an event is appended. -/
def appendRow (s : Store H) (row : EventRow H) (e : Effect H) : Store H :=
  { s with
    events := s.events ++ [row]
    proj := e.apply s.proj
    eventOrigins := advanceOrigin s.eventOrigins row.originPeerId row.sequence row.eventId }

/-- The sequence number after an origin's head is free. -/
theorem LogInv.next_free {s : Store H} (hinv : LogInv P s) {o : H} {n : UInt64}
    {previous : Option H} (hnext : Prims.nextOf (getOrigin s.eventOrigins o) = (n, previous)) :
    ∀ r ∈ s.events, (r.originPeerId, r.sequence) ≠ (o, n.toInt64) := by
  intro r hr heq
  obtain ⟨ho, hseq⟩ := Prod.mk.inj heq
  have hchain := hinv.chain.chain o
  have hmem := mem_chainOf.2 ⟨hr, ho⟩
  have hbounds := hchain.seq_bounds hmem
  rw [hinv.chain.heads, headOf] at hnext
  cases hlast : (chainOf s o).getLast? with
  | none =>
    rw [List.getLast?_eq_none_iff.1 hlast] at hmem
    cases hmem
  | some last =>
    rw [hlast] at hnext
    simp only [Option.map_some, Prims.nextOf, Prod.mk.injEq] at hnext
    have hls := (hchain.last_seq hlast).2
    have hn := toInt_next_cases last.sequence
    rw [hnext.1] at hn
    simp only [hseq] at hbounds
    -- the numbers of a chain run from one to its length
    rcases hn with hn | hn
    · omega
    · omega

omit [DecidableEq H] in
/-- An event at a free sequence number has a new id. -/
theorem LogStored.fresh (hJ : JsonLaws P) (hinj : Function.Injective P.blake3) {s : Store H}
    (hlog : LogStored P s) {row : EventRow H} {signed : SignedEvent} (hrow : Stored P row signed)
    (hfree : ∀ r ∈ s.events, (r.originPeerId, r.sequence) ≠ (row.originPeerId, row.sequence)) :
    ∀ r ∈ s.events, r.eventId ≠ row.eventId := by
  intro r hr heq
  obtain ⟨signed₀, h₀⟩ := hlog r hr
  have hr' := hrow.eq_of_eventId hJ hinj h₀ heq.symm
  exact hfree r hr (by rw [hr'])

theorem insertEvent_free {events : List (EventRow H)} {row : EventRow H}
    (hid : ∀ r ∈ events, r.eventId ≠ row.eventId)
    (hseq : ∀ r ∈ events, (r.originPeerId, r.sequence) ≠ (row.originPeerId, row.sequence)) :
    insertEvent events row
      = if events.length < maxRows then .ok (events ++ [row], true) else .error (.sqlx .full) := by
  unfold insertEvent
  rw [Table.hasKey_eq_false.2 hid, Table.hasKey_eq_false.2 hseq, if_neg (by simp)]

theorem insertEvent_new {events : List (EventRow H)} {row : EventRow H}
    (hid : ∀ r ∈ events, r.eventId ≠ row.eventId)
    (hseq : ∀ r ∈ events, (r.originPeerId, r.sequence) ≠ (row.originPeerId, row.sequence))
    (hroom : events.length < maxRows) : insertEvent events row = .ok (events ++ [row], true) := by
  rw [insertEvent_free hid hseq, if_pos hroom]

omit [DecidableEq H] in
theorem rowOf_eq {signed : SignedEvent} {c sig : Bytes} (hc : P.canonicalSigned signed = .ok c)
    (hsig : hexDecode signed.signature = .ok sig) (origin : H) (previous : Option H)
    (receivedAt : Int64) : P.rowOf signed origin previous receivedAt
      = { eventId := P.idOf signed, originPeerId := origin,
          sequence := signed.unsigned.sequence.toInt64, previousEventId := previous,
          eventType := signed.unsigned.payload.typeStr, canonicalPayload := c,
          createdAt := signed.unsigned.createdAt, signature := sig, receivedAt := receivedAt } := by
  rw [Prims.rowOf, eventBytes_eq hc, hsig]
  rfl

omit [DecidableEq H] in
/-- The row that a verified event is stored in. -/
theorem Verified.stored_rowOf {key : P.VerifyingKey} {signed : SignedEvent} {previous : Option H}
    (hver : Verified P key signed (P.idOf signed))
    (horigin : P.peerIdFromStr signed.unsigned.originPeer = .ok (P.peerIdOfKey key))
    (hprev : P.parsePreviousEvent signed.unsigned.previousEvent = .ok previous)
    (receivedAt : Int64) :
    Stored P (P.rowOf signed (P.peerIdOfKey key) previous receivedAt) signed := by
  obtain ⟨-, sig, -, hsig, -, -⟩ := hver.signature
  obtain ⟨c, hc, hid⟩ := hver.derived
  rw [rowOf_eq hc hsig]
  exact ⟨hc, hid, horigin, rfl, hprev, rfl, rfl, hsig⟩

/-- **An event that continues its origin's chain is applied.** -/
theorem ingest_apply (hJ : JsonLaws P) (hinj : Function.Injective P.blake3) {s : Store H}
    (hinv : LogInv P s) (hroom : s.events.length < maxRows) (receivedAt : Int64)
    {key : P.VerifyingKey} {signed : SignedEvent} {previous : Option H} {e : Effect H}
    (hver : Verified P key signed (P.idOf signed))
    (horigin : P.peerIdFromStr signed.unsigned.originPeer = .ok (P.peerIdOfKey key))
    (hprev : P.parsePreviousEvent signed.unsigned.previousEvent = .ok previous)
    (hnext : Prims.nextOf (getOrigin s.eventOrigins (P.peerIdOfKey key))
      = (signed.unsigned.sequence, previous))
    (heff : P.effectOf (P.idOf signed) signed.unsigned.createdAt signed.unsigned.payload = some e)
    (hadm : e.Admissible s.proj) :
    ∃ o, P.ingestRemoteEvent s key signed receivedAt
      = .ok (appendRow s (P.rowOf signed (P.peerIdOfKey key) previous receivedAt) e,
        .applied (P.idOf signed) o) := by
  obtain ⟨-, sig, -, hsig, -, -⟩ := hver.signature
  obtain ⟨c, hc, -⟩ := hver.derived
  have hfree := hinv.next_free hnext
  have hfind := findEventIdAt_eq_none.2 hfree
  have hrow := rowOf_eq hc hsig (P.peerIdOfKey key) previous receivedAt
  have hstored := hver.stored_rowOf horigin hprev receivedAt
  have hins := insertEvent_new (hinv.stored.fresh hJ hinj hstored hfree) hfree hroom
  have hev : Table.hasKey EventRow.eventId (P.idOf signed)
      (s.events ++ [P.rowOf signed (P.peerIdOfKey key) previous receivedAt]) = true :=
    Table.hasKey_iff.2 ⟨_, List.mem_append_right _ (List.mem_singleton_self _), rfl⟩
  obtain ⟨o, hproj⟩ := (project_iff hev).2 ⟨e, heff, hadm, rfl⟩
  refine ⟨o, ?_⟩
  have hchain : P.validateChain signed.unsigned.sequence previous signed.unsigned.sequence previous
      = .ok () := by simp [Prims.validateChain]
  have happly : P.applyRemoteEvent s signed (P.idOf signed) (P.peerIdOfKey key) previous receivedAt
      = .ok (appendRow s (P.rowOf signed (P.peerIdOfKey key) previous receivedAt) e, o) := by
    simp only [Prims.applyRemoteEvent, hnext, hchain, hc, hsig, orElse, bind, Except.bind, ← hrow,
      hins, hproj, pure, Except.pure]
    rfl
  simp only [Prims.ingestRemoteEvent, verify_ok.2 hver, horigin, hprev, hfind, happly, orElse, bind,
    Except.bind, pure, Except.pure, ne_eq, not_true_eq_false, if_false]

/-- **A second event at a stored sequence number** is recorded as a fork. -/
theorem ingest_fork (hJ : JsonLaws P) {s : Store H} (receivedAt : Int64) {key : P.VerifyingKey}
    {signed : SignedEvent} {previous : Option H} {existing : H}
    (hfin : signed.unsigned.payload.Finite) (hver : Verified P key signed (P.idOf signed))
    (horigin : P.peerIdFromStr signed.unsigned.originPeer = .ok (P.peerIdOfKey key))
    (hprev : P.parsePreviousEvent signed.unsigned.previousEvent = .ok previous)
    (hfind : findEventIdAt s.events (P.peerIdOfKey key) signed.unsigned.sequence.toInt64
      = some existing) (hne : existing ≠ P.idOf signed) :
    ∃ json, P.ingestRemoteEvent s key signed receivedAt = .ok ({ s with
      peers := markForked (upsertPeer s.peers (P.peerIdOfKey key) key.bytes none receivedAt)
        (P.peerIdOfKey key)
      peerForks := recordFork s.peerForks ⟨P.peerIdOfKey key, signed.unsigned.sequence.toInt64,
        existing, P.idOf signed, receivedAt, json⟩ }, .forked existing (P.idOf signed)) := by
  obtain ⟨fs, hfs⟩ := fields_of_finite hJ.toVec hfin
  have hjson : ∃ json, P.toVec.write <$> signed.toJson P.toVec = .ok json := by
    simp only [SignedEvent.toJson, hfs]
    exact ⟨_, rfl⟩
  obtain ⟨json, hjson⟩ := hjson
  refine ⟨json, ?_⟩
  simp only [Prims.ingestRemoteEvent, verify_ok.2 hver, horigin, hprev, hfind, hne,
    Prims.recordForkOf, hjson, orElse, bind, Except.bind, pure, Except.pure, ne_eq,
    not_true_eq_false, if_false]

omit [DecidableEq H] in
theorem hexDecode_eventOf (identity : Prims.PeerIdentity) (n : UInt64) (previous : Option H)
    (createdAt : Int64) (payload : EventPayload) :
    hexDecode (P.eventOf identity n previous createdAt payload).signature
      = .ok (P.rowOf (P.eventOf identity n previous createdAt payload) (identity.peerId P) previous
        createdAt).signature := by
  change hexDecode (hexEncode _) = .ok ((hexDecode (hexEncode _)).toOption.getD [])
  rw [hexDecode_hexEncode]
  rfl

omit [DecidableEq H] in
/-- The row that the peer's own event is stored in. -/
theorem eventOf_stored (hJ : JsonLaws P) (identity : Prims.PeerIdentity) (n : UInt64)
    (previous : Option H) (createdAt : Int64) {payload : EventPayload} (hfin : payload.Finite) :
    Stored P (P.rowOf (P.eventOf identity n previous createdAt payload) (identity.peerId P) previous
      createdAt) (P.eventOf identity n previous createdAt payload) :=
  ⟨canonicalSigned_of_finite hJ hfin, rfl, P.peerIdFromStr_peerIdToString _, rfl,
    parsePreviousEvent_toHex _, rfl, rfl, hexDecode_eventOf identity n previous createdAt payload⟩

/-- The peer's next event is a new one. -/
theorem LogInv.eventOf_fresh (hJ : JsonLaws P) (hinj : Function.Injective P.blake3) {s : Store H}
    (hinv : LogInv P s) {identity : Prims.PeerIdentity} {n : UInt64} {previous : Option H}
    {createdAt : Int64} {payload : EventPayload} (hfin : payload.Finite)
    (hnext : Prims.nextOf (getOrigin s.eventOrigins (identity.peerId P)) = (n, previous)) :
    ∀ r ∈ s.events, r.eventId ≠ P.idOf (P.eventOf identity n previous createdAt payload) :=
  hinv.stored.fresh hJ hinj (eventOf_stored hJ identity n previous createdAt hfin)
    (hinv.next_free hnext)

/-- **A commit is its projection**, if the log has room for one more row: the
    event is new whatever the payload says. -/
theorem commit_eq (hJ : JsonLaws P) (hinj : Function.Injective P.blake3) {s : Store H}
    (hinv : LogInv P s) {identity : Prims.PeerIdentity} {payload : EventPayload} {createdAt : Int64}
    {n : UInt64} {previous : Option H} (hfin : payload.Finite)
    (hnext : Prims.nextOf (getOrigin s.eventOrigins (identity.peerId P)) = (n, previous)) :
    let signed := P.eventOf identity n previous createdAt payload
    let row := P.rowOf signed (identity.peerId P) previous createdAt
    P.commitLocalEvent s identity payload createdAt
      = if s.events.length < maxRows then
          (P.project (s.events ++ [row]) s.proj (P.idOf signed) createdAt payload).map fun r =>
            ({ s with
              events := s.events ++ [row]
              proj := r.2
              eventOrigins := advanceOrigin s.eventOrigins (identity.peerId P) n.toInt64 (P.idOf signed) },
              P.idOf signed, r.1)
        else .error (.storage (.sqlx .full)) := by
  intro signed row
  have hbuild : P.buildAndSign identity n previous createdAt payload = .ok (signed, P.idOf signed) :=
    buildAndSign_eq hJ hfin
  have hc : P.canonicalSigned signed = .ok (P.eventBytes signed) := canonicalSigned_of_finite hJ hfin
  have hsig : hexDecode signed.signature = .ok row.signature :=
    hexDecode_eventOf identity n previous createdAt payload
  have hins : insertEvent s.events row = _ :=
    insertEvent_free (hinv.eventOf_fresh hJ hinj hfin hnext) (hinv.next_free hnext)
  have hrow : EventRow.mk (P.idOf signed) (identity.peerId P) n.toInt64 previous
      signed.unsigned.payload.typeStr (P.eventBytes signed) createdAt row.signature createdAt
        = row := rfl
  have hpay : signed.unsigned.payload = payload := rfl
  by_cases hroom : s.events.length < maxRows
  · rw [if_pos hroom] at hins ⊢
    simp only [Prims.commitLocalEvent, hnext, hbuild, hc, hsig, orElse, bind, Except.bind, hrow, hins,
      Bool.not_true, Bool.false_eq_true, if_false]
    rw [hpay]
    cases P.project (s.events ++ [row]) s.proj (P.idOf signed) createdAt payload with
    | error e => rfl
    | ok r => rfl
  · rw [if_neg hroom] at hins ⊢
    simp only [Prims.commitLocalEvent, hnext, hbuild, hc, hsig, orElse, bind, Except.bind, hrow, hins]

/-- **A commit whose effect is admissible succeeds.** -/
theorem commit_apply (hJ : JsonLaws P) (hinj : Function.Injective P.blake3) {s : Store H}
    (hinv : LogInv P s) (hroom : s.events.length < maxRows) {identity : Prims.PeerIdentity}
    {payload : EventPayload} {createdAt : Int64} {n : UInt64} {previous : Option H} {e : Effect H}
    (hfin : payload.Finite)
    (hnext : Prims.nextOf (getOrigin s.eventOrigins (identity.peerId P)) = (n, previous))
    (heff : P.effectOf (P.idOf (P.eventOf identity n previous createdAt payload)) createdAt payload
      = some e) (hadm : e.Admissible s.proj) :
    ∃ o, P.commitLocalEvent s identity payload createdAt
      = .ok (appendRow s (P.rowOf (P.eventOf identity n previous createdAt payload)
          (identity.peerId P) previous createdAt) e,
        P.idOf (P.eventOf identity n previous createdAt payload), o) := by
  have hev : Table.hasKey EventRow.eventId (P.idOf (P.eventOf identity n previous createdAt payload))
      (s.events ++ [P.rowOf (P.eventOf identity n previous createdAt payload) (identity.peerId P)
        previous createdAt]) = true :=
    Table.hasKey_iff.2 ⟨_, List.mem_append_right _ (List.mem_singleton_self _), rfl⟩
  obtain ⟨o, hproj⟩ := (project_iff hev).2 ⟨e, heff, hadm, rfl⟩
  refine ⟨o, ?_⟩
  rw [commit_eq hJ hinj hinv hfin hnext, if_pos hroom, hproj]
  rfl

/-! ## Admissibility of new nodes and edges -/

/-- An identifier that is taken has its id taken. -/
theorem foldl_addNode {rows t : List (NodeRow H)}
    (ht : ∀ y ∈ t, y.nodeId = P.nodeId y.canonicalIdentifier)
    (hrows : ∀ r ∈ rows, r.nodeId = P.nodeId r.canonicalIdentifier) :
    rows.foldl addNode t = addAll NodeRow.nodeId rows t := by
  induction rows generalizing t with
  | nil => rfl
  | cons r rows ih =>
    have hr := hrows r (List.mem_cons_self ..)
    have hadd : addNode t r = Table.insertOrIgnore NodeRow.nodeId r t := by
      unfold addNode
      split
      · rename_i htaken
        obtain ⟨y, hy, hyr⟩ := Table.hasKey_iff.1 htaken
        exact (Table.insertOrIgnore_of_mem ⟨y, hy, by rw [ht y hy, hr, hyr]⟩).symm
      · rfl
    have ht' : ∀ y ∈ Table.insertOrIgnore NodeRow.nodeId r t,
        y.nodeId = P.nodeId y.canonicalIdentifier := by
      intro y hy
      rcases Table.mem_insertOrIgnore.1 hy with hy | ⟨rfl, -⟩
      · exact ht y hy
      · exact hr
    rw [List.foldl_cons, hadd]
    exact ih ht' fun r' hr' => hrows r' (List.mem_cons_of_mem _ hr')

/-- The ends of an event's edges are nodes after the event. -/
theorem Effect.Spec.hasNode {p : EventPayload} {e : Effect H} (h : e.Spec P p) {g : Projection H}
    (hg : ∀ y ∈ g.nodes, y.nodeId = P.nodeId y.canonicalIdentifier) :
    ∀ r ∈ e.edges, Repo.hasNode (e.apply g) r.subject = true ∧
      Repo.hasNode (e.apply g) r.object = true := by
  have hnode : ∀ id, (∃ n ∈ e.nodes, n.nodeId = id) → Repo.hasNode (e.apply g) id = true := by
    intro id hid
    have hfold : (e.apply g).nodes = addAll NodeRow.nodeId e.nodes g.nodes :=
      foldl_addNode hg h.nodes
    rw [Repo.hasNode, hfold, Table.hasKey_iff]
    exact exists_key_addAll.2 (Or.inr hid)
  intro r hr
  exact ⟨hnode _ (h.endpoints r hr).1, hnode _ (h.endpoints r hr).2⟩

omit [DecidableEq H] in
theorem parseId_toHex (h : H) : P.parseId (P.toHex h) = .ok h := by
  simp [Prims.parseId, orElse]

/-! ## Runs of accepted events -/

/-- The effect of a signed event. -/
def Prims.effect (P : Prims H) (s : SignedEvent) : Effect H :=
  (P.effectOf (P.idOf s) s.unsigned.createdAt s.unsigned.payload).getD {}

omit [DecidableEq H] in
theorem effectOf_eq_effect {s : SignedEvent}
    (h : (P.effectOf (P.idOf s) s.unsigned.createdAt s.unsigned.payload).isSome = true) :
    P.effectOf (P.idOf s) s.unsigned.createdAt s.unsigned.payload = some (P.effect s) := by
  obtain ⟨e, he⟩ := Option.isSome_iff_exists.1 h
  rw [Prims.effect, he]
  rfl

/-- One more commit, by the peer whose next event it is. -/
theorem run_commit (hJ : JsonLaws P) (hinj : Function.Injective P.blake3) (ops : List (Op P))
    {s : Store H} (hs : P.run Store.empty ops = s) (hroom : s.events.length < maxRows)
    {identity : Prims.PeerIdentity} {n : UInt64} {previous : Option H} {createdAt : Int64}
    {payload : EventPayload} (hfin : payload.Finite)
    (hnext : Prims.nextOf (getOrigin s.eventOrigins (identity.peerId P)) = (n, previous))
    (hsome : (P.effectOf (P.idOf (P.eventOf identity n previous createdAt payload)) createdAt
      payload).isSome = true)
    (hadm : (P.effect (P.eventOf identity n previous createdAt payload)).Admissible s.proj) :
    P.run Store.empty (ops ++ [.commit identity payload createdAt])
      = appendRow s (P.rowOf (P.eventOf identity n previous createdAt payload) (identity.peerId P)
          previous createdAt) (P.effect (P.eventOf identity n previous createdAt payload)) := by
  have hinv : LogInv P s := hs ▸ logInv_run hJ hinj ops
  obtain ⟨o, h⟩ := commit_apply hJ hinj hinv hroom hfin hnext (effectOf_eq_effect hsome) hadm
  rw [Prims.run_append, hs, Prims.step, Prims.exec, h]
  rfl

/-- One more event of a remote peer. -/
theorem run_ingest (hJ : JsonLaws P) (hinj : Function.Injective P.blake3) (ops : List (Op P))
    {s : Store H} (hs : P.run Store.empty ops = s) (hroom : s.events.length < maxRows)
    {identity : Prims.PeerIdentity} (hsign : SignsCorrectly P identity) {n : UInt64}
    {previous : Option H} {createdAt receivedAt : Int64} {payload : EventPayload}
    (hfin : payload.Finite)
    (hnext : Prims.nextOf (getOrigin s.eventOrigins (identity.peerId P)) = (n, previous))
    (hsome : (P.effectOf (P.idOf (P.eventOf identity n previous createdAt payload)) createdAt
      payload).isSome = true)
    (hadm : (P.effect (P.eventOf identity n previous createdAt payload)).Admissible s.proj) :
    P.run Store.empty (ops ++ [.ingest (identity.verifyingKey P)
        (P.eventOf identity n previous createdAt payload) receivedAt])
      = appendRow s (P.rowOf (P.eventOf identity n previous createdAt payload) (identity.peerId P)
          previous receivedAt) (P.effect (P.eventOf identity n previous createdAt payload)) := by
  have hinv : LogInv P s := hs ▸ logInv_run hJ hinj ops
  obtain ⟨o, h⟩ := ingest_apply hJ hinj hinv hroom receivedAt
    (eventOf_verified hJ hfin hsign) (P.peerIdFromStr_peerIdToString _)
    (parsePreviousEvent_toHex previous) hnext (effectOf_eq_effect hsome) hadm
  rw [Prims.run_append, hs, Prims.step, Prims.exec, h]
  rfl

/-- The origin's next event, after an event of its own. -/
theorem nextOf_appendRow_self (s : Store H) (row : EventRow H) (e : Effect H) :
    Prims.nextOf (getOrigin (appendRow s row e).eventOrigins row.originPeerId)
      = (row.sequence.toUInt64 + 1, some row.eventId) := by
  simp [appendRow, getOrigin_advance, Prims.nextOf]

theorem nextOf_appendRow_ne {s : Store H} {row : EventRow H} {e : Effect H} {o : H}
    (h : row.originPeerId ≠ o) : Prims.nextOf (getOrigin (appendRow s row e).eventOrigins o)
      = Prims.nextOf (getOrigin s.eventOrigins o) := by
  simp [appendRow, getOrigin_advance, h]

/-! ## A declared actor, as a peer's first event -/

def declarePayload : EventPayload := .actorDeclare ⟨"human", none, none, none⟩

def declareEvent (P : Prims H) (identity : Prims.PeerIdentity) : SignedEvent :=
  P.eventOf identity 1 none 1 declarePayload

def declaredActor (P : Prims H) (identity : Prims.PeerIdentity) : H :=
  P.actorIdOf (P.idOf (declareEvent P identity)) none

omit [DecidableEq H] in
theorem declare_effect (identity : Prims.PeerIdentity) : P.effect (declareEvent P identity)
    = { actors := [⟨declaredActor P identity, .human, none, none, none, .emptyObj, 1⟩] } := rfl

/-- A declaration of an actor meets no obstacle, wherever it stands in the chain. -/
theorem declareAt_admissible (identity : Prims.PeerIdentity) (n : UInt64) (previous : Option H)
    (t : Int64) (g : Projection H) :
    (P.effect (P.eventOf identity n previous t declarePayload)).Admissible g := by
  have heq : P.effect (P.eventOf identity n previous t declarePayload)
      = { actors := [⟨P.actorIdOf (P.idOf (P.eventOf identity n previous t declarePayload)) none, .human,
        none, none, none, .emptyObj, t⟩] } := rfl
  rw [heq]
  constructor <;> simp

theorem declare_admissible (identity : Prims.PeerIdentity) (g : Projection H) :
    (P.effect (declareEvent P identity)).Admissible g :=
  declareAt_admissible identity 1 none 1 g

/-- A declared actor of another peer, as the first event ever. -/
theorem run_declare (hJ : JsonLaws P) (hinj : Function.Injective P.blake3)
    {identity : Prims.PeerIdentity} (hsign : SignsCorrectly P identity) (receivedAt : Int64) :
    P.run Store.empty [.ingest (identity.verifyingKey P) (declareEvent P identity) receivedAt]
      = appendRow Store.empty (P.rowOf (declareEvent P identity) (identity.peerId P) none receivedAt)
          (P.effect (declareEvent P identity)) :=
  run_ingest hJ hinj [] rfl (by simp [Store.empty, maxRows]) hsign trivial rfl rfl (declare_admissible identity _)

end OpenAgentGraph
