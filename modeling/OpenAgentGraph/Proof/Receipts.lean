/-
  The records of a transfer in the graphs of all peers.

  The peer that serves and the peer that fetches record a transfer each under
  the actor of its own key.  Wherever both records arrive, the edge between the
  two peers has two assertions of different actors, each with its receipt as
  evidence (`transfer_corroborated`).
-/
import OpenAgentGraph.Proof.Assert
import OpenAgentGraph.Proof.Attribution
import OpenAgentGraph.Proof.Correspond
import OpenAgentGraph.Proof.Corroboration
import OpenAgentGraph.Proof.History
import OpenAgentGraph.Proof.Possession
import OpenAgentGraph.Proof.Round
import OpenAgentGraph.Transfer.Record

namespace OpenAgentGraph

open Lib Repo

variable {H : Type} [DecidableEq H] {P : Prims H}

/-! ## What a graph shows of a record -/

section defs

variable {U ε : Type} (P) (L : UrlLib U ε)

/-- The actor of a peer's own key. -/
def peerActor (identity : Prims.PeerIdentity) : H :=
  P.derive Prims.actorIdPrefix (utf8 (hexEncode (identity.verifyingKey P).bytes))

/-- The node of a peer. -/
def peerNode (peerId : H) : H := P.nodeId (P.canonicalizeValue L (P.peerIdentifier peerId)).1

/-- The edge from the peer that serves to the peer that fetches. -/
def transferEdge (server client : H) : H :=
  P.edgeId (peerNode P L server) (P.predicate sentToPredicate) (peerNode P L client)

/-- An assertion of the peer's own actor on the edge of the transfer, with the
    receipt as evidence. -/
structure ShowsRecord (g : Projection H) (identity : Prims.PeerIdentity) (r : TransferRecord H)
    (x : AssertionRow H) : Prop where
  mem : x ∈ g.assertions
  edge : x.edgeId = transferEdge P L r.serverPeerId r.clientPeerId
  actor : x.actorId = peerActor P identity
  observedAt : x.observedAt = some r.servedAt
  receipt : ∃ item ∈ g.evidence, item.assertionId = x.id ∧ item.evidenceType = .serviceReceipt ∧
    item.uri = none ∧ item.contentHash = some r.contentHash ∧
    item.metadata = buildEvidenceMetadata (some r.cid) (some (P.transferMetadata r))

end defs

omit [DecidableEq H] in
/-- Different keys are different actors. -/
theorem peerActor_injective (hinj : Function.Injective P.blake3) {identity identity' : Prims.PeerIdentity}
    (h : peerActor P identity = peerActor P identity') :
    identity.verifyingKey P = identity'.verifyingKey P := by
  have hbytes := hexEncode_injective (utf8_injective (P.derive_injective hinj _ h))
  rw [← Option.some_inj, ← keyFromBytes_bytes, ← keyFromBytes_bytes, hbytes]

/-! ## What recording appends -/

/-- A commit of the service appends the event of its payload. -/
theorem commitEvent_row (hJ : JsonLaws P) {s s' : Store H} {me : Prims.PeerIdentity}
    {payload : EventPayload} {now : Int64} {id : H}
    (h : P.commitEvent s me payload now = .ok (s', id)) :
    (LogStored P s → LogStored P s') ∧
      ∃ row e, s'.events = s.events ++ [row] ∧ row ∉ s.events ∧ row.eventId = id ∧
        P.rowEffect row = some e ∧ P.effectOf id row.createdAt payload = some e := by
  obtain ⟨o, hcommit⟩ := commitEvent_ok.1 h
  obtain ⟨row, signed, happ, -, hid, ⟨hpay, -⟩, -⟩ := commit_appended hcommit
  obtain ⟨e, heff, hrow, -, -⟩ := happ.effect hJ
  refine ⟨happ.logStored, row, e, happ.events_eq, fun hmem => happ.fresh row hmem rfl, hid, hrow, ?_⟩
  rw [← hid, ← hpay]
  exact heff

/-- A declaration answers with an actor. -/
theorem commit_actorDeclared {s s' : Store H} {me : Prims.PeerIdentity} {p : ActorDeclarePayload}
    {now : Int64} {id : H} {o : ProjectionOutcome H}
    (h : P.commitLocalEvent s me (.actorDeclare p) now = .ok (s', id, o)) :
    ∃ actorId, o = .actorDeclared actorId := by
  obtain ⟨events, t, hproj⟩ := commit_outcome h
  simp only [Prims.project, bind_ok, pure_ok] at hproj
  obtain ⟨⟨actorId, g⟩, -, hpair⟩ := hproj
  cases hpair
  exact ⟨actorId, rfl⟩

/-- The declaration of an actor with a proved key. -/
theorem declareActor_keyed {s s' : Store H} {me : Prims.PeerIdentity} {actorType : ActorType}
    {name uri : Option String} {proof : PublicKeyProof} {now : Int64} {id : H}
    (h : P.declareActor s me actorType name uri (some proof) now = .ok (s', id)) :
    (LogStored P s → LogStored P s') ∧ s.events <+: s'.events ∧
      id = P.derive Prims.actorIdPrefix (utf8 (hexEncode proof.publicKey)) := by
  simp only [Prims.declareActor, bind_ok] at h
  obtain ⟨-, -, -, -, key, hkey, ⟨s₁, eventId, o⟩, hcommit, hout⟩ := h
  have hcommit := GraphError.lift_ok.1 hcommit
  obtain ⟨events, t, hproj⟩ := commit_outcome hcommit
  obtain ⟨row, signed, happ, -⟩ := commit_appended hcommit
  obtain ⟨actorId, rfl⟩ := commit_actorDeclared hcommit
  cases hout
  refine ⟨happ.logStored, happ.events_eq ▸ List.prefix_append _ _, ?_⟩
  obtain rfl : key = some (hexEncode proof.publicKey) := by
    rw [Prims.provedKey] at hkey
    split at hkey
    · cases hkey
    · dsimp only at hkey
      split at hkey
      · exact (Except.ok.inj hkey).symm
      · cases hkey
  exact (project_actorDeclare_ok hproj).1

/-- The two events of a record that the graph shows. -/
structure Recorded {U ε : Type} (P : Prims H) (L : UrlLib U ε) (s s' : Store H)
    (identity : Prims.PeerIdentity) (r : TransferRecord H) (id : H) : Prop where
  log : LogStored P s → LogStored P s'
  assertion : ∃ row e, row ∈ s'.events ∧ row ∉ s.events ∧ P.rowEffect row = some e ∧
    P.relationEffect id row.createdAt
      (P.relationPayload L ⟨peerActor P identity, [.graphAssert]⟩ (P.transferInput r)) = some e
  receipt : ∃ row e, row ∈ s'.events ∧ row ∉ s.events ∧ P.rowEffect row = some e ∧
    P.evidenceEffect row.eventId (P.evidencePayload id (P.transferEvidence r)) = some e

/-- An assertion without evidence is one commit. -/
theorem assert_bare {U ε : Type} {L : UrlLib U ε} {s s' : Store H} {me : Prims.PeerIdentity}
    {auth : AuthContext H} {input : AssertInput} {clock : ℕ → Int64} {id : H}
    (hbare : input.evidence = []) (h : P.assert L s me auth input clock = (s', .ok id)) :
    P.commitEvent s me (.assertRelation (P.relationPayload L auth input)) (clock 0) = .ok (s', id) := by
  cases hrelation : P.assertRelation L s me auth input (clock 0) with
  | error e =>
    rw [assert_rejected hrelation] at h
    cases h
  | ok r =>
    obtain ⟨s₁, id₁⟩ := r
    rw [assert_accepted hrelation, hbare] at h
    cases h
    simp only [Prims.assertRelation, bind_ok] at hrelation
    obtain ⟨-, -, -, -, hcommit⟩ := hrelation
    exact hcommit

theorem addEvidence_ok {s s' : Store H} {me : Prims.PeerIdentity} {auth : AuthContext H} {assertionId : H}
    {e : EvidenceInput} {now : Int64} (h : P.addEvidence s me auth assertionId e now = .ok s') :
    ∃ id, P.commitEvent s me (.addEvidence (P.evidencePayload assertionId e)) now = .ok (s', id) := by
  simp only [Prims.addEvidence, Prims.addEvidenceInternal, bind_ok] at h
  obtain ⟨-, -, -, -, hadd⟩ := h
  obtain ⟨⟨s₁, id⟩, hcommit, rfl⟩ := map_ok.1 hadd
  exact ⟨id, hcommit⟩

theorem recordTransfer_recorded (hJ : JsonLaws P) {U ε : Type} {L : UrlLib U ε} {s s' : Store H}
    {me : Prims.PeerIdentity} {r : TransferRecord H} {clock : ℕ → Int64} {id : H}
    (h : P.recordTransfer L s me r clock = (s', .ok id)) : Recorded P L s s' me r id := by
  rw [Prims.recordTransfer] at h
  split at h
  · cases h
  next s₁ actorId hdeclare =>
  obtain ⟨hlog, hgrow, hactor⟩ := declareActor_keyed hdeclare
  obtain rfl : actorId = peerActor P me := hactor
  dsimp only at h
  split at h
  · cases h
  next s₂ assertionId hassert =>
  split at h
  · cases h
  next s₃ hevidence =>
  cases h
  obtain ⟨hlog', row, e, hevents, hfresh, hid, heff, hrow⟩ := commitEvent_row hJ (assert_bare rfl hassert)
  obtain ⟨id', hcommit⟩ := addEvidence_ok hevidence
  obtain ⟨hlog'', row', e', hevents', hfresh', hid', heff', hrow'⟩ := commitEvent_row hJ hcommit
  refine ⟨fun h => hlog'' (hlog' (hlog h)),
    ⟨row, e, ?_, fun hmem => hfresh (hgrow.subset hmem), heff, hrow⟩, row', e', ?_,
    fun hmem => hfresh' ?_, heff', ?_⟩
  · rw [hevents', hevents]
    simp
  · rw [hevents']
    simp
  · rw [hevents]
    exact List.mem_append_left _ (hgrow.subset hmem)
  · rw [hid']
    exact hrow'

/-! ## What arrives is shown -/

omit [DecidableEq H] in
/-- A peer that has the event of a stored row emits its effect. -/
theorem emits_of_holds (hJ : JsonLaws P) (hinj : Function.Injective P.blake3) {s c : Store H}
    (hs : LogStored P s) (hc : LogStored P c) {row : EventRow H} {e : Effect H} (hrow : row ∈ s.events)
    (heff : P.rowEffect row = some e) (hholds : Holds c row.eventId) : Emits P c.events e := by
  obtain ⟨r, hr, hid⟩ := hholds
  refine ⟨r, hr, ?_⟩
  rw [EventRow.eq_of_sent (hc.sent_eq hJ hinj hs hr hrow hid)]
  exact heff

/-- What a peer emits is in its graph: an assertion but for its status, and
    evidence but for the texts that a redaction clears. -/
theorem DbInv.shown (hinj : Function.Injective P.blake3) {c : Store H} (h : DbInv P c) {e : Effect H}
    (he : Emits P c.events e) :
    (∀ r ∈ e.assertions, ∃ x ∈ c.proj.assertions, x.view = r.view) ∧
    (∀ r ∈ e.evidence, ∃ x ∈ c.proj.evidence, clearEvidence x = clearEvidence r) ∧
    ∀ r ∈ e.edges, hasEdge c.proj r.edgeId = true := by
  obtain ⟨g, hbuilt, -, hproj⟩ := h.replay.built
  rw [hproj, redactAll_eq]
  refine ⟨fun r hr => ?_, fun r hr => ?_, fun r hr => ?_⟩
  · exact List.mem_map.1 ((hbuilt.mem_assertions r.view).2 ⟨e, he, List.mem_map_of_mem hr⟩)
  · have hmem := (hbuilt.mem_appended Projection.evidence Effect.evidence rfl (fun _ _ => rfl) r).2 ⟨e, he, hr⟩
    refine ⟨_, List.mem_map_of_mem hmem, ?_⟩
    split <;> rfl
  · obtain ⟨x, hx, hview⟩ := List.mem_map.1
      (((hbuilt.edges_view hinj).2 r.view).2 ⟨e, he, List.mem_map_of_mem hr⟩)
    exact Table.hasKey_iff.2 ⟨x, hx, congrArg Prod.fst hview⟩

/-- An assertion of a peer's graph is active exactly if nothing challenges it. -/
theorem DbInv.active_iff {c : Store H} (h : DbInv P c) {x : AssertionRow H} (hx : x ∈ c.proj.assertions) :
    x.status = .active ↔ ¬ Challenged c.proj x.id := by
  obtain ⟨g, hbuilt, -, hproj⟩ := h.replay.built
  rw [hproj, redactAll_eq] at hx ⊢
  exact hbuilt.active_iff hx

/-- A record is shown by every peer that has its events. -/
theorem Recorded.shows (hJ : JsonLaws P) (hinj : Function.Injective P.blake3) {U ε : Type}
    {L : UrlLib U ε} {s s' c : Store H} {me : Prims.PeerIdentity} {r : TransferRecord H} {id : H}
    (h : Recorded P L s s' me r id) (hs : LogStored P s) (hc : DbInv P c)
    (harrived : ∀ row ∈ s'.events, row ∉ s.events → Holds c row.eventId) :
    hasEdge c.proj (transferEdge P L r.serverPeerId r.clientPeerId) = true ∧
      ∃ x, x.id = id ∧ ShowsRecord P L c.proj me r x := by
  have hs' := h.log hs
  obtain ⟨row, e, hrow, hnew, heff, hrelation⟩ := h.assertion
  obtain ⟨row', e', hrow', hnew', heff', hevidence⟩ := h.receipt
  obtain ⟨hasserted, -, hedges⟩ := hc.shown hinj
    (emits_of_holds hJ hinj hs' hc.log.stored hrow heff (harrived row hrow hnew))
  obtain ⟨-, hattached, -⟩ := hc.shown hinj
    (emits_of_holds hJ hinj hs' hc.log.stored hrow' heff' (harrived row' hrow' hnew'))
  simp only [Prims.relationEffect, Prims.relationPayload, parseId_toHex, toOption_eq_some,
    option_bind_some, option_pure_some, Except.ok.injEq] at hrelation
  obtain ⟨_, rfl, method, -, rfl⟩ := hrelation
  simp only [Prims.evidenceEffect, Prims.evidencePayload, parseId_toHex, toOption_eq_some,
    option_bind_some, option_pure_some, Except.ok.injEq] at hevidence
  obtain ⟨_, rfl, type, htype, rfl⟩ := hevidence
  obtain ⟨x, hx, hview⟩ := hasserted _ (List.mem_singleton_self _)
  obtain ⟨item, hitem, hclear⟩ := hattached _ (List.mem_singleton_self _)
  simp only [AssertionRow.view, AssertionRow.mk.injEq] at hview
  obtain ⟨hid, hedge, hactor, -, hobserved, -⟩ := hview
  simp only [clearEvidence, EvidenceRow.mk.injEq] at hclear
  obtain ⟨-, hof, hkind, huri, -, -, hhash, -, -, hmeta⟩ := hclear
  refine ⟨hedges _ (List.mem_singleton_self _), x, hid, ⟨hx, hedge, hactor, hobserved, item, hitem, ?_⟩⟩
  exact ⟨hof.trans hid.symm, hkind.trans (Option.some.inj htype).symm, huri, hhash, hmeta⟩

/-! ## The signals of the edge -/

theorem two_le_length {α : Type} {l : List α} {x y : α} (hx : x ∈ l) (hy : y ∈ l) (hne : x ≠ y) :
    2 ≤ l.length := by
  match l with
  | [] => cases hx
  | [z] => exact absurd ((List.mem_singleton.1 hx).trans (List.mem_singleton.1 hy).symm) hne
  | _ :: _ :: l => exact Nat.le_add_left 2 l.length

theorem half_le_sourceIndependenceOf {n : ℕ} (h : 2 ≤ n) : 1 / 2 ≤ sourceIndependenceOf n := by
  have hone : (1 : ℚ) ≤ ((n - 1 : ℕ) : ℚ) := by exact_mod_cast Nat.le_sub_of_add_le h
  refine le_max_of_le_right (le_min (by norm_num) ?_)
  linarith

/-- An assertion with an item of evidence without a URI counts for its actor. -/
theorem ShowsRecord.actorGroup {U ε : Type} {L : UrlLib U ε} {g : Projection H}
    {identity : Prims.PeerIdentity} {r : TransferRecord H} {x : AssertionRow H} (h : ShowsRecord P L g identity r x) {V δ : Type}
    (hosts : HostLib V δ) : "actor:" ++ P.toHex x.actorId ∈ assertionGroups P hosts g x := by
  obtain ⟨item, hitem, hof, -, huri, -⟩ := h.receipt
  have hmem : item ∈ g.evidence.filter fun item => item.assertionId = x.id := by
    simp [hitem, hof]
  unfold assertionGroups
  dsimp only
  split
  · next hnil =>
    rw [hnil] at hmem
    cases hmem
  · refine List.mem_map.2 ⟨item, hmem, ?_⟩
    rw [huri]
    rfl

/-- **Both sides corroborate a transfer.**  The peer that served and the peer
    that fetched each record it.  In whatever way a peer got the events of both
    records, its graph has on the edge between the two an assertion of either's
    own key with its receipt.  While neither is disputed, retracted or replaced,
    the edge has at least two actors, and its sources count as partly
    independent. -/
theorem transfer_corroborated (P : Prims H) (hJ : JsonLaws P) (hinj : Function.Injective P.blake3)
    {U ε V δ : Type} (L : UrlLib U ε) (hosts : HostLib V δ) (server client : Prims.PeerIdentity)
    (hne : server.verifyingKey P ≠ client.verifyingKey P) (opsA opsB opsC : List (DbOp P))
    (rA rB : TransferRecord H) (hserver : rB.serverPeerId = rA.serverPeerId)
    (hclient : rB.clientPeerId = rA.clientPeerId) (clockA clockB : ℕ → Int64) (a' b' : Store H)
    (idA idB : H)
    (hA : P.recordTransfer L (P.dbRun Database.empty opsA).store server rA clockA = (a', .ok idA))
    (hB : P.recordTransfer L (P.dbRun Database.empty opsB).store client rB clockB = (b', .ok idB))
    (hfromA : ∀ row ∈ a'.events, row ∉ (P.dbRun Database.empty opsA).store.events →
      Holds (P.dbRun Database.empty opsC).store row.eventId)
    (hfromB : ∀ row ∈ b'.events, row ∉ (P.dbRun Database.empty opsB).store.events →
      Holds (P.dbRun Database.empty opsC).store row.eventId) :
    let g := (P.dbRun Database.empty opsC).store.proj
    ∃ x y, x.id = idA ∧ y.id = idB ∧ x.actorId ≠ y.actorId ∧
      ShowsRecord P L g server rA x ∧ ShowsRecord P L g client rB y ∧
      ∃ signals, getEdgeCorroboration P hosts g (transferEdge P L rA.serverPeerId rA.clientPeerId)
          = .ok signals ∧ 2 ≤ signals.totalAssertions ∧
        (¬ Challenged g idA → ¬ Challenged g idB →
          2 ≤ signals.distinctActors ∧ 1 / 2 ≤ signals.sourceIndependence) := by
  intro g
  have hinv (ops : List (DbOp P)) : DbInv P (P.dbRun Database.empty ops).store :=
    @dbRun_dbInv _ _ _ hJ hinj Database.empty dbInv_empty ops
  have hc := hinv opsC
  obtain ⟨hedge, x, hidA, hx⟩ := (recordTransfer_recorded hJ hA).shows hJ hinj
    (hinv opsA).log.stored hc hfromA
  obtain ⟨-, y, hidB, hy⟩ := (recordTransfer_recorded hJ hB).shows hJ hinj
    (hinv opsB).log.stored hc hfromB
  have hactors : x.actorId ≠ y.actorId := by
    rw [hx.actor, hy.actor]
    exact fun h => hne (peerActor_injective hinj h)
  have hxy : x ≠ y := fun h => hactors (congrArg AssertionRow.actorId h)
  have hedgeB : y.edgeId = transferEdge P L rA.serverPeerId rA.clientPeerId := by
    rw [hy.edge, hserver, hclient]
  -- both are among the assertions of the edge
  have hmemA : x ∈ g.assertions.filter fun a => a.edgeId = transferEdge P L rA.serverPeerId rA.clientPeerId :=
    List.mem_filter.2 ⟨hx.mem, decide_eq_true hx.edge⟩
  have hmemB : y ∈ g.assertions.filter fun a => a.edgeId = transferEdge P L rA.serverPeerId rA.clientPeerId :=
    List.mem_filter.2 ⟨hy.mem, decide_eq_true hedgeB⟩
  refine ⟨x, y, hidA, hidB, hactors, hx, hy, _, if_pos hedge, two_le_length hmemA hmemB hxy,
    fun hfreeA hfreeB => ?_⟩
  have hactiveA : x.status = .active := (hc.active_iff hx.mem).2 (hidA ▸ hfreeA)
  have hactiveB : y.status = .active := (hc.active_iff hy.mem).2 (hidB ▸ hfreeB)
  replace hmemA := (List.mem_filter (p := fun a => a.status = .active)).2 ⟨hmemA, decide_eq_true hactiveA⟩
  replace hmemB := (List.mem_filter (p := fun a => a.status = .active)).2 ⟨hmemB, decide_eq_true hactiveB⟩
  have hgroups : "actor:" ++ P.toHex x.actorId ≠ "actor:" ++ P.toHex y.actorId :=
    fun h => hactors (P.toHex_injective (String.append_right_inj "actor:" |>.1 h))
  constructor
  · exact two_le_length (List.mem_dedup.2 (List.mem_map_of_mem hmemA))
      (List.mem_dedup.2 (List.mem_map_of_mem hmemB)) hactors
  · refine half_le_sourceIndependenceOf (two_le_length ?_ ?_ hgroups)
    · exact List.mem_mergeSort.2 (List.mem_dedup.2 (List.mem_flatMap.2 ⟨x, hmemA, hx.actorGroup hosts⟩))
    · exact List.mem_mergeSort.2 (List.mem_dedup.2 (List.mem_flatMap.2 ⟨y, hmemB, hy.actorGroup hosts⟩))

/-! ## A record that succeeds -/

/-- A commit that changes no status challenges nothing. -/
theorem commitEvent_challenged (hJ : JsonLaws P) (hinj : Function.Injective P.blake3) {s s' : Store H}
    (hinv : DbInv P s) {me : Prims.PeerIdentity} {payload : EventPayload} {now : Int64} {id : H}
    (hnone : P.payloadStatus payload = none) (h : P.commitEvent s me payload now = .ok (s', id)) (a : H) :
    Challenged s'.proj a ↔ Challenged s.proj a := by
  obtain ⟨-, -, -, -, e, heff, -, hproj⟩ := commitEvent_spec hJ hinj hinv h
  have hno := effectOf_challenges heff a
  rw [hnone] at hno
  rw [hproj]
  simp only [Challenged, Effect.apply, List.mem_append]
  grind

/-- A declaration with a key proof that verifies. -/
theorem declareActor_succeeds (hJ : JsonLaws P) (hinj : Function.Injective P.blake3) {s : Store H}
    (hinv : DbInv P s) (hroom : s.events.length < maxRows) (me : Prims.PeerIdentity)
    {actorType : ActorType} {key : P.VerifyingKey} {signature : Bytes}
    (hver : P.verifyWithDomain key actorKeyProofDomain (P.proofBytes actorType none none) signature = true)
    (now : Int64) :
    ∃ s' id, P.declareActor s me actorType none none (some ⟨key.bytes, signature⟩) now = .ok (s', id) ∧
      DbInv P s' ∧ s'.events.length = s.events.length + 1 ∧ hasActor s'.proj id = true ∧
      (∀ a, Challenged s'.proj a ↔ Challenged s.proj a) ∧ ∃ op, P.exec s op = some s' := by
  let payload : EventPayload := .actorDeclare ⟨actorType.asStr, none, some (hexEncode key.bytes), none⟩
  have hproved : P.provedKey actorType none none (some ⟨key.bytes, signature⟩)
      = .ok (some (hexEncode key.bytes)) := by
    rw [Prims.proofBytes] at hver
    simp only [Prims.provedKey, keyFromBytes_bytes, hver, if_true]
  have heff (id : H) : P.effectOf id now payload = some { actors :=
      [⟨P.actorIdOf id (some (hexEncode key.bytes)), actorType, none, some key.bytes, none, .emptyObj,
        now⟩] } := by
    simp only [payload, Prims.effectOf, Prims.actorEffect, ActorType.parse_asStr, declaredKey_hexEncode]
    rfl
  have hfin : payload.Finite := trivial
  obtain ⟨s', id, hcommit⟩ := commitEvent_succeeds hJ hinj hinv hroom hfin me now fun id =>
    ⟨_, heff id, ⟨by simp, by simp, by simp⟩, by simp [Effect.NewKeys]⟩
  obtain ⟨hdb, hlen, -, -, e, he, -, hproj⟩ := commitEvent_spec hJ hinj hinv hcommit
  obtain rfl := Option.some.inj ((heff id).symm.trans he)
  obtain ⟨o, hlocal⟩ := commitEvent_ok.1 hcommit
  obtain ⟨actorId, rfl⟩ := commit_actorDeclared hlocal
  have hid : actorId = P.actorIdOf id (some (hexEncode key.bytes)) := by
    obtain ⟨events, t, hproject⟩ := commit_outcome hlocal
    exact (project_actorDeclare_ok hproject).1
  refine ⟨s', actorId, ?_, hdb, hlen, ?_, commitEvent_challenged hJ hinj hinv rfl hcommit,
    .commit me payload now, ?_⟩
  · simp only [Prims.declareActor, checkOptLen, ok_bind, hproved]
    rw [hlocal]
    rfl
  · rw [hproj, hid]
    exact Table.hasKey_iff.2 (exists_key_addAll.2 (.inr ⟨_, List.mem_singleton_self _, rfl⟩))
  · rw [Prims.exec, hlocal]
    rfl

/-- An assertion without evidence that is accepted. -/
theorem assert_bare_ok {U ε : Type} {L : UrlLib U ε} {s s' : Store H} {me : Prims.PeerIdentity}
    {auth : AuthContext H} {input : AssertInput} (clock : ℕ → Int64) {id : H}
    (hbare : input.evidence = []) (h : P.assertRelation L s me auth input (clock 0) = .ok (s', id)) :
    P.assert L s me auth input clock = (s', .ok id) := by
  rw [assert_accepted h, hbare]
  rfl

theorem exec_commitEvent {s s' : Store H} {me : Prims.PeerIdentity} {payload : EventPayload} {now : Int64}
    {id : H} (h : P.commitEvent s me payload now = .ok (s', id)) :
    P.exec s (.commit me payload now) = some s' := by
  obtain ⟨o, hcommit⟩ := commitEvent_ok.1 h
  rw [Prims.exec, hcommit]
  rfl

omit [DecidableEq H] in
/-- Only the two peers' identifiers can be too long. -/
theorem transferInput_valid {r : TransferRecord H}
    (hserver : (utf8 (P.peerIdentifier r.serverPeerId)).length ≤ maxIdentifierLen)
    (hclient : (utf8 (P.peerIdentifier r.clientPeerId)).length ≤ maxIdentifierLen) :
    (P.transferInput r).validate P = .ok () := by
  have hcheck (field value : String) {max : ℕ} (h : (utf8 value).length ≤ max) :
      (checkLen field value max : Except (GraphError H) Unit) = .ok () := if_neg h.not_gt
  simp only [AssertInput.validate, Prims.transferInput, hcheck _ _ hserver, hcheck _ _ hclient, ok_bind]
  rfl

theorem run_three {s s₁ s₂ s₃ : Store H} {a b c : Op P} (ha : P.exec s a = some s₁)
    (hb : P.exec s₁ b = some s₂) (hc : P.exec s₂ c = some s₃) : P.run s [a, b, c] = s₃ := by
  simp [Prims.run, Prims.step, ha, hb, hc]

/-- A record whose fields are within the limits of the service is three
    commits, if the log has room for them. -/
theorem recordTransfer_succeeds (hJ : JsonLaws P) (hinj : Function.Injective P.blake3) {s : Store H}
    (hinv : DbInv P s) {U ε : Type} (L : UrlLib U ε) (me : Prims.PeerIdentity) (r : TransferRecord H)
    (clock : ℕ → Int64) (hroom : s.events.length + 2 < maxRows)
    (hver : P.verifyWithDomain (me.verifyingKey P) actorKeyProofDomain (P.proofBytes .peer none none)
      (P.signWithDomain me actorKeyProofDomain (P.proofBytes .peer none none)) = true)
    (hinput : (P.transferInput r).validate P = .ok ())
    (hreceipt : (P.transferEvidence r).validate P = .ok ()) :
    ∃ s' id ops, P.recordTransfer L s me r clock = (s', .ok id) ∧ P.run s ops = s' ∧
      s'.events.length = s.events.length + 3 ∧ ∀ a, Challenged s'.proj a ↔ Challenged s.proj a := by
  obtain ⟨s₁, actorId, hdeclare, hdb₁, hlen₁, hactor, hfree₁, op₁, hop₁⟩ :=
    declareActor_succeeds hJ hinj hinv (by omega) me hver (clock 0)
  have haccepted : Accepted P s₁ ⟨actorId, [.graphAssert]⟩ (P.transferInput r) := {
    permitted := by simp [AuthContext.require]
    valid := hinput
    finite := by rintro _ ⟨⟩
    declared := hactor
    room := by omega }
  obtain ⟨s₂, assertionId, hrelation⟩ := haccepted.assertRelation_ok hJ hinj hdb₁ L me (clock 1)
  have hattach := (assertRelation_ok hJ hinj hdb₁ hrelation).2
  have hassert := assert_bare_ok (fun n => clock (n + 1)) rfl hrelation
  have hlen₂ := hattach.length
  obtain ⟨s₃, hadd⟩ := attach_known hJ hinj hattach (by omega) (e := P.transferEvidence r) rfl me (clock 2)
  have hevidence : P.addEvidence s₂ me ⟨actorId, [.graphAssert]⟩ assertionId (P.transferEvidence r) (clock 2)
      = .ok s₃ := by
    rw [Prims.addEvidence, haccepted.permitted, ok_bind, hreceipt, ok_bind, hadd]
  have hlen₃ := (attach_ok hJ hinj hattach hadd).1.length
  have hrelate := assert_bare rfl hassert
  have hfree₂ := commitEvent_challenged hJ hinj hdb₁ rfl hrelate
  obtain ⟨id, hcommit⟩ := addEvidence_ok hevidence
  have hfree₃ := commitEvent_challenged hJ hinj hattach.db rfl hcommit
  refine ⟨s₃, assertionId, _, ?_, run_three hop₁ (exec_commitEvent hrelate) (exec_commitEvent hcommit),
    by omega, fun a => (hfree₃ a).trans ((hfree₂ a).trans (hfree₁ a))⟩
  have hproof : P.signActorKeyProof me .peer none none = ⟨(me.verifyingKey P).bytes,
      P.signWithDomain me actorKeyProofDomain (P.proofBytes .peer none none)⟩ := rfl
  rw [Prims.recordTransfer, hproof, hdeclare]
  dsimp only
  rw [hassert]
  dsimp only
  rw [hevidence]

/-! ## A transfer between two peers -/

section transferred

/-- The record of a fetch of 24 bytes from peer A by peer B. -/
noncomputable def fetchRecord (role : PeerRole) : TransferRecord Bytes where
  serverPeerId := peerA.peerId idealOpen
  clientPeerId := peerB.peerId idealOpen
  cid := "bafkreih"
  byteSize := 24
  clientNonceHex := "0a"
  serverNonceHex := "0b"
  contentHash := "0c"
  receiptHash := "0d"
  peerRole := role
  servedAt := 7
  extractionMethod := if role = .server then .direct else .verification
  relayedVia := none

theorem length_peerIdentifier {identity : Prims.PeerIdentity} (h : identity = peerA ∨ identity = peerB) :
    (utf8 (idealOpen.peerIdentifier (identity.peerId idealOpen))).length ≤ maxIdentifierLen := by
  simp only [Prims.peerIdentifier, Prims.peerIdToString, idealOpen, ideal_digestBytes,
    Prims.PeerIdentity.peerId, Prims.peerIdOfKey, Prims.PeerIdentity.verifyingKey, ideal_blake3,
    ideal_publicKey]
  rcases h with rfl | rfl <;> decide +kernel

theorem fetchRecord_receipt {role : PeerRole} :
    (idealOpen.transferEvidence (fetchRecord role)).validate idealOpen = .ok () := by
  have hlen : ¬ maxMetadataBytes
      < (idealOpen.toVec.write (idealOpen.transferMetadata (fetchRecord role)).val).length := by
    simp only [Prims.transferMetadata, fetchRecord, Prims.peerIdToString, idealOpen, ideal_digestBytes,
      Prims.PeerIdentity.peerId, Prims.peerIdOfKey, Prims.PeerIdentity.verifyingKey, ideal_blake3,
      ideal_publicKey, ideal_toVec, jsonBytes]
    cases role <;> decide +kernel
  simp only [EvidenceInput.validate, Prims.transferEvidence, validateMetadata, if_neg hlen]
  rfl

/-- The states in which both peers have recorded the fetch. -/
theorem fetchRecord_succeeds (me : Prims.PeerIdentity) (role : PeerRole) {s : Store Bytes}
    (hinv : DbInv idealOpen s) (hroom : s.events.length + 2 < maxRows) :
    ∃ s' id ops, idealOpen.recordTransfer idealUrl s me (fetchRecord role) (fun _ => 8) = (s', .ok id) ∧
      idealOpen.run s ops = s' ∧ s'.events.length = s.events.length + 3 ∧
      ∀ a, Challenged s'.proj a ↔ Challenged s.proj a := by
  refine recordTransfer_succeeds idealOpen_laws idealOpen_injective hinv idealUrl me _ _ hroom ?_
    (transferInput_valid (length_peerIdentifier (.inl rfl)) (length_peerIdentifier (.inr rfl)))
    fetchRecord_receipt
  simp [Prims.verifyWithDomain, Prims.signWithDomain, Prims.PeerIdentity.verifyingKey, idealOpen]

/-- Peer A records the fetch first; peer B has its record when it records the
    fetch as well, and shows both. -/
theorem transfer_corroborated_fetched :
    ∃ (ops : List (DbOp idealOpen)) (x y : AssertionRow Bytes),
      let g := (idealOpen.dbRun Database.empty ops).store.proj
      x.actorId ≠ y.actorId ∧ ShowsRecord idealOpen idealUrl g peerA (fetchRecord .server) x ∧
      ShowsRecord idealOpen idealUrl g peerB (fetchRecord .client) y ∧
      ∃ signals, getEdgeCorroboration idealOpen idealHost g (transferEdge idealOpen idealUrl
          (peerA.peerId idealOpen) (peerB.peerId idealOpen)) = .ok signals ∧
        2 ≤ signals.totalAssertions ∧ 2 ≤ signals.distinctActors ∧ 1 / 2 ≤ signals.sourceIndependence := by
  obtain ⟨a', idA, opsA, hA, hrunA, hlenA, hfreeA⟩ := fetchRecord_succeeds peerA .server
    (dbInv_empty (P := idealOpen)) (by simp [Store.empty, maxRows])
  let stores (ops : List (Op idealOpen)) : List (DbOp idealOpen) := ops.map fun op => .sync (.store op)
  have hstoreA : (idealOpen.dbRun Database.empty (stores opsA)).store = a' :=
    (dbRun_stores Database.empty opsA).trans hrunA
  have hinvA : DbInv idealOpen a' :=
    hstoreA ▸ @dbRun_dbInv _ _ _ idealOpen_laws idealOpen_injective Database.empty dbInv_empty (stores opsA)
  obtain ⟨b', idB, opsB, hB, hrunB, -, hfreeB⟩ := fetchRecord_succeeds peerB .client hinvA
    (by simp [hlenA, Store.empty, maxRows])
  have hstoreB : (idealOpen.dbRun (idealOpen.dbRun Database.empty (stores opsA)) (stores opsB)).store = b' := by
    rw [dbRun_stores, hstoreA, hrunB]
  have hextends : a'.events <+: b'.events := by
    rw [← hstoreB, ← hstoreA]
    exact (dbRun_extends idealOpen_laws idealOpen_injective (hstoreA ▸ hinvA) (stores opsB)).events
  have hfinal : (idealOpen.dbRun Database.empty (stores opsA ++ stores opsB)).store = b' := by
    rw [Prims.dbRun, List.foldl_append]
    exact hstoreB
  have hfree (id : Bytes) : ¬ Challenged b'.proj id := by
    rw [hfreeB, hfreeA]
    simp [Challenged, Store.empty, Projection.empty]
  have hholds (row : EventRow Bytes) (h : row ∈ b'.events) :
      Holds (idealOpen.dbRun Database.empty (stores opsA ++ stores opsB)).store row.eventId := by
    rw [hfinal]
    exact ⟨row, h, rfl⟩
  obtain ⟨x, y, rfl, rfl, hactors, hx, hy, signals, hedge, htotal, hcounts⟩ :=
    transfer_corroborated idealOpen idealOpen_laws idealOpen_injective idealUrl idealHost peerA peerB
      (fun h => peerA_ne_peerB (congrArg idealOpen.peerIdOfKey h)) [] (stores opsA)
      (stores opsA ++ stores opsB) (fetchRecord .server) (fetchRecord .client) rfl rfl (fun _ => 8)
      (fun _ => 8) a' b' idA idB hA (hstoreA.symm ▸ hB) (fun row h _ => hholds row (hextends.subset h))
      fun row h _ => hholds row h
  refine ⟨stores opsA ++ stores opsB, x, y, hactors, hx, hy, signals, hedge, htotal, ?_⟩
  rw [hfinal] at hcounts
  exact hcounts (hfree _) (hfree _)

end transferred

end OpenAgentGraph
