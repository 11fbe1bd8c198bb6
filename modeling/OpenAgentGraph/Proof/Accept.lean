/-
  When the next event of an origin is accepted.

  An event that continues the chain, and whose references are there, meets
  two obstacles at most (`next_applied_iff`): the head that is stored for its
  origin is not the event before it, or it adds an API key whose hash has a
  row.  All other tables are keyed by event ids and cannot be in the way.
-/
import OpenAgentGraph.Proof.Correspond
import OpenAgentGraph.Proof.Keys
import OpenAgentGraph.Proof.Serve

namespace OpenAgentGraph

open Lib Repo

variable {H : Type} [DecidableEq H] {P : Prims H}

/-! ## Tables keyed by event ids -/

theorem Built.id_stored {α : Type} {T : LogTable H α} (hT : T.Lawful P) {rows : List (EventRow H)}
    {g : Projection H} (h : Built P rows g) {r : α} (hr : r ∈ T.table g) :
    ∃ row ∈ rows, row.eventId = T.id r := by
  have hmem : T.view r ∈ rows.flatMap (T.rowsOf P) := h.table_eq hT ▸ List.mem_map_of_mem hr
  obtain ⟨row, hrow, hview⟩ := List.mem_flatMap.1 hmem
  obtain ⟨e, heff⟩ := h.effect hrow
  obtain ⟨p, -, heff'⟩ := rowEffect_some heff
  simp only [LogTable.rowsOf, heff] at hview
  refine ⟨row, hrow, ?_⟩
  obtain ⟨hone, hnone⟩ := hT.rows _ _ _ _ heff'
  by_cases htype : p.typeStr = T.eventType
  · obtain ⟨r', hr', hid⟩ := hone htype
    rw [hr', List.map_singleton, List.mem_singleton] at hview
    rw [← hid, ← hT.id_view r', ← hview, hT.id_view]
  · rw [hnone htype] at hview
    cases hview

/-- A new event finds its own id in no table. -/
theorem ReplayInv.fresh {α : Type} {T : LogTable H α} (hT : T.Lawful P)
    (hred : ∀ (s : Store H) g, (T.table (Prims.redactAll s g)).map T.id = (T.table g).map T.id)
    {s : Store H} (hinv : ReplayInv P s) {eventId : H} {createdAt : Int64} {p : EventPayload}
    {e : Effect H} (heff : P.effectOf eventId createdAt p = some e)
    (hfresh : ∀ row ∈ s.events, row.eventId ≠ eventId) :
    ∀ r ∈ T.rows e, ∀ y ∈ T.table s.proj, T.id y ≠ T.id r := by
  intro r hr y hy heq
  have hid : T.id r = eventId := by
    obtain ⟨hone, hnone⟩ := hT.rows _ _ _ _ heff
    by_cases htype : p.typeStr = T.eventType
    · obtain ⟨r', hr', hid⟩ := hone htype
      rw [hr', List.mem_singleton] at hr
      rw [hr, hid]
    · rw [hnone htype] at hr
      cases hr
  obtain ⟨g, hbuilt, -, hproj⟩ := hinv.built
  have hmem : T.id y ∈ (T.table g).map T.id := by
    rw [← hred s g, ← hproj]
    exact List.mem_map_of_mem hy
  obtain ⟨z, hz, hzy⟩ := List.mem_map.1 hmem
  obtain ⟨row, hrow, hrowid⟩ := hbuilt.id_stored hT hz
  exact hfresh row hrow (hrowid.trans (hzy.trans (heq.trans hid)))

/-! ## What an event needs -/

/-- Everything that the event refers to is there. -/
structure Effect.References (e : Effect H) (g : Projection H) : Prop where
  nodes : ∀ id ∈ e.needNodes, hasNode g id = true
  actors : ∀ id ∈ e.needActors, hasActor g id = true
  assertions : ∀ id ∈ e.needAssertions, hasAssertion g id = true

/-- No key that the event adds has a row. -/
def Effect.NewKeys (e : Effect H) (g : Projection H) : Prop :=
  ∀ r ∈ e.actorKeys, ∀ y ∈ g.actorKeys, y.keyHash ≠ r.keyHash

/-- A new event whose references are there is admissible exactly if its keys
    are new. -/
theorem ReplayInv.admissible_iff (hinj : Function.Injective P.blake3) {s : Store H}
    (hinv : ReplayInv P s) {eventId : H} {createdAt : Int64} {p : EventPayload} {e : Effect H}
    (heff : P.effectOf eventId createdAt p = some e)
    (hfresh : ∀ row ∈ s.events, row.eventId ≠ eventId) (hrefs : e.References s.proj) :
    e.Admissible s.proj ↔ e.NewKeys s.proj := by
  refine ⟨fun h => h.actorKeys, fun hkeys => ?_⟩
  obtain ⟨g, hbuilt, -, hproj⟩ := hinv.built
  have hnodes : ∀ y ∈ s.proj.nodes, y.nodeId = P.nodeId y.canonicalIdentifier := by
    rw [hproj, redactAll_eq]
    exact (hbuilt.nodes_view hinj).1
  have hsame : ∀ (s : Store H) (g : Projection H),
      (Prims.redactAll s g).evidence.map EvidenceRow.id = g.evidence.map EvidenceRow.id := by
    intro s g
    rw [redactAll_eq]
    exact map_clearIds EvidenceRow.id clearEvidence (fun _ => rfl) _ _
  exact {
    edges := fun r hr => Or.inr ((effectOf_spec heff).hasNode hnodes r hr)
    needNodes := hrefs.nodes
    needActors := hrefs.actors
    needAssertions := hrefs.assertions
    actorKeys := hkeys
    assertions := hinv.fresh LogTable.assertions_lawful (fun s g => by rw [redactAll_eq]; rfl) heff hfresh
    evidence := hinv.fresh LogTable.evidence_lawful hsame heff hfresh
    observations := hinv.fresh LogTable.observations_lawful (fun s g => by rw [redactAll_eq]; rfl) heff hfresh
    disputes := hinv.fresh LogTable.disputes_lawful (fun s g => by rw [redactAll_eq]; rfl) heff hfresh
    retractions := hinv.fresh LogTable.retractions_lawful (fun s g => by rw [redactAll_eq]; rfl) heff hfresh
    supersessions :=
      hinv.fresh LogTable.supersessions_lawful (fun s g => by rw [redactAll_eq]; rfl) heff hfresh }

/-! ## The next event -/

/-- **When the next event of an origin is applied.** -/
theorem next_applied_iff (hJ : JsonLaws P) (hinj : Function.Injective P.blake3) {s : Store H}
    (hlog : LogInv P s) (hrep : ReplayInv P s) (hroom : s.events.length < maxRows) (now : Int64)
    {key : P.VerifyingKey} {signed : SignedEvent} {previous : Option H} {e : Effect H}
    (hver : Verified P key signed (P.idOf signed))
    (horigin : P.peerIdFromStr signed.unsigned.originPeer = .ok (P.peerIdOfKey key))
    (hprev : P.parsePreviousEvent signed.unsigned.previousEvent = .ok previous)
    (hseq : (Prims.nextOf (getOrigin s.eventOrigins (P.peerIdOfKey key))).1 = signed.unsigned.sequence)
    (heff : P.effectOf (P.idOf signed) signed.unsigned.createdAt signed.unsigned.payload = some e)
    (hrefs : e.References s.proj) :
    (∃ s' id o, P.ingestRemoteEvent s key signed now = .ok (s', .applied id o)) ↔
      (Prims.nextOf (getOrigin s.eventOrigins (P.peerIdOfKey key))).2 = previous ∧
        e.NewKeys s.proj := by
  constructor
  · rintro ⟨s', id, o, h⟩
    obtain ⟨row, happ, -⟩ := applied_appended hJ hinj hlog.stored h
    have ho : P.peerIdOfKey key = row.originPeerId :=
      Except.ok.inj (horigin.symm.trans happ.stored.origin)
    have hp : previous = row.previousEventId := Except.ok.inj (hprev.symm.trans happ.stored.previous)
    have hid : row.eventId = P.idOf signed := by
      rw [happ.stored.eventId, Prims.idOf, eventBytes_eq happ.stored.canonical]
    obtain ⟨e', heff', -, hadm, -⟩ := happ.effect hJ
    rw [hid, happ.stored.createdAt] at heff'
    obtain rfl : e = e' := Option.some.inj (heff.symm.trans heff')
    refine ⟨?_, hadm.actorKeys⟩
    rw [ho, hp, happ.next]
  · rintro ⟨hhead, hkeys⟩
    have hnext : Prims.nextOf (getOrigin s.eventOrigins (P.peerIdOfKey key))
        = (signed.unsigned.sequence, previous) := Prod.ext hseq hhead
    have hfree := hlog.next_free hnext
    have hfresh : ∀ row ∈ s.events, row.eventId ≠ P.idOf signed :=
      hlog.stored.fresh hJ hinj (hver.stored_rowOf horigin hprev now) hfree
    have hadm := (hrep.admissible_iff hinj heff hfresh hrefs).2 hkeys
    obtain ⟨o, h⟩ := ingest_apply hJ hinj hlog hroom now hver horigin hprev hnext heff hadm
    exact ⟨_, _, o, h⟩

omit [DecidableEq H] in
/-- The keys of an effect, by the payload. -/
theorem newKeys_iff {eventId : H} {createdAt : Int64} {p : EventPayload} {e : Effect H}
    (heff : P.effectOf eventId createdAt p = some e) (g : Projection H) :
    e.NewKeys g ↔ ∀ q k, p = .actorKeyAdd q → P.parseKeyHash q.keyHash = .ok k →
      ∀ y ∈ g.actorKeys, y.keyHash ≠ k := by
  constructor
  · intro h q k hp hk
    subst hp
    simp only [Prims.effectOf, Prims.keyAddEffect, option_bind_some, option_pure_some,
      toOption_eq_some] at heff
    obtain ⟨actorId, -, k', hk', rfl⟩ := heff
    obtain rfl : k = k' := Except.ok.inj (hk.symm.trans hk')
    exact h _ (List.mem_singleton.2 rfl)
  · intro h r hr
    obtain ⟨q, hp, hk, -⟩ := (effectOf_spec heff).actorKeys r hr
    exact h q r.keyHash hp hk

/-- **An honest event is accepted, exactly.**  Let a peer commit an event, and
    let another hold any state, reached in any way, in which the event is the
    next of its origin and its references are there.  It is applied there if
    and only if the head stored for the origin is the event before it and, if
    it adds an API key, the key's hash has no row. -/
theorem honest_next_applied_iff (P : Prims H) (hJ : JsonLaws P) (hinj : Function.Injective P.blake3)
    (me : Prims.PeerIdentity) (hsign : SignsCorrectly P me) (opsH opsA : List (SyncOp P))
    (payload : EventPayload) (createdAt now : Int64) (n : UInt64) (previous : Option H)
    (signed : SignedEvent) (eventId : H) (h' : Store H) (outcome : ProjectionOutcome H)
    (hbuild : P.buildAndSign me n previous createdAt payload = .ok (signed, eventId))
    (hcommit : P.commitLocalEvent (P.syncRun Store.empty opsH) me payload createdAt
      = .ok (h', eventId, outcome))
    (hseq : (Prims.nextOf (getOrigin (P.syncRun Store.empty opsA).eventOrigins (me.peerId P))).1 = n)
    (hrefs : ∀ e, P.effectOf eventId createdAt payload = some e →
      e.References (P.syncRun Store.empty opsA).proj)
    (hroom : (P.syncRun Store.empty opsA).events.length < maxRows) :
    (∃ a' id o, P.ingestRemoteEvent (P.syncRun Store.empty opsA) (me.verifyingKey P) signed now
        = .ok (a', .applied id o)) ↔
      (Prims.nextOf (getOrigin (P.syncRun Store.empty opsA).eventOrigins (me.peerId P))).2 = previous ∧
      ∀ q k, payload = .actorKeyAdd q → P.parseKeyHash q.keyHash = .ok k →
        ∀ y ∈ (P.syncRun Store.empty opsA).proj.actorKeys, y.keyHash ≠ k := by
  obtain ⟨hunsigned, ⟨u, hu, hsig⟩, c, hc, rfl⟩ := buildAndSign_ok hbuild
  have hid : P.idOf signed = P.eventIdOf c := by rw [Prims.idOf, eventBytes_eq hc]
  have hver : Verified P (me.verifyingKey P) signed (P.idOf signed) := by
    refine ⟨⟨u, _, hu, ?_, P.length_sign _ _, hsign _⟩, c, hc, hid⟩
    rw [hsig]
    exact hexDecode_hexEncode _
  -- the commit succeeded, so the payload decodes
  obtain ⟨row, signed', happ, -, hrow, ⟨hpay, hcreated⟩, -⟩ := commit_appended hcommit
  obtain ⟨e, heff, -, -, -⟩ := happ.effect hJ
  rw [hrow, happ.stored.createdAt, hcreated, hpay] at heff
  have hinv := peerInv_run hJ hinj opsA
  rw [← newKeys_iff heff]
  refine next_applied_iff hJ hinj hinv.log hinv.replay hroom now hver ?_ ?_ ?_ ?_ (hrefs e heff)
  · rw [hunsigned]
    exact P.peerIdFromStr_peerIdToString _
  · rw [hunsigned]
    exact parsePreviousEvent_toHex previous
  · rw [hunsigned]
    exact hseq
  · rw [hid, hunsigned]
    exact heff

/-! ## A key hash that is taken

  Carol declares an actor and gives it a key.  Bob sees Carol's events first and
  adds a key of his own with the same hash; a peer that hears from him in time
  cannot take Carol's event, nor anything after it. -/

section taken

variable (P : Prims H) (bob carol : Prims.PeerIdentity) (rawKey : String)

/-- Carol's peer before the key. -/
def declaredOps : List (SyncOp P) := [.store (.commit carol declarePayload 1)]

/-- A peer that has Carol's actor and, or not, Bob's copy of the key. -/
def heardOps : List (SyncOp P) := [.store (.ingest (carol.verifyingKey P) (declareEvent P carol) 5)]

def takenOps : List (SyncOp P) := heardOps P carol ++ (grantOps P bob rawKey).map .store

/-- The store with Carol's actor. -/
def heardStore : Store H :=
  appendRow Store.empty (P.rowOf (declareEvent P carol) (carol.peerId P) none 5)
    (P.effect (declareEvent P carol))

variable {P bob carol}

theorem run_heardOps (hJ : JsonLaws P) (hinj : Function.Injective P.blake3)
    (hcarol : SignsCorrectly P carol) :
    P.syncRun Store.empty (heardOps P carol) = heardStore P carol :=
  run_declare hJ hinj hcarol 5

theorem run_takenOps (hJ : JsonLaws P) (hinj : Function.Injective P.blake3)
    (hne : bob.peerId P ≠ carol.peerId P) (hbob : SignsCorrectly P bob)
    (hcarol : SignsCorrectly P carol) :
    P.syncRun Store.empty (takenOps P bob carol rawKey)
      = grantedStore P bob rawKey (heardStore P carol) := by
  have hrun : P.syncRun Store.empty (takenOps P bob carol rawKey)
      = P.run Store.empty
        ([.ingest (carol.verifyingKey P) (declareEvent P carol) 5] ++ grantOps P bob rawKey) := by
    simp only [takenOps, heardOps, Prims.syncRun, Prims.run, List.foldl_append, List.foldl_map]
    rfl
  rw [hrun]
  refine run_grant rawKey hJ hinj hbob (run_declare hJ hinj hcarol 5) ?_ ?_ ?_
  · simp [heardStore, appendRow, Store.empty, maxRows]
  · rw [heardStore, nextOf_appendRow_ne hne.symm]
    rfl
  · intro y hy
    cases hy

/-- Carol's commit of the key. -/
theorem carol_commits (hJ : JsonLaws P) (hinj : Function.Injective P.blake3) :
    ∃ h' o, P.commitLocalEvent (P.syncRun Store.empty (declaredOps P carol)) carol
      (grantPayload P carol rawKey) 2 = .ok (h', P.idOf (grantEvent P carol rawKey), o) := by
  have hrun : P.syncRun Store.empty (declaredOps P carol)
      = appendRow Store.empty (P.rowOf (declareEvent P carol) (carol.peerId P) none 1)
        (P.effect (declareEvent P carol)) :=
    run_commit hJ hinj [] rfl (by simp [Store.empty, maxRows]) trivial rfl rfl
      (declare_admissible _ _)
  have hinv := (peerInv_run hJ hinj (declaredOps P carol)).log
  have hfin : (grantPayload P carol rawKey).Finite := trivial
  rw [hrun] at hinv ⊢
  obtain ⟨o, h⟩ := commit_apply hJ hinj hinv (by simp [appendRow, Store.empty, maxRows]) hfin
    (nextOf_appendRow_self _ _ _) (effectOf_eq_effect (grant_isSome rawKey))
    (grant_admissible rawKey (fun y hy => by cases hy))
  exact ⟨_, o, h⟩

omit [DecidableEq H] in
theorem carol_builds (hJ : JsonLaws P) :
    P.buildAndSign carol 2 (some (P.idOf (declareEvent P carol))) 2 (grantPayload P carol rawKey)
      = .ok (grantEvent P carol rawKey, P.idOf (grantEvent P carol rawKey)) :=
  buildAndSign_eq hJ trivial

/-- What Carol's event needs is on either peer. -/
theorem heard_references (bob : Prims.PeerIdentity) (e : Effect H)
    (heff : P.effectOf (P.idOf (grantEvent P carol rawKey)) 2 (grantPayload P carol rawKey) = some e) :
    e.References (heardStore P carol).proj ∧
      e.References (grantedStore P bob rawKey (heardStore P carol)).proj := by
  rw [grant_effect] at heff
  cases heff
  have hactor : hasActor (heardStore P carol).proj (declaredActor P carol) = true :=
    declared_hasActor Projection.empty
  have hactor' : hasActor (grantedStore P bob rawKey (heardStore P carol)).proj
      (declaredActor P carol) = true := by
    -- rows of actors stay
    rw [hasActor, Table.hasKey_iff] at hactor ⊢
    exact exists_key_addAll.2 (Or.inl (exists_key_addAll.2 (Or.inl hactor)))
  constructor
  · constructor <;> simp [hactor]
  · constructor <;> simp [hactor']

theorem taken_head (hne : bob.peerId P ≠ carol.peerId P) :
    Prims.nextOf (getOrigin (grantedStore P bob rawKey (heardStore P carol)).eventOrigins
      (carol.peerId P)) = (2, some (P.idOf (declareEvent P carol))) := by
  rw [grantedStore, nextOf_appendRow_ne hne, nextOf_appendRow_ne hne]
  exact nextOf_appendRow_self _ _ _

/-- Carol's event is refused. -/
theorem taken_refuses (hJ : JsonLaws P) (hinj : Function.Injective P.blake3)
    (hne : bob.peerId P ≠ carol.peerId P) (hbob : SignsCorrectly P bob)
    (hcarol : SignsCorrectly P carol) (now : Int64) :
    ¬ ∃ a' id o, P.ingestRemoteEvent (P.syncRun Store.empty (takenOps P bob carol rawKey))
      (carol.verifyingKey P) (grantEvent P carol rawKey) now = .ok (a', .applied id o) := by
  have hinv := peerInv_run hJ hinj (takenOps P bob carol rawKey)
  rw [run_takenOps rawKey hJ hinj hne hbob hcarol] at hinv ⊢
  have hfin : (grantPayload P carol rawKey).Finite := trivial
  have hver : Verified P (carol.verifyingKey P) (grantEvent P carol rawKey)
      (P.idOf (grantEvent P carol rawKey)) := eventOf_verified hJ hfin hcarol
  have heff : P.effectOf (P.idOf (grantEvent P carol rawKey)) 2 (grantPayload P carol rawKey)
      = some (P.effect (grantEvent P carol rawKey)) := effectOf_eq_effect (grant_isSome rawKey)
  have hseq : (Prims.nextOf (getOrigin (grantedStore P bob rawKey (heardStore P carol)).eventOrigins
      (carol.peerId P))).1 = 2 := by rw [taken_head rawKey hne]
  have hprev : P.parsePreviousEvent (grantEvent P carol rawKey).unsigned.previousEvent
      = .ok (some (P.idOf (declareEvent P carol))) := parsePreviousEvent_toHex (some _)
  rw [next_applied_iff hJ hinj hinv.log hinv.replay
    (by simp [grantedStore, heardStore, appendRow, Store.empty, maxRows]) now hver
    (P.peerIdFromStr_peerIdToString _) hprev hseq heff
    (heard_references rawKey bob _ heff).2]
  rintro ⟨-, hnew⟩
  refine hnew ⟨P.blake3 (utf8 rawKey), declaredActor P carol, ["admin"], 2, none⟩ ?_ _
    (mem_grantedStore rawKey _) rfl
  rw [effect_grant]
  exact List.mem_singleton.2 rfl

end taken

/-- Carol's key on a peer that has only heard from Carol. -/
theorem honest_next_applied_iff_heard :
    (∃ a' id o, idealOpen.ingestRemoteEvent (idealOpen.syncRun Store.empty (heardOps idealOpen peerC))
      (peerC.verifyingKey idealOpen) (grantEvent idealOpen peerC "oagk_0c") 6
        = .ok (a', .applied id o)) ↔
      (Prims.nextOf (getOrigin (idealOpen.syncRun Store.empty (heardOps idealOpen peerC)).eventOrigins
        (peerC.peerId idealOpen))).2 = some (idealOpen.idOf (declareEvent idealOpen peerC)) ∧
      ∀ q k, grantPayload idealOpen peerC "oagk_0c" = .actorKeyAdd q →
        idealOpen.parseKeyHash q.keyHash = .ok k →
        ∀ y ∈ (idealOpen.syncRun Store.empty (heardOps idealOpen peerC)).proj.actorKeys,
          y.keyHash ≠ k := by
  have hrun := run_heardOps idealOpen_laws idealOpen_injective (idealOpen_signsCorrectly peerC)
  have hcommits : ∃ h' o, idealOpen.commitLocalEvent
      (idealOpen.syncRun Store.empty (declaredOps idealOpen peerC)) peerC
      (grantPayload idealOpen peerC "oagk_0c") 2
        = .ok (h', idealOpen.idOf (grantEvent idealOpen peerC "oagk_0c"), o) :=
    carol_commits "oagk_0c" idealOpen_laws idealOpen_injective
  obtain ⟨h', o, hcommit⟩ := hcommits
  refine honest_next_applied_iff idealOpen idealOpen_laws idealOpen_injective peerC
    (idealOpen_signsCorrectly peerC) (declaredOps idealOpen peerC) (heardOps idealOpen peerC)
    (grantPayload idealOpen peerC "oagk_0c") 2 6 2 _ _ _ h' o (carol_builds "oagk_0c" idealOpen_laws)
    hcommit ?_ ?_ ?_
  · rw [hrun, heardStore]
    exact congrArg Prod.fst (nextOf_appendRow_self _ _ _)
  · intro e heff
    rw [hrun]
    exact (heard_references "oagk_0c" peerB e heff).1
  · rw [hrun]
    simp [heardStore, appendRow, Store.empty, maxRows]

/-- Carol's second event is honestly built, is the next of her chain, follows
    the head that the peer stores for her, and its actor is there; Bob's key
    with the same hash is in the way. -/
theorem key_hash_blocks_chain :
    (∃ h' o, idealOpen.commitLocalEvent (idealOpen.syncRun Store.empty (declaredOps idealOpen peerC))
      peerC (grantPayload idealOpen peerC "oagk_0c") 2
        = .ok (h', idealOpen.idOf (grantEvent idealOpen peerC "oagk_0c"), o)) ∧
    Prims.nextOf (getOrigin (idealOpen.syncRun Store.empty
      (takenOps idealOpen peerB peerC "oagk_0c")).eventOrigins (peerC.peerId idealOpen))
        = (2, some (idealOpen.idOf (declareEvent idealOpen peerC))) ∧
    (∀ e, idealOpen.effectOf (idealOpen.idOf (grantEvent idealOpen peerC "oagk_0c")) 2
        (grantPayload idealOpen peerC "oagk_0c") = some e →
      e.References (idealOpen.syncRun Store.empty (takenOps idealOpen peerB peerC "oagk_0c")).proj) ∧
    ¬ ∃ a' id o, idealOpen.ingestRemoteEvent
      (idealOpen.syncRun Store.empty (takenOps idealOpen peerB peerC "oagk_0c"))
      (peerC.verifyingKey idealOpen) (grantEvent idealOpen peerC "oagk_0c") 6
        = .ok (a', .applied id o) := by
  have hrun := run_takenOps "oagk_0c" idealOpen_laws idealOpen_injective peerB_ne_peerC
    (idealOpen_signsCorrectly peerB) (idealOpen_signsCorrectly peerC)
  refine ⟨carol_commits "oagk_0c" idealOpen_laws idealOpen_injective, ?_, ?_, ?_⟩
  · rw [hrun]
    exact taken_head "oagk_0c" peerB_ne_peerC
  · intro e heff
    rw [hrun]
    exact (heard_references "oagk_0c" peerB e heff).2
  · exact taken_refuses "oagk_0c" idealOpen_laws idealOpen_injective peerB_ne_peerC
      (idealOpen_signsCorrectly peerB) (idealOpen_signsCorrectly peerC) 6

end OpenAgentGraph
