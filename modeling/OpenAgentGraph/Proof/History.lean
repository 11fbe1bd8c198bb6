/-
  The history of an object.

  The events that a history shows are found through the references that the
  projector wrote, and shown from the signed bytes.  Both come from the log, so
  that the history of an object is what the log says about it.

  * `Prims.touched`: the objects that an event names.
  * `joined_eq`: the join finds the events that name the object, each once.
-/
import OpenAgentGraph.Graph.History
import OpenAgentGraph.Proof.Converge
import OpenAgentGraph.Proof.Database
import OpenAgentGraph.Proof.Heads

namespace OpenAgentGraph

open Lib Repo

variable {H : Type} {P : Prims H}

/-! ## The objects of an event -/

namespace Prims

variable (P : Prims H)

/-- The assertion that a field names. -/
def namedAssertion (text : String) : List (RefType × H) :=
  (P.parseId text).toOption.toList.map fun id => (.assertion, id)

/-- The objects that an event names. -/
def touched (eventId : H) : EventPayload → List (RefType × H)
  | .assertRelation p =>
    let subjectId := P.nodeId p.subjectIdentifier
    let objectId := P.nodeId p.objectIdentifier
    [(.assertion, eventId), (.edge, P.edgeId subjectId (P.predicate p.predicate) objectId),
      (.node, subjectId), (.node, objectId)]
  | .addEvidence p => P.namedAssertion p.assertionId
  | .verifyAssertion p => P.namedAssertion p.assertionId
  | .disputeAssertion p => P.namedAssertion p.disputedAssertionId
  | .retractAssertion p => P.namedAssertion p.retractedAssertionId
  | .supersedeAssertion p => P.namedAssertion p.oldAssertionId ++ P.namedAssertion p.newAssertionId
  | .actorDeclare _ => []
  | .actorKeyAdd _ => []
  | .actorKeyRevoke _ => []
  | .nodeAlias _ => []

/-- The event of a row names the object. -/
def Touches (row : EventRow H) (refType : RefType) (id : H) : Prop :=
  ∃ p, P.rowPayload row = some p ∧ (refType, id) ∈ P.touched row.eventId p

end Prims

theorem namedAssertion_ok {text : String} {id : H} (h : P.parseId text = .ok id) :
    P.namedAssertion text = [(.assertion, id)] := by
  rw [Prims.namedAssertion, h]
  rfl

/-- The references of an event are the objects that it names. -/
theorem effectOf_refs {eventId : H} {createdAt : Int64} {p : EventPayload} {e : Effect H}
    (h : P.effectOf eventId createdAt p = some e) :
    e.eventRefs = (P.touched eventId p).map fun o => ⟨eventId, o.1, o.2⟩ := by
  cases p <;>
    simp only [Prims.effectOf, Prims.relationEffect, Prims.evidenceEffect, Prims.verifyEffect,
      Prims.disputeEffect, Prims.retractEffect, Prims.supersedeEffect, Prims.actorEffect,
      Prims.keyAddEffect, Prims.keyRevokeEffect, Prims.aliasEffect, option_bind_some,
      option_pure_some, toOption_eq_some] at h
  case supersedeAssertion q =>
    obtain ⟨_, hold, _, hnew, _, -, rfl⟩ := h
    simp [Prims.touched, namedAssertion_ok hold, namedAssertion_ok hnew]
  case actorKeyRevoke q =>
    obtain ⟨_, -, rfl⟩ := h
    rfl
  case assertRelation q =>
    obtain ⟨_, -, _, -, rfl⟩ := h
    rfl
  all_goals
    obtain ⟨_, hid, _, -, rfl⟩ := h
    first | rfl | simp [Prims.touched, namedAssertion_ok hid]

theorem RefType.asStr_injective : Function.Injective RefType.asStr := by
  intro a b
  cases a <;> cases b <;> decide

theorem mem_validObjectTypes {s : String} : s ∈ validObjectTypes ↔ ∃ t : RefType, s = t.asStr := by
  constructor
  · intro h
    simp only [validObjectTypes, List.mem_cons, List.not_mem_nil, or_false] at h
    rcases h with rfl | rfl | rfl
    · exact ⟨.node, rfl⟩
    · exact ⟨.edge, rfl⟩
    · exact ⟨.assertion, rfl⟩
  · rintro ⟨t, rfl⟩
    cases t <;> simp [RefType.asStr, validObjectTypes]

variable [DecidableEq H]

/-! ## The join -/

theorem Built.refs_nodup {rows : List (EventRow H)} {g : Projection H} (h : Built P rows g) :
    g.eventRefs.Nodup := by
  have hmap : (g.eventRefs.map id).Nodup := by
    induction h with
    | nil => exact List.nodup_nil
    | snoc _ _ _ ih => exact nodup_addAll _ ih
  rwa [List.map_id] at hmap

/-- A reference is there exactly if its event names its object. -/
theorem Built.mem_refs {rows : List (EventRow H)} {g : Projection H} (h : Built P rows g)
    (hnd : (rows.map EventRow.eventId).Nodup) {row : EventRow H} (hrow : row ∈ rows)
    (refType : RefType) (id : H) :
    ⟨row.eventId, refType, id⟩ ∈ g.eventRefs ↔ P.Touches row refType id := by
  have hkeys := h.mem_keys Projection.eventRefs Effect.eventRefs (fun r => r) rfl (fun _ _ => rfl)
    ⟨row.eventId, refType, id⟩
  simp only [List.map_id'] at hkeys
  rw [hkeys]
  constructor
  · rintro ⟨e, ⟨row', hrow', heff⟩, hmem⟩
    obtain ⟨p, hp, heffect⟩ := rowEffect_some heff
    rw [effectOf_refs heffect, List.mem_map] at hmem
    obtain ⟨⟨refType', id'⟩, ho, heq⟩ := hmem
    simp only [EventRefRow.mk.injEq] at heq
    obtain ⟨hid, rfl, rfl⟩ := heq
    obtain rfl : row' = row := List.inj_on_of_nodup_map hnd hrow' hrow hid
    exact ⟨p, hp, ho⟩
  · rintro ⟨p, hp, ho⟩
    obtain ⟨e, heff⟩ := h.effect hrow
    obtain ⟨p', hp', heffect⟩ := rowEffect_some heff
    obtain rfl : p' = p := Option.some.inj (hp'.symm.trans hp)
    refine ⟨e, ⟨row, hrow, heff⟩, ?_⟩
    rw [effectOf_refs heffect]
    exact List.mem_map.2 ⟨_, ho, rfl⟩

/-- The references of one event to one object. -/
theorem filter_refs {refs : List (EventRefRow H)} (hnd : refs.Nodup) (eventId : H) (refType : RefType)
    (id : H) : (refs.filter fun ref => decide (ref.eventId = eventId) &&
      decide (ref.refType.asStr = refType.asStr) && decide (ref.refId = id))
        = if ⟨eventId, refType, id⟩ ∈ refs then [⟨eventId, refType, id⟩] else [] := by
  have hpred : ∀ ref : EventRefRow H, (decide (ref.eventId = eventId) &&
      decide (ref.refType.asStr = refType.asStr) && decide (ref.refId = id))
        = decide (ref = ⟨eventId, refType, id⟩) := by
    rintro ⟨a, t, b⟩
    rw [Bool.eq_iff_iff]
    simp [RefType.asStr_injective.eq_iff, and_assoc]
  simp only [hpred]
  split
  · next hmem => exact Table.filter_of_nodup (by simpa using hnd) hmem
  · next hmem =>
    refine List.filter_eq_nil_iff.2 fun ref href heq => hmem ?_
    rwa [← of_decide_eq_true heq]

/-- The references of one row, each giving the row. -/
theorem flatMap_guard {α : Type} (l : List α) (p : α → Prop) [DecidablePred p] :
    (l.flatMap fun x => if p x then [x] else []) = l.filter fun x => decide (p x) := by
  induction l with
  | nil => rfl
  | cons x l ih =>
    rw [List.flatMap_cons, ih, List.filter_cons]
    by_cases hx : p x
    · simp [hx]
    · simp [hx]

theorem historyFor_eq {s : Store H} (hnd : s.proj.eventRefs.Nodup) (refType : RefType) (id : H) :
    P.historyFor s refType.asStr id = (s.events.filter fun row =>
      decide (⟨row.eventId, refType, id⟩ ∈ s.proj.eventRefs)).mergeSort
        (OrderBy.leBy P.historyKey) := by
  simp only [Prims.historyFor]
  congr 1
  rw [← flatMap_guard]
  refine List.flatMap_congr fun row _ => ?_
  rw [filter_refs hnd]
  split
  · rfl
  · rfl

/-! ## The log in the order of a history -/

/-- What the history reads: a log of stored events in chains, each once, and
    the tables that it builds. -/
structure HistoryInv (P : Prims H) (s : Store H) : Prop where
  log : LogInv P s
  unique : UniqueIds s
  built : ∃ g, Built P s.events g ∧ s.proj.eventRefs = g.eventRefs

theorem dbRun_historyInv (hJ : JsonLaws P) (hinj : Function.Injective P.blake3)
    (ops : List (DbOp P)) : HistoryInv P (P.dbRun Database.empty ops).store := by
  have hboth : DbInv P (P.dbRun Database.empty ops).store ∧
      UniqueIds (P.dbRun Database.empty ops).store := by
    refine dbRun_induction (I := fun s => DbInv P s ∧ UniqueIds s) ops
      ⟨dbInv_empty, List.nodup_nil⟩ ?_ ?_ ?_
    · rintro s s' ⟨hinv, hu⟩ hf
      refine ⟨hinv.forgets hf, ?_⟩
      rw [UniqueIds, hf.eq]
      exact hu
    · rintro s s' ⟨hinv, hu⟩ hp
      refine ⟨hinv.peersOnly hp, ?_⟩
      rw [UniqueIds, hp.eq]
      exact hu
    · rintro op s s' ⟨hinv, hu⟩ hexec
      exact ⟨exec_dbInv hJ hinj hinv hexec,
        (exec_logStep hJ hinj hinv.log.stored hexec).uniqueIds hu⟩
  obtain ⟨hinv, hunique⟩ := hboth
  obtain ⟨g, hbuilt, -, hproj⟩ := hinv.replay.built
  refine ⟨hinv.log, hunique, g, hbuilt, ?_⟩
  -- a redaction leaves the references alone
  rw [hproj, redactAll_eq]

theorem HistoryInv.mem_refs {s : Store H} (h : HistoryInv P s) {row : EventRow H}
    (hrow : row ∈ s.events) (refType : RefType) (id : H) :
    ⟨row.eventId, refType, id⟩ ∈ s.proj.eventRefs ↔ P.Touches row refType id := by
  obtain ⟨g, hbuilt, hrefs⟩ := h.built
  rw [hrefs]
  exact hbuilt.mem_refs h.unique hrow refType id

theorem HistoryInv.refs_nodup {s : Store H} (h : HistoryInv P s) : s.proj.eventRefs.Nodup := by
  obtain ⟨g, hbuilt, hrefs⟩ := h.built
  rw [hrefs]
  exact hbuilt.refs_nodup

omit [DecidableEq H] in
theorem historyKey_inj {a b : EventRow H} (h : P.historyKey a = P.historyKey b) :
    a.originPeerId = b.originPeerId ∧ a.sequence = b.sequence := by
  have hpair := Prod.mk.inj (toLex.injective h)
  refine ⟨P.digestBytes_injective (List.map_injective_iff.2 ?_ hpair.1), Int64.toInt_inj.1 hpair.2⟩
  exact fun x y hxy => UInt8.toNat_inj.1 hxy

/-- An origin has one event at a sequence number. -/
theorem ChainInv.keyInj {s : Store H} (h : ChainInv s) : OrderBy.KeyInj P.historyKey s.events := by
  intro x hx y hy hkey
  obtain ⟨horigin, hseq⟩ := historyKey_inj hkey
  exact (h.chain y.originPeerId).eq_of_seq (mem_chainOf.2 ⟨hx, horigin⟩) (mem_chainOf.2 ⟨hy, rfl⟩)
    (congrArg Int64.toInt hseq)

/-! ## What a history shows -/

/-- The entry shows the event of a row: as its origin signed it. -/
structure ShowsRow (P : Prims H) (row : EventRow H) (entry : HistoryEntry H) : Prop where
  eventId : entry.eventId = row.eventId
  signed : ∃ signed json, Stored P row signed ∧ signed.toJson P.jcs = .ok json ∧
    entry.eventType = signed.unsigned.payload.typeStr ∧
    entry.createdAt = signed.unsigned.createdAt ∧ entry.payload = json.canon

omit [DecidableEq H] in
theorem historyEntry_shows (hJ : JsonLaws P) {row : EventRow H} {signed : SignedEvent}
    (h : Stored P row signed) : ∃ entry, P.historyEntry row = .ok entry ∧ ShowsRow P row entry := by
  obtain ⟨json, hjson, hbytes⟩ := Prims.canonicalSigned_ok h.canonical
  refine ⟨⟨row.eventId, row.eventType, row.createdAt, json.canon⟩, ?_, rfl, signed, json, h, hjson,
    h.eventType, h.createdAt, rfl⟩
  rw [Prims.historyEntry, hbytes, hJ.jcs.fromSlice_write]
  rfl

/-- The rows of a history: the events that name the object, in order. -/
theorem HistoryInv.historyFor_spec {s : Store H} (h : HistoryInv P s) (refType : RefType) (id : H) :
    (∀ row, row ∈ P.historyFor s refType.asStr id ↔ row ∈ s.events ∧ P.Touches row refType id) ∧
      (P.historyFor s refType.asStr id).Pairwise fun a b => P.historyKey a < P.historyKey b := by
  rw [historyFor_eq h.refs_nodup]
  constructor
  · intro row
    rw [List.mem_mergeSort, List.mem_filter, decide_eq_true_eq]
    constructor
    · rintro ⟨hrow, href⟩
      exact ⟨hrow, (h.mem_refs hrow refType id).1 href⟩
    · rintro ⟨hrow, htouches⟩
      exact ⟨hrow, (h.mem_refs hrow refType id).2 htouches⟩
  · refine OrderBy.pairwise_lt_sort ?_ (List.Nodup.filter _ (List.Nodup.of_map _ h.unique))
    intro x hx y hy
    exact h.log.chain.keyInj x (List.mem_of_mem_filter hx) y (List.mem_of_mem_filter hy)

theorem HistoryInv.getHistory_ok (hJ : JsonLaws P) {s : Store H} (h : HistoryInv P s)
    (refType : RefType) {text : String} {id : H} (hid : P.hashFromStr text = .ok id) :
    ∃ entries, P.getHistory s refType.asStr text = .ok entries ∧
      List.Forall₂ (ShowsRow P) (P.historyFor s refType.asStr id) entries := by
  have hvalid : ¬ refType.asStr ∉ validObjectTypes := by
    simpa using mem_validObjectTypes.2 ⟨refType, rfl⟩
  have hshows : ∀ row ∈ P.historyFor s refType.asStr id,
      ∃ entry, P.historyEntry row = .ok entry ∧ ShowsRow P row entry := by
    intro row hrow
    obtain ⟨signed, hst⟩ := h.log.stored row (((h.historyFor_spec refType id).1 row).1 hrow).1
    exact historyEntry_shows hJ hst
  obtain ⟨entries, hok, hall⟩ := exists_mapM_ok hshows
  refine ⟨entries, ?_, hall⟩
  rw [Prims.getHistory, if_neg hvalid, hid]
  exact hok

/-- **A history is what the log says.**  In every reachable database a request
    fails only on a kind or an id that cannot be read.  Otherwise it shows the
    events of the log that name the object, all of them and each once, by
    origin and then by sequence number, with the JSON that the origin signed. -/
theorem history_exact (P : Prims H) (hJ : JsonLaws P) (hinj : Function.Injective P.blake3)
    (ops : List (DbOp P)) (objectType text : String) :
    let s := (P.dbRun Database.empty ops).store
    ((∃ entries, P.getHistory s objectType text = .ok entries) ↔
      (∃ refType : RefType, objectType = refType.asStr) ∧ ∃ id, P.hashFromStr text = .ok id) ∧
    ∀ (refType : RefType) id, objectType = refType.asStr → P.hashFromStr text = .ok id →
      ∃ rows entries, P.getHistory s objectType text = .ok entries ∧
        (∀ row, row ∈ rows ↔ row ∈ s.events ∧ P.Touches row refType id) ∧
        rows.Pairwise (fun a b => P.historyKey a < P.historyKey b) ∧
        List.Forall₂ (ShowsRow P) rows entries := by
  intro s
  have hinv : HistoryInv P s := dbRun_historyInv hJ hinj ops
  refine ⟨⟨?_, ?_⟩, ?_⟩
  · rintro ⟨entries, hok⟩
    rw [Prims.getHistory] at hok
    split at hok
    · cases hok
    · next hvalid =>
      refine ⟨mem_validObjectTypes.1 (not_not.1 hvalid), ?_⟩
      split at hok
      · cases hok
      · next id hid => exact ⟨id, hid⟩
  · rintro ⟨⟨refType, rfl⟩, id, hid⟩
    obtain ⟨entries, hok, -⟩ := hinv.getHistory_ok hJ refType hid
    exact ⟨entries, hok⟩
  · rintro refType id rfl hid
    obtain ⟨entries, hok, hall⟩ := hinv.getHistory_ok hJ refType hid
    obtain ⟨hmem, hsorted⟩ := hinv.historyFor_spec refType id
    exact ⟨_, entries, hok, hmem, hsorted, hall⟩

theorem dbRun_stores (db : Database H) (ops : List (Op P)) :
    (P.dbRun db (ops.map fun op => .sync (.store op))).store = P.run db.store ops := by
  induction ops generalizing db with
  | nil => rfl
  | cons op ops ih => exact ih _

/-- The runs of the crossing, on a database. -/
def adaDbOps (P : Prims H) (ada bob : Prims.PeerIdentity) : List (DbOp P) :=
  (adaOps P ada bob).map fun op => .sync (.store op)

def bobDbOps (P : Prims H) (ada bob : Prims.PeerIdentity) : List (DbOp P) :=
  (bobOps P ada bob).map fun op => .sync (.store op)

/-- The assertion that Ada's peer relates, disputes and sees retracted. -/
theorem history_exact_crossing :
    let P := idealOpen
    let id := P.idOf (relateEvent P peerA)
    ∃ rows entries, P.getHistory (P.dbRun Database.empty (adaDbOps P peerA peerB)).store
        RefType.assertion.asStr (P.toHex id) = .ok entries ∧
      (∀ row, row ∈ rows ↔ row ∈ atAda.events ∧ P.Touches row .assertion id) ∧
      rows.Pairwise (fun a b => P.historyKey a < P.historyKey b) ∧
      List.Forall₂ (ShowsRow P) rows entries := by
  intro P id
  have hexact := (history_exact P idealOpen_laws idealOpen_injective (adaDbOps P peerA peerB)
    RefType.assertion.asStr (P.toHex id)).2 .assertion id rfl (P.hashFromStr_toHex id)
  rwa [adaDbOps, dbRun_stores] at hexact ⊢

/-! ## Two peers with the same events -/

/-- The same events in any order give the same history. -/
theorem historyFor_same (hJ : JsonLaws P) (hinj : Function.Injective P.blake3) {s s' : Store H}
    (h : HistoryInv P s) (h' : HistoryInv P s') (hsame : SameEvents s s') (refType : RefType) (id : H) :
    (P.historyFor s refType.asStr id).map EventRow.sent
      = (P.historyFor s' refType.asStr id).map EventRow.sent := by
  have hsub : ∀ {t t' : Store H}, HistoryInv P t → HistoryInv P t' → SameEvents t t' →
      ∀ row, row ∈ (P.historyFor t refType.asStr id).map EventRow.sent →
        row ∈ (P.historyFor t' refType.asStr id).map EventRow.sent := by
    intro t t' ht ht' hsame row hrow
    obtain ⟨r, hr, rfl⟩ := List.mem_map.1 hrow
    obtain ⟨hrow, htouches⟩ := ((ht.historyFor_spec refType id).1 r).1 hr
    obtain ⟨r', hr', hid⟩ := (hsame r.eventId).1 ⟨r, hrow, rfl⟩
    have heq := ht.log.stored.sent_eq hJ hinj ht'.log.stored hrow hr' hid.symm
    refine List.mem_map.2 ⟨r', ((ht'.historyFor_spec refType id).1 r').2 ⟨hr', ?_⟩, heq.symm⟩
    rw [EventRow.eq_of_sent heq] at htouches
    exact htouches
  have hsorted : ∀ {t : Store H}, HistoryInv P t →
      ((P.historyFor t refType.asStr id).map EventRow.sent).Pairwise
        fun a b => P.historyKey a < P.historyKey b := fun ht =>
    List.pairwise_map.2 (ht.historyFor_spec refType id).2
  exact OrderBy.eq_of_pairwise_lt (hsorted h) (hsorted h')
    fun row => ⟨hsub h h' hsame row, hsub h' h hsame.symm row⟩

omit [DecidableEq H] in
theorem mapM_historyEntry (rows : List (EventRow H)) :
    rows.mapM P.historyEntry = (rows.map EventRow.sent).mapM P.historyEntry := by
  rw [List.mapM_map]
  rfl

/-- **Histories converge.**  Two databases that hold the same events, however
    they came by them and whatever each has redacted, answer every request for
    a history alike. -/
theorem histories_converge (P : Prims H) (hJ : JsonLaws P) (hinj : Function.Injective P.blake3)
    (ops ops' : List (DbOp P))
    (hsame : SameEvents (P.dbRun Database.empty ops).store (P.dbRun Database.empty ops').store)
    (objectType text : String) :
    P.getHistory (P.dbRun Database.empty ops).store objectType text
      = P.getHistory (P.dbRun Database.empty ops').store objectType text := by
  simp only [Prims.getHistory]
  split
  · rfl
  · next hvalid =>
    obtain ⟨refType, rfl⟩ := mem_validObjectTypes.1 (not_not.1 hvalid)
    split
    · rfl
    · next id _ =>
      rw [mapM_historyEntry, mapM_historyEntry (P.historyFor _ _ id),
        historyFor_same hJ hinj (dbRun_historyInv hJ hinj ops) (dbRun_historyInv hJ hinj ops') hsame]

/-- The peers of the crossing disagree on the status of an assertion, and agree
    on its history. -/
theorem histories_converge_crossing :
    let P := idealOpen
    let id := P.idOf (relateEvent P peerA)
    statusOf atAda.proj id ≠ statusOf atBob.proj id ∧
      P.getHistory (P.dbRun Database.empty (adaDbOps P peerA peerB)).store "assertion" (P.toHex id)
        = P.getHistory (P.dbRun Database.empty (bobDbOps P peerA peerB)).store "assertion"
          (P.toHex id) := by
  intro P id
  constructor
  · rw [atAda, atBob, (run_adaOps idealOpen_laws idealOpen_injective peerA_ne_peerB
      (idealOpen_signsCorrectly peerB)).1, (run_bobOps idealOpen_laws idealOpen_injective
      peerA_ne_peerB (idealOpen_signsCorrectly peerA)).1]
    obtain ⟨hada, hbob⟩ := crossing_statuses idealOpen peerA peerB
    rw [hada, hbob]
    decide
  · refine histories_converge P idealOpen_laws idealOpen_injective _ _ ?_ _ _
    rw [adaDbOps, bobDbOps, dbRun_stores, dbRun_stores]
    exact crossed_sameEvents

end OpenAgentGraph
