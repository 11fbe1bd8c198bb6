/-
  What the graph tables say about the log.

  Six tables are keyed by event ids.  Each holds, row for row, what the events
  of its type decode to (`Built.table_eq`), so rows and events correspond one
  to one (`Built.oneToOne`).  Node and edge ids are the hashes of what they
  identify, and an assertion is active as long as no row names it.
-/
import OpenAgentGraph.Proof.Converge

namespace OpenAgentGraph

open Lib Repo

variable {H : Type} {P : Prims H}

/-! ## Tables keyed by event ids -/

/-- A table that holds one row for every event of a type. -/
structure LogTable (H : Type) (α : Type) where
  table : Projection H → List α
  rows : Effect H → List α
  id : α → H
  /-- The row without the columns that later events change. -/
  view : α → α
  eventType : String

namespace LogTable

def assertions : LogTable H (AssertionRow H) :=
  ⟨Projection.assertions, Effect.assertions, AssertionRow.id, AssertionRow.view, "ASSERT_RELATION"⟩

def evidence : LogTable H (EvidenceRow H) :=
  ⟨Projection.evidence, Effect.evidence, EvidenceRow.id, fun r => r, "ADD_EVIDENCE"⟩

def observations : LogTable H (ObservationRow H) :=
  ⟨Projection.observations, Effect.observations, ObservationRow.id, fun r => r, "VERIFY_ASSERTION"⟩

def disputes : LogTable H (DisputeRow H) :=
  ⟨Projection.disputes, Effect.disputes, DisputeRow.id, fun r => r, "DISPUTE_ASSERTION"⟩

def retractions : LogTable H (RetractionRow H) :=
  ⟨Projection.retractions, Effect.retractions, RetractionRow.id, fun r => r, "RETRACT_ASSERTION"⟩

def supersessions : LogTable H (SupersessionRow H) :=
  ⟨Projection.supersessions, Effect.supersessions, SupersessionRow.id, fun r => r,
    "SUPERSEDE_ASSERTION"⟩

end LogTable

/-- The table starts empty, each event appends its rows, and an event has a row
    exactly if it is of the table's type. -/
structure LogTable.Lawful [DecidableEq H] {α : Type} (T : LogTable H α) (P : Prims H) : Prop where
  empty : T.table .empty = []
  apply : ∀ e g, (T.table (e.apply g)).map T.view = (T.table g).map T.view ++ (T.rows e).map T.view
  id_view : ∀ r, T.id (T.view r) = T.id r
  rows : ∀ eventId createdAt p e, P.effectOf eventId createdAt p = some e →
    (p.typeStr = T.eventType → ∃ r, T.rows e = [r] ∧ T.id r = eventId) ∧
    (p.typeStr ≠ T.eventType → T.rows e = [])

/-- The rows of each of the six tables in one effect. -/
theorem effectOf_rows {eventId : H} {createdAt : Int64} {p : EventPayload} {e : Effect H}
    (h : P.effectOf eventId createdAt p = some e) :
    ((p.typeStr = "ASSERT_RELATION" → ∃ r, e.assertions = [r] ∧ r.id = eventId) ∧
      (p.typeStr ≠ "ASSERT_RELATION" → e.assertions = [])) ∧
    ((p.typeStr = "ADD_EVIDENCE" → ∃ r, e.evidence = [r] ∧ r.id = eventId) ∧
      (p.typeStr ≠ "ADD_EVIDENCE" → e.evidence = [])) ∧
    ((p.typeStr = "VERIFY_ASSERTION" → ∃ r, e.observations = [r] ∧ r.id = eventId) ∧
      (p.typeStr ≠ "VERIFY_ASSERTION" → e.observations = [])) ∧
    ((p.typeStr = "DISPUTE_ASSERTION" → ∃ r, e.disputes = [r] ∧ r.id = eventId) ∧
      (p.typeStr ≠ "DISPUTE_ASSERTION" → e.disputes = [])) ∧
    ((p.typeStr = "RETRACT_ASSERTION" → ∃ r, e.retractions = [r] ∧ r.id = eventId) ∧
      (p.typeStr ≠ "RETRACT_ASSERTION" → e.retractions = [])) ∧
    ((p.typeStr = "SUPERSEDE_ASSERTION" → ∃ r, e.supersessions = [r] ∧ r.id = eventId) ∧
      (p.typeStr ≠ "SUPERSEDE_ASSERTION" → e.supersessions = [])) := by
  cases p <;>
    simp only [Prims.effectOf, Prims.relationEffect, Prims.evidenceEffect, Prims.verifyEffect,
      Prims.disputeEffect, Prims.retractEffect, Prims.supersedeEffect, Prims.actorEffect,
      Prims.keyAddEffect, Prims.keyRevokeEffect, Prims.aliasEffect, option_bind_some,
      option_pure_some] at h
  all_goals
    obtain ⟨_, -, _, -, _, -, rfl⟩ := h
    simp [EventPayload.typeStr]

variable [DecidableEq H]

namespace LogTable

theorem assertions_lawful : (assertions (H := H)).Lawful P where
  empty := rfl
  apply := by
    intro e g
    rw [← List.map_append]
    exact map_view_statuses _ _
  id_view _ := rfl
  rows _ _ _ _ h := (effectOf_rows h).1

theorem evidence_lawful : (evidence (H := H)).Lawful P where
  empty := rfl
  apply _ _ := List.map_append
  id_view _ := rfl
  rows _ _ _ _ h := (effectOf_rows h).2.1

theorem observations_lawful : (observations (H := H)).Lawful P where
  empty := rfl
  apply _ _ := List.map_append
  id_view _ := rfl
  rows _ _ _ _ h := (effectOf_rows h).2.2.1

theorem disputes_lawful : (disputes (H := H)).Lawful P where
  empty := rfl
  apply _ _ := List.map_append
  id_view _ := rfl
  rows _ _ _ _ h := (effectOf_rows h).2.2.2.1

theorem retractions_lawful : (retractions (H := H)).Lawful P where
  empty := rfl
  apply _ _ := List.map_append
  id_view _ := rfl
  rows _ _ _ _ h := (effectOf_rows h).2.2.2.2.1

theorem supersessions_lawful : (supersessions (H := H)).Lawful P where
  empty := rfl
  apply _ _ := List.map_append
  id_view _ := rfl
  rows _ _ _ _ h := (effectOf_rows h).2.2.2.2.2

end LogTable

/-! ## Rows and events -/

/-- What a stored event puts in a table. -/
def LogTable.rowsOf {α : Type} (T : LogTable H α) (P : Prims H) (row : EventRow H) : List α :=
  match P.rowEffect row with
  | some e => (T.rows e).map T.view
  | none => []

/-- **A table is what the log decodes to**, in the order of the log. -/
theorem Built.table_eq {α : Type} {T : LogTable H α} (hT : T.Lawful P) {rows : List (EventRow H)}
    {g : Projection H} (h : Built P rows g) :
    (T.table g).map T.view = rows.flatMap (T.rowsOf P) := by
  induction h with
  | nil => rw [hT.empty]; rfl
  | @snoc rows g row e _ heff _ ih =>
    rw [hT.apply, ih, List.flatMap_append, List.flatMap_singleton]
    simp only [LogTable.rowsOf, heff]

omit [DecidableEq H] in
/-- The event type column of a stored row is that of its payload. -/
theorem LogStored.eventType (hJ : JsonLaws P) {s : Store H} (hlog : LogStored P s) {row : EventRow H}
    (hrow : row ∈ s.events) {p : EventPayload} (hp : P.rowPayload row = some p) :
    row.eventType = p.typeStr := by
  obtain ⟨signed, hst⟩ := hlog row hrow
  obtain ⟨p', hp', hsame⟩ := hst.rowPayload hJ
  obtain rfl : p' = p := Option.some.inj (hp'.symm.trans hp)
  rw [hst.eventType]
  exact hsame.typeStr_eq

/-- What a stored event puts in a table: its row if it is of the table's type,
    else nothing. -/
theorem rowsOf_cases (hJ : JsonLaws P) {α : Type} {T : LogTable H α} (hT : T.Lawful P) {s : Store H}
    (hlog : LogStored P s) {g : Projection H} (hbuilt : Built P s.events g) {row : EventRow H}
    (hrow : row ∈ s.events) :
    (row.eventType = T.eventType ∧ ∃ r, T.rowsOf P row = [r] ∧ T.id r = row.eventId) ∨
      (row.eventType ≠ T.eventType ∧ T.rowsOf P row = []) := by
  obtain ⟨e, heff⟩ := hbuilt.effect hrow
  obtain ⟨p, hp, heff'⟩ := rowEffect_some heff
  obtain ⟨hone, hnone⟩ := hT.rows _ _ _ _ heff'
  rw [hlog.eventType hJ hrow hp]
  by_cases htype : p.typeStr = T.eventType
  · obtain ⟨r, hr, hid⟩ := hone htype
    refine Or.inl ⟨htype, T.view r, ?_, (hT.id_view r).trans hid⟩
    simp only [LogTable.rowsOf, heff, hr, List.map_cons, List.map_nil]
  · refine Or.inr ⟨htype, ?_⟩
    simp only [LogTable.rowsOf, heff, hnone htype, List.map_nil]

/-- Every event of the table's type has exactly one row, and every row is the
    one that exactly one stored event, of the table's type, decodes to. -/
structure OneToOne {α : Type} (P : Prims H) (T : LogTable H α) (s : Store H) : Prop where
  event : ∀ row ∈ s.events, row.eventType = T.eventType →
    ∃ r, (T.table s.proj).filter (fun y => decide (T.id y = row.eventId)) = [r] ∧
      T.rowsOf P row = [T.view r]
  row : ∀ r ∈ T.table s.proj,
    ∃ row, s.events.filter (fun x => decide (x.eventId = T.id r)) = [row] ∧
      row.eventType = T.eventType ∧ T.rowsOf P row = [T.view r]

/-- No two stored events have the same id. -/
def UniqueIds (s : Store H) : Prop := (s.events.map EventRow.eventId).Nodup

theorem Appended.uniqueIds {s s' : Store H} {row : EventRow H} {signed : SignedEvent}
    (h : Appended P s s' row signed) (hu : UniqueIds s) : UniqueIds s' := by
  unfold UniqueIds
  rw [h.events_eq, List.map_append, List.nodup_append]
  refine ⟨hu, List.nodup_singleton _, ?_⟩
  intro id hid id' hid' heq
  obtain ⟨r, hr, rfl⟩ := List.mem_map.1 hid
  obtain rfl : id' = row.eventId := by simpa using hid'
  exact h.fresh r hr heq

theorem LogStep.uniqueIds {s s' : Store H} {op : Op P} (h : LogStep P s op s') (hu : UniqueIds s) :
    UniqueIds s' := by
  rcases h.log_cases with ⟨row, signed, happ⟩ | ⟨hevents, -⟩
  · exact happ.uniqueIds hu
  · unfold UniqueIds
    rwa [hevents]

theorem uniqueIds_run (hJ : JsonLaws P) (hinj : Function.Injective P.blake3) (ops : List (Op P)) :
    UniqueIds (P.run Store.empty ops) := by
  have hboth : LogInv P (P.run Store.empty ops) ∧ UniqueIds (P.run Store.empty ops) := by
    refine P.run_induction (I := fun s => LogInv P s ∧ UniqueIds s) ops
      ⟨logInv_run hJ hinj [], List.nodup_nil⟩ ?_
    rintro op - s s' ⟨hlog, hu⟩ hexec
    have hstep := exec_logStep hJ hinj hlog.stored hexec
    exact ⟨hstep.logInv hlog, hstep.uniqueIds hu⟩
  exact hboth.2

theorem filter_view {α : Type} {T : LogTable H α} (hT : T.Lawful P) (t : List α) (id : H) :
    (t.map T.view).filter (fun y => decide (T.id y = id))
      = (t.filter fun y => decide (T.id y = id)).map T.view := by
  rw [List.filter_map]
  congr 1
  refine List.filter_congr fun y _ => ?_
  rw [Function.comp_apply, hT.id_view]

/-- **Rows and events correspond one to one.** -/
theorem Built.oneToOne (hJ : JsonLaws P) {α : Type} {T : LogTable H α} (hT : T.Lawful P) {s : Store H}
    (hlog : LogStored P s) (hu : UniqueIds s) (hbuilt : Built P s.events s.proj) :
    OneToOne P T s where
  event := by
    intro row hrow htype
    have hids : ∀ x ∈ s.events, ∀ y ∈ T.rowsOf P x, T.id y = x.eventId := by
      intro x hx y hy
      rcases rowsOf_cases hJ hT hlog hbuilt hx with ⟨-, r, hr, hid⟩ | ⟨-, hnil⟩
      · rw [hr] at hy
        obtain rfl : y = r := by simpa using hy
        exact hid
      · rw [hnil] at hy
        cases hy
    have hfilter := Table.filter_flatMap hids hu hrow
    rw [← hbuilt.table_eq hT, filter_view hT] at hfilter
    rcases rowsOf_cases hJ hT hlog hbuilt hrow with ⟨-, v, hv, -⟩ | ⟨hne, -⟩
    · rw [hv, List.map_eq_singleton_iff] at hfilter
      obtain ⟨r, hr, rfl⟩ := hfilter
      exact ⟨r, hr, hv⟩
    · exact absurd htype hne
  row := by
    intro r hr
    have hmem : T.view r ∈ s.events.flatMap (T.rowsOf P) :=
      hbuilt.table_eq hT ▸ List.mem_map_of_mem hr
    obtain ⟨row, hrow, hview⟩ := List.mem_flatMap.1 hmem
    rcases rowsOf_cases hJ hT hlog hbuilt hrow with ⟨htype, v, hv, hid⟩ | ⟨-, hnil⟩
    · rw [hv] at hview
      obtain rfl : T.view r = v := by simpa using hview
      rw [hT.id_view] at hid
      refine ⟨row, ?_, htype, hv⟩
      rw [hid]
      exact Table.filter_of_nodup hu hrow
    · rw [hnil] at hview
      cases hview

/-! ## Active assertions -/

/-- Some dispute or retraction names the assertion, or some supersession names
    it as the old one. -/
def Challenged (g : Projection H) (assertionId : H) : Prop :=
  (∃ r ∈ g.disputes, r.disputedAssertionId = assertionId) ∨
  (∃ r ∈ g.retractions, r.retractedAssertionId = assertionId) ∨
  ∃ r ∈ g.supersessions, r.oldAssertionId = assertionId

omit [DecidableEq H] in
/-- An effect changes the status of exactly the assertion that its row names. -/
theorem effectOf_challenges {eventId : H} {createdAt : Int64} {p : EventPayload} {e : Effect H}
    (h : P.effectOf eventId createdAt p = some e) (a : H) :
    (∃ status, P.payloadStatus p = some (a, status)) ↔
      (∃ r ∈ e.disputes, r.disputedAssertionId = a) ∨
      (∃ r ∈ e.retractions, r.retractedAssertionId = a) ∨
      ∃ r ∈ e.supersessions, r.oldAssertionId = a := by
  cases p <;>
    simp only [Prims.effectOf, Prims.relationEffect, Prims.evidenceEffect, Prims.verifyEffect,
      Prims.disputeEffect, Prims.retractEffect, Prims.supersedeEffect, Prims.actorEffect,
      Prims.keyAddEffect, Prims.keyRevokeEffect, Prims.aliasEffect, option_bind_some,
      option_pure_some] at h
  case disputeAssertion q =>
    obtain ⟨b, hb, _, -, rfl⟩ := h
    simp [Prims.payloadStatus, hb]
  case retractAssertion q =>
    obtain ⟨b, hb, _, -, rfl⟩ := h
    simp [Prims.payloadStatus, hb]
  case supersedeAssertion q =>
    obtain ⟨b, hb, _, -, _, -, rfl⟩ := h
    simp [Prims.payloadStatus, hb]
  all_goals
    obtain ⟨_, -, _, -, rfl⟩ := h
    simp [Prims.payloadStatus]

/-- An assertion is challenged exactly if some event changed its status. -/
theorem Built.challenged_iff {rows : List (EventRow H)} {g : Projection H} (h : Built P rows g)
    (a : H) : Challenged g a ↔ P.lastChange rows a ≠ none := by
  induction h with
  | nil => simp [Challenged, Projection.empty, Prims.lastChange]
  | @snoc rows g row e _ heff _ ih =>
    obtain ⟨p, hp, heff⟩ := rowEffect_some heff
    have hstep : Challenged (e.apply g) a ↔
        Challenged g a ∨ ∃ status, P.payloadStatus p = some (a, status) := by
      rw [effectOf_challenges heff a]
      simp only [Challenged, Effect.apply, List.mem_append]
      grind
    rw [hstep, ih, lastChange_snoc, Prims.statusChange, hp, Option.bind_some]
    cases hc : P.payloadStatus p with
    | none => simp
    | some c =>
      obtain ⟨b, status⟩ := c
      by_cases hb : b = a
      · simp [hb]
      · simp [hb]

/-- **An assertion is active exactly if nothing challenges it.** -/
theorem Built.active_iff {rows : List (EventRow H)} {g : Projection H} (h : Built P rows g)
    {r : AssertionRow H} (hr : r ∈ g.assertions) : r.status = .active ↔ ¬ Challenged g r.id := by
  have hinv := statusInv_built h
  rw [h.challenged_iff, not_not, hinv.status r hr]
  cases hc : P.lastChange rows r.id with
  | none => simp
  | some status =>
    have hne := (hinv.named r.id status hc).2
    simp [hne]

/-! ## Every reachable state -/

/-- What the graph tables of a store say about its log. -/
structure Corresponds (P : Prims H) (s : Store H) : Prop where
  assertions : OneToOne P .assertions s
  evidence : OneToOne P .evidence s
  observations : OneToOne P .observations s
  disputes : OneToOne P .disputes s
  retractions : OneToOne P .retractions s
  supersessions : OneToOne P .supersessions s
  nodes : ∀ r ∈ s.proj.nodes, r.nodeId = P.nodeId r.canonicalIdentifier
  edges : ∀ r ∈ s.proj.edges, r.edgeId = P.edgeId r.subject r.predicate r.object
  triples : ∀ r ∈ s.proj.edges, ∀ r' ∈ s.proj.edges,
    (r.subject, r.predicate, r.object) ≠ (r'.subject, r'.predicate, r'.object) → r.edgeId ≠ r'.edgeId
  active : ∀ r ∈ s.proj.assertions, r.status = .active ↔ ¬ Challenged s.proj r.id

/-- **The graph tables are those of the log**, after any commits, ingestions
    and rebuilds, failed ones among them. -/
theorem log_projection_correspondence (P : Prims H) (hJ : JsonLaws P)
    (hinj : Function.Injective P.blake3) (ops : List (Op P)) (hno : NoRedactions ops) :
    Corresponds P (P.run Store.empty ops) := by
  have hlog := (logInv_run hJ hinj ops).stored
  have hu := uniqueIds_run hJ hinj ops
  have hbuilt := built_run hJ hinj hno
  have hedges := (hbuilt.edges_view hinj).1
  refine ⟨hbuilt.oneToOne hJ LogTable.assertions_lawful hlog hu,
    hbuilt.oneToOne hJ LogTable.evidence_lawful hlog hu,
    hbuilt.oneToOne hJ LogTable.observations_lawful hlog hu,
    hbuilt.oneToOne hJ LogTable.disputes_lawful hlog hu,
    hbuilt.oneToOne hJ LogTable.retractions_lawful hlog hu,
    hbuilt.oneToOne hJ LogTable.supersessions_lawful hlog hu,
    (hbuilt.nodes_view hinj).1, hedges, ?_, fun r hr => hbuilt.active_iff hr⟩
  intro r hr r' hr' hne heq
  rw [hedges r hr, hedges r' hr'] at heq
  obtain ⟨hs, hp, ho⟩ := P.edgeId_injective hinj heq
  exact hne (by rw [hs, hp, ho])

theorem log_projection_correspondence_crossing : Corresponds idealOpen atAda :=
  log_projection_correspondence idealOpen idealOpen_laws idealOpen_injective
    (adaOps idealOpen peerA peerB) crossing_noRedactions.1

end OpenAgentGraph
