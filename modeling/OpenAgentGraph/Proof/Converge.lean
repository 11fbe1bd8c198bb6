/-
  Convergence of two peers that hold the same events.

  The rows of every table, seen without the columns that the first or the last
  writer decides, are the union of what the events emit (`Built.mem_view`), so
  they do not depend on the order of arrival.  The status column does: it is
  the last change that arrived (`statusInv_built`).
-/
import OpenAgentGraph.Proof.Forward

namespace OpenAgentGraph

open Lib Repo

variable {H : Type} {P : Prims H}

/-! ## What the events of a log emit -/

/-- Some row of the log has the effect. -/
def Emits (P : Prims H) (rows : List (EventRow H)) (e : Effect H) : Prop :=
  ∃ row ∈ rows, P.rowEffect row = some e

theorem emits_snoc {rows : List (EventRow H)} {row : EventRow H} {e e' : Effect H}
    (h : P.rowEffect row = some e) : Emits P (rows ++ [row]) e' ↔ Emits P rows e' ∨ e' = e := by
  constructor
  · rintro ⟨r, hr, hre⟩
    rcases List.mem_append.1 hr with hr | hr
    · exact Or.inl ⟨r, hr, hre⟩
    · obtain rfl : r = row := by simpa using hr
      exact Or.inr (Option.some.inj (hre.symm.trans h))
  · rintro (⟨r, hr, hre⟩ | rfl)
    · exact ⟨r, List.mem_append_left _ hr, hre⟩
    · exact ⟨row, by simp, h⟩

variable [DecidableEq H]

theorem Built.effect {rows : List (EventRow H)} {g : Projection H} (h : Built P rows g)
    {row : EventRow H} (hrow : row ∈ rows) : ∃ e, P.rowEffect row = some e := by
  induction h with
  | nil => cases hrow
  | @snoc rows g row' e _ heff _ ih =>
    rcases List.mem_append.1 hrow with hrow | hrow
    · exact ih hrow
    · obtain rfl : row = row' := by simpa using hrow
      exact ⟨e, heff⟩

/-! ## Tables as unions -/

/-- Inserting rows whose key decides the view adds their views. -/
theorem mem_map_addAll {α β κ : Type} [DecidableEq κ] {key : α → κ} {view : α → β} {ok : α → Prop}
    (hdet : ∀ x y, ok x → ok y → key x = key y → view x = view y) {rows t : List α}
    (ht : ∀ y ∈ t, ok y) (hrows : ∀ r ∈ rows, ok r) :
    (∀ v, v ∈ (addAll key rows t).map view ↔ v ∈ t.map view ∨ v ∈ rows.map view) ∧
      ∀ y ∈ addAll key rows t, ok y := by
  induction rows generalizing t with
  | nil => exact ⟨fun v => by simp [addAll], ht⟩
  | cons r rows ih =>
    have hr := hrows r (List.mem_cons_self ..)
    have hrest : ∀ r' ∈ rows, ok r' := fun r' hr' => hrows r' (List.mem_cons_of_mem _ hr')
    have hcons : addAll key (r :: rows) t = addAll key rows (Table.insertOrIgnore key r t) := rfl
    rw [hcons]
    by_cases hmem : ∃ y ∈ t, key y = key r
    · rw [Table.insertOrIgnore_of_mem hmem]
      obtain ⟨hview, hok⟩ := ih ht hrest
      refine ⟨fun v => ?_, hok⟩
      obtain ⟨y, hy, hyr⟩ := hmem
      have hyv := hdet y r (ht y hy) hr hyr
      rw [hview, List.map_cons, List.mem_cons]
      constructor
      · rintro (h | h)
        · exact Or.inl h
        · exact Or.inr (Or.inr h)
      · rintro (h | rfl | h)
        · exact Or.inl h
        · exact Or.inl (hyv ▸ List.mem_map_of_mem hy)
        · exact Or.inr h
    · rw [Table.insertOrIgnore_of_not_mem hmem]
      have ht' : ∀ y ∈ t ++ [r], ok y := by
        intro y hy
        rcases List.mem_append.1 hy with hy | hy
        · exact ht y hy
        · obtain rfl : y = r := by simpa using hy
          exact hr
      obtain ⟨hview, hok⟩ := ih ht' hrest
      refine ⟨fun v => ?_, hok⟩
      rw [hview, List.map_append, List.mem_append, List.map_cons, List.mem_cons, or_assoc]
      simp

/-- **A table whose every step adds the views of the effect's rows** is, after
    the whole log, the union of what the log emits. -/
theorem Built.mem_view {α β : Type} (T : Projection H → List α) (E : Effect H → List α)
    (view : α → β) (ok : α → Prop) (hempty : T .empty = [])
    (hok : ∀ row e, P.rowEffect row = some e → ∀ r ∈ E e, ok r)
    (hstep : ∀ e g, (∀ y ∈ T g, ok y) → (∀ r ∈ E e, ok r) →
      (∀ v, v ∈ (T (e.apply g)).map view ↔ v ∈ (T g).map view ∨ v ∈ (E e).map view) ∧
        ∀ y ∈ T (e.apply g), ok y)
    {rows : List (EventRow H)} {g : Projection H} (h : Built P rows g) :
    (∀ y ∈ T g, ok y) ∧ ∀ v, v ∈ (T g).map view ↔ ∃ e, Emits P rows e ∧ v ∈ (E e).map view := by
  induction h with
  | nil =>
    rw [hempty]
    refine ⟨fun y hy => (by cases hy), fun v => ?_⟩
    constructor
    · intro hv; cases hv
    · rintro ⟨e, ⟨row, hrow, -⟩, -⟩; cases hrow
  | @snoc rows g row e _ heff _ ih =>
    obtain ⟨hoks, hviews⟩ := ih
    obtain ⟨hview', hok'⟩ := hstep e g hoks (hok row e heff)
    refine ⟨hok', fun v => ?_⟩
    rw [hview', hviews]
    constructor
    · rintro (⟨e', he', hv⟩ | hv)
      · exact ⟨e', (emits_snoc heff).2 (Or.inl he'), hv⟩
      · exact ⟨e, (emits_snoc heff).2 (Or.inr rfl), hv⟩
    · rintro ⟨e', he', hv⟩
      rcases (emits_snoc heff).1 he' with he' | rfl
      · exact Or.inl ⟨e', he', hv⟩
      · exact Or.inr hv

/-- The case of a table that rows are appended to. -/
theorem Built.mem_appended {α : Type} (T : Projection H → List α) (E : Effect H → List α)
    (hempty : T .empty = []) (hstep : ∀ e g, T (e.apply g) = T g ++ E e)
    {rows : List (EventRow H)} {g : Projection H} (h : Built P rows g) (v : α) :
    v ∈ T g ↔ ∃ e, Emits P rows e ∧ v ∈ E e := by
  have hview := (h.mem_view T E id (fun _ => True) hempty (fun _ _ _ _ _ => trivial)
    fun e g _ _ => ⟨fun v => by rw [hstep]; simp, fun _ _ => trivial⟩).2 v
  simpa using hview

/-- The case of a table whose key is what is looked at. -/
theorem Built.mem_keys {α κ : Type} [DecidableEq κ] (T : Projection H → List α)
    (E : Effect H → List α) (key : α → κ) (hempty : T .empty = [])
    (hstep : ∀ e g, T (e.apply g) = addAll key (E e) (T g))
    {rows : List (EventRow H)} {g : Projection H} (h : Built P rows g) (v : κ) :
    v ∈ (T g).map key ↔ ∃ e, Emits P rows e ∧ v ∈ (E e).map key := by
  refine (h.mem_view T E key (fun _ => True) hempty (fun _ _ _ _ _ => trivial) fun e g _ _ => ?_).2 v
  rw [hstep]
  exact mem_map_addAll (fun _ _ _ _ hk => hk) (fun _ _ => trivial) fun _ _ => trivial

/-! ## The views of each table -/

def NodeRow.view (r : NodeRow H) : H × String := (r.nodeId, r.canonicalIdentifier)

def EdgeRow.view (r : EdgeRow H) : H × H × String × H := (r.edgeId, r.subject, r.predicate, r.object)

/-- An assertion but for its status. -/
def AssertionRow.view (r : AssertionRow H) : AssertionRow H := { r with status := .active }

theorem Built.nodes_view (hinj : Function.Injective P.blake3) {rows : List (EventRow H)}
    {g : Projection H} (h : Built P rows g) :
    (∀ r ∈ g.nodes, r.nodeId = P.nodeId r.canonicalIdentifier) ∧
    ∀ v, v ∈ g.nodes.map NodeRow.view ↔ ∃ e, Emits P rows e ∧ v ∈ e.nodes.map NodeRow.view := by
  refine h.mem_view Projection.nodes Effect.nodes NodeRow.view
    (fun r => r.nodeId = P.nodeId r.canonicalIdentifier) rfl ?_ fun e g ht hrows => ?_
  · intro row e heff
    obtain ⟨p, -, heff⟩ := rowEffect_some heff
    exact (effectOf_spec heff).nodes
  · have hfold : (e.apply g).nodes = addAll NodeRow.nodeId e.nodes g.nodes :=
      foldl_addNode ht hrows
    rw [hfold]
    refine mem_map_addAll ?_ ht hrows
    intro x y hx hy hk
    have hid : x.canonicalIdentifier = y.canonicalIdentifier :=
      P.nodeId_injective hinj (by rw [← hx, ← hy, hk])
    rw [NodeRow.view, NodeRow.view, hk, hid]

theorem Built.edges_view (hinj : Function.Injective P.blake3) {rows : List (EventRow H)}
    {g : Projection H} (h : Built P rows g) :
    (∀ r ∈ g.edges, r.edgeId = P.edgeId r.subject r.predicate r.object) ∧
    ∀ v, v ∈ g.edges.map EdgeRow.view ↔ ∃ e, Emits P rows e ∧ v ∈ e.edges.map EdgeRow.view := by
  refine h.mem_view Projection.edges Effect.edges EdgeRow.view
    (fun r => r.edgeId = P.edgeId r.subject r.predicate r.object) rfl ?_ fun e g ht hrows => ?_
  · intro row e heff
    obtain ⟨p, -, heff⟩ := rowEffect_some heff
    exact (effectOf_spec heff).edges
  · refine mem_map_addAll ?_ ht hrows
    intro x y hx hy hk
    obtain ⟨hs, hp, ho⟩ := P.edgeId_injective hinj (hx.symm.trans (hk.trans hy))
    rw [EdgeRow.view, EdgeRow.view, hk, hs, hp, ho]

/-- A change of status is not seen. -/
theorem map_view_statuses (l : List (H × AssertionStatus)) (t : List (AssertionRow H)) :
    (l.foldl statusRow t).map AssertionRow.view = t.map AssertionRow.view := by
  induction l generalizing t with
  | nil => rfl
  | cons k l ih =>
    rw [List.foldl_cons, ih]
    exact Table.map_updateWhere fun _ _ => rfl

theorem Built.mem_assertions {rows : List (EventRow H)} {g : Projection H} (h : Built P rows g)
    (v : AssertionRow H) : v ∈ g.assertions.map AssertionRow.view ↔
      ∃ e, Emits P rows e ∧ v ∈ e.assertions.map AssertionRow.view := by
  refine (h.mem_view Projection.assertions Effect.assertions AssertionRow.view (fun _ => True) rfl
    (fun _ _ _ _ _ => trivial) fun e g _ _ => ⟨fun v => ?_, fun _ _ => trivial⟩).2 v
  have hmap : (e.apply g).assertions.map AssertionRow.view
      = g.assertions.map AssertionRow.view ++ e.assertions.map AssertionRow.view := by
    rw [← List.map_append]
    exact map_view_statuses _ _
  rw [hmap, List.mem_append]

/-! ## Two peers with the same events -/

/-- The two logs hold the same events, in whatever order. -/
def SameEvents (s s' : Store H) : Prop :=
  ∀ id, (∃ r ∈ s.events, r.eventId = id) ↔ ∃ r ∈ s'.events, r.eventId = id

omit [DecidableEq H] in
theorem SameEvents.symm {s s' : Store H} (h : SameEvents s s') : SameEvents s' s :=
  fun id => (h id).symm

/-- No operation of the run is a redaction. -/
def NoRedactions (ops : List (Op P)) : Prop :=
  ∀ op ∈ ops, match op with
    | .redactEvidence .. => False
    | .redactActor .. => False
    | _ => True

omit [DecidableEq H] in
theorem emits_of_same (hJ : JsonLaws P) (hinj : Function.Injective P.blake3) {s s' : Store H}
    (hs : LogStored P s) (hs' : LogStored P s') (h : SameEvents s s') {e : Effect H}
    (he : Emits P s.events e) : Emits P s'.events e := by
  obtain ⟨row, hrow, heff⟩ := he
  obtain ⟨row', hrow', hid⟩ := (h row.eventId).1 ⟨row, hrow, rfl⟩
  obtain ⟨signed, hst⟩ := hs row hrow
  obtain ⟨signed', hst'⟩ := hs' row' hrow'
  have heq := hst.eq_of_eventId hJ hinj hst' hid.symm
  refine ⟨row', hrow', ?_⟩
  rw [heq]
  exact heff

/-- Without redactions the tables are those that the log builds. -/
theorem built_run (hJ : JsonLaws P) (hinj : Function.Injective P.blake3) {ops : List (Op P)}
    (hno : NoRedactions ops) :
    Built P (P.run Store.empty ops).events (P.run Store.empty ops).proj := by
  have hempty : (P.run Store.empty ops).redactions = [] ∧
      (P.run Store.empty ops).actorRedactions = [] := by
    have hboth : LogInv P (P.run Store.empty ops) ∧ (P.run Store.empty ops).redactions = [] ∧
        (P.run Store.empty ops).actorRedactions = [] := by
      refine P.run_induction (I := fun s => LogInv P s ∧ s.redactions = [] ∧ s.actorRedactions = [])
        ops ⟨⟨fun _ hr => (by cases hr), chainInv_empty⟩, rfl, rfl⟩ ?_
      rintro op hop s s' ⟨hlog, hnil⟩ hexec
      have hstep := exec_logStep hJ hinj hlog.stored hexec
      refine ⟨hstep.logInv hlog, ?_⟩
      cases hstep with
      | commit happ _ _ => rw [happ.eq]; exact hnil
      | known => exact hnil
      | forked _ _ _ _ hfork =>
        obtain ⟨json, rfl⟩ := recordFork_ok hfork
        exact hnil
      | applied happ _ _ => rw [happ.eq]; exact hnil
      | rebuild hr => rw [rebuild_ok hr]; exact hnil
      | redactEvidence hr => exact absurd (hno _ hop) id
      | redactActor hr => exact absurd (hno _ hop) id
    exact hboth.2
  obtain ⟨g, hbuilt, -, hproj⟩ := (replayInv_run hJ hinj ops).built
  have hg : Prims.redactAll (P.run Store.empty ops) g = g := by
    simp [Prims.redactAll, hempty.1, hempty.2]
  rw [hproj, hg]
  exact hbuilt

/-- The same rows in every table, but for the columns that the first writer
    (type, time of creation, an actor's or an alias's details) or the last
    writer (status) decides. -/
structure SameRows (g g' : Projection H) : Prop where
  nodes : ∀ v, v ∈ g.nodes.map NodeRow.view ↔ v ∈ g'.nodes.map NodeRow.view
  nodeAliases : ∀ v, v ∈ g.nodeAliases.map aliasKey ↔ v ∈ g'.nodeAliases.map aliasKey
  actors : ∀ v, v ∈ g.actors.map ActorRow.actorId ↔ v ∈ g'.actors.map ActorRow.actorId
  edges : ∀ v, v ∈ g.edges.map EdgeRow.view ↔ v ∈ g'.edges.map EdgeRow.view
  assertions : ∀ v, v ∈ g.assertions.map AssertionRow.view ↔ v ∈ g'.assertions.map AssertionRow.view
  evidence : ∀ r, r ∈ g.evidence ↔ r ∈ g'.evidence
  observations : ∀ r, r ∈ g.observations ↔ r ∈ g'.observations
  disputes : ∀ r, r ∈ g.disputes ↔ r ∈ g'.disputes
  retractions : ∀ r, r ∈ g.retractions ↔ r ∈ g'.retractions
  supersessions : ∀ r, r ∈ g.supersessions ↔ r ∈ g'.supersessions
  eventRefs : ∀ r, r ∈ g.eventRefs ↔ r ∈ g'.eventRefs

theorem Built.sameRows (hinj : Function.Injective P.blake3) {rows rows' : List (EventRow H)}
    {g g' : Projection H} (h : Built P rows g) (h' : Built P rows' g')
    (hemit : ∀ e, Emits P rows e ↔ Emits P rows' e) : SameRows g g' := by
  constructor
  · intro v; simp only [(h.nodes_view hinj).2, (h'.nodes_view hinj).2, hemit]
  · intro v
    simp only [h.mem_keys Projection.nodeAliases Effect.nodeAliases aliasKey rfl fun _ _ => rfl,
      h'.mem_keys Projection.nodeAliases Effect.nodeAliases aliasKey rfl fun _ _ => rfl, hemit]
  · intro v
    simp only [h.mem_keys Projection.actors Effect.actors ActorRow.actorId rfl fun _ _ => rfl,
      h'.mem_keys Projection.actors Effect.actors ActorRow.actorId rfl fun _ _ => rfl, hemit]
  · intro v; simp only [(h.edges_view hinj).2, (h'.edges_view hinj).2, hemit]
  · intro v; simp only [h.mem_assertions, h'.mem_assertions, hemit]
  · intro r
    simp only [h.mem_appended Projection.evidence Effect.evidence rfl fun _ _ => rfl,
      h'.mem_appended Projection.evidence Effect.evidence rfl fun _ _ => rfl, hemit]
  · intro r
    simp only [h.mem_appended Projection.observations Effect.observations rfl fun _ _ => rfl,
      h'.mem_appended Projection.observations Effect.observations rfl fun _ _ => rfl, hemit]
  · intro r
    simp only [h.mem_appended Projection.disputes Effect.disputes rfl fun _ _ => rfl,
      h'.mem_appended Projection.disputes Effect.disputes rfl fun _ _ => rfl, hemit]
  · intro r
    simp only [h.mem_appended Projection.retractions Effect.retractions rfl fun _ _ => rfl,
      h'.mem_appended Projection.retractions Effect.retractions rfl fun _ _ => rfl, hemit]
  · intro r
    simp only [h.mem_appended Projection.supersessions Effect.supersessions rfl fun _ _ => rfl,
      h'.mem_appended Projection.supersessions Effect.supersessions rfl fun _ _ => rfl, hemit]
  · intro r
    have key := h.mem_keys Projection.eventRefs Effect.eventRefs id rfl (fun _ _ => rfl) r
    have key' := h'.mem_keys Projection.eventRefs Effect.eventRefs id rfl (fun _ _ => rfl) r
    simp only [List.map_id] at key key'
    rw [key, key']
    simp only [hemit]

theorem row_sets_eq (hJ : JsonLaws P) (hinj : Function.Injective P.blake3) {ops ops' : List (Op P)}
    (hno : NoRedactions ops) (hno' : NoRedactions ops')
    (hsame : SameEvents (P.run Store.empty ops) (P.run Store.empty ops')) :
    SameRows (P.run Store.empty ops).proj (P.run Store.empty ops').proj := by
  have hlog := (logInv_run hJ hinj ops).stored
  have hlog' := (logInv_run hJ hinj ops').stored
  refine (built_run hJ hinj hno).sameRows hinj (built_run hJ hinj hno') fun e => ?_
  exact ⟨emits_of_same hJ hinj hlog hlog' hsame, emits_of_same hJ hinj hlog' hlog hsame.symm⟩

/-! ## The status column -/

/-- The assertion whose status a stored event changes, and the new status. -/
def Prims.statusChange (P : Prims H) (row : EventRow H) : Option (H × AssertionStatus) :=
  (P.rowPayload row).bind P.payloadStatus

/-- What the last of the dispute, retraction and supersession events that name
    the assertion, in order of arrival, makes of it. -/
def Prims.lastChange (P : Prims H) (rows : List (EventRow H)) (assertionId : H) :
    Option AssertionStatus :=
  (((rows.filterMap P.statusChange).filter fun c => decide (c.1 = assertionId)).getLast?).map Prod.snd

theorem lastChange_snoc (rows : List (EventRow H)) (row : EventRow H) (a : H) :
    P.lastChange (rows ++ [row]) a = match P.statusChange row with
      | some (b, status) => if b = a then some status else P.lastChange rows a
      | none => P.lastChange rows a := by
  unfold Prims.lastChange
  rw [List.filterMap_append]
  cases hc : P.statusChange row with
  | none => simp [hc]
  | some c =>
    obtain ⟨b, status⟩ := c
    by_cases hb : b = a
    · simp [hc, hb]
    · simp [hc, hb]

/-- Every status is the last change that arrived, and only assertions that
    exist were changed. -/
structure StatusInv (P : Prims H) (rows : List (EventRow H)) (g : Projection H) : Prop where
  status : ∀ r ∈ g.assertions, r.status = (P.lastChange rows r.id).getD .active
  named : ∀ a status, P.lastChange rows a = some status →
    (∃ r ∈ g.assertions, r.id = a) ∧ status ≠ .active

theorem statusInv_built {rows : List (EventRow H)} {g : Projection H} (h : Built P rows g) :
    StatusInv P rows g := by
  induction h with
  | nil =>
    constructor
    · intro r hr; cases hr
    · intro a status hc; cases hc
  | @snoc rows g row e _ heff hadm ih =>
    obtain ⟨p, hp, heff⟩ := rowEffect_some heff
    have hspec := effectOf_spec heff
    have hst : e.statuses = (P.statusChange row).toList := by
      rw [hspec.statuses, Prims.statusChange, hp]
      rfl
    have hbefore : ∀ r ∈ g.assertions ++ e.assertions,
        r.status = (P.lastChange rows r.id).getD .active := by
      intro r hr
      rcases List.mem_append.1 hr with hr | hr
      · exact ih.status r hr
      · -- no event of the log names an assertion that is only now created
        have hnone : P.lastChange rows r.id = none := by
          by_contra hc
          obtain ⟨status, hc⟩ := Option.ne_none_iff_exists'.1 hc
          obtain ⟨y, hy, hyr⟩ := (ih.named r.id status hc).1
          exact hadm.assertions r hr y hy hyr
        rw [hnone, hspec.active r hr]
        rfl
    have hids : ∀ a, (∃ r ∈ g.assertions ++ e.assertions, r.id = a) →
        ∃ r ∈ (e.apply g).assertions, r.id = a := by
      rintro a ⟨r, hr, rfl⟩
      have hmap : (e.apply g).assertions.map AssertionRow.view
          = (g.assertions ++ e.assertions).map AssertionRow.view := map_view_statuses _ _
      obtain ⟨r', hr', hview⟩ := List.mem_map.1 (hmap.symm ▸ List.mem_map_of_mem hr)
      exact ⟨r', hr', (congrArg AssertionRow.id hview : _)⟩
    cases hc : P.statusChange row with
    | none =>
      rw [hc] at hst
      have happ : (e.apply g).assertions = g.assertions ++ e.assertions := by
        simp [Effect.apply, hst]
      constructor
      · intro r hr
        rw [lastChange_snoc, hc]
        exact hbefore r (happ ▸ hr)
      · intro a status hl
        rw [lastChange_snoc, hc] at hl
        obtain ⟨⟨r, hr, hra⟩, hs⟩ := ih.named a status hl
        exact ⟨hids a ⟨r, List.mem_append_left _ hr, hra⟩, hs⟩
    | some c =>
      obtain ⟨b, status⟩ := c
      rw [hc] at hst
      have happ : (e.apply g).assertions = statusRow (g.assertions ++ e.assertions) (b, status) := by
        simp [Effect.apply, hst]
      have hmem : (b, status) ∈ e.statuses := by simp [hst]
      constructor
      · intro r hr
        rw [happ] at hr
        obtain ⟨y, hy, rfl⟩ := Table.mem_updateWhere.1 hr
        rw [lastChange_snoc, hc]
        by_cases hyb : y.id = b
        · simp [hyb]
        · simp [hyb, Ne.symm hyb, hbefore y hy]
      · intro a status' hl
        rw [lastChange_snoc, hc] at hl
        simp only at hl
        split at hl
        · rename_i hba
          subst hba
          obtain rfl : status = status' := Option.some.inj hl
          refine ⟨hids b ?_, hspec.notActive _ hmem⟩
          obtain ⟨r, hr, hrb⟩ := Table.hasKey_iff.1 (hadm.needAssertions b (hspec.named _ hmem))
          exact ⟨r, List.mem_append_left _ hr, hrb⟩
        · obtain ⟨⟨r, hr, hra⟩, hs⟩ := ih.named a status' hl
          exact ⟨hids a ⟨r, List.mem_append_left _ hr, hra⟩, hs⟩

/-- The status of an assertion on a peer. -/
def statusOf (g : Projection H) (assertionId : H) : Option AssertionStatus :=
  (getAssertion g assertionId).map AssertionRow.status

theorem StatusInv.statusOf_eq {rows : List (EventRow H)} {g : Projection H} (h : StatusInv P rows g)
    (a : H) : statusOf g a
      = if hasAssertion g a then some ((P.lastChange rows a).getD .active) else none := by
  unfold statusOf getAssertion
  cases hf : Table.find AssertionRow.id a g.assertions with
  | none =>
    have hno : hasAssertion g a = false := Table.hasKey_eq_false.2 (Table.find_eq_none.1 hf)
    simp [hno]
  | some r =>
    obtain ⟨hr, hra⟩ := Table.find_eq_some hf
    have hyes : hasAssertion g a = true := Table.hasKey_iff.2 ⟨r, hr, hra⟩
    rw [hyes, if_pos rfl, Option.map_some, h.status r hr, hra]

theorem hasAssertion_congr {g g' : Projection H} (h : SameRows g g') (a : H) :
    hasAssertion g a = hasAssertion g' a := by
  have hids : ∀ g : Projection H, hasAssertion g a = true ↔
      ∃ v ∈ g.assertions.map AssertionRow.view, v.id = a := by
    intro g
    rw [hasAssertion, Table.hasKey_iff]
    constructor
    · rintro ⟨r, hr, hra⟩
      exact ⟨r.view, List.mem_map_of_mem hr, hra⟩
    · rintro ⟨v, hv, hva⟩
      obtain ⟨r, hr, rfl⟩ := List.mem_map.1 hv
      exact ⟨r, hr, hva⟩
  rw [Bool.eq_iff_iff, hids, hids]
  simp only [h.assertions]

/-! ## A dispute and a retraction that cross

  Ada declares an actor and asserts a relation; then Ada disputes it while Bob,
  who has seen the assertion, retracts it.  Each peer applies its own event
  first and the other's after it. -/

section crossing

variable (P : Prims H) (ada bob : Prims.PeerIdentity)

def relatePayload : EventPayload :=
  .assertRelation ⟨"a", "concept", "knows", "b", "concept", P.toHex (declaredActor P ada), none, none,
    "direct"⟩

def relateEvent : SignedEvent :=
  P.eventOf ada 2 (some (P.idOf (declareEvent P ada))) 2 (relatePayload P ada)

def disputePayload : EventPayload :=
  .disputeAssertion ⟨P.toHex (P.idOf (relateEvent P ada)), P.toHex (declaredActor P ada), none⟩

def disputeEvent : SignedEvent :=
  P.eventOf ada 3 (some (P.idOf (relateEvent P ada))) 3 (disputePayload P ada)

def retractPayload : EventPayload :=
  .retractAssertion ⟨P.toHex (P.idOf (relateEvent P ada)), P.toHex (declaredActor P ada), none⟩

def retractEvent : SignedEvent := P.eventOf bob 1 none 4 (retractPayload P ada)

/-- Ada's peer: its own events, then Bob's retraction. -/
def adaOps : List (Op P) :=
  [.commit ada declarePayload 1, .commit ada (relatePayload P ada) 2,
    .commit ada (disputePayload P ada) 3, .ingest (bob.verifyingKey P) (retractEvent P ada bob) 5]

/-- Bob's peer: the assertion, its own retraction, then Ada's dispute. -/
def bobOps : List (Op P) :=
  [.ingest (ada.verifyingKey P) (declareEvent P ada) 5,
    .ingest (ada.verifyingKey P) (relateEvent P ada) 5, .commit bob (retractPayload P ada) 4,
    .ingest (ada.verifyingKey P) (disputeEvent P ada) 5]


omit [DecidableEq H] in
theorem relate_isSome :
    (P.effectOf (P.idOf (relateEvent P ada)) 2 (relatePayload P ada)).isSome = true := by
  simp [Prims.effectOf, relatePayload, Prims.relationEffect, parseId_toHex, Except.toOption,
    ExtractionMethod.parse]

omit [DecidableEq H] in
theorem relate_effect : ∃ row : AssertionRow H, (row.id = P.idOf (relateEvent P ada) ∧
      row.status = .active) ∧ ∃ nodes edges refs, P.effect (relateEvent P ada)
      = { nodes := nodes, edges := edges, assertions := [row], eventRefs := refs,
          needActors := [declaredActor P ada] } := by
  have heff := effectOf_eq_effect (s := relateEvent P ada) (relate_isSome P ada)
  change P.relationEffect _ _ _ = some _ at heff
  simp only [Prims.relationEffect, option_bind_some, option_pure_some, toOption_eq_some] at heff
  obtain ⟨actorId, hactor, _, -, he⟩ := heff
  obtain rfl : declaredActor P ada = actorId := Except.ok.inj ((parseId_toHex _).symm.trans hactor)
  exact ⟨_, ⟨rfl, rfl⟩, _, _, _, he.symm⟩

omit [DecidableEq H] in
theorem dispute_effect : P.effect (disputeEvent P ada)
    = { disputes := [⟨P.idOf (disputeEvent P ada), P.idOf (relateEvent P ada), declaredActor P ada, none,
          3⟩]
        statuses := [(P.idOf (relateEvent P ada), .disputed)]
        eventRefs := [⟨P.idOf (disputeEvent P ada), .assertion, P.idOf (relateEvent P ada)⟩]
        needActors := [declaredActor P ada]
        needAssertions := [P.idOf (relateEvent P ada)] } := by
  change ((P.disputeEffect _ _ _).getD _) = _
  simp only [Prims.disputeEffect, parseId_toHex, Except.toOption]
  rfl

omit [DecidableEq H] in
theorem retract_effect : P.effect (retractEvent P ada bob)
    = { retractions := [⟨P.idOf (retractEvent P ada bob), P.idOf (relateEvent P ada),
          declaredActor P ada, none, 4⟩]
        statuses := [(P.idOf (relateEvent P ada), .retracted)]
        eventRefs := [⟨P.idOf (retractEvent P ada bob), .assertion, P.idOf (relateEvent P ada)⟩]
        needActors := [declaredActor P ada]
        needAssertions := [P.idOf (relateEvent P ada)] } := by
  change ((P.retractEffect _ _ _).getD _) = _
  simp only [Prims.retractEffect, parseId_toHex, Except.toOption]
  rfl

omit [DecidableEq H] in
theorem dispute_isSome :
    (P.effectOf (P.idOf (disputeEvent P ada)) 3 (disputePayload P ada)).isSome = true := by
  simp [Prims.effectOf, disputePayload, Prims.disputeEffect, parseId_toHex, Except.toOption]

omit [DecidableEq H] in
theorem retract_isSome :
    (P.effectOf (P.idOf (retractEvent P ada bob)) 4 (retractPayload P ada)).isSome = true := by
  simp [Prims.effectOf, retractPayload, Prims.retractEffect, parseId_toHex, Except.toOption]

/-- The tables after the assertion. -/
def relatedTables : Projection H :=
  (P.effect (relateEvent P ada)).apply ((P.effect (declareEvent P ada)).apply .empty)

theorem relate_admissible : (P.effect (relateEvent P ada)).Admissible
    ((P.effect (declareEvent P ada)).apply .empty) := by
  have hspec := effectOf_spec (effectOf_eq_effect (s := relateEvent P ada) (relate_isSome P ada))
  obtain ⟨row, ⟨hid, -⟩, nodes, edges, refs, he⟩ := relate_effect P ada
  have hedges := hspec.hasNode (g := (P.effect (declareEvent P ada)).apply .empty)
    fun y hy => by cases hy
  constructor
  case edges => exact fun r hr => Or.inr (hedges r hr)
  all_goals
    rw [he, declare_effect]
    simp [Effect.apply, addAll, Table.insertOrIgnore, Table.hasKey, hasActor, Projection.empty]

theorem relatedTables_facts : hasActor (relatedTables P ada) (declaredActor P ada) = true ∧
    (∃ row, (row.id = P.idOf (relateEvent P ada) ∧ row.status = .active) ∧
      (relatedTables P ada).assertions = [row]) ∧
    (relatedTables P ada).disputes = [] ∧ (relatedTables P ada).retractions = [] := by
  obtain ⟨row, ⟨hid, hactive⟩, nodes, edges, refs, he⟩ := relate_effect P ada
  unfold relatedTables
  rw [he, declare_effect]
  simp [Effect.apply, addAll, Table.insertOrIgnore, Table.hasKey, hasActor, Projection.empty, hid,
    hactive]

/-- The dispute and the retraction are admissible in either order. -/
theorem crossing_admissible :
    (P.effect (disputeEvent P ada)).Admissible (relatedTables P ada) ∧
    (P.effect (retractEvent P ada bob)).Admissible (relatedTables P ada) ∧
    (P.effect (retractEvent P ada bob)).Admissible
      ((P.effect (disputeEvent P ada)).apply (relatedTables P ada)) ∧
    (P.effect (disputeEvent P ada)).Admissible
      ((P.effect (retractEvent P ada bob)).apply (relatedTables P ada)) := by
  obtain ⟨hactor, ⟨row, ⟨hid, -⟩, hrow⟩, hdis, hret⟩ := relatedTables_facts P ada
  have hactor' : Table.hasKey ActorRow.actorId (declaredActor P ada) (relatedTables P ada).actors = true :=
    hactor
  rw [dispute_effect, retract_effect]
  refine ⟨?_, ?_, ?_, ?_⟩
  all_goals
    constructor <;> simp [Effect.apply, addAll, hasActor, hasAssertion, Table.hasKey, statusRow,
      Table.updateWhere, hrow, hid, hdis, hret]
    simpa [Table.hasKey] using hactor'

/-- **The later event wins**, on each peer its own. -/
theorem crossing_statuses :
    statusOf ((P.effect (retractEvent P ada bob)).apply
      ((P.effect (disputeEvent P ada)).apply (relatedTables P ada))) (P.idOf (relateEvent P ada))
        = some .retracted ∧
    statusOf ((P.effect (disputeEvent P ada)).apply
      ((P.effect (retractEvent P ada bob)).apply (relatedTables P ada))) (P.idOf (relateEvent P ada))
        = some .disputed := by
  obtain ⟨-, ⟨row, ⟨hid, -⟩, hrow⟩, -, -⟩ := relatedTables_facts P ada
  rw [dispute_effect, retract_effect]
  simp [statusOf, getAssertion, Table.find, Effect.apply, statusRow, Table.updateWhere, hrow, hid]

variable {P ada bob}

/-- The store after the assertion, with the times of arrival. -/
def relatedStore (P : Prims H) (ada : Prims.PeerIdentity) (t t' : Int64) : Store H :=
  appendRow (appendRow .empty (P.rowOf (declareEvent P ada) (ada.peerId P) none t)
      (P.effect (declareEvent P ada)))
    (P.rowOf (relateEvent P ada) (ada.peerId P) (some (P.idOf (declareEvent P ada))) t')
    (P.effect (relateEvent P ada))

theorem relatedStore_ada (t t' : Int64) :
    Prims.nextOf (getOrigin (relatedStore P ada t t').eventOrigins (ada.peerId P))
      = (3, some (P.idOf (relateEvent P ada))) :=
  nextOf_appendRow_self _ _ _

theorem relatedStore_bob (hne : ada.peerId P ≠ bob.peerId P) (t t' : Int64) :
    Prims.nextOf (getOrigin (relatedStore P ada t t').eventOrigins (bob.peerId P)) = (1, none) := by
  unfold relatedStore
  rw [nextOf_appendRow_ne hne, nextOf_appendRow_ne hne]
  rfl

omit [DecidableEq H] in
theorem relate_finite : (relatePayload P ada).Finite := by
  intro b hb
  cases hb

/-- Ada's own two events. -/
theorem run_related (hJ : JsonLaws P) (hinj : Function.Injective P.blake3) :
    P.run Store.empty [.commit ada declarePayload 1, .commit ada (relatePayload P ada) 2]
      = relatedStore P ada 1 2 := by
  have h₁ : P.run Store.empty [.commit ada declarePayload 1]
      = appendRow .empty (P.rowOf (declareEvent P ada) (ada.peerId P) none 1)
        (P.effect (declareEvent P ada)) :=
    run_commit hJ hinj [] rfl (by simp [Store.empty, maxRows]) trivial rfl rfl (declare_admissible _ _)
  exact run_commit hJ hinj [_] h₁ (by simp [appendRow, Store.empty, maxRows]) relate_finite
    (nextOf_appendRow_self _ _ _) (relate_isSome P ada) (relate_admissible P ada)

theorem run_adaOps (hJ : JsonLaws P) (hinj : Function.Injective P.blake3)
    (hne : ada.peerId P ≠ bob.peerId P) (hbob : SignsCorrectly P bob) :
    (P.run Store.empty (adaOps P ada bob)).proj
        = (P.effect (retractEvent P ada bob)).apply
          ((P.effect (disputeEvent P ada)).apply (relatedTables P ada)) ∧
      (P.run Store.empty (adaOps P ada bob)).events.map EventRow.eventId
        = [P.idOf (declareEvent P ada), P.idOf (relateEvent P ada), P.idOf (disputeEvent P ada),
          P.idOf (retractEvent P ada bob)] := by
  obtain ⟨hdis, -, hret, -⟩ := crossing_admissible P ada bob
  have h₂ : P.run Store.empty [.commit ada declarePayload 1, .commit ada (relatePayload P ada) 2]
      = relatedStore P ada 1 2 := run_related hJ hinj
  have h₃ : P.run Store.empty [.commit ada declarePayload 1, .commit ada (relatePayload P ada) 2,
        .commit ada (disputePayload P ada) 3]
      = appendRow (relatedStore P ada 1 2) (P.rowOf (disputeEvent P ada) (ada.peerId P)
        (some (P.idOf (relateEvent P ada))) 3) (P.effect (disputeEvent P ada)) :=
    run_commit hJ hinj [_, _] h₂ (by simp [relatedStore, appendRow, Store.empty, maxRows]) trivial
      (relatedStore_ada 1 2) (dispute_isSome P ada) hdis
  have h₄ : P.run Store.empty (adaOps P ada bob)
      = appendRow (appendRow (relatedStore P ada 1 2) (P.rowOf (disputeEvent P ada) (ada.peerId P)
          (some (P.idOf (relateEvent P ada))) 3) (P.effect (disputeEvent P ada)))
        (P.rowOf (retractEvent P ada bob) (bob.peerId P) none 5)
        (P.effect (retractEvent P ada bob)) :=
    run_ingest hJ hinj [_, _, _] h₃ (by simp [relatedStore, appendRow, Store.empty, maxRows]) hbob
      trivial ((nextOf_appendRow_ne hne).trans (relatedStore_bob hne 1 2)) (retract_isSome P ada bob)
      hret
  rw [h₄]
  exact ⟨rfl, rfl⟩

theorem run_bobOps (hJ : JsonLaws P) (hinj : Function.Injective P.blake3)
    (hne : ada.peerId P ≠ bob.peerId P) (hada : SignsCorrectly P ada) :
    (P.run Store.empty (bobOps P ada bob)).proj
        = (P.effect (disputeEvent P ada)).apply
          ((P.effect (retractEvent P ada bob)).apply (relatedTables P ada)) ∧
      (P.run Store.empty (bobOps P ada bob)).events.map EventRow.eventId
        = [P.idOf (declareEvent P ada), P.idOf (relateEvent P ada), P.idOf (retractEvent P ada bob),
          P.idOf (disputeEvent P ada)] := by
  obtain ⟨-, hret, -, hdis⟩ := crossing_admissible P ada bob
  have h₁ : P.run Store.empty [.ingest (ada.verifyingKey P) (declareEvent P ada) 5]
      = appendRow .empty (P.rowOf (declareEvent P ada) (ada.peerId P) none 5)
        (P.effect (declareEvent P ada)) :=
    run_ingest hJ hinj [] rfl (by simp [Store.empty, maxRows]) hada trivial rfl rfl
      (declare_admissible _ _)
  have h₂ : P.run Store.empty [.ingest (ada.verifyingKey P) (declareEvent P ada) 5,
        .ingest (ada.verifyingKey P) (relateEvent P ada) 5]
      = relatedStore P ada 5 5 :=
    run_ingest hJ hinj [_] h₁ (by simp [appendRow, Store.empty, maxRows]) hada relate_finite
      (nextOf_appendRow_self _ _ _) (relate_isSome P ada) (relate_admissible P ada)
  have h₃ : P.run Store.empty [.ingest (ada.verifyingKey P) (declareEvent P ada) 5,
        .ingest (ada.verifyingKey P) (relateEvent P ada) 5, .commit bob (retractPayload P ada) 4]
      = appendRow (relatedStore P ada 5 5) (P.rowOf (retractEvent P ada bob) (bob.peerId P) none 4)
        (P.effect (retractEvent P ada bob)) :=
    run_commit hJ hinj [_, _] h₂ (by simp [relatedStore, appendRow, Store.empty, maxRows]) trivial
      (relatedStore_bob hne 5 5) (retract_isSome P ada bob) hret
  have h₄ : P.run Store.empty (bobOps P ada bob)
      = appendRow (appendRow (relatedStore P ada 5 5)
          (P.rowOf (retractEvent P ada bob) (bob.peerId P) none 4)
          (P.effect (retractEvent P ada bob)))
        (P.rowOf (disputeEvent P ada) (ada.peerId P) (some (P.idOf (relateEvent P ada))) 5)
        (P.effect (disputeEvent P ada)) :=
    run_ingest hJ hinj [_, _, _] h₃ (by simp [relatedStore, appendRow, Store.empty, maxRows]) hada
      trivial ((nextOf_appendRow_ne hne.symm).trans (relatedStore_ada 5 5)) (dispute_isSome P ada)
      hdis
  rw [h₄]
  exact ⟨rfl, rfl⟩

theorem crossing_sameEvents (hJ : JsonLaws P) (hinj : Function.Injective P.blake3)
    (hne : ada.peerId P ≠ bob.peerId P) (hada : SignsCorrectly P ada) (hbob : SignsCorrectly P bob) :
    SameEvents (P.run Store.empty (adaOps P ada bob)) (P.run Store.empty (bobOps P ada bob)) := by
  intro id
  rw [← List.mem_map, ← List.mem_map, (run_adaOps hJ hinj hne hbob).2,
    (run_bobOps hJ hinj hne hada).2]
  simp only [List.mem_cons, List.not_mem_nil, or_false]
  tauto

omit [DecidableEq H] in
theorem crossing_noRedactions : NoRedactions (adaOps P ada bob) ∧ NoRedactions (bobOps P ada bob) := by
  constructor
  all_goals
    intro op hop
    simp only [adaOps, bobOps, List.mem_cons, List.not_mem_nil, or_false] at hop
    rcases hop with rfl | rfl | rfl | rfl <;> trivial

end crossing

/-- The store of Ada's peer and that of Bob's after the crossing. -/
noncomputable def atAda : Store Bytes := idealOpen.run Store.empty (adaOps idealOpen peerA peerB)
noncomputable def atBob : Store Bytes := idealOpen.run Store.empty (bobOps idealOpen peerA peerB)

theorem crossed_sameEvents : SameEvents atAda atBob :=
  crossing_sameEvents idealOpen_laws idealOpen_injective peerA_ne_peerB
    (idealOpen_signsCorrectly peerA) (idealOpen_signsCorrectly peerB)

/-! ## Convergence -/

/-- **Row-set convergence.**  Two peers without redactions whose logs hold the
    same events have the same rows, whatever the order of arrival. -/
theorem row_sets_converge (P : Prims H) (hJ : JsonLaws P) (hinj : Function.Injective P.blake3)
    (ops ops' : List (Op P)) (hno : NoRedactions ops) (hno' : NoRedactions ops')
    (hsame : SameEvents (P.run Store.empty ops) (P.run Store.empty ops')) :
    SameRows (P.run Store.empty ops).proj (P.run Store.empty ops').proj :=
  row_sets_eq hJ hinj hno hno' hsame

theorem row_sets_converge_crossing : SameRows atAda.proj atBob.proj :=
  row_sets_converge idealOpen idealOpen_laws idealOpen_injective _ _ crossing_noRedactions.1
    crossing_noRedactions.2 crossed_sameEvents

/-- **Status convergence, exactly.**  Two peers without redactions whose logs
    hold the same events agree on every status if and only if, for every
    assertion, the last dispute, retraction or supersession that reached each
    of them is of the same kind. -/
theorem statuses_converge_iff (P : Prims H) (hJ : JsonLaws P) (hinj : Function.Injective P.blake3)
    (ops ops' : List (Op P)) (hno : NoRedactions ops) (hno' : NoRedactions ops')
    (hsame : SameEvents (P.run Store.empty ops) (P.run Store.empty ops')) :
    (∀ a, statusOf (P.run Store.empty ops).proj a = statusOf (P.run Store.empty ops').proj a) ↔
      ∀ a, P.lastChange (P.run Store.empty ops).events a
        = P.lastChange (P.run Store.empty ops').events a := by
  have hrows := row_sets_eq hJ hinj hno hno' hsame
  have hst := statusInv_built (built_run hJ hinj hno)
  have hst' := statusInv_built (built_run hJ hinj hno')
  simp only [hst.statusOf_eq, hst'.statusOf_eq, hasAssertion_congr hrows]
  refine forall_congr' fun a => ?_
  split
  · rename_i hyes
    rw [Option.some.injEq]
    constructor
    · intro heq
      cases hl : P.lastChange (P.run Store.empty ops).events a with
      | none =>
        cases hl' : P.lastChange (P.run Store.empty ops').events a with
        | none => rfl
        | some status =>
          rw [hl, hl'] at heq
          exact absurd heq.symm (hst'.named a status hl').2
      | some status =>
        cases hl' : P.lastChange (P.run Store.empty ops').events a with
        | none =>
          rw [hl, hl'] at heq
          exact absurd heq (hst.named a status hl).2
        | some status' =>
          rw [hl, hl'] at heq
          exact congrArg some heq
    · intro heq
      rw [heq]
  · rename_i hno
    -- neither log names an assertion that does not exist
    have hnone : ∀ rows g, StatusInv P rows g → ¬ hasAssertion g a = true →
        P.lastChange rows a = none := by
      intro rows g hinv hnot
      by_contra hc
      obtain ⟨status, hc⟩ := Option.ne_none_iff_exists'.1 hc
      exact hnot (Table.hasKey_iff.2 (hinv.named a status hc).1)
    rw [hnone _ _ hst (by rw [hasAssertion_congr hrows]; exact hno), hnone _ _ hst' hno]

theorem statuses_converge_iff_crossing :
    (∀ a, statusOf atAda.proj a = statusOf atBob.proj a) ↔
      ∀ a, idealOpen.lastChange atAda.events a = idealOpen.lastChange atBob.events a :=
  statuses_converge_iff idealOpen idealOpen_laws idealOpen_injective _ _ crossing_noRedactions.1
    crossing_noRedactions.2 crossed_sameEvents

/-- The two peers of the crossing hold the same events, all accepted and none
    redacted, and Ada's peer calls the assertion retracted while Bob's calls it
    disputed. -/
theorem statuses_diverge :
    NoRedactions (adaOps idealOpen peerA peerB) ∧ NoRedactions (bobOps idealOpen peerA peerB) ∧
    SameEvents atAda atBob ∧
    statusOf atAda.proj (idealOpen.idOf (relateEvent idealOpen peerA)) = some .retracted ∧
    statusOf atBob.proj (idealOpen.idOf (relateEvent idealOpen peerA)) = some .disputed := by
  refine ⟨crossing_noRedactions.1, crossing_noRedactions.2, crossed_sameEvents, ?_, ?_⟩
  · rw [atAda, (run_adaOps idealOpen_laws idealOpen_injective peerA_ne_peerB
      (idealOpen_signsCorrectly peerB)).1]
    exact (crossing_statuses idealOpen peerA peerB).1
  · rw [atBob, (run_bobOps idealOpen_laws idealOpen_injective peerA_ne_peerB
      (idealOpen_signsCorrectly peerA)).1]
    exact (crossing_statuses idealOpen peerA peerB).2

end OpenAgentGraph
