/-
  Rebuilding the projection.

  The tables of a peer are those that the effects of its log build, in order
  of arrival, with the redactions applied on top (`ReplayInv`).  A rebuild
  replays the same effects from the stored payloads, so it changes nothing.

  Three things make the replay agree with the history: an event read back
  from its row has the same effect (`Stored.rowEffect`), admissibility does
  not look at what a redaction clears (`Effect.Admissible.congr`), and an
  effect that comes after a redaction cannot touch the cleared rows
  (`apply_redactAll`).
-/
import OpenAgentGraph.Proof.Chain
import OpenAgentGraph.Proof.Project

namespace OpenAgentGraph

open Lib Repo

variable {H : Type} {P : Prims H}

/-! ## The effect of a stored row -/

theorem realColumn_congr {o o' : Option UInt32} (h : o.map f32Value = o'.map f32Value) :
    realColumn o = realColumn o' := by
  cases o with
  | none =>
    cases o' with
    | none => rfl
    | some b' => cases h
  | some b =>
    cases o' with
    | none => cases h
    | some b' =>
      have hv : f32Value b = f32Value b' := Option.some.inj h
      simp [realColumn, hv]

theorem buildEvidenceMetadata_metadataValue (cid : Option String) (o : Option JsonValue) :
    buildEvidenceMetadata cid (metadataValue o) = buildEvidenceMetadata cid o := by
  cases o with
  | none => rfl
  | some v =>
    obtain ⟨val, hval⟩ := v
    cases val <;> rfl

/-- Payloads that JSON does not tell apart have one effect. -/
theorem EventPayload.Same.effectOf_eq {p p' : EventPayload} (h : p.Same p') (eventId : H)
    (createdAt : Int64) : P.effectOf eventId createdAt p = P.effectOf eventId createdAt p' := by
  cases p with
  | assertRelation p =>
    cases p' with
    | assertRelation p' =>
      obtain ⟨hp, hval⟩ := h
      rw [← hp]
      simp only [Prims.effectOf, Prims.relationEffect, realColumn_congr hval]
    | _ => cases h
  | addEvidence p =>
    cases p' with
    | addEvidence p' =>
      obtain rfl : p' = _ := h
      simp only [Prims.effectOf, Prims.evidenceEffect, buildEvidenceMetadata_metadataValue]
    | _ => cases h
  | _ => cases p' <;> first | (cases h; rfl) | cases h

/-- The payload of the event that a row stores. -/
def Prims.rowPayload (P : Prims H) (row : EventRow H) : Option EventPayload :=
  (P.signedFromSlice row.canonicalPayload).toOption.map fun s => s.unsigned.payload

/-- The effect of the event that a row stores. -/
def Prims.rowEffect (P : Prims H) (row : EventRow H) : Option (Effect H) :=
  (P.rowPayload row).bind (P.effectOf row.eventId row.createdAt)

theorem rowEffect_some {row : EventRow H} {e : Effect H} (h : P.rowEffect row = some e) :
    ∃ p, P.rowPayload row = some p ∧ P.effectOf row.eventId row.createdAt p = some e :=
  Option.bind_eq_some_iff.1 h

theorem Stored.rowPayload (hJ : JsonLaws P) {row : EventRow H} {signed : SignedEvent}
    (h : Stored P row signed) :
    ∃ p, P.rowPayload row = some p ∧ signed.unsigned.payload.Same p := by
  obtain ⟨signed', hread, hsame, -⟩ := h.reread hJ
  exact ⟨_, by rw [Prims.rowPayload, hread]; rfl, hsame.unsigned.payload⟩

theorem Stored.rowEffect (hJ : JsonLaws P) {row : EventRow H} {signed : SignedEvent}
    (h : Stored P row signed) :
    P.rowEffect row = P.effectOf row.eventId row.createdAt signed.unsigned.payload := by
  obtain ⟨p, hp, hsame⟩ := h.rowPayload hJ
  rw [Prims.rowEffect, hp, hsame.effectOf_eq]
  rfl

variable [DecidableEq H]

/-! ## The tables that a log builds -/

/-- The effects of the rows, one after the other, build the tables. -/
inductive Built (P : Prims H) : List (EventRow H) → Projection H → Prop
  | nil : Built P [] .empty
  | snoc {rows g row e} : Built P rows g → P.rowEffect row = some e → e.Admissible g →
      Built P (rows ++ [row]) (e.apply g)

def Projection.withRefs (g : Projection H) (refs : List (EventRefRow H)) : Projection H :=
  { g with eventRefs := refs }

/-- Admissibility looks at the keys only. -/
theorem Effect.Admissible.congr {e : Effect H} {g g' : Projection H}
    (h : e.Admissible g)
    (hn : g'.nodes = g.nodes) (hed : g'.edges = g.edges) (hk : g'.actorKeys = g.actorKeys)
    (has : g'.assertions = g.assertions) (hob : g'.observations = g.observations)
    (hdi : g'.disputes = g.disputes) (hre : g'.retractions = g.retractions)
    (hsu : g'.supersessions = g.supersessions)
    (hev : g'.evidence.map EvidenceRow.id = g.evidence.map EvidenceRow.id)
    (hac : g'.actors.map ActorRow.actorId = g.actors.map ActorRow.actorId) : e.Admissible g' := by
  have hactor : ∀ id, hasActor g' id = hasActor g id := by
    intro id
    have hmem : ∀ t : List (ActorRow H), Table.hasKey ActorRow.actorId id t = true ↔
        id ∈ t.map ActorRow.actorId := by
      intro t
      rw [Table.hasKey_iff, List.mem_map]
    rw [Bool.eq_iff_iff, hasActor, hasActor, hmem, hmem, hac]
  constructor
  · simpa only [hasEdge, hasNode, Effect.apply, hn, hed] using h.edges
  · simpa only [hasNode, hn] using h.needNodes
  · intro id hid
    rw [hactor]
    exact h.needActors id hid
  · simpa only [hasAssertion, has] using h.needAssertions
  · rw [hk]; exact h.actorKeys
  · rw [has]; exact h.assertions
  · intro r hr y hy
    have hid : y.id ∈ g.evidence.map EvidenceRow.id := hev ▸ List.mem_map_of_mem hy
    obtain ⟨z, hz, hzy⟩ := List.mem_map.1 hid
    rw [← hzy]
    exact h.evidence r hr z hz
  · rw [hob]; exact h.observations
  · rw [hdi]; exact h.disputes
  · rw [hre]; exact h.retractions
  · rw [hsu]; exact h.supersessions

/-! ## Replaying the log -/

theorem replayRow_iff {events : List (EventRow H)} {g g' : Projection H} {row : EventRow H}
    (hev : Table.hasKey EventRow.eventId row.eventId events = true) :
    P.replayRow events g row = .ok g' ↔
      ∃ e, P.rowEffect row = some e ∧ e.Admissible g ∧ e.apply g = g' := by
  simp only [Prims.replayRow, bind_ok, orElse_ok, pure_ok, Prims.rowEffect, Prims.rowPayload,
    Option.bind_eq_some_iff, Option.map_eq_some_iff, toOption_eq_some, Prod.exists]
  constructor
  · rintro ⟨signed, hread, o, _, hproj, rfl⟩
    obtain ⟨e, heff, hadm, rfl⟩ := (project_iff hev).1 ⟨o, hproj⟩
    exact ⟨e, ⟨_, ⟨signed, hread, rfl⟩, heff⟩, hadm, rfl⟩
  · rintro ⟨e, ⟨_, ⟨signed, hread, rfl⟩, heff⟩, hadm, rfl⟩
    obtain ⟨o, hproj⟩ := (project_iff hev).2 ⟨e, heff, hadm, rfl⟩
    exact ⟨signed, hread, o, _, hproj, rfl⟩

theorem replay_snoc {events rows : List (EventRow H)} {row : EventRow H} {g g₁ g₂ : Projection H}
    (h : P.replay events g rows = .ok g₁) (hrow : P.replayRow events g₁ row = .ok g₂) :
    P.replay events g (rows ++ [row]) = .ok g₂ := by
  induction rows generalizing g with
  | nil =>
    obtain rfl : g = g₁ := Except.ok.inj h
    simp only [List.nil_append, Prims.replay, bind_ok]
    exact ⟨g₂, hrow, rfl⟩
  | cons r rows ih =>
    simp only [Prims.replay, bind_ok] at h
    obtain ⟨g', hr, hrest⟩ := h
    simp only [List.cons_append, Prims.replay, bind_ok]
    exact ⟨g', hr, ih hrest⟩

/-- References that are all there stay as they are. -/
theorem addAll_of_mem {α κ : Type} [DecidableEq κ] {key : α → κ} {rows t : List α}
    (h : ∀ r ∈ rows, ∃ y ∈ t, key y = key r) : addAll key rows t = t := by
  induction rows with
  | nil => rfl
  | cons r rows ih =>
    rw [addAll, List.foldl_cons, Table.insertOrIgnore_of_mem (h r (List.mem_cons_self ..))]
    exact ih fun r' hr' => h r' (List.mem_cons_of_mem _ hr')

theorem mem_addAll {α κ : Type} [DecidableEq κ] {key : α → κ} {rows t : List α} {y : α}
    (h : y ∈ t) : y ∈ addAll key rows t := by
  induction rows generalizing t with
  | nil => exact h
  | cons r rows ih => exact ih (Table.mem_insertOrIgnore.2 (Or.inl h))

/-- A row after the insertions was there, or is one of the rows with a free key. -/
theorem mem_addAll_cases {α κ : Type} [DecidableEq κ] {key : α → κ} {rows t : List α} {y : α}
    (h : y ∈ addAll key rows t) : y ∈ t ∨ y ∈ rows ∧ ∀ z ∈ t, key z ≠ key y := by
  induction rows generalizing t with
  | nil => exact Or.inl h
  | cons r rows ih =>
    rcases ih h with hy | ⟨hy, hno⟩
    · rcases Table.mem_insertOrIgnore.1 hy with hy | ⟨rfl, hno⟩
      · exact Or.inl hy
      · exact Or.inr ⟨List.mem_cons_self .., hno⟩
    · exact Or.inr ⟨List.mem_cons_of_mem _ hy,
        fun z hz => hno z (Table.mem_insertOrIgnore.2 (Or.inl hz))⟩

/-- After the insertions every key of the rows is there. -/
theorem exists_key_addAll {α κ : Type} [DecidableEq κ] {key : α → κ} {rows t : List α} {k : κ} :
    (∃ y ∈ addAll key rows t, key y = k) ↔ (∃ y ∈ t, key y = k) ∨ ∃ r ∈ rows, key r = k := by
  induction rows generalizing t with
  | nil => simp [addAll]
  | cons r rows ih =>
    have hcons : addAll key (r :: rows) t = addAll key rows (Table.insertOrIgnore key r t) := rfl
    rw [hcons, ih, Table.exists_key_insertOrIgnore, or_assoc]
    simp [eq_comm]

theorem nodup_addAll {α κ : Type} [DecidableEq κ] {key : α → κ} (rows : List α) {t : List α}
    (h : (t.map key).Nodup) : ((addAll key rows t).map key).Nodup := by
  unfold addAll
  induction rows generalizing t with
  | nil => exact h
  | cons r rows ih =>
    rw [List.foldl_cons]
    refine ih ?_
    unfold Table.insertOrIgnore
    split
    · exact h
    · next hno =>
      rw [List.map_append, List.nodup_append]
      refine ⟨h, List.nodup_singleton _, ?_⟩
      intro k hk k' hk' heq
      obtain ⟨y, hy, rfl⟩ := List.mem_map.1 hk
      rw [List.map_singleton, List.mem_singleton] at hk'
      exact hno (Table.hasKey_iff.2 ⟨y, hy, heq.trans hk'⟩)

theorem mem_foldl_addNode {rows t : List (NodeRow H)} {y : NodeRow H} (h : y ∈ t) :
    y ∈ rows.foldl addNode t := by
  induction rows generalizing t with
  | nil => exact h
  | cons r rows ih =>
    refine ih ?_
    unfold addNode
    split
    · exact h
    · exact Table.mem_insertOrIgnore.2 (Or.inl h)

/-- **Replaying a log** builds its tables again; references that survived the
    clearing are found in place. -/
theorem Built.replay {events rows : List (EventRow H)} {g : Projection H} (h : Built P rows g)
    (hev : ∀ r ∈ rows, Table.hasKey EventRow.eventId r.eventId events = true)
    {refs : List (EventRefRow H)} (hrefs : ∀ x ∈ g.eventRefs, x ∈ refs) :
    P.replay events (Projection.empty.withRefs refs) rows = .ok (g.withRefs refs) := by
  induction h with
  | nil => rfl
  | @snoc rows g row e hb heff hadm ih =>
    have hsub : ∀ x ∈ g.eventRefs, x ∈ refs := fun x hx => hrefs x (mem_addAll hx)
    have hrow := hev row (by simp)
    refine replay_snoc (ih (fun r hr => hev r (by simp [hr])) hsub) ((replayRow_iff hrow).2 ?_)
    refine ⟨e, heff, hadm.congr rfl rfl rfl rfl rfl rfl rfl rfl rfl rfl, ?_⟩
    have hkeep : addAll id e.eventRefs refs = refs := by
      refine addAll_of_mem fun r hr => ?_
      have hkey : ∃ y ∈ addAll id e.eventRefs g.eventRefs, id y = id r :=
        exists_key_addAll.2 (Or.inr ⟨r, hr, rfl⟩)
      obtain ⟨y, hy, hyr⟩ := hkey
      exact ⟨y, hrefs y hy, hyr⟩
    simp only [Effect.apply, Projection.withRefs, hkeep]

/-! ## Redactions -/

/-- Rows with an id of the list, cleared by `f`. -/
def clearIds {α : Type} (key : α → H) (f : α → α) (ids : List H) (t : List α) : List α :=
  t.map fun r => if key r ∈ ids then f r else r

section clear

variable {α : Type} (key : α → H) (f : α → α)

theorem map_clearIds (hf : ∀ r, key (f r) = key r) (ids : List H) (t : List α) :
    (clearIds key f ids t).map key = t.map key := by
  unfold clearIds
  rw [List.map_map]
  refine List.map_congr_left fun r _ => ?_
  simp only [Function.comp_apply]
  split
  · exact hf r
  · rfl

/-- Clearing one id after the other is clearing them all. -/
theorem foldl_clear (hf : ∀ r, key (f r) = key r) (hff : ∀ r, f (f r) = f r) (ids : List H)
    (t : List α) :
    ids.foldl (fun t k => Table.updateWhere (fun r => decide (key r = k)) f t) t
      = clearIds key f ids t := by
  induction ids using List.reverseRecOn with
  | nil => simp [clearIds]
  | append_singleton ids k ih =>
    rw [List.foldl_append, ih]
    simp only [List.foldl_cons, List.foldl_nil, clearIds, Table.updateWhere, List.map_map]
    refine List.map_congr_left fun r _ => ?_
    simp only [Function.comp_apply, List.mem_append, List.mem_singleton, decide_eq_true_eq]
    by_cases hk : key r = k
    · by_cases hm : key r ∈ ids <;> simp_all
    · by_cases hm : key r ∈ ids <;> simp_all

theorem updateWhere_clearIds (hf : ∀ r, key (f r) = key r) (hff : ∀ r, f (f r) = f r) (ids : List H)
    (k : H) (t : List α) :
    Table.updateWhere (fun r => decide (key r = k)) f (clearIds key f ids t)
      = clearIds key f (ids ++ [k]) t := by
  rw [← foldl_clear key f hf hff, ← foldl_clear key f hf hff, List.foldl_append]
  rfl

theorem clearIds_append {ids : List H} {t rows : List α} (h : ∀ r ∈ rows, key r ∉ ids) :
    clearIds key f ids (t ++ rows) = clearIds key f ids t ++ rows := by
  have hrows : clearIds key f ids rows = rows := by
    unfold clearIds
    refine (List.map_congr_left fun r hr => ?_).trans (List.map_id _)
    rw [if_neg (h r hr)]
    rfl
  have happ : clearIds key f ids (t ++ rows) = clearIds key f ids t ++ clearIds key f ids rows :=
    List.map_append
  rw [happ, hrows]

/-- A row that is inserted has a free key, so no cleared one. -/
theorem addAll_clearIds (hf : ∀ r, key (f r) = key r) {ids : List H} {rows t : List α}
    (h : ∀ k ∈ ids, ∃ y ∈ t, key y = k) :
    addAll key rows (clearIds key f ids t) = clearIds key f ids (addAll key rows t) := by
  induction rows generalizing t with
  | nil => rfl
  | cons r rows ih =>
    have hkeys : (∃ y ∈ clearIds key f ids t, key y = key r) ↔ ∃ y ∈ t, key y = key r := by
      have hmem : key r ∈ (clearIds key f ids t).map key ↔ key r ∈ t.map key := by
        rw [map_clearIds key f hf]
      simpa only [List.mem_map] using hmem
    have hstep : Table.insertOrIgnore key r (clearIds key f ids t)
        = clearIds key f ids (Table.insertOrIgnore key r t) := by
      by_cases hr : ∃ y ∈ t, key y = key r
      · rw [Table.insertOrIgnore_of_mem hr, Table.insertOrIgnore_of_mem (hkeys.2 hr)]
      · have hnot : ∀ r' ∈ [r], key r' ∉ ids := by
          intro r' hr' hid
          obtain rfl : r' = r := by simpa using hr'
          exact hr (h _ hid)
        rw [Table.insertOrIgnore_of_not_mem hr,
          Table.insertOrIgnore_of_not_mem fun hc => hr (hkeys.1 hc), clearIds_append key f hnot]
    change addAll key rows (Table.insertOrIgnore key r (clearIds key f ids t)) = _
    rw [hstep]
    refine ih fun k hk => ?_
    obtain ⟨y, hy, hyk⟩ := h k hk
    exact ⟨y, Table.mem_insertOrIgnore.2 (Or.inl hy), hyk⟩

end clear

def clearEvidence (r : EvidenceRow H) : EvidenceRow H := { r with title := none, excerpt := none }
def clearActor (r : ActorRow H) : ActorRow H := { r with identityUri := none }

theorem redactAll_eq (s : Store H) (g : Projection H) :
    Prims.redactAll s g = { g with
      evidence := clearIds EvidenceRow.id clearEvidence (s.redactions.map RedactionRow.eventId)
        g.evidence
      actors := clearIds ActorRow.actorId clearActor
        (s.actorRedactions.map ActorRedactionRow.actorId) g.actors } := by
  have hev : ∀ (l : List (RedactionRow H)) (g : Projection H),
      l.foldl (fun g r => (Repo.redactEvidence g r.eventId).1) g = { g with
        evidence := (l.map RedactionRow.eventId).foldl
          (fun t k => Table.updateWhere (fun r => decide (r.id = k)) clearEvidence t) g.evidence } := by
    intro l
    induction l with
    | nil => intro g; rfl
    | cons r l ih => intro g; rw [List.foldl_cons, ih]; rfl
  have hac : ∀ (l : List (ActorRedactionRow H)) (g : Projection H),
      l.foldl (fun g r => (redactIdentityUri g r.actorId).1) g = { g with
        actors := (l.map ActorRedactionRow.actorId).foldl
          (fun t k => Table.updateWhere (fun r => decide (r.actorId = k)) clearActor t) g.actors } := by
    intro l
    induction l with
    | nil => intro g; rfl
    | cons r l ih => intro g; rw [List.foldl_cons, ih]; rfl
  simp only [Prims.redactAll]
  rw [hev, hac]
  simp only [foldl_clear EvidenceRow.id clearEvidence (fun _ => rfl) fun _ => rfl,
    foldl_clear ActorRow.actorId clearActor (fun _ => rfl) fun _ => rfl]

/-- Every redacted id has its row. -/
structure RedactionRows (s : Store H) (g : Projection H) : Prop where
  evidence : ∀ k ∈ s.redactions.map RedactionRow.eventId, ∃ y ∈ g.evidence, y.id = k
  actors : ∀ k ∈ s.actorRedactions.map ActorRedactionRow.actorId, ∃ y ∈ g.actors, y.actorId = k

theorem admissible_redactAll {e : Effect H} {s : Store H} {g : Projection H}
    (h : e.Admissible (Prims.redactAll s g)) : e.Admissible g := by
  rw [redactAll_eq] at h
  refine h.congr rfl rfl rfl rfl rfl rfl rfl rfl ?_ ?_
  · exact (map_clearIds EvidenceRow.id clearEvidence (fun _ => rfl) _ _).symm
  · exact (map_clearIds ActorRow.actorId clearActor (fun _ => rfl) _ _).symm

/-- An effect does not touch rows that were redacted before it. -/
theorem apply_redactAll {e : Effect H} {s : Store H} {g : Projection H} (hadm : e.Admissible g)
    (hrows : RedactionRows s g) : e.apply (Prims.redactAll s g) = Prims.redactAll s (e.apply g) := by
  have hev : ∀ r ∈ e.evidence, r.id ∉ s.redactions.map RedactionRow.eventId := by
    intro r hr hid
    obtain ⟨y, hy, hyid⟩ := hrows.evidence _ hid
    exact hadm.evidence r hr y hy hyid
  rw [redactAll_eq, redactAll_eq]
  simp only [Effect.apply, clearIds_append EvidenceRow.id clearEvidence hev,
    addAll_clearIds ActorRow.actorId clearActor (fun _ => rfl) hrows.actors]

theorem RedactionRows.apply {e : Effect H} {s : Store H} {g : Projection H}
    (h : RedactionRows s g) : RedactionRows s (e.apply g) := by
  constructor
  · intro k hk
    obtain ⟨y, hy, hyk⟩ := h.evidence k hk
    exact ⟨y, List.mem_append_left _ hy, hyk⟩
  · intro k hk
    obtain ⟨y, hy, hyk⟩ := h.actors k hk
    exact ⟨y, mem_addAll hy, hyk⟩

/-! ## The invariant -/

/-- The tables are those of the log, with the redactions applied. -/
structure ReplayInv (P : Prims H) (s : Store H) : Prop where
  built : ∃ g, Built P s.events g ∧ RedactionRows s g ∧ s.proj = Prims.redactAll s g

theorem replayInv_empty : ReplayInv P (Store.empty : Store H) :=
  ⟨.empty, .nil, ⟨fun _ hk => (by cases hk), fun _ hk => (by cases hk)⟩, rfl⟩

theorem redactAll_congr {s s' : Store H} (g : Projection H) (h₁ : s'.redactions = s.redactions)
    (h₂ : s'.actorRedactions = s.actorRedactions) : Prims.redactAll s' g = Prims.redactAll s g := by
  rw [redactAll_eq, redactAll_eq, h₁, h₂]

/-- **An appended event** has its effect on the tables. -/
theorem Appended.effect (hJ : JsonLaws P) {s s' : Store H} {row : EventRow H} {signed : SignedEvent}
    (h : Appended P s s' row signed) :
    ∃ e, P.effectOf row.eventId row.createdAt signed.unsigned.payload = some e ∧
      P.rowEffect row = some e ∧ e.Admissible s.proj ∧ s'.proj = e.apply s.proj := by
  have hev : Table.hasKey EventRow.eventId row.eventId (s.events ++ [row]) = true :=
    Table.hasKey_iff.2 ⟨row, by simp, rfl⟩
  obtain ⟨e, heff, hadm, hproj⟩ := (project_iff hev).1 h.projected
  refine ⟨e, heff, ?_, hadm, hproj.symm⟩
  rw [h.stored.rowEffect hJ, heff]

theorem Appended.replayInv (hJ : JsonLaws P) {s s' : Store H} {row : EventRow H}
    {signed : SignedEvent} (h : Appended P s s' row signed) (hinv : ReplayInv P s) :
    ReplayInv P s' := by
  obtain ⟨g, hbuilt, hrows, hproj⟩ := hinv.built
  obtain ⟨e, -, heff, hadm, hproj'⟩ := h.effect hJ
  have hr : s'.redactions = s.redactions ∧ s'.actorRedactions = s.actorRedactions := by
    rw [h.eq]; exact ⟨rfl, rfl⟩
  rw [hproj] at hadm hproj'
  have hadm' := admissible_redactAll hadm
  refine ⟨e.apply g, ?_, ?_, ?_⟩
  · rw [h.events_eq]
    exact hbuilt.snoc heff hadm'
  · have := hrows.apply (e := e)
    exact ⟨by rw [hr.1]; exact this.evidence, by rw [hr.2]; exact this.actors⟩
  · rw [hproj', apply_redactAll hadm' hrows, redactAll_congr _ hr.1 hr.2]

theorem clearProjectionTables_eq (g : Projection H) :
    clearProjectionTables g = .ok (Projection.empty.withRefs g.eventRefs) := by
  simp [clearProjectionTables, deleteRows, referenced, requireKey, Projection.withRefs,
    Projection.empty, bind, Except.bind, pure, Except.pure]

/-- **A rebuild of a state that satisfies the invariant** changes nothing. -/
theorem ReplayInv.rebuild {s : Store H} (hinv : ReplayInv P s) :
    P.rebuildProjection s
      = .ok (s, ⟨s.events.length, s.redactions.length, s.actorRedactions.length⟩) := by
  obtain ⟨g, hbuilt, -, hproj⟩ := hinv.built
  have hrefs : s.proj.eventRefs = g.eventRefs := by rw [hproj, redactAll_eq]
  have hkeep : ∀ x ∈ g.eventRefs, x ∈ s.proj.eventRefs := fun x hx => by rw [hrefs]; exact hx
  have hreplay := hbuilt.replay (fun r hr => Table.hasKey_iff.2 ⟨r, hr, rfl⟩) hkeep
  have hg : g.withRefs s.proj.eventRefs = g := by rw [hrefs]; rfl
  rw [hg] at hreplay
  simp only [Prims.rebuildProjection, clearProjectionTables_eq, hreplay, GraphError.lift, bind,
    Except.bind, pure, Except.pure, ← hproj]

theorem ReplayInv.redactEvidence {s : Store H} (hinv : ReplayInv P s) {r : RedactionRow H}
    (hrow : ∃ y ∈ s.proj.evidence, y.id = r.eventId) :
    ReplayInv P { s with
      proj := (Repo.redactEvidence s.proj r.eventId).1
      redactions := s.redactions ++ [r] } := by
  obtain ⟨g, hbuilt, hrows, hproj⟩ := hinv.built
  refine ⟨g, hbuilt, ⟨?_, hrows.actors⟩, ?_⟩
  · intro k hk
    simp only [List.map_append, List.map_cons, List.map_nil, List.mem_append,
      List.mem_singleton] at hk
    rcases hk with hk | rfl
    · exact hrows.evidence k hk
    · have hids : s.proj.evidence.map EvidenceRow.id = g.evidence.map EvidenceRow.id := by
        rw [hproj, redactAll_eq]
        exact map_clearIds EvidenceRow.id clearEvidence (fun _ => rfl) _ _
      exact List.mem_map.1 (hids ▸ List.mem_map.2 hrow)
  · simp only [hproj, redactAll_eq, Repo.redactEvidence, List.map_append, List.map_cons,
      List.map_nil]
    rw [← updateWhere_clearIds EvidenceRow.id clearEvidence (fun _ => rfl) fun _ => rfl]
    rfl

theorem ReplayInv.redactActor {s : Store H} (hinv : ReplayInv P s) {r : ActorRedactionRow H}
    (hrow : ∃ y ∈ s.proj.actors, y.actorId = r.actorId) :
    ReplayInv P { s with
      proj := (redactIdentityUri s.proj r.actorId).1
      actorRedactions := s.actorRedactions ++ [r] } := by
  obtain ⟨g, hbuilt, hrows, hproj⟩ := hinv.built
  refine ⟨g, hbuilt, ⟨hrows.evidence, ?_⟩, ?_⟩
  · intro k hk
    simp only [List.map_append, List.map_cons, List.map_nil, List.mem_append,
      List.mem_singleton] at hk
    rcases hk with hk | rfl
    · exact hrows.actors k hk
    · have hids : s.proj.actors.map ActorRow.actorId = g.actors.map ActorRow.actorId := by
        rw [hproj, redactAll_eq]
        exact map_clearIds ActorRow.actorId clearActor (fun _ => rfl) _ _
      exact List.mem_map.1 (hids ▸ List.mem_map.2 hrow)
  · simp only [hproj, redactAll_eq, redactIdentityUri, List.map_append, List.map_cons,
      List.map_nil]
    rw [← updateWhere_clearIds ActorRow.actorId clearActor (fun _ => rfl) fun _ => rfl]
    rfl

theorem LogStep.replayInv (hJ : JsonLaws P) {s s' : Store H} {op : Op P} (h : LogStep P s op s')
    (hinv : ReplayInv P s) : ReplayInv P s' := by
  cases h with
  | commit happ _ _ => exact happ.replayInv hJ hinv
  | known => exact hinv
  | forked _ _ _ _ hfork =>
    obtain ⟨json, rfl⟩ := recordFork_ok hfork
    obtain ⟨g, hbuilt, hrows, hproj⟩ := hinv.built
    exact ⟨g, hbuilt, ⟨hrows.evidence, hrows.actors⟩, hproj⟩
  | applied happ _ _ => exact happ.replayInv hJ hinv
  | rebuild hr =>
    rw [hinv.rebuild] at hr
    cases hr
    exact hinv
  | redactEvidence hr =>
    obtain ⟨-, hrow, rfl⟩ := redactEvidence_ok hr
    exact hinv.redactEvidence (r := ⟨_, _, _⟩) hrow
  | redactActor hr =>
    obtain ⟨-, hrow, rfl⟩ := redactActor_ok hr
    exact hinv.redactActor (r := ⟨_, _, _⟩) hrow

theorem replayInv_run (hJ : JsonLaws P) (hinj : Function.Injective P.blake3) (ops : List (Op P)) :
    ReplayInv P (P.run Store.empty ops) := by
  have hboth : LogInv P (P.run Store.empty ops) ∧ ReplayInv P (P.run Store.empty ops) := by
    refine P.run_induction (I := fun s => LogInv P s ∧ ReplayInv P s) ops
      ⟨⟨fun _ hr => (by cases hr), chainInv_empty⟩, replayInv_empty⟩ ?_
    rintro op - s s' ⟨hlog, hinv⟩ hexec
    have hstep := exec_logStep hJ hinj hlog.stored hexec
    exact ⟨hstep.logInv hlog, hstep.replayInv hJ hinv⟩
  exact hboth.2

/-- **A rebuild changes nothing.**  After any run from an empty store it
    succeeds, and every table is as it was, redacted fields included. -/
theorem rebuild_projection_unchanged (P : Prims H) (hJ : JsonLaws P)
    (hinj : Function.Injective P.blake3) (ops : List (Op P)) :
    ∃ summary, P.rebuildProjection (P.run Store.empty ops) = .ok (P.run Store.empty ops, summary) :=
  ⟨_, (replayInv_run hJ hinj ops).rebuild⟩

/-- A declared actor whose identity URI was redacted. -/
theorem rebuild_projection_unchanged_redacted :
    let P := ideal fun _ _ => true
    let me : Prims.PeerIdentity := ⟨[7]⟩
    let key : Bytes := List.replicate 32 1
    let declare : EventPayload := .actorDeclare ⟨"human", none, some (hexEncode key), some "did:me"⟩
    let ops : List (Op P) := [.commit me declare 10,
      .redactActor ⟨[], [.admin]⟩ (P.actorIdOf [] (some (hexEncode key))) none 20]
    ∃ summary, P.rebuildProjection (P.run Store.empty ops) = .ok (P.run Store.empty ops, summary) := by
  intro P me key declare ops
  exact rebuild_projection_unchanged P (idealJsonLaws _) (ideal_blake3_injective _) ops

end OpenAgentGraph
