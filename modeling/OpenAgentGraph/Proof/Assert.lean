/-
  Rejected assertions.

  The assertion of a call is committed before its evidence, so that a call
  which fails has left no trace exactly if it failed before that.  Of the
  evidence events the projector can reject one only, an item of a type that it
  does not know (`attach_unknown`): the assertion is there, and its id is new.
  The checks before the commit do not look at the type.
-/
import OpenAgentGraph.Graph.Assert
import OpenAgentGraph.IdealUrl
import OpenAgentGraph.Proof.Accept
import OpenAgentGraph.Proof.Range

namespace OpenAgentGraph

open Lib Repo

/-! ## The condition -/

/-- The projector has a name for the type of the item. -/
def EvidenceInput.KnownType (e : EvidenceInput) : Prop :=
  (EvidenceType.parse (e.evidenceType.getD "other")).isSome = true

variable {H : Type} [DecidableEq H]

/-- The assertion of the call is stored. -/
structure Accepted (P : Prims H) (s : Store H) (auth : AuthContext H) (input : AssertInput) :
    Prop where
  permitted : (auth.require .graphAssert : Except (GraphError H) Unit) = .ok ()
  valid : input.validate P = .ok ()
  finite : ∀ b, input.actorConfidence = some b → f32IsFinite b = true
  declared : hasActor s.proj auth.actorId = true
  room : s.events.length < maxRows

/-- The assertion is stored, and so are the items up to the first one of an
    unknown type, for which there is room in the log. -/
structure RejectedLate (P : Prims H) (s : Store H) (auth : AuthContext H) (input : AssertInput) :
    Prop where
  accepted : Accepted P s auth input
  unknown : ∃ good bad rest, input.evidence = good ++ bad :: rest ∧ (∀ e ∈ good, e.KnownType) ∧
    ¬ bad.KnownType ∧ s.events.length + 1 + good.length < maxRows

variable {P : Prims H}

/-! ## Commits -/

theorem commitEvent_ok {s s' : Store H} {identity : Prims.PeerIdentity} {payload : EventPayload}
    {now : Int64} {id : H} : P.commitEvent s identity payload now = .ok (s', id) ↔
      ∃ o, P.commitLocalEvent s identity payload now = .ok (s', id, o) := by
  rw [Prims.commitEvent, GraphError.lift_ok]
  cases P.commitLocalEvent s identity payload now with
  | error e => simp [Except.map]
  | ok r =>
    obtain ⟨s₁, id₁, o⟩ := r
    simp [Except.map]

/-- What a commit of the service needed, and what it did. -/
theorem commitEvent_spec (hJ : JsonLaws P) (hinj : Function.Injective P.blake3) {s s' : Store H}
    (hinv : DbInv P s) {identity : Prims.PeerIdentity} {payload : EventPayload} {now : Int64} {id : H}
    (h : P.commitEvent s identity payload now = .ok (s', id)) :
    DbInv P s' ∧ s'.events.length = s.events.length + 1 ∧ s.events.length < maxRows ∧
      payload.Finite ∧
      ∃ e, P.effectOf id now payload = some e ∧ e.Admissible s.proj ∧ s'.proj = e.apply s.proj := by
  obtain ⟨o, hc⟩ := commitEvent_ok.1 h
  have hexec : P.exec s (.commit identity payload now) = some s' := by
    rw [Prims.exec, hc]
    rfl
  obtain ⟨row, signed, happ, -, rfl, ⟨rfl, hnow⟩, -⟩ := commit_appended hc
  obtain ⟨e, heff, -, hadm, hproj⟩ := happ.effect hJ
  rw [happ.stored.createdAt, hnow] at heff
  refine ⟨exec_dbInv hJ hinj hinv hexec, ?_, happ.room, happ.stored.finite hJ, e, heff, hadm, hproj⟩
  rw [happ.events_eq, List.length_append, List.length_singleton]

/-- **A commit of the service succeeds** if the log has room and the event has
    an effect whose references are there and which adds no key. -/
theorem commitEvent_succeeds (hJ : JsonLaws P) (hinj : Function.Injective P.blake3) {s : Store H}
    (hinv : DbInv P s) (hroom : s.events.length < maxRows) {payload : EventPayload}
    (hfin : payload.Finite) (identity : Prims.PeerIdentity) (now : Int64)
    (heff : ∀ id, ∃ e, P.effectOf id now payload = some e ∧ e.References s.proj ∧ e.NewKeys s.proj) :
    ∃ s' id, P.commitEvent s identity payload now = .ok (s', id) := by
  let n := (Prims.nextOf (getOrigin s.eventOrigins (identity.peerId P))).1
  let previous := (Prims.nextOf (getOrigin s.eventOrigins (identity.peerId P))).2
  have hnext : Prims.nextOf (getOrigin s.eventOrigins (identity.peerId P)) = (n, previous) := rfl
  obtain ⟨e, he, hrefs, hkeys⟩ := heff (P.idOf (P.eventOf identity n previous now payload))
  have hfresh : ∀ r ∈ s.events, r.eventId ≠ P.idOf (P.eventOf identity n previous now payload) :=
    hinv.log.eventOf_fresh hJ hinj hfin hnext
  have hadm := (hinv.replay.admissible_iff hinj he hfresh hrefs).2 hkeys
  obtain ⟨o, hc⟩ := commit_apply hJ hinj hinv.log hroom hfin hnext he hadm
  exact ⟨_, _, commitEvent_ok.2 ⟨o, hc⟩⟩

/-! ## Evidence -/

/-- The store when `n` events of the call are committed, the first of them the
    assertion. -/
structure AttachInv (P : Prims H) (assertionId : H) (before : Store H) (n : ℕ) (s : Store H) :
    Prop where
  db : DbInv P s
  assertion : hasAssertion s.proj assertionId = true
  length : s.events.length = before.events.length + n

section attach

variable {s s' before : Store H} {identity : Prims.PeerIdentity} {assertionId : H}
  {e : EvidenceInput} {now : Int64} {n : ℕ}

omit [DecidableEq H] in
/-- The effect of an evidence event, for an item of a known type. -/
theorem effectOf_attach {id : H} {f : Effect H} :
    P.effectOf id now (.addEvidence (P.evidencePayload assertionId e)) = some f ↔
      ∃ type, EvidenceType.parse (e.evidenceType.getD "other") = some type ∧
        ({ evidence := [⟨id, assertionId, type, e.uri, e.title, e.excerpt, e.contentHash, e.observedAt,
            e.retrievedAt, buildEvidenceMetadata e.pinnedCid e.metadata⟩]
           eventRefs := [⟨id, .assertion, assertionId⟩]
           needAssertions := [assertionId] } : Effect H) = f := by
  simp only [Prims.effectOf, Prims.evidenceEffect, Prims.evidencePayload, parseId_toHex,
    option_bind_some, option_pure_some, toOption_eq_some, Except.ok.injEq, exists_eq_left']

/-- An item that is attached was of a known type, and the next one finds the
    same assertion. -/
theorem attach_ok (hJ : JsonLaws P) (hinj : Function.Injective P.blake3)
    (hinv : AttachInv P assertionId before n s)
    (h : P.addEvidenceInternal s identity assertionId e now = .ok s') :
    AttachInv P assertionId before (n + 1) s' ∧ e.KnownType := by
  obtain ⟨r, hc, rfl⟩ : ∃ r, P.commitEvent s identity
      (.addEvidence (P.evidencePayload assertionId e)) now = .ok r ∧ r.1 = s' := map_ok.1 h
  obtain ⟨hdb, hlen, -, -, f, heff, -, hproj⟩ := commitEvent_spec hJ hinj hinv.db hc
  obtain ⟨type, htype, rfl⟩ := effectOf_attach.1 heff
  refine ⟨⟨hdb, ?_, ?_⟩, ?_⟩
  · rw [hproj]
    simpa [hasAssertion, Effect.apply] using hinv.assertion
  · rw [hlen, hinv.length, Nat.add_assoc]
  · rw [EvidenceInput.KnownType, htype]
    rfl

/-- An item of a known type is attached, if the log has room for it. -/
theorem attach_known (hJ : JsonLaws P) (hinj : Function.Injective P.blake3)
    (hinv : AttachInv P assertionId before n s) (hroom : s.events.length < maxRows)
    (hknown : e.KnownType) (identity : Prims.PeerIdentity) (now : Int64) :
    ∃ s', P.addEvidenceInternal s identity assertionId e now = .ok s' := by
  obtain ⟨type, htype⟩ := Option.isSome_iff_exists.1 hknown
  have hfin : (EventPayload.addEvidence (P.evidencePayload assertionId e)).Finite := trivial
  obtain ⟨s', id, hc⟩ := commitEvent_succeeds hJ hinj hinv.db hroom hfin identity now fun id =>
    ⟨_, effectOf_attach.2 ⟨type, htype, rfl⟩, ⟨by simp, by simp, by simp [hinv.assertion]⟩, by
      simp [Effect.NewKeys]⟩
  exact ⟨s', map_ok.2 ⟨_, hc, rfl⟩⟩

/-- An item of another type is refused by the projector. -/
theorem attach_unknown (hJ : JsonLaws P) (hinj : Function.Injective P.blake3)
    (hinv : AttachInv P assertionId before n s) (hroom : s.events.length < maxRows)
    (hunknown : ¬ e.KnownType) :
    P.addEvidenceInternal s identity assertionId e now
      = .error (.events (.unknownExtractionMethod (e.evidenceType.getD "other"))) := by
  have hnone : EvidenceType.parse (e.evidenceType.getD "other") = none := by
    simpa [EvidenceInput.KnownType] using hunknown
  have hthere : (getAssertion s.proj assertionId).isNone = false :=
    Bool.eq_false_iff.2 (getAssertion_isNone.2 hinv.assertion)
  have hfin : (EventPayload.addEvidence (P.evidencePayload assertionId e)).Finite := trivial
  rw [Prims.addEvidenceInternal, Prims.commitEvent, commit_eq hJ hinj hinv.db.log hfin rfl,
    if_pos hroom]
  simp only [Prims.project, Prims.projectAddEvidence, Prims.evidencePayload, parseId_toHex, hthere,
    hnone, okOr, bind, Except.bind, Bool.false_eq_true, if_false]
  rfl

/-- A full log is a storage failure. -/
theorem attach_full (hJ : JsonLaws P) (hinj : Function.Injective P.blake3)
    (hinv : AttachInv P assertionId before n s) (hfull : ¬ s.events.length < maxRows) :
    P.addEvidenceInternal s identity assertionId e now
      = .error (.events (.storage (.sqlx .full))) := by
  have hfin : (EventPayload.addEvidence (P.evidencePayload assertionId e)).Finite := trivial
  rw [Prims.addEvidenceInternal, Prims.commitEvent, commit_eq hJ hinj hinv.db.log hfin rfl,
    if_neg hfull]
  rfl

/-- **An evidence item is rejected for its type only.** -/
theorem attach_rejected (hJ : JsonLaws P) (hinj : Function.Injective P.blake3)
    (hinv : AttachInv P assertionId before n s) {err : GraphError H} (hinput : ¬ err.IsStorage)
    (h : P.addEvidenceInternal s identity assertionId e now = .error err) :
    s.events.length < maxRows ∧ ¬ e.KnownType := by
  by_cases hroom : s.events.length < maxRows
  · refine ⟨hroom, fun hknown => ?_⟩
    obtain ⟨s', hs'⟩ := attach_known hJ hinj hinv hroom hknown identity now
    rw [hs'] at h
    cases h
  · rw [attach_full hJ hinj hinv hroom] at h
    cases h
    exact absurd trivial hinput

end attach

/-! ## The assertion -/

variable {U ε : Type} {L : UrlLib U ε} {s s' : Store H} {identity : Prims.PeerIdentity}
  {auth : AuthContext H} {input : AssertInput} {now : Int64} {assertionId : H}

omit [DecidableEq H] in
theorem effectOf_assert {id : H} {e : Effect H}
    (h : P.effectOf id now (.assertRelation (P.relationPayload L auth input)) = some e) :
    (∃ r, e.assertions = [r] ∧ r.id = id) ∧ e.statuses = [] ∧ e.needActors = [auth.actorId] ∧
      e.needNodes = [] ∧ e.needAssertions = [] ∧ e.actorKeys = [] := by
  simp only [Prims.effectOf, Prims.relationEffect, Prims.relationPayload, parseId_toHex,
    ExtractionMethod.parse_asStr, option_bind_some, option_pure_some, toOption_eq_some,
    Except.ok.injEq, Option.some.injEq, exists_eq_left'] at h
  subst h
  exact ⟨⟨_, rfl, rfl⟩, rfl, rfl, rfl, rfl, rfl⟩

omit [DecidableEq H] in
theorem effectOf_assert_isSome (L : UrlLib U ε) (auth : AuthContext H) (input : AssertInput) (id : H)
    (now : Int64) :
    ∃ e, P.effectOf id now (.assertRelation (P.relationPayload L auth input)) = some e := by
  simp only [Prims.effectOf, Prims.relationEffect, Prims.relationPayload, parseId_toHex,
    ExtractionMethod.parse_asStr, option_bind_some, option_pure_some, toOption_eq_some,
    Except.ok.injEq, Option.some.injEq, exists_eq_left']
  exact ⟨_, rfl⟩

omit [DecidableEq H] in
theorem finite_assert : (EventPayload.assertRelation (P.relationPayload L auth input)).Finite ↔
    ∀ b, input.actorConfidence = some b → f32IsFinite b = true := by
  simp only [EventPayload.Finite, Prims.relationPayload]

/-- After the assertion's commit its row is there for the evidence. -/
theorem assertRelation_ok (hJ : JsonLaws P) (hinj : Function.Injective P.blake3) (hinv : DbInv P s)
    (h : P.assertRelation L s identity auth input now = .ok (s', assertionId)) :
    Accepted P s auth input ∧ AttachInv P assertionId s 1 s' := by
  obtain ⟨_, hperm, _, hvalid, hc⟩ : ∃ u, auth.require .graphAssert = .ok u ∧
      ∃ u, input.validate P = .ok u ∧ P.commitEvent s identity
        (.assertRelation (P.relationPayload L auth input)) now = .ok (s', assertionId) := by
    simpa only [Prims.assertRelation, bind_ok] using h
  obtain ⟨hdb, hlen, hroom, hfin, e, heff, hadm, hproj⟩ := commitEvent_spec hJ hinj hinv hc
  obtain ⟨⟨r, hrows, hid⟩, hstatuses, hactors, -⟩ := effectOf_assert heff
  refine ⟨⟨hperm, hvalid, finite_assert.1 hfin, hadm.needActors _ (by simp [hactors]), hroom⟩, hdb, ?_, hlen⟩
  rw [hproj, hasAssertion, Table.hasKey_iff]
  refine ⟨r, ?_, hid⟩
  simp [Effect.apply, hstatuses, hrows]

theorem Accepted.assertRelation_ok (hJ : JsonLaws P) (hinj : Function.Injective P.blake3)
    (hinv : DbInv P s) (h : Accepted P s auth input) (L : UrlLib U ε) (identity : Prims.PeerIdentity)
    (now : Int64) :
    ∃ s' assertionId, P.assertRelation L s identity auth input now = .ok (s', assertionId) := by
  have hfin : (EventPayload.assertRelation (P.relationPayload L auth input)).Finite :=
    finite_assert.2 h.finite
  obtain ⟨s', assertionId, hc⟩ := commitEvent_succeeds hJ hinj hinv h.room hfin identity now
    fun id => by
      obtain ⟨e, heff⟩ := effectOf_assert_isSome (P := P) L auth input id now
      obtain ⟨-, -, hactors, hnodes, hassertions, hkeys⟩ := effectOf_assert heff
      refine ⟨e, heff, ⟨?_, ?_, ?_⟩, ?_⟩
      · simp [hnodes]
      · simp [hactors, h.declared]
      · simp [hassertions]
      · simp [Effect.NewKeys, hkeys]
  refine ⟨s', assertionId, ?_⟩
  rw [Prims.assertRelation, h.permitted, ok_bind, h.valid, ok_bind, hc]

/-! ## The call -/

theorem assert_rejected {e : GraphError H} {clock : ℕ → Int64}
    (h : P.assertRelation L s identity auth input (clock 0) = .error e) :
    P.assert L s identity auth input clock = (s, .error e) := by
  rw [Prims.assert, h]

theorem assert_accepted {clock : ℕ → Int64}
    (h : P.assertRelation L s identity auth input (clock 0) = .ok (s', assertionId)) :
    P.assert L s identity auth input clock
      = ((runSteps (fun n s e => P.addEvidenceInternal s identity assertionId e (clock n)) 1 s'
            input.evidence).1,
        (runSteps (fun n s e => P.addEvidenceInternal s identity assertionId e (clock n)) 1 s'
            input.evidence).2.map fun _ => assertionId) := by
  rw [Prims.assert, h]

/-- **A late rejection** leaves the assertion and the items before. -/
theorem RejectedLate.assert_eq (hJ : JsonLaws P) (hinj : Function.Injective P.blake3)
    (hinv : DbInv P s) (h : RejectedLate P s auth input) (L : UrlLib U ε)
    (identity : Prims.PeerIdentity) (clock : ℕ → Int64) :
    ∃ s' type, P.assert L s identity auth input clock
        = (s', .error (.events (.unknownExtractionMethod type))) ∧
      s.events.length < s'.events.length := by
  obtain ⟨s₁, assertionId, hrel⟩ := h.accepted.assertRelation_ok hJ hinj hinv L identity (clock 0)
  obtain ⟨good, bad, rest, hevidence, hgood, hbad, hroom⟩ := h.unknown
  let f := fun n s e => P.addEvidenceInternal s identity assertionId e (clock n)
  have hstep : ∀ n s₂ e s₃, AttachInv P assertionId s n s₂ → f n s₂ e = .ok s₃ →
      AttachInv P assertionId s (n + 1) s₃ ∧ e.KnownType :=
    fun n s₂ e s₃ hI hok => attach_ok hJ hinj hI hok
  have hstart := (OpenAgentGraph.assertRelation_ok hJ hinj hinv hrel).2
  obtain ⟨s₂, hrun⟩ : ∃ s₂, runSteps f 1 s₁ good = (s₂, .ok ()) := by
    refine runSteps_progress hstep ?_ hstart
    intro m s₃ e he hm hI
    have hlen := hI.length
    exact attach_known hJ hinj hI (by omega) (hgood e he) identity (clock m)
  have hI := (runSteps_induction hstep hstart hrun).1
  have hlen := hI.length
  have hfail : f (1 + good.length) s₂ bad
      = .error (.events (.unknownExtractionMethod (bad.evidenceType.getD "other"))) :=
    attach_unknown hJ hinj hI (by omega) hbad
  have hall : runSteps f 1 s₁ input.evidence
      = (s₂, .error (.events (.unknownExtractionMethod (bad.evidenceType.getD "other")))) := by
    rw [hevidence, runSteps_append hrun, runSteps_cons_error hfail]
  refine ⟨s₂, bad.evidenceType.getD "other", ?_, by omega⟩
  rw [assert_accepted hrel, hall]
  rfl

/-- **Any other rejection of the input** came before the first commit. -/
theorem assert_rejected_early (hJ : JsonLaws P) (hinj : Function.Injective P.blake3)
    (hinv : DbInv P s) (hnot : ¬ RejectedLate P s auth input) {clock : ℕ → Int64} {e : GraphError H}
    (hinput : ¬ e.IsStorage) (h : (P.assert L s identity auth input clock).2 = .error e) :
    (P.assert L s identity auth input clock).1 = s := by
  cases hrel : P.assertRelation L s identity auth input (clock 0) with
  | error e' => rw [assert_rejected hrel]
  | ok r =>
    obtain ⟨s₁, assertionId⟩ := r
    obtain ⟨haccepted, hstart⟩ := assertRelation_ok hJ hinj hinv hrel
    rw [assert_accepted hrel] at h
    rcases runSteps_cases (fun n s e => P.addEvidenceInternal s identity assertionId e (clock n)) 1 s₁
      input.evidence with ⟨s₂, hrun⟩ | ⟨good, bad, rest, s₂, err, hevidence, hgood, hbad, hrun⟩
    · rw [hrun] at h
      cases h
    · rw [hrun] at h
      cases h
      -- the prefix that ran was of known types, so the rejection is a late one
      obtain ⟨hI, hknown⟩ := runSteps_induction (fun n s₂ e s₃ hI hok => attach_ok hJ hinj hI hok)
        hstart hgood
      obtain ⟨hroom, hunknown⟩ := attach_rejected hJ hinj hI hinput hbad
      have hlen := hI.length
      exact absurd ⟨haccepted, good, bad, rest, hevidence, hknown, hunknown, by omega⟩ hnot

/-- **A rejected assertion leaves no trace**, in any state that a run of the
    peer reaches, if and only if the input is not one whose assertion is stored
    before an evidence item of an unknown type is met. -/
theorem assert_leaves_no_trace_iff (P : Prims H) (L : UrlLib U ε) (hJ : JsonLaws P)
    (hinj : Function.Injective P.blake3) (ops : List (DbOp P)) (identity : Prims.PeerIdentity)
    (auth : AuthContext H) (input : AssertInput) (clock : ℕ → Int64) :
    let s := (P.dbRun Database.empty ops).store
    (∀ e, (P.assert L s identity auth input clock).2 = .error e → ¬ e.IsStorage →
      (P.assert L s identity auth input clock).1 = s) ↔ ¬ RejectedLate P s auth input := by
  intro s
  have hinv : DbInv P s := dbRun_dbInv hJ hinj dbInv_empty ops
  constructor
  · intro h hlate
    obtain ⟨s', type, heq, hlen⟩ := hlate.assert_eq hJ hinj hinv L identity clock
    have hsame : s' = s := by
      have hleft := h _ (by rw [heq]) id
      rwa [heq] at hleft
    rw [hsame] at hlen
    exact absurd hlen (lt_irrefl _)
  · intro hnot e he hinput
    exact assert_rejected_early hJ hinj hinv hnot hinput he

/-! ## An evidence item of an unknown type -/

section screenshot

/-- The store in which an actor is declared. -/
noncomputable def declaredStore : Store Bytes :=
  (idealOpen.dbRun Database.empty (declareOps idealOpen peerA)).store

/-- That actor, with the permission to assert. -/
noncomputable def assertAuth : AuthContext Bytes := ⟨declaredActor idealOpen peerA, [.graphAssert]⟩

/-- The second item has a type that the projector does not know. -/
def screenshotInput : AssertInput where
  subject := "Model Context Protocol"
  subjectType := none
  predicate := "supports"
  object := "tool calls"
  objectType := none
  evidence := [{ uri := some "https://example.com/spec" }, { evidenceType := some "screenshot" }]
  actorConfidence := none
  observedAt := none
  extractionMethod := none

theorem declaredStore_eq : declaredStore = appendRow Store.empty
    (idealOpen.rowOf (declareEvent idealOpen peerA) (peerA.peerId idealOpen) none 1)
    (idealOpen.effect (declareEvent idealOpen peerA)) :=
  run_commit idealOpen_laws idealOpen_injective [] rfl (by simp [Store.empty, maxRows]) trivial rfl rfl
    (declare_admissible _ _)

theorem screenshot_rejectedLate : RejectedLate idealOpen declaredStore assertAuth screenshotInput where
  accepted := {
    permitted := by simp [AuthContext.require, assertAuth]
    valid := rfl
    finite := by rintro _ ⟨⟩
    declared := by
      rw [declaredStore_eq]
      exact declared_hasActor Projection.empty
    room := by simp [declaredStore_eq, appendRow, Store.empty, maxRows] }
  unknown := by
    refine ⟨[{ uri := some "https://example.com/spec" }], { evidenceType := some "screenshot" }, [], rfl,
      ?_, ?_, ?_⟩
    · intro e he
      rw [List.mem_singleton.1 he]
      rfl
    · intro h
      cases h
    · simp [declaredStore_eq, appendRow, Store.empty, maxRows]

/-- The condition, for that input. -/
theorem assert_leaves_no_trace_iff_screenshot :
    let s := (idealOpen.dbRun Database.empty (declareOps idealOpen peerA)).store
    (∀ e, (idealOpen.assert idealUrl s peerA assertAuth screenshotInput fun _ => 2).2 = .error e →
      ¬ e.IsStorage → (idealOpen.assert idealUrl s peerA assertAuth screenshotInput fun _ => 2).1 = s) ↔
      ¬ RejectedLate idealOpen s assertAuth screenshotInput :=
  assert_leaves_no_trace_iff idealOpen idealUrl idealOpen_laws idealOpen_injective
    (declareOps idealOpen peerA) peerA assertAuth screenshotInput fun _ => 2

/-- The call fails because of the type, and the log has grown. -/
theorem assert_leaves_trace :
    let s := (idealOpen.dbRun Database.empty (declareOps idealOpen peerA)).store
    ∃ s' type, idealOpen.assert idealUrl s peerA assertAuth screenshotInput (fun _ => 2)
        = (s', .error (.events (.unknownExtractionMethod type))) ∧
      ¬ (GraphError.events (.unknownExtractionMethod type) : GraphError Bytes).IsStorage ∧
      s.events.length < s'.events.length ∧ s' ≠ s := by
  intro s
  have hinv : DbInv idealOpen s := dbRun_dbInv idealOpen_laws idealOpen_injective dbInv_empty _
  obtain ⟨s', type, heq, hlen⟩ := screenshot_rejectedLate.assert_eq idealOpen_laws idealOpen_injective
    hinv idealUrl peerA fun _ => 2
  refine ⟨s', type, heq, id, hlen, ?_⟩
  rintro rfl
  exact absurd hlen (lt_irrefl _)

end screenshot

end OpenAgentGraph
