/-
  The projector applies the event's effect, and fails when the payload does
  not decode or the effect is not admissible (`project_iff`).
-/
import OpenAgentGraph.Events.Effect
import OpenAgentGraph.Proof.Log

namespace OpenAgentGraph

open Lib Repo

variable {H : Type} {P : Prims H} [DecidableEq H]

/-! ## Statements -/

theorem requireKey_ok {b : Bool} {u : Unit} : requireKey b = .ok u ↔ b = true := by
  cases b <;> simp [requireKey]

theorem insertNew_ok {α κ : Type} [DecidableEq κ] {key : α → κ} {x : α} {t t' : List α} :
    insertNew key x t = .ok t' ↔ (∀ y ∈ t, key y ≠ key x) ∧ t' = t ++ [x] := by
  rw [← Table.insertNew_eq_some, insertNew]
  cases Table.insertNew key x t with
  | none => simp
  | some t₁ => simp

theorem getAssertion_isNone {g : Projection H} {id : H} :
    ¬ (getAssertion g id).isNone = true ↔ hasAssertion g id = true := by
  rw [getAssertion, Table.find_isNone, hasAssertion, Table.hasKey_iff]
  push Not
  rfl

theorem getNode_isNone {g : Projection H} {id : H} :
    ¬ (getNode g id).isNone = true ↔ hasNode g id = true := by
  rw [getNode, Table.find_isNone, hasNode, Table.hasKey_iff]
  push Not
  rfl

/-- A reference to an event that is stored is never refused. -/
theorem addRef_ok {events : List (EventRow H)} {g g' : Projection H} {eventId refId : H}
    {refType : RefType} (hev : Table.hasKey EventRow.eventId eventId events = true) :
    addRef events g eventId refType refId = .ok g' ↔
      { g with eventRefs := Table.insertOrIgnore id ⟨eventId, refType, refId⟩ g.eventRefs } = g' := by
  simp only [addRef, hev, Bool.or_true, if_true, Except.ok.injEq]

/-! ## Handlers -/

section handlers

variable {events : List (EventRow H)} {g g' : Projection H} {eventId : H} {createdAt : Int64}

theorem resolveOrCreateNode_eq (g : Projection H) (identifier nodeType : String)
    (createdAt : Int64) : P.resolveOrCreateNode g identifier nodeType createdAt
      = (P.nodeId identifier,
        { g with nodes := addNode g.nodes (P.newNode identifier nodeType createdAt) }) := by
  unfold Prims.resolveOrCreateNode addNode Prims.newNode insertNodeIfMissing
  simp only
  split
  · split <;> rfl
  · rename_i hsome
    rw [getNode_isNone, hasNode, Table.hasKey_iff] at hsome
    split
    · rfl
    · rw [Table.insertOrIgnore_of_mem hsome]

theorem hasEdge_addEdge (g : Projection H) (row : EdgeRow H) :
    Table.hasKey EdgeRow.edgeId row.edgeId (Table.insertOrIgnore EdgeRow.edgeId row g.edges) = true :=
  Table.hasKey_iff.2 (Table.exists_key_insertOrIgnore.2 (Or.inr rfl))

theorem projectAssertRelation_iff (hev : Table.hasKey EventRow.eventId eventId events = true)
    (p : AssertRelationPayload) :
    P.projectAssertRelation events g eventId createdAt p = .ok g' ↔
      ∃ e, P.relationEffect eventId createdAt p = some e ∧ e.Admissible g ∧ e.apply g = g' := by
  simp only [Prims.projectAssertRelation, resolveOrCreateNode_eq, insertEdgeIfMissing,
    insertAssertion, bind_ok, pure_ok, orElse_ok, okOr_ok, requireKey_ok, insertNew_ok, addRef_ok hev,
    Prims.relationEffect, option_bind_some, option_pure_some, toOption_eq_some, Bool.or_eq_true,
    Bool.and_eq_true]
  constructor
  · rintro ⟨_, ⟨-, hedge, rfl⟩, actorId, hactor, method, hmethod, _,
      ⟨_, ⟨hnew, rfl⟩, -, ⟨-, hneed⟩, rfl⟩, _, rfl, _, rfl, _, rfl, rfl⟩
    refine ⟨_, ⟨actorId, hactor, method, hmethod, rfl⟩, ?_, by simp [Effect.apply, addAll]⟩
    constructor <;> simp_all [hasActor, hasEdge, hasNode, Effect.apply]
  · rintro ⟨_, ⟨actorId, hactor, method, hmethod, rfl⟩, hadm, rfl⟩
    have hedge := hadm.edges _ (List.mem_singleton_self _)
    have hnew := hadm.assertions _ (List.mem_singleton_self _)
    have hneed := hadm.needActors _ (List.mem_singleton_self _)
    exact ⟨_, ⟨(), hedge, rfl⟩, actorId, hactor, method, hmethod, _,
      ⟨_, ⟨hnew, rfl⟩, (), ⟨hasEdge_addEdge g _, hneed⟩, rfl⟩, _, rfl, _, rfl, _, rfl,
      by simp [Effect.apply, addAll]⟩

theorem projectAddEvidence_iff (hev : Table.hasKey EventRow.eventId eventId events = true)
    (p : AddEvidencePayload) :
    P.projectAddEvidence events g eventId p = .ok g' ↔
      ∃ e, P.evidenceEffect eventId p = some e ∧ e.Admissible g ∧ e.apply g = g' := by
  simp only [Prims.projectAddEvidence, bind_ok, orElse_ok, okOr_ok, guard_ok, insertEvidence, pure_ok,
    requireKey_ok, insertNew_ok, addRef_ok hev, getAssertion_isNone, Prims.evidenceEffect,
    option_bind_some, option_pure_some, toOption_eq_some]
  constructor
  · rintro ⟨id, hid, hneed, type, htype, _, ⟨_, ⟨hnew, rfl⟩, -, -, rfl⟩, rfl⟩
    refine ⟨_, ⟨id, hid, type, htype, rfl⟩, ?_, by simp [Effect.apply, addAll]⟩
    constructor <;> simp_all
  · rintro ⟨_, ⟨id, hid, type, htype, rfl⟩, hadm, rfl⟩
    have hneed := hadm.needAssertions id (by simp)
    have hnew := hadm.evidence _ (List.mem_singleton_self _)
    exact ⟨id, hid, hneed, type, htype, _, ⟨_, ⟨hnew, rfl⟩, (), hneed, rfl⟩,
      by simp [Effect.apply, addAll]⟩

theorem projectVerifyAssertion_iff (hev : Table.hasKey EventRow.eventId eventId events = true)
    (p : VerifyAssertionPayload) :
    P.projectVerifyAssertion events g eventId createdAt p = .ok g' ↔
      ∃ e, P.verifyEffect eventId createdAt p = some e ∧ e.Admissible g ∧ e.apply g = g' := by
  simp only [Prims.projectVerifyAssertion, bind_ok, orElse_ok, guard_ok, insertObservation, pure_ok,
    requireKey_ok, insertNew_ok, addRef_ok hev, getAssertion_isNone, Prims.verifyEffect,
    option_bind_some, option_pure_some, toOption_eq_some, Bool.and_eq_true]
  constructor
  · rintro ⟨id, hid, actor, hactor, hneed, _, ⟨_, ⟨hnew, rfl⟩, -, ⟨-, hneedActor⟩, rfl⟩, rfl⟩
    refine ⟨_, ⟨id, hid, actor, hactor, rfl⟩, ?_, by simp [Effect.apply, addAll]⟩
    constructor <;> simp_all
  · rintro ⟨_, ⟨id, hid, actor, hactor, rfl⟩, hadm, rfl⟩
    have hneed := hadm.needAssertions id (by simp)
    have hneedActor := hadm.needActors actor (by simp)
    have hnew := hadm.observations _ (List.mem_singleton_self _)
    exact ⟨id, hid, actor, hactor, hneed, _, ⟨_, ⟨hnew, rfl⟩, (), ⟨hneed, hneedActor⟩, rfl⟩,
      by simp [Effect.apply, addAll]⟩

theorem projectDisputeAssertion_iff (hev : Table.hasKey EventRow.eventId eventId events = true)
    (p : DisputeAssertionPayload) :
    P.projectDisputeAssertion events g eventId createdAt p = .ok g' ↔
      ∃ e, P.disputeEffect eventId createdAt p = some e ∧ e.Admissible g ∧ e.apply g = g' := by
  simp only [Prims.projectDisputeAssertion, bind_ok, orElse_ok, guard_ok, insertDispute, pure_ok,
    requireKey_ok, insertNew_ok, addRef_ok hev, getAssertion_isNone, Prims.disputeEffect,
    option_bind_some, option_pure_some, toOption_eq_some, Bool.and_eq_true]
  constructor
  · rintro ⟨id, hid, actor, hactor, hneed, _, ⟨_, ⟨hnew, rfl⟩, -, ⟨-, hneedActor⟩, rfl⟩, rfl⟩
    refine ⟨_, ⟨id, hid, actor, hactor, rfl⟩, ?_, by simp [Effect.apply, addAll, setStatus, statusRow]⟩
    constructor <;> simp_all
  · rintro ⟨_, ⟨id, hid, actor, hactor, rfl⟩, hadm, rfl⟩
    have hneed := hadm.needAssertions id (by simp)
    have hneedActor := hadm.needActors actor (by simp)
    have hnew := hadm.disputes _ (List.mem_singleton_self _)
    exact ⟨id, hid, actor, hactor, hneed, _, ⟨_, ⟨hnew, rfl⟩, (), ⟨hneed, hneedActor⟩, rfl⟩,
      by simp [Effect.apply, addAll, setStatus, statusRow]⟩

theorem projectRetractAssertion_iff (hev : Table.hasKey EventRow.eventId eventId events = true)
    (p : RetractAssertionPayload) :
    P.projectRetractAssertion events g eventId createdAt p = .ok g' ↔
      ∃ e, P.retractEffect eventId createdAt p = some e ∧ e.Admissible g ∧ e.apply g = g' := by
  simp only [Prims.projectRetractAssertion, bind_ok, orElse_ok, guard_ok, insertRetraction, pure_ok,
    requireKey_ok, insertNew_ok, addRef_ok hev, getAssertion_isNone, Prims.retractEffect,
    option_bind_some, option_pure_some, toOption_eq_some, Bool.and_eq_true]
  constructor
  · rintro ⟨id, hid, actor, hactor, hneed, _, ⟨_, ⟨hnew, rfl⟩, -, ⟨-, hneedActor⟩, rfl⟩, rfl⟩
    refine ⟨_, ⟨id, hid, actor, hactor, rfl⟩, ?_, by simp [Effect.apply, addAll, setStatus, statusRow]⟩
    constructor <;> simp_all
  · rintro ⟨_, ⟨id, hid, actor, hactor, rfl⟩, hadm, rfl⟩
    have hneed := hadm.needAssertions id (by simp)
    have hneedActor := hadm.needActors actor (by simp)
    have hnew := hadm.retractions _ (List.mem_singleton_self _)
    exact ⟨id, hid, actor, hactor, hneed, _, ⟨_, ⟨hnew, rfl⟩, (), ⟨hneed, hneedActor⟩, rfl⟩,
      by simp [Effect.apply, addAll, setStatus, statusRow]⟩

theorem projectSupersedeAssertion_iff (hev : Table.hasKey EventRow.eventId eventId events = true)
    (p : SupersedeAssertionPayload) :
    P.projectSupersedeAssertion events g eventId createdAt p = .ok g' ↔
      ∃ e, P.supersedeEffect eventId createdAt p = some e ∧ e.Admissible g ∧ e.apply g = g' := by
  simp only [Prims.projectSupersedeAssertion, bind_ok, orElse_ok, guard_ok, insertSupersession, pure_ok,
    requireKey_ok, insertNew_ok, addRef_ok hev, getAssertion_isNone, Prims.supersedeEffect,
    option_bind_some, option_pure_some, toOption_eq_some, Bool.and_eq_true]
  constructor
  · rintro ⟨old, hold, new, hnew, actor, hactor, hneedOld, hneedNew, _,
      ⟨_, ⟨hfresh, rfl⟩, -, ⟨-, hneedActor⟩, rfl⟩, _, rfl, rfl⟩
    refine ⟨_, ⟨old, hold, new, hnew, actor, hactor, rfl⟩, ?_,
      by simp [Effect.apply, addAll, setStatus, statusRow]⟩
    constructor <;> simp_all
  · rintro ⟨_, ⟨old, hold, new, hnew, actor, hactor, rfl⟩, hadm, rfl⟩
    have hneedOld := hadm.needAssertions old (by simp)
    have hneedNew := hadm.needAssertions new (by simp)
    have hneedActor := hadm.needActors actor (by simp)
    have hfresh := hadm.supersessions _ (List.mem_singleton_self _)
    exact ⟨old, hold, new, hnew, actor, hactor, hneedOld, hneedNew, _,
      ⟨_, ⟨hfresh, rfl⟩, (), ⟨⟨hneedOld, hneedNew⟩, hneedActor⟩, rfl⟩, _, rfl,
      by simp [Effect.apply, addAll, setStatus, statusRow]⟩

theorem projectActorDeclare_iff (p : ActorDeclarePayload) :
    (∃ actorId, P.projectActorDeclare g eventId createdAt p = .ok (actorId, g')) ↔
      ∃ e, P.actorEffect eventId createdAt p = some e ∧ e.Admissible g ∧ e.apply g = g' := by
  have hdeclare : (∃ actorId, P.projectActorDeclare g eventId createdAt p = .ok (actorId, g')) ↔
      ∃ type, ActorType.parse p.actorType = some type ∧ ∃ key,
        Prims.declaredKey p.publicKey = some key ∧ insertActor g ⟨P.actorIdOf eventId p.publicKey,
          type, p.name, key, p.identityUri, .emptyObj, createdAt⟩ = g' := by
    obtain ⟨type, name, key, uri⟩ := p
    cases key with
    | none => simp [Prims.projectActorDeclare, map_ok, okOr_ok, Prims.declaredKey]
    | some s =>
      simp [Prims.projectActorDeclare, bind_ok, map_ok, okOr_ok, Prims.declaredKey,
        toOption_eq_some]
  rw [hdeclare]
  simp only [Prims.actorEffect, option_bind_some, option_pure_some]
  constructor
  · rintro ⟨type, htype, key, hkey, rfl⟩
    refine ⟨_, ⟨type, htype, key, hkey, rfl⟩, ?_, by simp [Effect.apply, addAll, insertActor]⟩
    constructor <;> simp
  · rintro ⟨_, ⟨type, htype, key, hkey, rfl⟩, -, rfl⟩
    exact ⟨type, htype, key, hkey, by simp [Effect.apply, addAll, insertActor]⟩

theorem projectActorKeyAdd_iff (p : ActorKeyAddPayload) :
    P.projectActorKeyAdd g createdAt p = .ok g' ↔
      ∃ e, P.keyAddEffect createdAt p = some e ∧ e.Admissible g ∧ e.apply g = g' := by
  simp only [Prims.projectActorKeyAdd, Repo.createKey, bind_ok, orElse_ok, pure_ok, requireKey_ok,
    insertNew_ok, Prims.keyAddEffect, option_bind_some, option_pure_some, toOption_eq_some]
  constructor
  · rintro ⟨actor, hactor, key, hkey, _, ⟨hnew, rfl⟩, -, hneed, rfl⟩
    refine ⟨_, ⟨actor, hactor, key, hkey, rfl⟩, ?_, by simp [Effect.apply, addAll]⟩
    constructor <;> simp_all
  · rintro ⟨_, ⟨actor, hactor, key, hkey, rfl⟩, hadm, rfl⟩
    have hnew := hadm.actorKeys _ (List.mem_singleton_self _)
    have hneed := hadm.needActors actor (by simp)
    exact ⟨actor, hactor, key, hkey, _, ⟨hnew, rfl⟩, (), hneed, by simp [Effect.apply, addAll]⟩

theorem projectActorKeyRevoke_iff (p : ActorKeyRevokePayload) :
    P.projectActorKeyRevoke g createdAt p = .ok g' ↔
      ∃ e, P.keyRevokeEffect createdAt p = some e ∧ e.Admissible g ∧ e.apply g = g' := by
  simp only [Prims.projectActorKeyRevoke, bind_ok, pure_ok, Prims.keyRevokeEffect, option_bind_some,
    option_pure_some, toOption_eq_some]
  constructor
  · rintro ⟨key, hkey, rfl⟩
    refine ⟨_, ⟨key, hkey, rfl⟩, ?_, by simp [Effect.apply, addAll, Repo.revokeKey, revokeRow]⟩
    constructor <;> simp
  · rintro ⟨_, ⟨key, hkey, rfl⟩, -, rfl⟩
    exact ⟨key, hkey, by simp [Effect.apply, addAll, Repo.revokeKey, revokeRow]⟩

theorem projectNodeAlias_iff (p : NodeAliasPayload) :
    P.projectNodeAlias g p = .ok g' ↔
      ∃ e, P.aliasEffect p = some e ∧ e.Admissible g ∧ e.apply g = g' := by
  simp only [Prims.projectNodeAlias, insertAlias, bind_ok, orElse_ok, okOr_ok, guard_ok, pure_ok,
    requireKey_ok, getNode_isNone, Prims.aliasEffect, option_bind_some, option_pure_some,
    toOption_eq_some, Bool.or_eq_true]
  constructor
  · rintro ⟨node, hnode, hneed, type, htype, -, -, rfl⟩
    refine ⟨_, ⟨node, hnode, type, htype, rfl⟩, ?_, by simp [Effect.apply, addAll]; rfl⟩
    constructor <;> simp_all
  · rintro ⟨_, ⟨node, hnode, type, htype, rfl⟩, hadm, rfl⟩
    have hneed := hadm.needNodes node (by simp)
    exact ⟨node, hnode, hneed, type, htype, (), Or.inr hneed, by simp [Effect.apply, addAll]; rfl⟩

end handlers

/-- **The projector.**  In a transaction that holds the event's row, it
    succeeds when the payload decodes to an admissible effect, and applies it. -/
theorem project_iff {events : List (EventRow H)} {g g' : Projection H} {eventId : H}
    {createdAt : Int64} {p : EventPayload}
    (hev : Table.hasKey EventRow.eventId eventId events = true) :
    (∃ o, P.project events g eventId createdAt p = .ok (o, g')) ↔
      ∃ e, P.effectOf eventId createdAt p = some e ∧ e.Admissible g ∧ e.apply g = g' := by
  cases p with
  | assertRelation p =>
    rw [Prims.effectOf, ← projectAssertRelation_iff hev]
    simp [Prims.project, map_ok]
  | addEvidence p =>
    rw [Prims.effectOf, ← projectAddEvidence_iff hev]
    simp [Prims.project, map_ok]
  | verifyAssertion p =>
    rw [Prims.effectOf, ← projectVerifyAssertion_iff hev]
    simp [Prims.project, map_ok]
  | disputeAssertion p =>
    rw [Prims.effectOf, ← projectDisputeAssertion_iff hev]
    simp [Prims.project, map_ok]
  | retractAssertion p =>
    rw [Prims.effectOf, ← projectRetractAssertion_iff hev]
    simp [Prims.project, map_ok]
  | supersedeAssertion p =>
    rw [Prims.effectOf, ← projectSupersedeAssertion_iff hev]
    simp [Prims.project, map_ok]
  | actorDeclare p =>
    rw [Prims.effectOf, ← projectActorDeclare_iff]
    simp only [Prims.project, bind_ok, pure_ok, Prod.exists, Prod.mk.injEq]
    constructor
    · rintro ⟨_, actorId, _, h, -, rfl⟩
      exact ⟨actorId, h⟩
    · rintro ⟨actorId, h⟩
      exact ⟨_, actorId, g', h, rfl, rfl⟩
  | actorKeyAdd p =>
    rw [Prims.effectOf, ← projectActorKeyAdd_iff]
    simp [Prims.project, map_ok]
  | actorKeyRevoke p =>
    rw [Prims.effectOf, ← projectActorKeyRevoke_iff]
    simp [Prims.project, map_ok]
  | nodeAlias p =>
    rw [Prims.effectOf, ← projectNodeAlias_iff]
    simp [Prims.project, map_ok]

end OpenAgentGraph
