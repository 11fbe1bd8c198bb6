/-
  What a peer receives.

  A push, a pull and a replay of the log store events that are signed under the
  key of their origin (`syncStep_receives`), and redact nothing.
-/
import OpenAgentGraph.Api.Run
import OpenAgentGraph.Proof.Sync

namespace OpenAgentGraph

open Lib Repo

variable {H : Type} [DecidableEq H] {P : Prims H}

/-- The store has new events only that are signed, and no redactions that are
    new. -/
structure Receives (P : Prims H) (s s' : Store H) : Prop where
  events : ∀ row ∈ s'.events, row ∈ s.events ∨ ∃ key, SignedBy P key row
  stored : LogStored P s'
  redactions : s'.redactions = s.redactions
  actorRedactions : s'.actorRedactions = s.actorRedactions

omit [DecidableEq H] in
theorem Receives.trans {s s₁ s₂ : Store H} (h : Receives P s s₁) (h' : Receives P s₁ s₂) :
    Receives P s s₂ where
  events := by
    intro row hrow
    rcases h'.events row hrow with hrow | hsigned
    · exact h.events row hrow
    · exact .inr hsigned
  stored := h'.stored
  redactions := h'.redactions.trans h.redactions
  actorRedactions := h'.actorRedactions.trans h.actorRedactions

omit [DecidableEq H] in
/-- The events and the redactions stay. -/
theorem receives_same {s s' : Store H} (hs : LogStored P s) (hevents : s'.events = s.events)
    (hredactions : s'.redactions = s.redactions)
    (hactors : s'.actorRedactions = s.actorRedactions) : Receives P s s' where
  events := by
    intro row hrow
    rw [← hevents]
    exact .inl hrow
  stored := by
    rw [LogStored, hevents]
    exact hs
  redactions := hredactions
  actorRedactions := hactors

theorem ingest_receives (hJ : JsonLaws P) (hinj : Function.Injective P.blake3) {s s' : Store H}
    (hs : LogStored P s) {key : P.VerifyingKey} {signed : SignedEvent} {now : Int64}
    (h : P.exec s (.ingest key signed now) = some s') : Receives P s s' := by
  cases exec_logStep hJ hinj hs h with
  | known => exact receives_same hs rfl rfl rfl
  | forked _ _ _ _ hfork =>
    obtain ⟨json, rfl⟩ := recordFork_ok hfork
    exact receives_same hs rfl rfl rfl
  | applied happ hver horigin =>
    refine ⟨?_, happ.logStored hs, by rw [happ.eq], by rw [happ.eq]⟩
    intro r hr
    rw [happ.events_eq] at hr
    rcases List.mem_append.1 hr with hr | hr
    · exact .inl hr
    · obtain rfl := List.mem_singleton.1 hr
      exact .inr ⟨key, happ.stored.signedBy hJ hver horigin⟩

theorem Reach.receives (hJ : JsonLaws P) (hinj : Function.Injective P.blake3) {s s' : Store H}
    (hs : LogStored P s) (h : Reach P s s') : Receives P s s' := by
  induction h with
  | refl => exact receives_same hs rfl rfl rfl
  | peers _ hp ih =>
    refine ih.trans (receives_same ih.stored ?_ ?_ ?_)
    all_goals rw [hp.eq]
  | @ingest s₁ s₂ key signed now outcome _ hi ih =>
    have hexec : P.exec s₁ (.ingest key signed now) = some s₂ := by
      rw [Prims.exec, hi]
      rfl
    exact ih.trans (ingest_receives hJ hinj ih.stored hexec)

theorem step_receives (hJ : JsonLaws P) (hinj : Function.Injective P.blake3) {s : Store H}
    (hs : LogStored P s) {op : Op P} (hop : (SyncOp.store op).Receives) : Receives P s (P.step s op) := by
  rw [Prims.step]
  cases hexec : P.exec s op with
  | none => exact receives_same hs rfl rfl rfl
  | some s' =>
    cases op with
    | ingest key signed now => exact ingest_receives hJ hinj hs hexec
    | rebuild =>
      cases exec_logStep hJ hinj hs hexec with
      | rebuild hr =>
        rw [Option.getD_some, rebuild_ok hr]
        exact receives_same hs rfl rfl rfl
    | _ => cases hop

theorem syncStep_receives (hJ : JsonLaws P) (hinj : Function.Injective P.blake3) {s : Store H}
    (hs : LogStored P s) (op : SyncOp P) (hop : op.Receives) : Receives P s (P.syncStep s op) := by
  cases op with
  | store op => exact step_receives hJ hinj hs hop
  | push svc events now => exact (postEvents_offered svc s events now).reach.receives hJ hinj hs
  | pull svc address remote now =>
    exact (syncWithPeer_reach svc address remote now s).receives hJ hinj hs
  | reticulumPull order target remote now =>
    exact (reticulum_syncWithPeer_reach order target remote now s).receives hJ hinj hs

end OpenAgentGraph
