/-
  Runs of one peer's store: any sequence of local commits, remote events,
  rebuilds and redactions.  Each operation is one transaction; one that fails
  leaves the store as it was (`step`).
-/
import OpenAgentGraph.Graph.Service

namespace OpenAgentGraph

open Lib Repo

variable {H : Type}

/-- An operation on the store. -/
inductive Op (P : Prims H)
  | commit (identity : Prims.PeerIdentity) (payload : EventPayload) (createdAt : Int64)
  | ingest (key : P.VerifyingKey) (signed : SignedEvent) (receivedAt : Int64)
  | rebuild
  | redactEvidence (auth : AuthContext H) (evidenceId : H) (reason : Option String) (now : Int64)
  | redactActor (auth : AuthContext H) (actorId : H) (reason : Option String) (now : Int64)

namespace Prims

variable (P : Prims H) [DecidableEq H]

/-- The store after an operation that succeeds. -/
def exec (s : Store H) : Op P → Option (Store H)
  | .commit identity payload createdAt =>
    (P.commitLocalEvent s identity payload createdAt).toOption.map Prod.fst
  | .ingest key signed receivedAt => (P.ingestRemoteEvent s key signed receivedAt).toOption.map Prod.fst
  | .rebuild => (P.rebuildProjection s).toOption.map Prod.fst
  | .redactEvidence auth evidenceId reason now =>
    (P.redactEvidence s auth evidenceId reason now).toOption
  | .redactActor auth actorId reason now => (P.redactActorIdentityUri s auth actorId reason now).toOption

/-- One transaction: a failure is rolled back. -/
def step (s : Store H) (op : Op P) : Store H := (P.exec s op).getD s

def run (s : Store H) (ops : List (Op P)) : Store H := ops.foldl P.step s

@[simp] theorem run_nil (s : Store H) : P.run s [] = s := rfl

theorem step_ingest {s s' : Store H} {key : P.VerifyingKey} {signed : SignedEvent}
    {receivedAt : Int64} {o : IngestOutcome H}
    (h : P.ingestRemoteEvent s key signed receivedAt = .ok (s', o)) :
    P.step s (.ingest key signed receivedAt) = s' := by
  rw [step, exec, h]
  rfl

theorem run_append (s : Store H) (ops : List (Op P)) (op : Op P) :
    P.run s (ops ++ [op]) = P.step (P.run s ops) op := by
  simp [run]

/-- **Invariant rule.**  What holds of the empty store and is kept by every
    successful operation of a run holds after it. -/
theorem run_induction {I : Store H → Prop} (ops : List (Op P)) (hempty : I Store.empty)
    (hstep : ∀ op ∈ ops, ∀ s s', I s → P.exec s op = some s' → I s') :
    I (P.run Store.empty ops) := by
  induction ops using List.reverseRecOn with
  | nil => exact hempty
  | append_singleton ops op ih =>
    have hprefix := ih fun o ho => hstep o (List.mem_append_left _ ho)
    rw [run_append, step]
    cases h : P.exec (P.run Store.empty ops) op with
    | none => exact hprefix
    | some s' => exact hstep op (by simp) _ _ hprefix h

end Prims

end OpenAgentGraph
