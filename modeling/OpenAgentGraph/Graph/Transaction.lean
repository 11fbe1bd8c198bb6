/-
  `redact_evidence` and `redact_actor_identity_uri` statement by statement.
-/
import OpenAgentGraph.Graph.Service
import OpenAgentGraph.Lib.Transaction

namespace OpenAgentGraph

open Lib Repo

variable {H : Type} [DecidableEq H]

namespace Prims

variable (P : Prims H)

def redactEvidenceTransaction (auth : AuthContext H) (evidenceId : H) (reason : Option String)
    (now : Int64) : Tx (Store H) (GraphError H) Unit := do
  Tx.lift (auth.require .admin)
  Tx.lift (checkOptLen "reason" reason maxReasonLen)
  Tx.begin
  if ← Tx.query fun s => Table.hasKey RedactionRow.eventId evidenceId s.redactions then
    -- an early return drops the transaction
    Tx.lift (.error (.alreadyRedacted evidenceId))
  else do
    let updated ← Tx.execute fun s =>
      ((Repo.redactEvidence s.proj evidenceId).2,
        { s with proj := (Repo.redactEvidence s.proj evidenceId).1 })
    if !updated then
      Tx.lift (.error (.notFound ("evidence " ++ P.toHex evidenceId)))
    else do
      Tx.statement fun s => do
        let redactions ← GraphError.lift .storage
          (insertNew RedactionRow.eventId ⟨evidenceId, now, reason⟩ s.redactions)
        GraphError.lift .storage (requireKey (Table.hasKey EventRow.eventId evidenceId s.events))
        return ((), { s with redactions := redactions })
      Tx.commit
      return ()

def redactActorTransaction (auth : AuthContext H) (actorId : H) (reason : Option String)
    (now : Int64) : Tx (Store H) (GraphError H) Unit := do
  Tx.lift (auth.require .admin)
  Tx.lift (checkOptLen "reason" reason maxReasonLen)
  Tx.begin
  if ← Tx.query fun s => Table.hasKey ActorRedactionRow.actorId actorId s.actorRedactions then
    Tx.lift (.error (.actorAlreadyRedacted actorId))
  else do
    let updated ← Tx.execute fun s =>
      ((redactIdentityUri s.proj actorId).2,
        { s with proj := (redactIdentityUri s.proj actorId).1 })
    if !updated then
      Tx.lift (.error (.notFound ("actor " ++ P.toHex actorId)))
    else do
      Tx.statement fun s => do
        let redactions ← GraphError.lift .storage
          (insertNew ActorRedactionRow.actorId ⟨actorId, now, reason⟩ s.actorRedactions)
        return ((), { s with actorRedactions := redactions })
      Tx.commit
      return ()

end Prims

end OpenAgentGraph
