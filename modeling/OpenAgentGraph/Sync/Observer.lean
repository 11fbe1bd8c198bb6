/-
  What one peer observes of the others: its database together with the tables
  of presence, under the statements that reach it and every operation on the
  database.
-/
import OpenAgentGraph.Database
import OpenAgentGraph.Sync.Presence

namespace OpenAgentGraph

variable {H : Type}

structure Observer (H : Type) where
  db : Database H
  presence : Presence H

def Observer.empty : Observer H := ⟨.empty, ⟨[], []⟩⟩

inductive ObserverOp (P : Prims H)
  | presence (heartbeat : PresenceHeartbeat) (now : Int64)
  | cluster (declaration : ClusterDeclaration) (now : Int64)
  | db (op : DbOp P)

namespace Prims

variable (P : Prims H) [DecidableEq H]

/-- A refused statement changes nothing. -/
def observerStep (o : Observer H) : ObserverOp P → Observer H
  | .presence heartbeat now =>
    match P.postPresence o.db.store o.presence heartbeat now with
    | .ok presence => { o with presence := presence }
    | .error _ => o
  | .cluster declaration now =>
    match P.postCluster o.db.store declaration now with
    | .ok store => { o with db := { o.db with store := store } }
    | .error _ => o
  | .db op => { o with db := P.dbStep o.db op }

def observerRun (ops : List (ObserverOp P)) : Observer H := ops.foldl P.observerStep Observer.empty

end Prims

end OpenAgentGraph
