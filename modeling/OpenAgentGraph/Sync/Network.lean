/-
  A network of peers that run the gossip loop (`oag-sync`: `gossip.rs`): again
  and again some peer pulls from another, and in between a peer rebuilds its
  tables or redacts something.
-/
import OpenAgentGraph.Sync.Run

namespace OpenAgentGraph

open Lib Repo

variable {H ι : Type}

inductive NetStep (P : Prims H) (ι : Type)
  /-- One turn of `sync_round`: the first peer pulls from the second. -/
  | round (puller server : ι) (address : String) (now : Int64)
  /-- A peer's own upkeep. -/
  | own (peer : ι) (op : Op P)

/-- The operation adds no event. -/
def Op.IsUpkeep {P : Prims H} : Op P → Prop
  | .commit .. => False
  | .ingest .. => False
  | .rebuild => True
  | .redactEvidence .. => True
  | .redactActor .. => True

/-- Who pulls from whom in a step. -/
def NetStep.pull {P : Prims H} : NetStep P ι → Option (ι × ι)
  | .round puller server _ _ => some (puller, server)
  | .own .. => none

namespace Prims

variable (P : Prims H) [DecidableEq H] [DecidableEq ι]

def netStep (svc : ι → SyncService H) (net : ι → Store H) : NetStep P ι → ι → Store H
  | .round puller server address now => Function.update net puller
      (P.syncWithPeer (svc puller) address (P.serve (svc server) (net server)) now (net puller)).1
  | .own peer op => Function.update net peer (P.step (net peer) op)

/-- The network after the first steps of a schedule. -/
def netAt (svc : ι → SyncService H) (net : ι → Store H) (sched : ℕ → NetStep P ι) : ℕ → ι → Store H
  | 0 => net
  | n + 1 => P.netStep svc (netAt svc net sched n) (sched n)

end Prims

end OpenAgentGraph
