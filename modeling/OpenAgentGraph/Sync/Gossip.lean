/-
  Rounds of gossip: what is learnt from the peers lists of others, over
  either transport, one round after another.
-/
import OpenAgentGraph.Sync.Reticulum

namespace OpenAgentGraph

open Lib Repo

variable {H : Type}

/-- A call of `discover_peers`, with the remote that is asked. -/
inductive GossipRound (H : Type)
  | http (svc : SyncService H) (remote : Remote SyncClientError) (now : Int64)
  | reticulum (remote : Remote ReticulumError) (now : Int64)

namespace Prims

variable (P : Prims H) [DecidableEq H]

def gossipRound (s : Store H) : GossipRound H → Store H
  | .http svc remote now => P.discoverPeers svc remote now s
  | .reticulum remote now => Reticulum.discoverPeers P remote now s

def gossipRun (s : Store H) (rounds : List (GossipRound H)) : Store H :=
  rounds.foldl P.gossipRound s

end Prims

end OpenAgentGraph
