/-
  Runs of one peer: its own operations on the store, pushes it receives, and
  pulls it makes over either transport.  The remote sides are arbitrary.
-/
import OpenAgentGraph.Run
import OpenAgentGraph.Sync.Reticulum

namespace OpenAgentGraph

open Lib Repo

variable {H : Type}

inductive SyncOp (P : Prims H)
  /-- A transaction of the peer itself, or an event offered directly. -/
  | store (op : Op P)
  | push (svc : SyncService H) (events : List SignedEvent) (now : Int64)
  | pull (svc : SyncService H) (address : String) (remote : Remote SyncClientError) (now : Int64)
  | reticulumPull (order : MapOrder) (target : String) (remote : Remote ReticulumError) (now : Int64)

namespace Prims

variable (P : Prims H) [DecidableEq H]

def syncStep (s : Store H) : SyncOp P → Store H
  | .store op => P.step s op
  | .push svc events now => (P.postEvents svc s events now).1
  | .pull svc address remote now => (P.syncWithPeer svc address remote now s).1
  | .reticulumPull order target remote now => (Reticulum.syncWithPeer P order target remote now s).1

def syncRun (s : Store H) (ops : List (SyncOp P)) : Store H := ops.foldl P.syncStep s

end Prims

end OpenAgentGraph
