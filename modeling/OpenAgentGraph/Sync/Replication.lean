/-
  How well a peer's own events are replicated (`oag-sync`: `replication.rs`),
  as far as the peer can tell from the heads that other peers have claimed in
  their hellos.
-/
import OpenAgentGraph.Sync.Service

namespace OpenAgentGraph

open Lib Repo

variable {H : Type}

def minReplicationFactor : ℕ := 3

/-- `sqrt().ceil()` in `f64`, which is exact for counts below 2^52. -/
def ceilSqrt (n : ℕ) : ℕ := if n.sqrt * n.sqrt = n then n.sqrt else n.sqrt + 1

/-- How many peers should have an origin's events. -/
def targetReplicationFactor (knownPeerCount : ℕ) : ℕ :=
  max (ceilSqrt knownPeerCount) minReplicationFactor

structure LaggingPeer where
  peerId : String
  /-- None if the peer never reported a head for our origin. -/
  knownSequence : Option UInt64
  deriving DecidableEq, Repr

structure ReplicationStatus where
  knownPeerCount : ℕ
  targetReplicationFactor : ℕ
  selfCurrentSequence : UInt64
  peersFullyCaughtUp : ℕ
  meetsTarget : Bool
  laggingPeers : List LaggingPeer
  deriving DecidableEq, Repr

variable [DecidableEq H]

/-- What each peer last reported for an origin. -/
def listKnownHeadsForOrigin (heads : List (PeerKnownHeadRow H)) (origin : H) :
    List (PeerKnownHeadRow H) :=
  heads.filter fun r => decide (r.originPeerId = origin)

/-- The rows collected into a map by peer. -/
def knownHeadOf (heads : List (PeerKnownHeadRow H)) (peerId : H) : Option UInt64 :=
  (heads.reverse.find? fun r => decide (r.peerId = peerId)).map fun r => r.sequence.toUInt64

namespace Prims

variable (P : Prims H)

/-- One known peer: it has caught up, or it lags behind. -/
def countPeer (heads : List (PeerKnownHeadRow H)) (current : UInt64)
    (counts : ℕ × List LaggingPeer) (peer : PeerInfo H) : ℕ × List LaggingPeer :=
  match knownHeadOf heads peer.peerId with
  | some sequence =>
    if current ≤ sequence then (counts.1 + 1, counts.2)
    else (counts.1, counts.2 ++ [⟨P.peerIdToString peer.peerId, some sequence⟩])
  | none => (counts.1, counts.2 ++ [⟨P.peerIdToString peer.peerId, none⟩])

def replicationStatus (s : Store H) (selfPeerId : H) : Except StorageError ReplicationStatus := do
  let current := ((getOrigin s.eventOrigins selfPeerId).map fun r =>
    r.highestContiguousSequence.toUInt64).getD 0
  let knownPeers ← listPeers s.peers
  let target := OpenAgentGraph.targetReplicationFactor knownPeers.length
  let heads := listKnownHeadsForOrigin s.peerKnownHeads selfPeerId
  let (caughtUp, lagging) := knownPeers.foldl (P.countPeer heads current) (0, [])
  return {
    knownPeerCount := knownPeers.length
    targetReplicationFactor := target
    selfCurrentSequence := current
    peersFullyCaughtUp := caughtUp
    meetsTarget := decide (target ≤ caughtUp)
    laggingPeers := lagging }

end Prims

end OpenAgentGraph
