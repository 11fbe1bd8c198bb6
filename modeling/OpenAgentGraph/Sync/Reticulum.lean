/-
  The pull over a Reticulum link (`oag-reticulum`: `client.rs`).

  It repeats the pull of `Sync.Service` with two differences: no federation
  policy is asked, and a discovered peer is recorded without comparing its id
  with its key.
-/
import OpenAgentGraph.Sync.Service

namespace OpenAgentGraph

open Lib Repo

variable {H : Type}

inductive ReticulumError
  | storage (e : StorageError)
  | framing
  | noAnnounce (target : String)
  | linkNotActivated (target : String)
  | responseTimeout
  | remoteError (message : String)
  | unexpectedResponse
  | invalidPublicKey

namespace Prims

variable (P : Prims H) [DecidableEq H]

namespace Reticulum

def discoverPeer (now : Int64) (s : Store H) (r : PeerRecord) : Store H :=
  match P.peerIdFromStr r.peerId, decodeKey32 r.publicKey with
  | .ok pid, some pk => learnPeer s pid pk r.addresses now
  | _, _ => s

def discoverPeers (remote : Remote ReticulumError) (now : Int64) (s : Store H) : Store H :=
  match remote.fetchPeers with
  | .error _ => s
  | .ok peers => (peers.take maxPeersPerResponse).foldl (discoverPeer P now) s

/-- One round of pulling over a link.  The remote's hello stands for the whole
    way to it: the announce, the activation of the link, the first request. -/
def syncWithPeer (order : MapOrder) (target : String) (remote : Remote ReticulumError)
    (now : Int64) (s : Store H) : Store H × Except ReticulumError (SyncSummary ReticulumError) :=
  match remote.hello with
  | .error e => (s, .error e)
  | .ok hello =>
    match P.remoteIdentity hello with
    | .error _ => (s, .error .invalidPublicKey)
    | .ok (remoteId, key) =>
      let claimed := order.order hello.heads
      match recordHello s remoteId key.bytes ("reticulum:" ++ target) (P.decodedHeads claimed)
          now with
      | (s, .error e) => (s, .error (.storage e))
      | (s, .ok ()) =>
        let s := discoverPeers P remote now s
        match P.pullLoop (fun _ _ => true) remote remoteId key (P.localHeads s) now s {} claimed with
        | (s, .error e) => (s, .error (.storage e))
        | (s, .ok summary) => (s, .ok summary)

end Reticulum

end Prims

end OpenAgentGraph
