/-
  Runs of a peer that serves requests: over REST and MCP, next to commands of
  its operator and the events that it receives from other peers.
-/
import OpenAgentGraph.Api.Requests
import OpenAgentGraph.Sync.Run

namespace OpenAgentGraph

open Lib Repo

variable {H : Type}

/-- A command of the operator, who has the peer's files (`oag-cli`). -/
inductive OperatorOp (H : Type)
  | declareActor (actorType : ActorType) (name identityUri : Option String)
      (proof : Option PublicKeyProof) (now : Int64)
  | createKey (actorId : H) (permissions : List Permission) (random : Bytes) (now : Int64)
  | revokeKey (keyHashHex : String) (now : Int64)
  /-- A call with an administrator's authority that no key stands behind. -/
  | call (auth : AuthContext H) (call : ServiceCall H) (clock : ℕ → Int64)

/-- The operation takes in events of other peers, or replays the log. -/
def SyncOp.Receives {P : Prims H} : SyncOp P → Prop
  | .store (.ingest ..) => True
  | .store .rebuild => True
  | .store _ => False
  | .push .. => True
  | .pull .. => True
  | .reticulumPull .. => True

inductive PeerOp (P : Prims H)
  | rest (authorization : Option String) (request : RestRequest) (clock : ℕ → Int64)
  | mcp (authorization : Option String) (tool : McpCall) (clock : ℕ → Int64)
  | operator (op : OperatorOp H)
  | receive (op : SyncOp P) (receives : op.Receives)

section

variable {U ε : Type} (P : Prims H) [DecidableEq H] (L : ApiLib U ε) (me : Prims.PeerIdentity)

def operatorStep (db : SearchDb H) : OperatorOp H → SearchDb H
  | .declareActor actorType name identityUri proof now =>
    (db.commit ((P.declareActor db.store me actorType name identityUri proof now).map Prod.fst)).1
  | .createKey actorId permissions random now =>
    (db.commit ((P.createKey db.store me actorId permissions random now).map Prod.fst)).1
  | .revokeKey keyHashHex now => (db.commit (P.revokeKey db.store me keyHashHex now)).1
  | .call auth call clock => (P.call L.url me db auth clock call).1

def peerStep (db : SearchDb H) : PeerOp P → SearchDb H
  | .rest authorization request clock => (restHandler L P me db authorization request clock).1
  | .mcp authorization tool clock => (mcpHandler L.url P me db authorization tool clock).1
  | .operator op => operatorStep P L me db op
  | .receive op _ => { db with store := P.syncStep db.store op }

def peerRun (ops : List (PeerOp P)) : SearchDb H := ops.foldl (peerStep P L me) .empty

end

end OpenAgentGraph
