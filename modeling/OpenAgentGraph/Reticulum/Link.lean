/-
  One link between a client and a server (`oag-reticulum`: `client.rs`,
  `listener.rs`), over which chunks arrive in order and none is lost, but at
  any time.

  The client's calls of `send_request` follow one another.  Each has its own
  reassembler, while the server has one for the link.  The numbers of the
  calls that the chunks and the log of the server carry are not part of the
  protocol; they say which call a chunk or a response belongs to.
-/
import OpenAgentGraph.Reticulum.Framing
import OpenAgentGraph.Reticulum.Handlers
import OpenAgentGraph.Sync.Reticulum

namespace OpenAgentGraph

open Lib

/-- What the client's task is doing. -/
inductive ClientState
  | idle
  /-- The call waits for its response. -/
  | waiting (call : ℕ) (reassembler : Reassembler)

/-- The server of a link. -/
structure RnServer (H : Type) where
  selfPeerId : H
  selfPublicKey : Bytes
  mapOrder : MapOrder
  texts : LibraryTexts

structure LinkState where
  /-- The chunks under way to the server. -/
  toServer : List (ℕ × Bytes) := []
  server : Reassembler := {}
  /-- The chunks under way to the client, or in its queue. -/
  toClient : List Bytes := []
  client : ClientState := .idle
  /-- The requests of the calls. -/
  asked : List RnRequest := []
  /-- The requests that the server handled, and its responses. -/
  handled : List (ℕ × RnRequest × RnResponse) := []
  /-- The results of the calls. -/
  returned : List (ℕ × Except ReticulumError RnResponse) := []

/-- What happens on a link.  Building a packet may fail, so that only the first
    ones of a message are sent. -/
inductive LinkOp (H : Type)
  | sendRequest (request : RnRequest) (packets : ℕ)
  /-- The next chunk reaches the server; a request that it completes is handled
      in the state `s`, unless the rate limiter says no. -/
  | serverData (s : Store H) (allowed : Bool) (packets : ℕ)
  /-- The next chunk reaches the client. -/
  | clientData
  /-- `REQUEST_WAIT` is over. -/
  | timeout

variable {H : Type}

namespace Prims

variable (P : Prims H)

def encodeRequest (request : RnRequest) : Except FramingError Bytes :=
  encodeMessage (fun request : RnRequest => .ok (P.toVec.write request.toJson)) request

def encodeResponse (order : MapOrder) (response : RnResponse) : Except FramingError Bytes :=
  encodeMessage (fun response : RnResponse => P.toVec.write <$> response.toJson P.toVec order) response

def decodeRequest (bytes : Bytes) : Except FramingError RnRequest :=
  decodeMessage (fun b => P.fromSlice b >>= readRnRequest) bytes

def decodeResponse (bytes : Bytes) : Except FramingError RnResponse :=
  decodeMessage (fun b => P.fromSlice b >>= P.readRnResponse) bytes

variable [DecidableEq H] (server : RnServer H)

/-- A call of `send_request`, up to its first wait. -/
def sendRequest (st : LinkState) (request : RnRequest) (packets : ℕ) : LinkState :=
  let call := st.asked.length
  let st := { st with asked := st.asked ++ [request] }
  match P.encodeRequest request with
  | .error _ => { st with returned := st.returned ++ [(call, .error .framing)] }
  | .ok framed =>
    let pieces := chunks chunkSize framed
    let st := { st with toServer := st.toServer ++ (pieces.take packets).map fun c => (call, c) }
    if packets < pieces.length then
      { st with returned := st.returned ++ [(call, .error .responseTimeout)] }
    else { st with client := .waiting call {} }

/-- The server's answer to a complete message. -/
def answerMessage (st : LinkState) (call : ℕ) (message : Bytes) (s : Store H) (allowed : Bool)
    (packets : ℕ) : LinkState :=
  match P.decodeRequest message with
  | .error _ => st
  | .ok request =>
    let response := Reticulum.rateLimitedHandleRequest P server.texts server.selfPeerId
      server.selfPublicKey s allowed request
    let st := { st with handled := st.handled ++ [(call, request, response)] }
    match P.encodeResponse server.mapOrder response with
    | .error _ => st
    | .ok framed => { st with toClient := st.toClient ++ (chunks chunkSize framed).take packets }

/-- `LinkEvent::Data`, at the server. -/
def serverData (st : LinkState) (s : Store H) (allowed : Bool) (packets : ℕ) : LinkState :=
  match st.toServer with
  | [] => st
  | (call, chunk) :: rest =>
    let st := { st with toServer := rest }
    match st.server.push chunk with
    | (_, .error _) => { st with server := {} }
    | (reassembler, .ok none) => { st with server := reassembler }
    | (reassembler, .ok (some message)) =>
      P.answerMessage server { st with server := reassembler } call message s allowed packets

/-- `LinkEvent::Data`, at the client; what a push refuses is passed over. -/
def clientData (st : LinkState) : LinkState :=
  match st.client, st.toClient with
  | .waiting call reassembler, chunk :: rest =>
    match reassembler.push chunk with
    | (_, .ok (some message)) =>
      { st with
        toClient := rest
        client := .idle
        returned := st.returned ++ [(call, (P.decodeResponse message).mapError fun _ => .framing)] }
    | (reassembler, _) => { st with toClient := rest, client := .waiting call reassembler }
  | _, _ => st

def linkStep (st : LinkState) (op : LinkOp H) : LinkState :=
  match op with
  | .sendRequest request packets =>
    match st.client with
    | .idle => P.sendRequest st request packets
    | .waiting _ _ => st
  | .serverData s allowed packets => P.serverData server st s allowed packets
  | .clientData => P.clientData st
  | .timeout =>
    match st.client with
    | .idle => st
    | .waiting call _ =>
      { st with client := .idle, returned := st.returned ++ [(call, .error .responseTimeout)] }

/-- A link that was just activated, after a list of events. -/
def linkRun (ops : List (LinkOp H)) : LinkState := ops.foldl (P.linkStep server) {}

end Prims

end OpenAgentGraph
