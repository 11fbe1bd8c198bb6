/-
  The requests and responses of a Reticulum link (`oag-reticulum`: `wire.rs`)
  and their JSON form.  The responses carry the messages of `Sync.Wire`.
-/
import OpenAgentGraph.Sync.Wire

namespace OpenAgentGraph

open Lib

inductive RnRequest
  | hello
  | events (originHex : String) (lo hi : UInt64)
  | peers
  deriving DecidableEq

inductive RnResponse
  | hello (h : HelloResponse)
  | events (events : List SignedEvent)
  | peers (peers : List PeerRecord)
  | error (message : String)

/-! ## Writing -/

def RnRequest.toJson : RnRequest → Json
  | hello => .str "Hello"
  | events originHex lo hi => .obj [("Events", .obj [("origin_hex", .str originHex),
      ("from", .num (.ofUInt64 lo)), ("to", .num (.ofUInt64 hi))])]
  | peers => .str "Peers"

def RnResponse.toJson (w : Serializer) (o : MapOrder) : RnResponse → Except SerdeError Json
  | hello h => .ok (.obj [("Hello", h.toJson o)])
  | events es => do
    let body ← eventsJson w es
    return .obj [("Events", body)]
  | peers ps => .ok (.obj [("Peers", peersJson ps)])
  | error message => .ok (.obj [("Error", .str message)])

/-! ## Reading -/

/-- A variant without fields is its name, or the name with `null`; every other
    variant is an object with its name as the only key. -/
def readRnRequest (j : Json) : Except SerdeError RnRequest :=
  match j with
  | .str "Hello" | .obj [("Hello", .null)] => .ok .hello
  | .str "Peers" | .obj [("Peers", .null)] => .ok .peers
  | .obj [("Events", body)] => do
    return .events (← Read.str body "origin_hex") (← Read.num Number.toUInt64? body "from")
      (← Read.num Number.toUInt64? body "to")
  | .str "Events" | .obj [("Hello", _)] | .obj [("Peers", _)] => .error (.invalidType "RnRequest")
  | .str other | .obj [(other, _)] => .error (.unknownVariant other)
  | _ => .error (.invalidType "RnRequest")

variable {H : Type}

def Prims.readRnResponse (P : Prims H) (j : Json) : Except SerdeError RnResponse :=
  match j with
  | .obj [("Hello", body)] => .hello <$> readHello body
  | .obj [("Events", body)] => .events <$> P.readEvents body
  | .obj [("Peers", body)] => .peers <$> readPeers body
  | .obj [("Error", .str message)] => .ok (.error message)
  | .obj [("Error", _)] | .str "Hello" | .str "Events" | .str "Peers" | .str "Error" =>
    .error (.invalidType "RnResponse")
  | .str other | .obj [(other, _)] => .error (.unknownVariant other)
  | _ => .error (.invalidType "RnResponse")

end OpenAgentGraph
