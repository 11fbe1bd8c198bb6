/-
  The messages of the synchronization protocol (`oag-sync`: `wire.rs`), their
  JSON form, and the client's limit on a response (`client.rs`).

  A hash map is the list of its entries; the order in which one is iterated
  is a `MapOrder`.
-/
import OpenAgentGraph.Events.Payload

namespace OpenAgentGraph

open Lib

/-! ## Messages -/

/-- The order in which a hash map is iterated. -/
structure MapOrder where
  order : List (String × UInt64) → List (String × UInt64)
  perm : ∀ m, (order m).Perm m

theorem MapOrder.perm_id : ∀ m : List (String × UInt64), (id m).Perm m := fun _ => .refl _

def syncProtocol : String := "oag-sync"
def syncVersion : UInt16 := 1

/-- `GET /hello`: who the peer is, and its head sequence for every origin. -/
structure HelloResponse where
  protocol : String
  version : UInt16
  peerId : String
  publicKey : String
  heads : List (String × UInt64)

/-- A known peer, as `GET /peers` lists it. -/
structure PeerRecord where
  peerId : String
  publicKey : String
  addresses : List String
  lastSeen : Option Int64

/-! ## Writing -/

/-- The entries of a map, in the order they are iterated. -/
def headsJson (o : MapOrder) (heads : List (String × UInt64)) : Json :=
  .obj ((o.order heads).map fun e => (e.1, .num (.ofUInt64 e.2)))

def HelloResponse.toJson (o : MapOrder) (h : HelloResponse) : Json :=
  .obj [("protocol", .str h.protocol), ("version", .num (.ofUInt16 h.version)),
    ("peer_id", .str h.peerId), ("public_key", .str h.publicKey), ("heads", headsJson o h.heads)]

/-- `EventsResponse`. -/
def eventsJson (w : Serializer) (events : List SignedEvent) : Except SerdeError Json := do
  let events ← events.mapM (SignedEvent.toJson w)
  return .obj [("events", .arr events)]

def PeerRecord.toJson (r : PeerRecord) : Json :=
  .obj [("peer_id", .str r.peerId), ("public_key", .str r.publicKey),
    ("addresses", .arr (r.addresses.map .str)), ("last_seen", Write.optI64 r.lastSeen)]

/-- `PeersResponse`. -/
def peersJson (peers : List PeerRecord) : Json := .obj [("peers", .arr (peers.map PeerRecord.toJson))]

/-! ## Reading -/

namespace Read

def arr (j : Json) (k : String) : Except SerdeError (List Json) :=
  match j.get? k with
  | some (.arr xs) => .ok xs
  | some _ => .error (.invalidType k)
  | none => .error (.missingField k)

def asU64 : Json → Option UInt64
  | .num n => n.toUInt64?
  | _ => none

/-- One entry of a map from text to `u64`. -/
def head (e : String × Json) : Except SerdeError (String × UInt64) :=
  match asU64 e.2 with
  | some v => .ok (e.1, v)
  | none => .error (.invalidType e.1)

/-- A map from text to `u64`. -/
def heads (j : Json) (k : String) : Except SerdeError (List (String × UInt64)) :=
  match j.get? k with
  | some (.obj kvs) => kvs.mapM head
  | some _ => .error (.invalidType k)
  | none => .error (.missingField k)

end Read

def readHello (j : Json) : Except SerdeError HelloResponse := do
  return {
    protocol := ← Read.str j "protocol"
    version := ← Read.num Number.toUInt16? j "version"
    peerId := ← Read.str j "peer_id"
    publicKey := ← Read.str j "public_key"
    heads := ← Read.heads j "heads" }

def readPeerRecord (j : Json) : Except SerdeError PeerRecord := do
  return {
    peerId := ← Read.str j "peer_id"
    publicKey := ← Read.str j "public_key"
    addresses := ← Read.strs j "addresses"
    lastSeen := ← Read.opt Read.asI64 j "last_seen" }

def readPeers (j : Json) : Except SerdeError (List PeerRecord) := do
  let peers ← Read.arr j "peers"
  peers.mapM readPeerRecord

/-! ## The client's responses -/

/-- `SyncClientError`. -/
inductive SyncClientError
  /-- The request failed, or its status is an error. -/
  | http
  | responseTooLarge (limit : ℕ)
  | invalidJson (e : SerdeError)

def maxResponseBytes : ℕ := 4 * 1024 * 1024

variable {H : Type}

namespace Prims

variable (P : Prims H)

def readEvents (j : Json) : Except SerdeError (List SignedEvent) := do
  let events ← Read.arr j "events"
  events.mapM P.readSigned

/-- Reads a response body, refusing one over the limit. -/
def cappedJson {α : Type} (read : Json → Except SerdeError α) (body : Bytes) :
    Except SyncClientError α :=
  if maxResponseBytes < body.length then .error (.responseTooLarge maxResponseBytes)
  else
    match P.fromSlice body >>= read with
    | .ok a => .ok a
    | .error e => .error (.invalidJson e)

end Prims

end OpenAgentGraph
