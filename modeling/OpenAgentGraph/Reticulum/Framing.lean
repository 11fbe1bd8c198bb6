/-
  Messages over a Reticulum link (`oag-reticulum`: `framing.rs`).

  A link carries small packets.  A message is its JSON text behind a 4-byte
  length, cut into chunks; the other end puts the chunks together again.
-/
import OpenAgentGraph.Primitives

namespace OpenAgentGraph

open Lib

def chunkSize : ℕ := 1400
def maxMessageBytes : ℕ := 8 * 1024 * 1024
def lenPrefixBytes : ℕ := 4

inductive FramingError
  | messageTooLarge (n : ℕ)
  | json (e : SerdeError)
  deriving DecidableEq, Repr

/-- `u32::to_be_bytes`, of a number cut to 32 bits. -/
def u32ToBeBytes (n : ℕ) : Bytes :=
  [UInt8.ofNat (n / 2 ^ 24), UInt8.ofNat (n / 2 ^ 16), UInt8.ofNat (n / 2 ^ 8), UInt8.ofNat n]

/-- `u32::from_be_bytes`. -/
def u32FromBeBytes (b : Bytes) : ℕ := b.foldl (fun n x => 256 * n + x.toNat) 0

/-- A message behind its length. -/
def frame (json : Bytes) : Bytes := u32ToBeBytes json.length ++ json

/-- `encode_message`, for a type with the serializer `toVec`. -/
def encodeMessage {α : Type} (toVec : α → Except SerdeError Bytes) (msg : α) :
    Except FramingError Bytes :=
  match toVec msg with
  | .error e => .error (.json e)
  | .ok json =>
    if maxMessageBytes < json.length then .error (.messageTooLarge json.length)
    else .ok (frame json)

/-- `decode_message`, for a type with the deserializer `fromSlice`. -/
def decodeMessage {α : Type} (fromSlice : Bytes → Except SerdeError α) (bytes : Bytes) :
    Except FramingError α :=
  (fromSlice bytes).mapError .json

/-- The first `count` chunks of `n` bytes; the last one may be shorter. -/
def takeChunks (n : ℕ) : ℕ → Bytes → List Bytes
  | 0, _ => []
  | count + 1, b => if b = [] then [] else b.take n :: takeChunks n count (b.drop n)

/-- `<[u8]>::chunks`. -/
def chunks (n : ℕ) (b : Bytes) : List Bytes := takeChunks n b.length b

/-! ## Reassembly -/

/-- The chunks of one link that no complete message has claimed yet. -/
structure Reassembler where
  buffer : Bytes := []
  deriving DecidableEq

namespace Reassembler

/-- Feeds the next chunk; a message comes out once it is complete. -/
def push (r : Reassembler) (chunk : Bytes) : Reassembler × Except FramingError (Option Bytes) :=
  let buffer := r.buffer ++ chunk
  if buffer.length < lenPrefixBytes then (⟨buffer⟩, .ok none)
  else
    let declaredLen := u32FromBeBytes (buffer.take lenPrefixBytes)
    if maxMessageBytes < declaredLen then (⟨buffer⟩, .error (.messageTooLarge declaredLen))
    else
      let totalLen := lenPrefixBytes + declaredLen
      if buffer.length < totalLen then (⟨buffer⟩, .ok none)
      else (⟨buffer.drop totalLen⟩, .ok (some ((buffer.take totalLen).drop lenPrefixBytes)))

/-- The pushes of several chunks, and what each of them returned. -/
def pushAll (r : Reassembler) : List Bytes → Reassembler × List (Except FramingError (Option Bytes))
  | [] => (r, [])
  | chunk :: chunks =>
    let (r', result) := r.push chunk
    let (r'', results) := pushAll r' chunks
    (r'', result :: results)

end Reassembler

end OpenAgentGraph
