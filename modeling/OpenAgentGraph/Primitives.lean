/-
  What the code takes from its libraries: BLAKE3, Ed25519, the JSON
  serializers, and Unicode case mapping.

  `Prims` holds the functions, over a type `H` of 32-byte digests (an ideal
  hash has no collisions, which no function into `[u8; 32]` can have, so the
  digest type is left open).  The laws that a group of results relies on are
  separate structures: `JsonLaws`, and injectivity of `blake3`.
-/
import OpenAgentGraph.Lib.Json
import OpenAgentGraph.Lib.Base32

namespace OpenAgentGraph

open Lib

/-! ## Single-precision numbers -/

/-- The numeric value of an `f32`. -/
inductive F32Value
  | finite (q : ℚ)
  | posInf
  | negInf
  | nan
  deriving DecidableEq

/-- The value of an `f32`, given by its bits (IEEE 754). -/
def f32Value (bits : UInt32) : F32Value :=
  let n : ℕ := bits.toNat
  let neg : Bool := n.testBit 31
  let e : ℕ := n / 2 ^ 23 % 2 ^ 8
  let m : ℕ := n % 2 ^ 23
  if e = 255 then
    if m = 0 then (if neg then .negInf else .posInf) else .nan
  else
    let mag : ℚ := if e = 0 then (m : ℚ) / 2 ^ 149 else (2 ^ 23 + (m : ℚ)) * 2 ^ e / 2 ^ 150
    .finite (if neg then -mag else mag)

def f32IsFinite (bits : UInt32) : Bool :=
  match f32Value bits with
  | .finite _ => true
  | _ => false

/-! ## Serialization -/

/-- `serde_json::Error`. -/
inductive SerdeError
  | syntax_
  | missingField (field : String)
  | invalidType (field : String)
  | unknownVariant (variant : String)
  | nonFinite
  deriving DecidableEq, Repr

/-- A JSON serializer: what it writes for an `f32`, and its text for a tree. -/
structure Serializer where
  f32 : UInt32 → Except SerdeError Json
  write : Json → Bytes

/-! ## The libraries -/

structure Prims (H : Type) where
  blake3 : Bytes → H
  digestBytes : H → Bytes
  digestOfBytes : Bytes → Option H
  digestOfBytes_eq_some : ∀ b h, digestOfBytes b = some h ↔ b = digestBytes h
  /-- `VerifyingKey::from_bytes` accepts the bytes. -/
  validKey : Bytes → Bool
  length_of_validKey : ∀ b, validKey b = true → b.length = 32
  /-- The public key of a signing key. -/
  publicKey : Bytes → Bytes
  validKey_publicKey : ∀ sk, validKey (publicKey sk) = true
  sign : Bytes → Bytes → Bytes
  length_sign : ∀ sk m, (sign sk m).length = 64
  verify : Bytes → Bytes → Bytes → Bool
  /-- `serde_jcs::to_vec`. -/
  jcs : Serializer
  /-- `serde_json::to_vec`. -/
  toVec : Serializer
  /-- `serde_json::from_slice`. -/
  fromSlice : Bytes → Except SerdeError Json
  /-- A JSON number read into an `f32`. -/
  f32OfNumber : Number → UInt32
  toUppercase : String → String
  toLowercase : String → String
  toUppercase_ascii : ∀ bs : Bytes, (∀ x ∈ bs, x.toNat ≤ 127) →
    toUppercase (asciiText bs) = asciiText (bs.map asciiUpper)

/-- A serializer's text reads back as the tree that was written. -/
structure Serializer.Law {H : Type} (P : Prims H) (w : Serializer) : Prop where
  fromSlice_write : ∀ j, P.fromSlice (w.write j) = .ok j.canon
  f32_finite : ∀ b, f32IsFinite b = true →
    ∃ n, w.f32 b = .ok (.num n) ∧ f32Value (P.f32OfNumber n) = f32Value b
  f32_value : ∀ b b', f32Value b = f32Value b' → w.f32 b = w.f32 b'

/-- Reading after writing is the identity on values, and canonical JSON has no
    text for a number that is not finite (RFC 8785). -/
structure JsonLaws {H : Type} (P : Prims H) : Prop where
  jcs : P.jcs.Law P
  toVec : P.toVec.Law P
  jcs_nonFinite : ∀ b, f32IsFinite b = false → ∃ e, P.jcs.f32 b = .error e

variable {H : Type}

namespace Prims

variable (P : Prims H)

@[simp] theorem digestOfBytes_digestBytes (h : H) : P.digestOfBytes (P.digestBytes h) = some h :=
  (P.digestOfBytes_eq_some _ _).2 rfl

theorem digestBytes_injective : Function.Injective P.digestBytes := by
  intro a b h
  have h' := congrArg P.digestOfBytes h
  simpa using h'

/-! ## Identifiers -/

/-- `Hash32::derive`: the hash of a domain prefix followed by the input. -/
def derive (domainPrefix : String) (input : Bytes) : H := P.blake3 (utf8 domainPrefix ++ input)

def nodeIdPrefix : String := "OAG:NODE:v1:"
def edgeIdPrefix : String := "OAG:EDGE:v1:"
def eventIdPrefix : String := "OAG:EVENT:v1:"
def actorIdPrefix : String := "OAG:ACTOR:v1:"

/-- `Hash32::to_hex`. -/
def toHex (h : H) : String := hexEncode (P.digestBytes h)

inductive Hash32ParseError
  | hex (e : FromHexError)
  | wrongLength (n : ℕ)
  deriving DecidableEq, Repr

/-- `Hash32::from_str`. -/
def hashFromStr (s : String) : Except Hash32ParseError H :=
  match hexDecode s with
  | .error e => .error (.hex e)
  | .ok b =>
    match P.digestOfBytes b with
    | some h => .ok h
    | none => .error (.wrongLength b.length)

@[simp] theorem hashFromStr_toHex (h : H) : P.hashFromStr (P.toHex h) = .ok h := by
  simp [hashFromStr, toHex]

theorem toHex_injective : Function.Injective P.toHex :=
  hexEncode_injective.comp P.digestBytes_injective

theorem derive_injective (hinj : Function.Injective P.blake3) (d : String) :
    Function.Injective (P.derive d) := by
  intro a b h
  exact List.append_cancel_left (hinj h)

/-! ## Keys, signatures, peer ids -/

/-- An Ed25519 public key. -/
structure VerifyingKey where
  bytes : Bytes
  valid : P.validKey bytes = true

/-- `VerifyingKey::from_bytes`. -/
def keyFromBytes (b : Bytes) : Option P.VerifyingKey :=
  if h : P.validKey b = true then some ⟨b, h⟩ else none

/-- `PeerId::from_public_key`. -/
def peerIdOfKey (k : P.VerifyingKey) : H := P.blake3 k.bytes

/-- A peer's signing key. -/
structure PeerIdentity where
  signingKey : Bytes

def PeerIdentity.verifyingKey (i : PeerIdentity) : P.VerifyingKey :=
  ⟨P.publicKey i.signingKey, P.validKey_publicKey _⟩

def PeerIdentity.peerId (i : PeerIdentity) : H := P.peerIdOfKey (i.verifyingKey P)

def signWithDomain (i : PeerIdentity) (domainPrefix : String) (m : Bytes) : Bytes :=
  P.sign i.signingKey (utf8 domainPrefix ++ m)

def verifyWithDomain (k : P.VerifyingKey) (domainPrefix : String) (m sig : Bytes) : Bool :=
  P.verify k.bytes (utf8 domainPrefix ++ m) sig

inductive PeerIdParseError
  | missingPrefix
  | base32 (e : DecodeKind)
  | wrongLength (n : ℕ)
  deriving DecidableEq, Repr

/-- The text of a peer id: lower-case Base32 after `oagp_`. -/
def peerIdToString (h : H) : String :=
  "oagp_" ++ asciiText ((base32Encode (P.digestBytes h)).map asciiLower)

/-- `PeerId::from_str`. -/
def peerIdFromStr (s : String) : Except PeerIdParseError H :=
  if "oagp_".toList.isPrefixOf s.toList then
    match base32Decode (utf8 (P.toUppercase (String.ofList (s.toList.drop 5)))) with
    | .error e => .error (.base32 e)
    | .ok b =>
      match P.digestOfBytes b with
      | some h => .ok h
      | none => .error (.wrongLength b.length)
  else .error .missingPrefix

theorem peerIdFromStr_peerIdToString (h : H) : P.peerIdFromStr (P.peerIdToString h) = .ok h := by
  have hcase := base32Encode_case (P.digestBytes h)
  have hlow : ∀ x ∈ (base32Encode (P.digestBytes h)).map asciiLower, x.toNat ≤ 127 := by
    intro x hx
    obtain ⟨y, hy, rfl⟩ := List.mem_map.1 hx
    exact (hcase y hy).2.1
  have hup : ((base32Encode (P.digestBytes h)).map asciiLower).map asciiUpper
      = base32Encode (P.digestBytes h) := by
    rw [List.map_map]
    exact (List.map_congr_left fun x hx => (hcase x hx).1).trans (List.map_id _)
  have hlist : (P.peerIdToString h).toList
      = "oagp_".toList ++ (asciiText ((base32Encode (P.digestBytes h)).map asciiLower)).toList := by
    simp [peerIdToString]
  have hdrop : String.ofList ((P.peerIdToString h).toList.drop 5)
      = asciiText ((base32Encode (P.digestBytes h)).map asciiLower) := by
    rw [hlist, List.drop_left' (by rfl), String.ofList_toList]
  have hpre : "oagp_".toList.isPrefixOf (P.peerIdToString h).toList = true := by
    rw [hlist, List.isPrefixOf_iff_prefix]
    exact List.prefix_append _ _
  rw [peerIdFromStr, if_pos hpre, hdrop, P.toUppercase_ascii _ hlow, hup,
    utf8_asciiText _ fun x hx => (hcase x hx).2.2, base32Decode_base32Encode]
  simp

end Prims

theorem keyFromBytes_bytes {P : Prims H} (key : P.VerifyingKey) :
    P.keyFromBytes key.bytes = some key := by
  rw [Prims.keyFromBytes, dif_pos key.valid]

theorem keyFromBytes_eq_some {P : Prims H} {b : Bytes} {key : P.VerifyingKey}
    (h : P.keyFromBytes b = some key) : key.bytes = b := by
  unfold Prims.keyFromBytes at h
  split at h
  · obtain rfl := Option.some.inj h
    rfl
  · cases h

end OpenAgentGraph
