/-
  An ideal instance of the libraries: a hash without collisions (the digest
  is the input), deterministic signatures, compact JSON text, and ASCII case
  mapping.  The laws that the results assume hold of it (`idealJsonLaws`).

  `accepts` says which messages carry a signature of a key at all.
-/
import OpenAgentGraph.Lib.JsonText
import OpenAgentGraph.Primitives

namespace OpenAgentGraph

open Lib

/-! ## Single-precision numbers as JSON numbers -/

theorem isBinary64_div (z : ℤ) (k : ℕ) (hz : z.natAbs < 2 ^ 53) (hk : k ≤ 1074) :
    isBinary64 ((z : ℚ) / 2 ^ k) = true := by
  have hdvd : ((z : ℚ) / 2 ^ k).den ∣ 2 ^ k := by
    have h := Rat.den_dvd z (2 ^ k)
    rw [Rat.divInt_eq_div] at h
    push_cast at h
    exact_mod_cast h
  obtain ⟨j, hj, hden⟩ := (Nat.dvd_prime_pow Nat.prime_two).1 hdvd
  have hnum : ((z : ℚ) / 2 ^ k).num.natAbs ∣ z.natAbs := by
    have h := Rat.num_dvd z (b := 2 ^ k) (by positivity)
    rw [Rat.divInt_eq_div] at h
    push_cast at h
    exact Int.natAbs_dvd_natAbs.2 h
  have hlog : (2 ^ j).log2 = j := Nat.log2_two_pow
  have hlt : ((z : ℚ) / 2 ^ k).num.natAbs < 2 ^ 53 := by
    by_cases h0 : z.natAbs = 0
    · have hz0 : z = 0 := Int.natAbs_eq_zero.1 h0
      simp [hz0]
    · exact lt_of_le_of_lt (Nat.le_of_dvd (Nat.pos_of_ne_zero h0) hnum) hz
  have hsmall : ((z : ℚ) / 2 ^ k).num.natAbs.log2 - 52 = 0 := by
    by_cases h0 : ((z : ℚ) / 2 ^ k).num.natAbs = 0
    · rw [h0]; rfl
    · have := (Nat.log2_lt h0).2 hlt
      omega
  unfold isBinary64
  rw [hden, hlog, hsmall]
  simp only [beq_self_eq_true, Bool.true_and, pow_zero, Nat.mod_one, Bool.and_eq_true,
    decide_eq_true_eq]
  exact ⟨⟨by omega, trivial⟩, by omega⟩

theorem isBinary64_mul (z : ℤ) (k : ℕ) (hz : z.natAbs < 2 ^ 53) (hk : k ≤ 900) :
    isBinary64 ((z : ℚ) * 2 ^ k) = true := by
  have hcast : (z : ℚ) * 2 ^ k = ((z * 2 ^ k : ℤ) : ℚ) := by push_cast; rfl
  have habs : (z * 2 ^ k : ℤ).natAbs = z.natAbs * 2 ^ k := by
    rw [Int.natAbs_mul, Int.natAbs_pow]
    rfl
  have hlog : (z.natAbs * 2 ^ k).log2 ≤ 52 + k := by
    by_cases h0 : z.natAbs * 2 ^ k = 0
    · rw [h0]
      exact Nat.zero_le _
    · have hlt : z.natAbs * 2 ^ k < 2 ^ (53 + k) := by
        rw [pow_add]
        exact Nat.mul_lt_mul_of_pos_right hz (by positivity)
      have := (Nat.log2_lt h0).2 hlt
      omega
  have hmod : z.natAbs * 2 ^ k % 2 ^ ((z.natAbs * 2 ^ k).log2 - 52) = 0 :=
    Nat.mod_eq_zero_of_dvd (Dvd.dvd.mul_left (Nat.pow_dvd_pow 2 (by omega)) _)
  unfold isBinary64
  rw [hcast, Rat.den_intCast, Rat.num_intCast, habs, hmod]
  simp only [beq_self_eq_true, Bool.and_eq_true, decide_eq_true_eq]
  exact ⟨⟨⟨rfl, by decide⟩, trivial⟩, by omega⟩

/-- A finite `f32` is a JSON number. -/
theorem isNumber_of_f32Value {b : UInt32} {q : ℚ} (h : f32Value b = .finite q) :
    isNumber q = true := by
  simp only [f32Value] at h
  have hm : b.toNat % 2 ^ 23 < 2 ^ 23 := Nat.mod_lt _ (by norm_num)
  have he : b.toNat / 2 ^ 23 % 2 ^ 8 < 2 ^ 8 := Nat.mod_lt _ (by norm_num)
  generalize b.toNat % 2 ^ 23 = m at h hm
  generalize b.toNat / 2 ^ 23 % 2 ^ 8 = e at h he
  generalize b.toNat.testBit 31 = neg at h
  have hbin : ∃ z : ℤ, ∃ k : ℕ, z.natAbs < 2 ^ 53 ∧
      ((k ≤ 1074 ∧ q = (z : ℚ) / 2 ^ k) ∨ (k ≤ 900 ∧ q = (z : ℚ) * 2 ^ k)) := by
    split at h
    · split at h
      · split at h <;> cases h
      · cases h
    · rename_i hexp
      injection h with h
      have hsign : ∀ a : ℕ, ∃ z : ℤ, z.natAbs = a ∧ (z : ℚ) = if neg then -(a : ℚ) else a := by
        intro a
        cases neg with
        | true => exact ⟨-a, by simp, by simp⟩
        | false => exact ⟨a, by simp, by simp⟩
      by_cases h0 : e = 0
      · obtain ⟨z, hz, hzq⟩ := hsign m
        refine ⟨z, 149, by omega, Or.inl ⟨by omega, ?_⟩⟩
        rw [← h, hzq, if_pos h0]
        split <;> ring
      · obtain ⟨z, hz, hzq⟩ := hsign (2 ^ 23 + m)
        by_cases hle : e ≤ 150
        · refine ⟨z, 150 - e, by omega, Or.inl ⟨by omega, ?_⟩⟩
          have hpow : (2 : ℚ) ^ 150 = 2 ^ e * 2 ^ (150 - e) := by
            rw [← pow_add, Nat.add_sub_cancel' hle]
          have hmag : (2 ^ 23 + (m : ℚ)) * 2 ^ e / 2 ^ 150 = (2 ^ 23 + (m : ℚ)) / 2 ^ (150 - e) := by
            rw [hpow]
            field_simp
          rw [← h, hzq, if_neg h0, hmag]
          push_cast
          split <;> ring
        · refine ⟨z, e - 150, by omega, Or.inr ⟨by omega, ?_⟩⟩
          have hpow : (2 : ℚ) ^ e = 2 ^ 150 * 2 ^ (e - 150) := by
            rw [← pow_add, Nat.add_sub_cancel' (by omega)]
          have hmag : (2 ^ 23 + (m : ℚ)) * 2 ^ e / 2 ^ 150 = (2 ^ 23 + (m : ℚ)) * 2 ^ (e - 150) := by
            rw [hpow]
            field_simp
          rw [← h, hzq, if_neg h0, hmag]
          push_cast
          split <;> ring
  obtain ⟨z, k, hz, ⟨hk, rfl⟩ | ⟨hk, rfl⟩⟩ := hbin
  · rw [isNumber, isBinary64_div z k hz hk, Bool.or_true]
  · rw [isNumber, isBinary64_mul z k hz hk, Bool.or_true]

/-! ## The instance -/

/-- The number an `f32` is written as. -/
def idealF32 (b : UInt32) : Except SerdeError Json :=
  match f32Value b with
  | .finite q => if h : isNumber q = true then .ok (.num ⟨q, h⟩) else .error .nonFinite
  | _ => .error .nonFinite

open Classical in
/-- An `f32` with the value of a number. -/
noncomputable def idealF32OfNumber (n : Number) : UInt32 :=
  if h : ∃ b, f32Value b = .finite n.val then h.choose else 0

/-- JSON bytes read through their UTF-8 text. -/
def idealFromSlice (b : Bytes) : Except SerdeError Json :=
  match String.fromUTF8? ⟨b.toArray⟩ with
  | none => .error .syntax_
  | some text =>
    match JsonText.parse text.toList with
    | none => .error .syntax_
    | some j => .ok j.canon

def jsonBytes (j : Json) : Bytes := utf8 (String.ofList (JsonText.render j))

/-- A message's signature under a key: 64 bytes. -/
def idealSignature (key m : Bytes) : Bytes := ((key ++ m) ++ List.replicate 64 0).take 64

def idealPublicKey (sk : Bytes) : Bytes := (sk ++ List.replicate 32 0).take 32

def asciiUppercase (s : String) : String := String.ofList (s.toList.map Char.toUpper)
def asciiLowercase (s : String) : String := String.ofList (s.toList.map Char.toLower)

theorem asciiUppercase_ascii (bs : Bytes) (h : ∀ x ∈ bs, x.toNat ≤ 127) :
    asciiUppercase (asciiText bs) = asciiText (bs.map asciiUpper) := by
  have key : ∀ x : UInt8, x.toNat ≤ 127 →
      (Char.ofNat x.toNat).toUpper = Char.ofNat (asciiUpper x).toNat :=
    forall_byte (by decide +kernel)
  unfold asciiUppercase asciiText
  rw [String.toList_ofList, List.map_map, List.map_map]
  congr 1
  exact List.map_congr_left fun x hx => key x (h x hx)

/-- The ideal libraries, with the messages that a key has signed. -/
noncomputable def ideal (accepts : Bytes → Bytes → Bool) : Prims Bytes where
  blake3 := id
  digestBytes := id
  digestOfBytes := some
  digestOfBytes_eq_some := by intro b h; simp
  validKey := fun b => decide (b.length = 32)
  length_of_validKey := by intro b h; exact of_decide_eq_true h
  publicKey := idealPublicKey
  validKey_publicKey := by intro sk; simp [idealPublicKey]
  sign := fun sk m => idealSignature (idealPublicKey sk) m
  length_sign := by intro sk m; simp [idealSignature]; omega
  verify := fun key m sig => accepts key m && decide (sig = idealSignature key m)
  jcs := ⟨idealF32, fun j => jsonBytes j.canon⟩
  toVec := ⟨idealF32, jsonBytes⟩
  fromSlice := idealFromSlice
  f32OfNumber := idealF32OfNumber
  toUppercase := asciiUppercase
  toLowercase := asciiLowercase
  toUppercase_ascii := asciiUppercase_ascii

/-! ## Its laws -/

theorem idealFromSlice_jsonBytes (j : Json) : idealFromSlice (jsonBytes j) = .ok j.canon := by
  have hbytes : ByteArray.mk (jsonBytes j).toArray
      = (String.ofList (JsonText.render j)).toByteArray := by
    unfold jsonBytes utf8
    rw [Array.toArray_toList]
  have htext : String.fromUTF8? (String.ofList (JsonText.render j)).toByteArray
      = some (String.ofList (JsonText.render j)) := by
    unfold String.fromUTF8?
    rw [dif_pos (String.isValidUTF8 _)]
    rfl
  rw [idealFromSlice, hbytes, htext]
  simp only [String.toList_ofList, JsonText.parse_render]

theorem idealF32_value {b b' : UInt32} (h : f32Value b = f32Value b') : idealF32 b = idealF32 b' := by
  unfold idealF32
  rw [h]

theorem idealF32_finite {b : UInt32} (h : f32IsFinite b = true) :
    ∃ n, idealF32 b = .ok (.num n) ∧ f32Value (idealF32OfNumber n) = f32Value b := by
  unfold f32IsFinite at h
  cases hv : f32Value b with
  | finite q =>
    have hq := isNumber_of_f32Value hv
    refine ⟨⟨q, hq⟩, ?_, ?_⟩
    · unfold idealF32
      rw [hv]
      simp only [hq, dite_true]
    · have hex : ∃ b, f32Value b = .finite q := ⟨b, hv⟩
      unfold idealF32OfNumber
      rw [dif_pos hex]
      exact hex.choose_spec
  | posInf => rw [hv] at h; cases h
  | negInf => rw [hv] at h; cases h
  | nan => rw [hv] at h; cases h

theorem idealF32_nonFinite {b : UInt32} (h : f32IsFinite b = false) :
    idealF32 b = .error .nonFinite := by
  unfold f32IsFinite at h
  unfold idealF32
  cases hv : f32Value b with
  | finite q => rw [hv] at h; cases h
  | posInf => rfl
  | negInf => rfl
  | nan => rfl

/-! The fields, by name: unfolding the whole instance in a unification is deep. -/

section fields

variable (accepts : Bytes → Bytes → Bool)

@[simp] theorem ideal_blake3 (b : Bytes) : (ideal accepts).blake3 b = b := by simp only [ideal, id]
@[simp] theorem ideal_digestBytes (b : Bytes) : (ideal accepts).digestBytes b = b := by
  simp only [ideal, id]
@[simp] theorem ideal_digestOfBytes (b : Bytes) : (ideal accepts).digestOfBytes b = some b := by
  simp only [ideal]
@[simp] theorem ideal_validKey (b : Bytes) :
    (ideal accepts).validKey b = decide (b.length = 32) := by simp only [ideal]
@[simp] theorem ideal_publicKey : (ideal accepts).publicKey = idealPublicKey := by simp only [ideal]
@[simp] theorem ideal_sign (sk m : Bytes) :
    (ideal accepts).sign sk m = idealSignature (idealPublicKey sk) m := by simp only [ideal]
@[simp] theorem ideal_verify (key m sig : Bytes) :
    (ideal accepts).verify key m sig = (accepts key m && decide (sig = idealSignature key m)) := by
  simp only [ideal]
@[simp] theorem ideal_jcs : (ideal accepts).jcs = ⟨idealF32, fun j => jsonBytes j.canon⟩ := by
  simp only [ideal]
@[simp] theorem ideal_toVec : (ideal accepts).toVec = ⟨idealF32, jsonBytes⟩ := by simp only [ideal]
@[simp] theorem ideal_fromSlice : (ideal accepts).fromSlice = idealFromSlice := by simp only [ideal]
@[simp] theorem ideal_f32OfNumber : (ideal accepts).f32OfNumber = idealF32OfNumber := by
  simp only [ideal]
@[simp] theorem ideal_toUppercase : (ideal accepts).toUppercase = asciiUppercase := by
  simp only [ideal]
@[simp] theorem ideal_toLowercase : (ideal accepts).toLowercase = asciiLowercase := by
  simp only [ideal]

-- from here on the instance is known by its fields only
attribute [irreducible] ideal

theorem idealSerializer_law {w : Json → Bytes}
    (hw : ∀ j, idealFromSlice (w j) = .ok j.canon) :
    Serializer.Law (ideal accepts) ⟨idealF32, w⟩ := by
  refine ⟨?_, ?_, ?_⟩
  · intro j
    rw [ideal_fromSlice]
    exact hw j
  · intro b h
    rw [ideal_f32OfNumber]
    exact idealF32_finite h
  · intro b b' h
    exact idealF32_value h

theorem idealJsonLaws : JsonLaws (ideal accepts) := by
  refine ⟨?_, ?_, ?_⟩
  · rw [ideal_jcs]
    refine idealSerializer_law accepts fun j => ?_
    rw [idealFromSlice_jsonBytes, Json.canon_canon]
  · rw [ideal_toVec]
    exact idealSerializer_law accepts idealFromSlice_jsonBytes
  · intro b h
    rw [ideal_jcs]
    exact ⟨_, idealF32_nonFinite h⟩

theorem ideal_blake3_injective : Function.Injective (ideal accepts).blake3 := by
  intro a b h
  simpa using h

end fields

/-- The ideal libraries in which a key's signature of any message verifies. -/
noncomputable def idealOpen : Prims Bytes := ideal fun _ _ => true

theorem idealOpen_laws : JsonLaws idealOpen := idealJsonLaws _

theorem idealOpen_injective : Function.Injective idealOpen.blake3 := ideal_blake3_injective _

/-- Three peers, by their signing keys. -/
def peerA : Prims.PeerIdentity := ⟨[171]⟩
def peerB : Prims.PeerIdentity := ⟨[2]⟩
def peerC : Prims.PeerIdentity := ⟨[3]⟩

theorem peerA_ne_peerB : peerA.peerId idealOpen ≠ peerB.peerId idealOpen := by
  simp [Prims.PeerIdentity.peerId, Prims.peerIdOfKey, Prims.PeerIdentity.verifyingKey, idealOpen,
    peerA, peerB, idealPublicKey]

theorem peerB_ne_peerC : peerB.peerId idealOpen ≠ peerC.peerId idealOpen := by
  simp [Prims.PeerIdentity.peerId, Prims.peerIdOfKey, Prims.PeerIdentity.verifyingKey, idealOpen,
    peerB, peerC, idealPublicKey]

end OpenAgentGraph
