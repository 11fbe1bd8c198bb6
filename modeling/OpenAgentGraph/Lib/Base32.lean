/-
  Base32 without padding (RFC 4648 alphabet), over byte strings.

  The codec regroups bits: `bitsOfBytes` lists the bits of the input, most
  significant first, and `base32Encode` writes one symbol for five of them.
  `base32Decode_base32Encode` is the round trip.
-/
import OpenAgentGraph.Lib.Bytes

namespace Lib

/-! ## Bits -/

/-- The value of a list of bits, most significant first. -/
def ofBits (bs : List Bool) : ℕ := bs.foldl (fun acc b => 2 * acc + b.toNat) 0

/-- The lowest `w` bits of `n`, most significant first. -/
def toBits : ℕ → ℕ → List Bool
  | 0, _ => []
  | w + 1, n => n.testBit w :: toBits w n

def bitsOfBytes (bs : Bytes) : List Bool := bs.flatMap fun b => toBits 8 b.toNat

@[simp] theorem length_toBits (w n : ℕ) : (toBits w n).length = w := by
  induction w with
  | zero => rfl
  | succ w ih => simp [toBits, ih]

theorem length_bitsOfBytes (bs : Bytes) : (bitsOfBytes bs).length = 8 * bs.length := by
  induction bs with
  | nil => rfl
  | cons b bs ih =>
    simp only [bitsOfBytes, List.flatMap_cons, List.length_append, length_toBits,
      List.length_cons] at ih ⊢
    omega

/-! ## Symbols -/

/-- The symbol of a value below 32: `A` to `Z`, then `2` to `7`. -/
def base32Symbol (n : ℕ) : UInt8 := if n < 26 then 65 + UInt8.ofNat n else 24 + UInt8.ofNat n

def base32Value (b : UInt8) : Option ℕ :=
  if 65 ≤ b ∧ b ≤ 90 then some (b.toNat - 65)
  else if 50 ≤ b ∧ b ≤ 55 then some (b.toNat - 24)
  else none

/-- Why a text is not Base32. -/
inductive DecodeKind
  | length
  | symbol
  | trailing
  deriving DecidableEq, Repr

/-- One symbol for five bits; the last group is filled with zeros. -/
def base32OfBits : List Bool → Bytes
  | b₀ :: b₁ :: b₂ :: b₃ :: b₄ :: rest =>
    base32Symbol (ofBits [b₀, b₁, b₂, b₃, b₄]) :: base32OfBits rest
  | [] => []
  | short => [base32Symbol (ofBits (short ++ List.replicate (5 - short.length) false))]

def base32Encode (bs : Bytes) : Bytes := base32OfBits (bitsOfBytes bs)

/-- The bits of a list of symbols. -/
def bitsOfBase32 : Bytes → Except DecodeKind (List Bool)
  | [] => .ok []
  | b :: bs => do
    let some v := base32Value b | .error .symbol
    let rest ← bitsOfBase32 bs
    return toBits 5 v ++ rest

/-- The full bytes at the front of a list of bits, and the bits left over. -/
def bytesOfBits : List Bool → Bytes × List Bool
  | b₀ :: b₁ :: b₂ :: b₃ :: b₄ :: b₅ :: b₆ :: b₇ :: rest =>
    let (bs, left) := bytesOfBits rest
    (UInt8.ofNat (ofBits [b₀, b₁, b₂, b₃, b₄, b₅, b₆, b₇]) :: bs, left)
  | left => ([], left)

/-- Fails on a length that no byte string encodes to, on a foreign symbol, and
    on left-over bits that are not zero. -/
def base32Decode (text : Bytes) : Except DecodeKind Bytes :=
  if 5 ≤ 5 * text.length % 8 then .error .length
  else do
    let bits ← bitsOfBase32 text
    let (bs, left) := bytesOfBits bits
    if left.any id then .error .trailing else return bs

/-! ## Round trip -/

theorem base32Value_symbol (v : Fin 32) : base32Value (base32Symbol v) = some v.val := by
  revert v; decide

theorem toBits_ofBits_five (b₀ b₁ b₂ b₃ b₄ : Bool) :
    toBits 5 (ofBits [b₀, b₁, b₂, b₃, b₄]) = [b₀, b₁, b₂, b₃, b₄] ∧
      ofBits [b₀, b₁, b₂, b₃, b₄] < 32 := by
  revert b₀ b₁ b₂ b₃ b₄; decide

theorem bitsOfBase32_cons (b₀ b₁ b₂ b₃ b₄ : Bool) {text : Bytes} {bits : List Bool}
    (h : bitsOfBase32 text = .ok bits) :
    bitsOfBase32 (base32Symbol (ofBits [b₀, b₁, b₂, b₃, b₄]) :: text)
      = .ok ([b₀, b₁, b₂, b₃, b₄] ++ bits) := by
  obtain ⟨hbits, hlt⟩ := toBits_ofBits_five b₀ b₁ b₂ b₃ b₄
  have hv := base32Value_symbol ⟨_, hlt⟩
  simp only at hv
  rw [bitsOfBase32, hv, h]
  simp [hbits, pure, Except.pure, bind, Except.bind]

/-- Decoding the symbols of some bits gives them back, filled with zeros to a
    multiple of five. -/
theorem bitsOfBase32_ofBits : ∀ bits : List Bool, ∃ k, k < 5 ∧
    bitsOfBase32 (base32OfBits bits) = .ok (bits ++ List.replicate k false) ∧
      5 * (base32OfBits bits).length = bits.length + k
  | b₀ :: b₁ :: b₂ :: b₃ :: b₄ :: rest => by
    obtain ⟨k, hk, hdec, hlen⟩ := bitsOfBase32_ofBits rest
    refine ⟨k, hk, ?_, ?_⟩
    · rw [base32OfBits, bitsOfBase32_cons b₀ b₁ b₂ b₃ b₄ hdec]
      simp
    · rw [base32OfBits]; simp only [List.length_cons] at hlen ⊢; omega
  | [] => ⟨0, by omega, rfl, rfl⟩
  | [b₀] => ⟨4, by omega, bitsOfBase32_cons b₀ false false false false rfl, rfl⟩
  | [b₀, b₁] => ⟨3, by omega, bitsOfBase32_cons b₀ b₁ false false false rfl, rfl⟩
  | [b₀, b₁, b₂] => ⟨2, by omega, bitsOfBase32_cons b₀ b₁ b₂ false false rfl, rfl⟩
  | [b₀, b₁, b₂, b₃] => ⟨1, by omega, bitsOfBase32_cons b₀ b₁ b₂ b₃ false rfl, rfl⟩

theorem bytesOfBits_short (left : List Bool) (h : left.length < 8) : bytesOfBits left = ([], left) := by
  rw [bytesOfBits]
  intro b₀ b₁ b₂ b₃ b₄ b₅ b₆ b₇ rest hc
  rw [hc] at h
  simp only [List.length_cons] at h
  omega

theorem ofBits_toBits_byte (b : UInt8) : UInt8.ofNat (ofBits (toBits 8 b.toNat)) = b := by
  revert b; exact forall_byte (by decide +kernel)

theorem bytesOfBits_bitsOfBytes (bs : Bytes) (left : List Bool) (h : left.length < 8) :
    bytesOfBits (bitsOfBytes bs ++ left) = (bs, left) := by
  induction bs with
  | nil => exact bytesOfBits_short left h
  | cons b bs ih =>
    have hcons : bitsOfBytes (b :: bs) ++ left = toBits 8 b.toNat ++ (bitsOfBytes bs ++ left) := by
      simp [bitsOfBytes]
    have hb := ofBits_toBits_byte b
    simp only [toBits] at hb
    rw [hcons]
    simp only [toBits, List.cons_append, List.nil_append, bytesOfBits, ih, hb]

/-- **Round trip.**  Decoding inverts encoding. -/
theorem base32Decode_base32Encode (bs : Bytes) : base32Decode (base32Encode bs) = .ok bs := by
  obtain ⟨k, hk, hdec, hlen⟩ := bitsOfBase32_ofBits (bitsOfBytes bs)
  rw [length_bitsOfBytes] at hlen
  have hpad : (List.replicate k false).length < 8 := by simp; omega
  have hmod : 5 * (base32OfBits (bitsOfBytes bs)).length % 8 = k := by
    rw [hlen, Nat.mul_add_mod, Nat.mod_eq_of_lt (by omega)]
  rw [base32Decode, base32Encode, hmod, if_neg (by omega), hdec]
  simp [bind, Except.bind, bytesOfBits_bitsOfBytes bs _ hpad, pure, Except.pure]

/-! ## Case -/

/-- Every byte of an encoding is the symbol of five bits. -/
theorem mem_base32OfBits : ∀ (bits : List Bool) (x : UInt8), x ∈ base32OfBits bits →
    ∃ b₀ b₁ b₂ b₃ b₄, x = base32Symbol (ofBits [b₀, b₁, b₂, b₃, b₄])
  | b₀ :: b₁ :: b₂ :: b₃ :: b₄ :: rest, x, hx => by
    rw [base32OfBits] at hx
    rcases List.mem_cons.1 hx with rfl | hx
    · exact ⟨b₀, b₁, b₂, b₃, b₄, rfl⟩
    · exact mem_base32OfBits rest x hx
  | [], x, hx => by simp [base32OfBits] at hx
  | [b₀], x, hx => ⟨b₀, false, false, false, false, List.mem_singleton.1 hx⟩
  | [b₀, b₁], x, hx => ⟨b₀, b₁, false, false, false, List.mem_singleton.1 hx⟩
  | [b₀, b₁, b₂], x, hx => ⟨b₀, b₁, b₂, false, false, List.mem_singleton.1 hx⟩
  | [b₀, b₁, b₂, b₃], x, hx => ⟨b₀, b₁, b₂, b₃, false, List.mem_singleton.1 hx⟩

/-- Lower case and back is the identity on an encoding, and both are ASCII. -/
theorem base32Encode_case (bs : Bytes) :
    ∀ x ∈ base32Encode bs, asciiUpper (asciiLower x) = x ∧ (asciiLower x).toNat ≤ 127 ∧
      x.toNat ≤ 127 := by
  intro x hx
  obtain ⟨b₀, b₁, b₂, b₃, b₄, rfl⟩ := mem_base32OfBits _ x hx
  clear hx
  revert b₀ b₁ b₂ b₃ b₄
  decide

end Lib
