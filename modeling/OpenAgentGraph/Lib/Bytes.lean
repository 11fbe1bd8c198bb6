/-
  Byte strings: UTF-8 encoding of text, and the hexadecimal text encoding.

  * `hexDecode` reads upper- and lower-case digits; `hexEncode` writes
    lower-case ones.
  * `hexDecode_hexEncode`: decoding inverts encoding.
  * `hexEncode_of_lower`: a text without upper-case digits that decodes to `b`
    is the encoding of `b`, so on such texts decoding is injective.
-/
import Mathlib

namespace Lib

/-- A byte string. -/
abbrev Bytes := List UInt8

/-! ## UTF-8 -/

/-- The UTF-8 encoding of a text. -/
def utf8 (s : String) : Bytes := s.toByteArray.data.toList

theorem utf8_injective : Function.Injective utf8 := by
  intro s t h
  apply String.toByteArray_inj.1
  have harr : s.toByteArray.data = t.toByteArray.data := Array.toList_inj.1 h
  cases hs : s.toByteArray
  cases ht : t.toByteArray
  simp_all

@[simp] theorem utf8_ofList (cs : List Char) :
    utf8 (String.ofList cs) = cs.flatMap String.utf8EncodeChar := by
  simp [utf8, String.toByteArray_ofList, List.utf8Encode]

@[simp] theorem utf8_append (s t : String) : utf8 (s ++ t) = utf8 s ++ utf8 t := by
  simp [utf8, String.toByteArray_append]

theorem utf8_eq_flatMap (s : String) : utf8 s = s.toList.flatMap String.utf8EncodeChar := by
  rw [← utf8_ofList, String.ofList_toList]

/-- A byte below 128 encodes an ASCII character by itself. -/
theorem utf8EncodeChar_ascii {c : Char} (h : c.val.toNat ≤ 127) :
    String.utf8EncodeChar c = [UInt8.ofNat c.val.toNat] := by
  simp only [String.utf8EncodeChar, h, if_true]

/-- The text whose characters are the given ASCII bytes. -/
def asciiText (bs : Bytes) : String := String.ofList (bs.map fun x => Char.ofNat x.toNat)

/-- The bytes of an ASCII text are its characters. -/
theorem utf8_asciiText (bs : Bytes) (h : ∀ x ∈ bs, x.toNat ≤ 127) : utf8 (asciiText bs) = bs := by
  rw [asciiText, utf8_ofList]
  induction bs with
  | nil => rfl
  | cons x xs ih =>
    have hx : x.toNat ≤ 127 := h x (List.mem_cons_self ..)
    have hv : (Char.ofNat x.toNat).val.toNat = x.toNat := by
      have hvalid : x.toNat.isValidChar := Or.inl (by omega)
      simp [hvalid]
    rw [List.map_cons, List.flatMap_cons, ih fun y hy => h y (List.mem_cons_of_mem _ hy),
      utf8EncodeChar_ascii (by rw [hv]; exact hx), hv]
    simp

/-- A decidable property of bytes is checked on the 256 values. -/
theorem forall_byte {p : UInt8 → Prop} (h : ∀ m : Fin 256, p (UInt8.ofNat m)) (b : UInt8) : p b := by
  simpa using h ⟨b.toNat, b.toNat_lt⟩

/-- ASCII upper case of a byte; every other byte is kept. -/
def asciiUpper (b : UInt8) : UInt8 := if 97 ≤ b ∧ b ≤ 122 then b - 32 else b

/-- ASCII lower case of a byte; every other byte is kept. -/
def asciiLower (b : UInt8) : UInt8 := if 65 ≤ b ∧ b ≤ 90 then b + 32 else b

/-- A list is cut at its first separator in one way only. -/
theorem split_first {α : Type} {c : α} {a a' r r' : List α} (ha : c ∉ a) (ha' : c ∉ a')
    (h : a ++ c :: r = a' ++ c :: r') : a = a' ∧ r = r' := by
  induction a generalizing a' with
  | nil =>
    cases a' with
    | nil => simpa using h
    | cons x a' =>
      simp only [List.nil_append, List.cons_append, List.cons.injEq] at h
      exact absurd (h.1 ▸ List.mem_cons_self ..) ha'
  | cons x a ih =>
    cases a' with
    | nil =>
      simp only [List.nil_append, List.cons_append, List.cons.injEq] at h
      exact absurd (h.1 ▸ List.mem_cons_self ..) ha
    | cons y a' =>
      simp only [List.cons_append, List.cons.injEq] at h
      obtain ⟨rfl, h⟩ := h
      obtain ⟨rfl, rfl⟩ := ih (fun hm => ha (List.mem_cons_of_mem _ hm))
        (fun hm => ha' (List.mem_cons_of_mem _ hm)) h
      exact ⟨rfl, rfl⟩

/-! ## Hexadecimal text -/

inductive FromHexError
  | oddLength
  | invalidHexCharacter (c : UInt8) (index : ℕ)
  deriving DecidableEq, Repr

/-- The value of a hexadecimal digit, of either case. -/
def hexVal (b : UInt8) (index : ℕ) : Except FromHexError UInt8 :=
  if 65 ≤ b ∧ b ≤ 70 then .ok (b - 65 + 10)
  else if 97 ≤ b ∧ b ≤ 102 then .ok (b - 97 + 10)
  else if 48 ≤ b ∧ b ≤ 57 then .ok (b - 48)
  else .error (.invalidHexCharacter b index)

/-- Decodes the digit pairs from position `i` on. -/
def hexDecodePairs (i : ℕ) : Bytes → Except FromHexError Bytes
  | hi :: lo :: rest => do
    let h ← hexVal hi i
    let l ← hexVal lo (i + 1)
    let tail ← hexDecodePairs (i + 2) rest
    return (h * 16 + l) :: tail
  | _ => .ok []

/-- `hex::decode` on the bytes of a text. -/
def hexDecodeBytes (bs : Bytes) : Except FromHexError Bytes :=
  if bs.length % 2 = 1 then .error .oddLength else hexDecodePairs 0 bs

def hexDecode (s : String) : Except FromHexError Bytes := hexDecodeBytes (utf8 s)

/-- The lower-case digit of a value below 16. -/
def hexDigit (n : UInt8) : UInt8 := if n < 10 then 48 + n else 87 + n

def hexEncodeBytes (b : Bytes) : Bytes := b.flatMap fun x => [hexDigit (x / 16), hexDigit (x % 16)]

/-- `hex::encode`. -/
def hexEncode (b : Bytes) : String := asciiText (hexEncodeBytes b)

/-- No upper-case letter. -/
def isLowerText (s : String) : Prop := ∀ x ∈ utf8 s, ¬ (65 ≤ x ∧ x ≤ 90)

instance (s : String) : Decidable (isLowerText s) :=
  inferInstanceAs (Decidable (∀ x ∈ utf8 s, ¬ (65 ≤ x ∧ x ≤ 90)))

theorem high_lt (x : UInt8) : x / 16 < 16 := by
  revert x; exact forall_byte (by decide +kernel)

theorem low_lt (x : UInt8) : x % 16 < 16 := by
  revert x; exact forall_byte (by decide +kernel)

theorem high_low (x : UInt8) : x / 16 * 16 + x % 16 = x := by
  revert x; exact forall_byte (by decide +kernel)

theorem hexVal_hexDigit (n : UInt8) (h : n < 16) (i : ℕ) : hexVal (hexDigit n) i = .ok n := by
  have upper : ∀ n : UInt8, n < 16 → ¬ (65 ≤ hexDigit n ∧ hexDigit n ≤ 70) :=
    forall_byte (by decide +kernel)
  have lower : ∀ n : UInt8, n < 16 → (97 ≤ hexDigit n ∧ hexDigit n ≤ 102) →
      hexDigit n - 97 + 10 = n := forall_byte (by decide +kernel)
  have digit : ∀ n : UInt8, n < 16 → ¬ (97 ≤ hexDigit n ∧ hexDigit n ≤ 102) →
      (48 ≤ hexDigit n ∧ hexDigit n ≤ 57) ∧ hexDigit n - 48 = n := forall_byte (by decide +kernel)
  rw [hexVal, if_neg (upper n h)]
  by_cases hl : 97 ≤ hexDigit n ∧ hexDigit n ≤ 102
  · rw [if_pos hl, lower n h hl]
  · rw [if_neg hl, if_pos (digit n h hl).1, (digit n h hl).2]

/-- A digit is that of its value, up to its case. -/
theorem hexDigit_hexVal {b v : UInt8} {i : ℕ} (h : hexVal b i = .ok v) :
    hexDigit v = asciiLower b ∧ v < 16 := by
  have upper : ∀ b : UInt8, (65 ≤ b ∧ b ≤ 70) →
      hexDigit (b - 65 + 10) = asciiLower b ∧ b - 65 + 10 < 16 := forall_byte (by decide +kernel)
  have lower : ∀ b : UInt8, (97 ≤ b ∧ b ≤ 102) →
      hexDigit (b - 97 + 10) = asciiLower b ∧ b - 97 + 10 < 16 := forall_byte (by decide +kernel)
  have digit : ∀ b : UInt8, (48 ≤ b ∧ b ≤ 57) → hexDigit (b - 48) = asciiLower b ∧ b - 48 < 16 :=
    forall_byte (by decide +kernel)
  rw [hexVal] at h
  split at h
  · rename_i hb; cases h; exact upper b hb
  split at h
  · rename_i hb; cases h; exact lower b hb
  split at h
  · rename_i hb; cases h; exact digit b hb
  · cases h

theorem length_hexEncodeBytes (b : Bytes) : (hexEncodeBytes b).length = 2 * b.length := by
  induction b with
  | nil => rfl
  | cons x xs ih => simp only [hexEncodeBytes, List.flatMap_cons, List.length_append,
      List.length_cons, List.length_nil] at ih ⊢; omega

theorem hexDigit_ascii (n : UInt8) (h : n < 16) : (hexDigit n).toNat ≤ 127 := by
  revert n; exact forall_byte (by decide +kernel)

theorem hexEncodeBytes_ascii (b : Bytes) : ∀ x ∈ hexEncodeBytes b, x.toNat ≤ 127 := by
  intro x hx
  simp only [hexEncodeBytes, List.mem_flatMap, List.mem_cons, List.not_mem_nil, or_false] at hx
  obtain ⟨y, -, rfl | rfl⟩ := hx
  · exact hexDigit_ascii _ (high_lt y)
  · exact hexDigit_ascii _ (low_lt y)

@[simp] theorem utf8_hexEncode (b : Bytes) : utf8 (hexEncode b) = hexEncodeBytes b :=
  utf8_asciiText _ (hexEncodeBytes_ascii b)

theorem hexDecodePairs_hexEncodeBytes (b : Bytes) :
    ∀ i, hexDecodePairs i (hexEncodeBytes b) = .ok b := by
  induction b with
  | nil => intro i; rfl
  | cons x xs ih =>
    intro i
    have hcons : hexEncodeBytes (x :: xs)
        = hexDigit (x / 16) :: hexDigit (x % 16) :: hexEncodeBytes xs := rfl
    rw [hcons, hexDecodePairs, hexVal_hexDigit _ (high_lt x),
      hexVal_hexDigit _ (low_lt x), ih]
    simp [pure, Except.pure, bind, Except.bind, high_low]

/-- **Round trip.**  Decoding inverts encoding. -/
@[simp] theorem hexDecode_hexEncode (b : Bytes) : hexDecode (hexEncode b) = .ok b := by
  unfold hexDecode hexDecodeBytes
  rw [utf8_hexEncode, length_hexEncodeBytes, if_neg (by omega), hexDecodePairs_hexEncodeBytes]

/-- The encoding in upper case, which decodes as well. -/
def hexUpper (b : Bytes) : String := asciiText ((hexEncodeBytes b).map asciiUpper)

theorem hexDecodePairs_upper (b : Bytes) :
    ∀ i, hexDecodePairs i ((hexEncodeBytes b).map asciiUpper) = .ok b := by
  have hval : ∀ n : UInt8, n < 16 → ∀ i, hexVal (asciiUpper (hexDigit n)) i = .ok n := by
    have upper : ∀ n : UInt8, n < 16 →
        (65 ≤ asciiUpper (hexDigit n) ∧ asciiUpper (hexDigit n) ≤ 70) →
        asciiUpper (hexDigit n) - 65 + 10 = n := forall_byte (by decide +kernel)
    have digit : ∀ n : UInt8, n < 16 →
        ¬ (65 ≤ asciiUpper (hexDigit n) ∧ asciiUpper (hexDigit n) ≤ 70) →
        ¬ (97 ≤ asciiUpper (hexDigit n) ∧ asciiUpper (hexDigit n) ≤ 102) ∧
        (48 ≤ asciiUpper (hexDigit n) ∧ asciiUpper (hexDigit n) ≤ 57) ∧
        asciiUpper (hexDigit n) - 48 = n := forall_byte (by decide +kernel)
    intro n hn i
    unfold hexVal
    by_cases hu : 65 ≤ asciiUpper (hexDigit n) ∧ asciiUpper (hexDigit n) ≤ 70
    · rw [if_pos hu, upper n hn hu]
    · obtain ⟨h₁, h₂, h₃⟩ := digit n hn hu
      rw [if_neg hu, if_neg h₁, if_pos h₂, h₃]
  induction b with
  | nil => intro i; rfl
  | cons x xs ih =>
    intro i
    have hcons : (hexEncodeBytes (x :: xs)).map asciiUpper
        = asciiUpper (hexDigit (x / 16)) :: asciiUpper (hexDigit (x % 16)) ::
          (hexEncodeBytes xs).map asciiUpper := rfl
    rw [hcons, hexDecodePairs, hval _ (high_lt x), hval _ (low_lt x), ih]
    simp [pure, Except.pure, bind, Except.bind, high_low]

theorem asciiUpper_ascii (x : UInt8) (h : x.toNat ≤ 127) : (asciiUpper x).toNat ≤ 127 := by
  revert x; exact forall_byte (by decide +kernel)

theorem utf8_hexUpper (b : Bytes) : utf8 (hexUpper b) = (hexEncodeBytes b).map asciiUpper := by
  refine utf8_asciiText _ fun x hx => ?_
  obtain ⟨y, hy, rfl⟩ := List.mem_map.1 hx
  exact asciiUpper_ascii y (hexEncodeBytes_ascii b y hy)

theorem hexDecode_hexUpper (b : Bytes) : hexDecode (hexUpper b) = .ok b := by
  unfold hexDecode hexDecodeBytes
  rw [utf8_hexUpper, List.length_map, length_hexEncodeBytes, if_neg (by omega), hexDecodePairs_upper]

/-- The decoded pairs encode back to the digits in lower case. -/
theorem hexEncodeBytes_of_decoded : ∀ (bs : Bytes) (i : ℕ) (b : Bytes), bs.length % 2 = 0 →
    hexDecodePairs i bs = .ok b → hexEncodeBytes b = bs.map asciiLower
  | [], i, b, _, h => by
    rw [hexDecodePairs] at h
    · cases h; rfl
    · intro hi lo rest hc; cases hc
  | [x], i, b, hlen, _ => by simp at hlen
  | hi :: lo :: rest, i, b, hlen, h => by
    rw [hexDecodePairs] at h
    cases hh : hexVal hi i with
    | error e => rw [hh] at h; cases h
    | ok vh =>
      cases hlo : hexVal lo (i + 1) with
      | error e => rw [hh, hlo] at h; cases h
      | ok vl =>
        cases ht : hexDecodePairs (i + 2) rest with
        | error e => rw [hh, hlo, ht] at h; cases h
        | ok tl =>
          rw [hh, hlo, ht] at h
          cases h
          have ih := hexEncodeBytes_of_decoded rest (i + 2) tl
            (by simp only [List.length_cons] at hlen; omega) ht
          obtain ⟨hhi, hvh⟩ := hexDigit_hexVal hh
          obtain ⟨hlo', hvl⟩ := hexDigit_hexVal hlo
          have hq : (vh * 16 + vl) / 16 = vh ∧ (vh * 16 + vl) % 16 = vl := by
            have key : ∀ a c : Fin 16, (UInt8.ofNat a * 16 + UInt8.ofNat c) / 16 = UInt8.ofNat a ∧
                (UInt8.ofNat a * 16 + UInt8.ofNat c) % 16 = UInt8.ofNat c := by decide +kernel
            simpa using key ⟨vh.toNat, hvh⟩ ⟨vl.toNat, hvl⟩
          change hexDigit ((vh * 16 + vl) / 16) :: hexDigit ((vh * 16 + vl) % 16) ::
            hexEncodeBytes tl = asciiLower hi :: asciiLower lo :: rest.map asciiLower
          rw [hq.1, hq.2, hhi, hlo', ih]

theorem utf8_hexEncode_of_decoded {s : String} {b : Bytes} (h : hexDecode s = .ok b) :
    utf8 (hexEncode b) = (utf8 s).map asciiLower := by
  unfold hexDecode hexDecodeBytes at h
  split at h
  · cases h
  · rename_i hlen
    rw [utf8_hexEncode, hexEncodeBytes_of_decoded _ 0 b (by omega) h]

/-- A text without upper-case letters is the encoding of what it decodes to. -/
theorem hexEncode_of_lower {s : String} {b : Bytes} (h : hexDecode s = .ok b) (hl : isLowerText s) :
    hexEncode b = s := by
  apply utf8_injective
  rw [utf8_hexEncode_of_decoded h]
  calc (utf8 s).map asciiLower
      = (utf8 s).map id := List.map_congr_left fun x hx => if_neg (hl x hx)
    _ = utf8 s := List.map_id _

theorem isLowerText_hexEncode (b : Bytes) : isLowerText (hexEncode b) := by
  have key : ∀ n : UInt8, n < 16 → ¬ (65 ≤ hexDigit n ∧ hexDigit n ≤ 90) :=
    forall_byte (by decide +kernel)
  intro x hx
  rw [utf8_hexEncode] at hx
  simp only [hexEncodeBytes, List.mem_flatMap, List.mem_cons, List.not_mem_nil, or_false] at hx
  obtain ⟨y, -, rfl | rfl⟩ := hx
  · exact key _ (high_lt y)
  · exact key _ (low_lt y)

theorem hexEncode_injective : Function.Injective hexEncode := by
  intro a b h
  have h' := congrArg hexDecode h
  simpa using h'

/-- The texts differ at most in the case of their letters. -/
def SameButCase (s t : String) : Prop := (utf8 s).map asciiLower = (utf8 t).map asciiLower

/-- Two texts decode to the same bytes exactly when they differ in case at most. -/
theorem hexDecode_eq_iff {s t : String} {b c : Bytes} (hs : hexDecode s = .ok b)
    (ht : hexDecode t = .ok c) : b = c ↔ SameButCase s t := by
  rw [SameButCase, ← utf8_hexEncode_of_decoded hs, ← utf8_hexEncode_of_decoded ht]
  constructor
  · rintro rfl
    rfl
  · intro h
    exact hexEncode_injective (utf8_injective h)

end Lib
