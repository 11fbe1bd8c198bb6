/-
  Percent-encoded text: UTF-8 with replacement of invalid bytes, percent
  coding, and the text that a URL stores for a query.

  * `readText` undoes `+` and percent coding; `QuerySet.store` encodes the
    characters that may not stand in a query, and only these.
  * `readText_store_plain`: what is stored for a plain text is read as that
    text.
  * `weight_readText_le`: reading makes nothing of nothing, which is how a text
    that is read as itself is shown to be plain (`plainText_of_fixed`).
-/
import OpenAgentGraph.Lib.Bytes

namespace Lib

abbrev Text := List Char

/-! ## UTF-8 with replacement -/

/-- The character at the front of valid UTF-8. -/
def decodeChar (b : Bytes) : Option Char := b.toByteArray.utf8DecodeChar? 0

def isContinuation (x : UInt8) : Bool := 128 ≤ x && x ≤ 191

/-- The byte may follow the first of a sequence of three. -/
def secondOfThree (x y : UInt8) : Bool :=
  (x == 224 && 160 ≤ y && y ≤ 191) || (225 ≤ x && x ≤ 236 && isContinuation y)
    || (x == 237 && 128 ≤ y && y ≤ 159) || (238 ≤ x && x ≤ 239 && isContinuation y)

/-- The byte may follow the first of a sequence of four. -/
def secondOfFour (x y : UInt8) : Bool :=
  (x == 240 && 144 ≤ y && y ≤ 191) || (241 ≤ x && x ≤ 243 && isContinuation y)
    || (x == 244 && 128 ≤ y && y ≤ 143)

/-- How many bytes one replacement character stands for, where no character can
    be decoded: the longest start of a valid sequence. -/
def invalidLength : Bytes → ℕ
  | x :: y :: rest =>
    if secondOfThree x y then 2
    else if secondOfFour x y then
      match rest with
      | z :: _ => if isContinuation z then 3 else 2
      | [] => 2
    else 1
  | _ => 1

/-- Decodes what follows the next `n` bytes. -/
def lossyFrom : ℕ → Bytes → Text
  | _, [] => []
  | n + 1, _ :: rest => lossyFrom n rest
  | 0, x :: rest =>
    match decodeChar (x :: rest) with
    | some c => c :: lossyFrom (c.utf8Size - 1) rest
    | none => '\uFFFD' :: lossyFrom (invalidLength (x :: rest) - 1) rest

/-- `String::from_utf8_lossy`. -/
def fromUtf8Lossy (b : Bytes) : Text := lossyFrom 0 b

theorem decodeChar_encode (c : Char) (b : Bytes) :
    decodeChar (String.utf8EncodeChar c ++ b) = some c := by
  rw [decodeChar, List.toByteArray_append]
  exact ByteArray.utf8DecodeChar?_utf8EncodeChar_append

theorem eq_of_decodeChar {b : Bytes} {c : Char} (h : decodeChar b = some c) :
    ∃ rest, b = String.utf8EncodeChar c ++ rest := by
  obtain ⟨rest, hrest⟩ := ByteArray.exists_of_utf8DecodeChar?_eq_some h
  refine ⟨rest.data.toList, List.toByteArray_inj.1 ?_⟩
  have hbytes : rest.data.toList.toByteArray = rest := by
    ext1
    simp
  rw [hrest, List.toByteArray_append, hbytes]

theorem lossyFrom_append (l b : Bytes) : lossyFrom l.length (l ++ b) = fromUtf8Lossy b := by
  induction l with
  | nil => rfl
  | cons x l ih => exact ih

theorem fromUtf8Lossy_encode (c : Char) (b : Bytes) :
    fromUtf8Lossy (String.utf8EncodeChar c ++ b) = c :: fromUtf8Lossy b := by
  have hlen := String.length_utf8EncodeChar c
  have hpos := c.utf8Size_pos
  have hdec := decodeChar_encode c b
  cases hc : String.utf8EncodeChar c with
  | nil =>
    rw [hc, List.length_nil] at hlen
    omega
  | cons x l =>
    rw [hc] at hlen hdec
    have hl : c.utf8Size - 1 = l.length := by
      rw [← hlen]
      rfl
    rw [List.cons_append] at hdec ⊢
    rw [fromUtf8Lossy, lossyFrom, hdec]
    simp only [hl, lossyFrom_append]

/-- Valid UTF-8 is read as it is. -/
theorem fromUtf8Lossy_text (t : Text) : fromUtf8Lossy (t.flatMap String.utf8EncodeChar) = t := by
  induction t with
  | nil => rfl
  | cons c t ih => rw [List.flatMap_cons, fromUtf8Lossy_encode, ih]

/-! ## Weights -/

/-- The sum of the weights of the characters. -/
def weight (f : Char → ℕ) (t : Text) : ℕ := (t.map f).sum

/-- The weight of the ASCII characters among the bytes. -/
def byteWeight (f : Char → ℕ) (b : Bytes) : ℕ :=
  (b.map fun x => if x.toNat < 128 then f (Char.ofNat x.toNat) else 0).sum

variable {f g : Char → ℕ}

@[simp] theorem weight_nil : weight f [] = 0 := rfl
@[simp] theorem weight_cons (c : Char) (t : Text) : weight f (c :: t) = f c + weight f t := by
  simp [weight]
@[simp] theorem weight_append (s t : Text) : weight f (s ++ t) = weight f s + weight f t := by
  simp [weight]
@[simp] theorem byteWeight_nil : byteWeight f [] = 0 := rfl
@[simp] theorem byteWeight_cons (x : UInt8) (b : Bytes) :
    byteWeight f (x :: b) = (if x.toNat < 128 then f (Char.ofNat x.toNat) else 0) + byteWeight f b := by
  simp [byteWeight]
@[simp] theorem byteWeight_append (b c : Bytes) :
    byteWeight f (b ++ c) = byteWeight f b + byteWeight f c := by
  simp [byteWeight]

theorem byteWeight_encodeChar (hf : ∀ c : Char, 128 ≤ c.toNat → f c = 0) (c : Char) :
    byteWeight f (String.utf8EncodeChar c) = f c := by
  by_cases hc : c.toNat < 128
  · have hle : c.val.toNat ≤ 127 := by
      change c.toNat ≤ 127
      omega
    have hbyte : (UInt8.ofNat c.val.toNat).toNat = c.toNat := by
      simp only [UInt8.toNat_ofNat']
      exact Nat.mod_eq_of_lt (by omega)
    rw [utf8EncodeChar_ascii hle, byteWeight_cons, byteWeight_nil, hbyte, if_pos hc, Char.ofNat_toNat]
    rfl
  · rw [hf c (by omega)]
    have hv : ¬ c.val.toNat ≤ 127 := by
      change ¬ c.toNat ≤ 127
      omega
    -- every byte of a longer sequence is at least 128
    have hbyte : ∀ m k : ℕ, 128 ≤ k → m + k < 256 → ¬ (UInt8.ofNat (m + k)).toNat < 128 := by
      intro m k hk hlt
      simp only [UInt8.toNat_ofNat']
      rw [Nat.mod_eq_of_lt (by omega)]
      omega
    simp only [String.utf8EncodeChar, if_neg hv]
    split
    · simp only [byteWeight_cons, byteWeight_nil]
      rw [if_neg (hbyte _ _ (by omega) (by omega)), if_neg (hbyte _ _ (by omega) (by omega))]
    split
    · simp only [byteWeight_cons, byteWeight_nil]
      rw [if_neg (hbyte _ _ (by omega) (by omega)), if_neg (hbyte _ _ (by omega) (by omega)),
        if_neg (hbyte _ _ (by omega) (by omega))]
    · simp only [byteWeight_cons, byteWeight_nil]
      rw [if_neg (hbyte _ _ (by omega) (by omega)), if_neg (hbyte _ _ (by omega) (by omega)),
        if_neg (hbyte _ _ (by omega) (by omega)), if_neg (hbyte _ _ (by omega) (by omega))]

/-- Decoding adds no ASCII character. -/
theorem weight_lossyFrom_le (hf : ∀ c : Char, 128 ≤ c.toNat → f c = 0) (n : ℕ) (b : Bytes) :
    weight f (lossyFrom n b) ≤ byteWeight f b := by
  induction b generalizing n with
  | nil => simp [lossyFrom]
  | cons x rest ih =>
    cases n with
    | succ n =>
      rw [lossyFrom, byteWeight_cons]
      exact (ih n).trans (Nat.le_add_left _ _)
    | zero =>
      rw [lossyFrom]
      split
      · rename_i c hc
        have hle := ih (c.utf8Size - 1)
        obtain ⟨tail, htail⟩ := eq_of_decodeChar hc
        rw [weight_cons, byteWeight_cons]
        by_cases hascii : c.toNat < 128
        · -- an ASCII character is its own byte
          have hsize : String.utf8EncodeChar c = [UInt8.ofNat c.toNat] :=
            utf8EncodeChar_ascii (by change c.toNat ≤ 127; omega)
          rw [hsize, List.singleton_append] at htail
          obtain ⟨rfl, -⟩ := List.cons.inj htail
          have hbyte : (UInt8.ofNat c.toNat).toNat = c.toNat := by
            simp only [UInt8.toNat_ofNat']
            exact Nat.mod_eq_of_lt (by omega)
          rw [hbyte, if_pos hascii, Char.ofNat_toNat]
          omega
        · rw [hf c (by omega)]
          omega
      · have hle := ih (invalidLength (x :: rest) - 1)
        rw [weight_cons, byteWeight_cons, hf '\uFFFD' (by decide)]
        omega

/-! ## Percent coding -/

/-- The byte that three bytes encode, if they are an escape. -/
def escaped (x h l : UInt8) : Option UInt8 :=
  if x = 37 then
    match hexVal h 0, hexVal l 0 with
    | .ok a, .ok b => some (a * 16 + b)
    | _, _ => none
  else none

def percentDecode : Bytes → Bytes
  | x :: h :: l :: rest =>
    match escaped x h l with
    | some v => v :: percentDecode rest
    | none => x :: percentDecode (h :: l :: rest)
  | b => b

def upperDigit (n : UInt8) : UInt8 := if n < 10 then 48 + n else 55 + n

def percentEncode (b : Bytes) : Bytes :=
  b.flatMap fun x => [37, upperDigit (x / 16), upperDigit (x % 16)]

def plusToSpace (b : Bytes) : Bytes := b.map fun x => if x = 43 then 32 else x

/-- The text of a key or value. -/
def readText (b : Bytes) : Text := fromUtf8Lossy (percentDecode (plusToSpace b))

theorem percentDecode_cons_ne {x : UInt8} (h : x ≠ 37) (b : Bytes) :
    percentDecode (x :: b) = x :: percentDecode b := by
  match b with
  | [] => rfl
  | [_] => rfl
  | y :: z :: rest => simp [percentDecode, escaped, h]

theorem upperDigit_spec (n : UInt8) (h : n < 16) :
    hexVal (upperDigit n) 0 = .ok n ∧ upperDigit n ≠ 43 ∧ upperDigit n ≠ 38 ∧ upperDigit n ≠ 61 ∧
      (upperDigit n).toNat ≤ 127 := by
  have hbyte : ∀ n : UInt8, n < 16 → (hexVal (upperDigit n) 0).toOption = some n ∧
      upperDigit n ≠ 43 ∧ upperDigit n ≠ 38 ∧ upperDigit n ≠ 61 ∧ (upperDigit n).toNat ≤ 127 :=
    forall_byte (by decide +kernel)
  obtain ⟨hval, hrest⟩ := hbyte n h
  refine ⟨?_, hrest⟩
  cases hv : hexVal (upperDigit n) 0 with
  | error e => rw [hv] at hval; cases hval
  | ok v => rw [hv] at hval; cases hval; rfl

theorem percentDecode_encodeByte (x : UInt8) (b : Bytes) :
    percentDecode (37 :: upperDigit (x / 16) :: upperDigit (x % 16) :: b) = x :: percentDecode b := by
  have hesc : escaped 37 (upperDigit (x / 16)) (upperDigit (x % 16)) = some x := by
    simp only [escaped, if_true, (upperDigit_spec _ (high_lt x)).1, (upperDigit_spec _ (low_lt x)).1,
      high_low]
  rw [percentDecode, hesc]

theorem percentDecode_encode (c b : Bytes) :
    percentDecode (percentEncode c ++ b) = c ++ percentDecode b := by
  induction c with
  | nil => rfl
  | cons x c ih =>
    change percentDecode (37 :: upperDigit (x / 16) :: upperDigit (x % 16) :: (percentEncode c ++ b)) = _
    rw [percentDecode_encodeByte, ih]
    rfl

theorem mem_percentEncode {c : Bytes} {y : UInt8} (h : y ∈ percentEncode c) :
    y = 37 ∨ ∃ n : UInt8, n < 16 ∧ y = upperDigit n := by
  simp only [percentEncode, List.mem_flatMap, List.mem_cons, List.not_mem_nil, or_false] at h
  obtain ⟨x, -, rfl | rfl | rfl⟩ := h
  · exact Or.inl rfl
  · exact Or.inr ⟨_, high_lt x, rfl⟩
  · exact Or.inr ⟨_, low_lt x, rfl⟩

theorem plusToSpace_percentEncode (c : Bytes) : plusToSpace (percentEncode c) = percentEncode c := by
  have hid : ∀ y ∈ percentEncode c, (if y = 43 then 32 else y) = y := by
    intro y hy
    refine if_neg ?_
    rcases mem_percentEncode hy with rfl | ⟨n, hn, rfl⟩
    · decide
    · exact (upperDigit_spec n hn).2.1
  calc plusToSpace (percentEncode c)
      = (percentEncode c).map id := List.map_congr_left hid
    _ = percentEncode c := List.map_id _

@[simp] theorem plusToSpace_append (b c : Bytes) :
    plusToSpace (b ++ c) = plusToSpace b ++ plusToSpace c := List.map_append

/-! ## What a URL stores for a query -/

/-- The bytes of a URL's query: `legal` characters stand for themselves, the
    others are percent-encoded, but for some control characters that a URL
    may drop. -/
structure QuerySet where
  legal : Char → Bool
  dropped : Char → Bool
  legal_ascii : ∀ c, legal c = true → c.toNat < 128
  legal_marks : ∀ c ∈ ['%', '&', '=', '+'], legal c = true
  legal_digit : ∀ c, c.isAlphanum = true → legal c = true
  dropped_control : ∀ c, dropped c = true → c ∈ ['\t', '\n', '\r']
  dropped_illegal : ∀ c, dropped c = true → legal c = false

def charByte (c : Char) : UInt8 := UInt8.ofNat c.toNat

theorem charByte_toNat {c : Char} (h : c.toNat < 128) : (charByte c).toNat = c.toNat := by
  simp only [charByte, UInt8.toNat_ofNat']
  exact Nat.mod_eq_of_lt (by omega)

theorem charByte_injOn {c d : Char} (hc : c.toNat < 128) (hd : d.toNat < 128)
    (h : charByte c = charByte d) : c = d := by
  have hnat := congrArg UInt8.toNat h
  rw [charByte_toNat hc, charByte_toNat hd] at hnat
  exact Char.toNat_inj.1 hnat

/-- The value of a hexadecimal digit. -/
def hexChar (c : Char) : Option UInt8 :=
  if c.toNat < 128 then (hexVal (charByte c) 0).toOption else none

namespace QuerySet

variable (Q : QuerySet)

def storeChar (c : Char) : Bytes :=
  if Q.dropped c then [] else if Q.legal c then [charByte c]
  else percentEncode (String.utf8EncodeChar c)

def store (t : Text) : Bytes := t.flatMap Q.storeChar

@[simp] theorem store_nil : Q.store [] = [] := rfl
@[simp] theorem store_cons (c : Char) (t : Text) : Q.store (c :: t) = Q.storeChar c ++ Q.store t := by
  simp [store]
@[simp] theorem store_append (s t : Text) : Q.store (s ++ t) = Q.store s ++ Q.store t := by
  simp [store]

end QuerySet

/-! ## Reading what is stored -/

theorem hexChar_spec {c : Char} {a : UInt8} (h : hexChar c = some a) :
    c.toNat < 128 ∧ c.isAlphanum = true ∧ hexVal (charByte c) 0 = .ok a := by
  unfold hexChar at h
  split at h
  · rename_i hc
    have hval : hexVal (charByte c) 0 = .ok a := by
      cases hv : hexVal (charByte c) 0 with
      | error e => rw [hv] at h; cases h
      | ok v => rw [hv] at h; cases h; rfl
    have hdigit : ∀ x : UInt8, (hexVal x 0).toOption.isSome = true →
        (Char.ofNat x.toNat).isAlphanum = true := forall_byte (by decide +kernel)
    have halnum := hdigit (charByte c) (by rw [h]; rfl)
    rw [charByte_toNat hc, Char.ofNat_toNat] at halnum
    exact ⟨hc, halnum, hval⟩
  · cases h

/-- The bytes that a text is read as: escapes and `+` undone. -/
def rawChar (c : Char) : Bytes := if c = '+' then [32] else String.utf8EncodeChar c

def escapedChars (c h l : Char) : Option UInt8 :=
  if c = '%' then
    match hexChar h, hexChar l with
    | some a, some b => some (a * 16 + b)
    | _, _ => none
  else none

def rawBytes : Text → Bytes
  | c :: h :: l :: rest =>
    match escapedChars c h l with
    | some v => v :: rawBytes rest
    | none => rawChar c ++ rawBytes (h :: l :: rest)
  | t => t.flatMap rawChar

theorem escapedChars_some {c h l : Char} {v : UInt8} (hv : escapedChars c h l = some v) :
    c = '%' ∧ ∃ a b, hexChar h = some a ∧ hexChar l = some b ∧ v = a * 16 + b := by
  unfold escapedChars at hv
  split at hv
  · rename_i hc
    split at hv
    · rename_i a b ha hb
      cases hv
      exact ⟨hc, a, b, ha, hb, rfl⟩
    · cases hv
  · cases hv

theorem escapedChars_none {h l : Char} (hv : escapedChars '%' h l = none) :
    hexChar h = none ∨ hexChar l = none := by
  unfold escapedChars at hv
  rw [if_pos rfl] at hv
  cases ha : hexChar h with
  | none => exact Or.inl rfl
  | some a =>
    cases hb : hexChar l with
    | none => exact Or.inr rfl
    | some b => rw [ha, hb] at hv; cases hv

namespace QuerySet

variable (Q : QuerySet) {t : Text}

/-- The characters that are not dropped. -/
def kept (t : Text) : Text := t.filter fun c => !Q.dropped c

theorem store_kept (t : Text) : Q.store (Q.kept t) = Q.store t := by
  induction t with
  | nil => rfl
  | cons c t ih =>
    cases hc : Q.dropped c with
    | true => simp [kept, storeChar, hc, ← ih]
    | false => simp [kept, hc, ← ih]

theorem not_dropped_of_mem_kept {c : Char} (h : c ∈ Q.kept t) : Q.dropped c = false := by
  simpa using (List.mem_filter.1 h).2

theorem not_dropped_of_legal {c : Char} (h : Q.legal c = true) : Q.dropped c = false := by
  cases hc : Q.dropped c with
  | false => rfl
  | true => rw [Q.dropped_illegal c hc] at h; cases h

theorem storeChar_legal {c : Char} (h : Q.legal c = true) : Q.storeChar c = [charByte c] := by
  rw [storeChar, Q.not_dropped_of_legal h, h]
  rfl

theorem storeChar_illegal {c : Char} (hd : Q.dropped c = false) (h : Q.legal c = false) :
    Q.storeChar c = percentEncode (String.utf8EncodeChar c) := by
  rw [storeChar, hd, h]
  rfl

theorem storeChar_hex {c : Char} {a : UInt8} (h : hexChar c = some a) : Q.storeChar c = [charByte c] :=
  Q.storeChar_legal (Q.legal_digit c (hexChar_spec h).2.1)

theorem storeChar_percent : Q.storeChar '%' = [37] := Q.storeChar_legal (Q.legal_marks _ (by simp))

theorem hexByte_ne_plus {x : UInt8} {a : UInt8} (h : hexVal x 0 = .ok a) : x ≠ 43 := by
  rintro rfl
  cases h

theorem plusToSpace_hex {c : Char} {a : UInt8} (h : hexChar c = some a) (b : Bytes) :
    plusToSpace (charByte c :: b) = charByte c :: plusToSpace b := by
  have hne := hexByte_ne_plus (hexChar_spec h).2.2
  simp [plusToSpace, hne]

/-- Any character but the percent sign is read by itself. -/
theorem percentDecode_storeChar {c : Char} (hd : Q.dropped c = false) (hc : c ≠ '%') (b : Bytes) :
    percentDecode (plusToSpace (Q.storeChar c ++ b)) = rawChar c ++ percentDecode (plusToSpace b) := by
  rw [plusToSpace_append]
  cases hl : Q.legal c with
  | false =>
    have hplus : c ≠ '+' := by
      rintro rfl
      rw [Q.legal_marks '+' (by simp)] at hl
      cases hl
    rw [Q.storeChar_illegal hd hl, plusToSpace_percentEncode, percentDecode_encode, rawChar,
      if_neg hplus]
  | true =>
    have hascii := Q.legal_ascii c hl
    have hne : charByte c ≠ 37 := fun h => hc (charByte_injOn hascii (by decide) h)
    rw [Q.storeChar_legal hl]
    by_cases hplus : c = '+'
    · subst hplus
      exact percentDecode_cons_ne (by decide) _
    · have hne' : charByte c ≠ 43 := fun h => hplus (charByte_injOn hascii (by decide) h)
      have hraw : rawChar c = [charByte c] := by
        rw [rawChar, if_neg hplus]
        exact utf8EncodeChar_ascii (by change c.toNat ≤ 127; omega)
      rw [hraw]
      simp only [plusToSpace, List.map_cons, List.map_nil, if_neg hne', List.singleton_append]
      exact percentDecode_cons_ne hne _

/-- What is stored for a character that is no digit does not begin with one. -/
theorem storeChar_front {c : Char} (hd : Q.dropped c = false) (hc : hexChar c = none) (b : Bytes) :
    ∃ y rest, plusToSpace (Q.storeChar c ++ b) = y :: rest ∧ (hexVal y 0).toOption = none := by
  cases hl : Q.legal c with
  | false =>
    rw [Q.storeChar_illegal hd hl, plusToSpace_append, plusToSpace_percentEncode]
    cases hu : String.utf8EncodeChar c with
    | nil =>
      have hlen := String.length_utf8EncodeChar c
      have hpos := c.utf8Size_pos
      rw [hu, List.length_nil] at hlen
      omega
    | cons x xs => exact ⟨37, _, rfl, by decide⟩
  | true =>
    rw [Q.storeChar_legal hl]
    by_cases hplus : charByte c = 43
    · rw [hplus]
      exact ⟨32, _, rfl, by decide⟩
    · refine ⟨charByte c, plusToSpace b, by simp [plusToSpace, hplus], ?_⟩
      rw [hexChar, if_pos (Q.legal_ascii c hl)] at hc
      exact hc

/-- A percent sign without two digits after it is read by itself. -/
theorem percentDecode_percent (hd : ∀ c ∈ t, Q.dropped c = false)
    (hno : ∀ h l rest, t = h :: l :: rest → hexChar h = none ∨ hexChar l = none) :
    percentDecode (plusToSpace (Q.store ('%' :: t))) = 37 :: percentDecode (plusToSpace (Q.store t)) := by
  have hcons : plusToSpace (Q.store ('%' :: t)) = 37 :: plusToSpace (Q.store t) := by
    rw [Q.store_cons, Q.storeChar_percent]
    rfl
  have hfront : ∀ (y : UInt8) (rest : Bytes), (hexVal y 0).toOption = none →
      percentDecode (37 :: y :: rest) = 37 :: percentDecode (y :: rest) := by
    intro y rest hy
    cases rest with
    | nil => rfl
    | cons z rest =>
      have hesc : escaped 37 y z = none := by
        unfold escaped
        rw [if_pos rfl]
        cases hv : hexVal y 0 with
        | error e => rfl
        | ok v => rw [hv] at hy; cases hy
      rw [percentDecode, hesc]
  rw [hcons]
  cases t with
  | nil => rfl
  | cons h t =>
    cases hh : hexChar h with
    | none =>
      obtain ⟨y, rest, heq, hy⟩ := Q.storeChar_front (hd h (by simp)) hh (Q.store t)
      rw [Q.store_cons, heq]
      exact hfront y rest hy
    | some a =>
      rw [Q.store_cons, Q.storeChar_hex hh, List.singleton_append, plusToSpace_hex hh]
      cases t with
      | nil => rfl
      | cons l rest =>
        have hl : hexChar l = none := (hno h l rest rfl).resolve_left (by rw [hh]; simp)
        obtain ⟨y, tail, heq, hy⟩ := Q.storeChar_front (hd l (by simp)) hl (Q.store rest)
        rw [Q.store_cons, heq]
        have hesc : escaped 37 (charByte h) y = none := by
          unfold escaped
          rw [if_pos rfl]
          cases hv : hexVal y 0 with
          | error e => cases hexVal (charByte h) 0 <;> rfl
          | ok v => rw [hv] at hy; cases hy
        rw [percentDecode, hesc]

theorem percentDecode_store (hd : ∀ c ∈ t, Q.dropped c = false) :
    percentDecode (plusToSpace (Q.store t)) = rawBytes t := by
  have hchar : ∀ c ∈ t, ∀ s, (∀ d ∈ s, Q.dropped d = false) →
      (c = '%' → ∀ h l rest, s = h :: l :: rest → hexChar h = none ∨ hexChar l = none) →
      percentDecode (plusToSpace (Q.store (c :: s))) = rawChar c ++ percentDecode (plusToSpace (Q.store s)) := by
    intro c hc s hs hno
    by_cases hp : c = '%'
    · subst hp
      exact Q.percentDecode_percent hs (hno rfl)
    · rw [Q.store_cons]
      exact Q.percentDecode_storeChar (hd c hc) hp _
  fun_induction rawBytes t with
  | case1 c h l rest v hv ih =>
    obtain ⟨rfl, a, b, ha, hb, rfl⟩ := escapedChars_some hv
    have hesc : escaped 37 (charByte h) (charByte l) = some (a * 16 + b) := by
      simp only [escaped, if_true, (hexChar_spec ha).2.2, (hexChar_spec hb).2.2]
    rw [Q.store_cons, Q.store_cons, Q.store_cons, Q.storeChar_percent, Q.storeChar_hex ha,
      Q.storeChar_hex hb]
    change percentDecode (plusToSpace (37 :: charByte h :: charByte l :: Q.store rest)) = _
    have hplus : plusToSpace (37 :: charByte h :: charByte l :: Q.store rest)
        = 37 :: charByte h :: charByte l :: plusToSpace (Q.store rest) := by
      rw [← plusToSpace_hex hb, ← plusToSpace_hex ha]
      rfl
    rw [hplus, percentDecode, hesc]
    simp only
    rw [ih (fun d hd' => hd d (by simp [hd'])) fun d hd' => hchar d (by simp [hd'])]
  | case2 c h l rest hv ih =>
    have htail : ∀ d ∈ h :: l :: rest, Q.dropped d = false := fun d hd' => hd d (List.mem_cons_of_mem _ hd')
    rw [hchar c (by simp) _ htail, ih htail fun d hd' => hchar d (List.mem_cons_of_mem _ hd')]
    rintro rfl h' l' rest' heq
    cases heq
    exact escapedChars_none hv
  | case3 t hshort =>
    match t, hshort with
    | [], _ => rfl
    | [c], _ =>
      rw [hchar c (by simp) [] (by simp) (by simp)]
      simp [plusToSpace, percentDecode]
    | [c, d], _ =>
      rw [hchar c (by simp) [d] (by simpa using hd d (by simp)) (by simp),
        hchar d (by simp) [] (by simp) (by simp)]
      simp [plusToSpace, percentDecode]
    | c :: d :: e :: rest, hshort => exact absurd rfl (hshort c d e rest)

theorem readText_store (t : Text) : readText (Q.store t) = fromUtf8Lossy (rawBytes (Q.kept t)) := by
  rw [readText, ← Q.store_kept, Q.percentDecode_store fun c hc => Q.not_dropped_of_mem_kept hc]

end QuerySet

/-! ## Plain text -/

/-- Some percent sign is followed by two digits. -/
def HasEscape (t : Text) : Prop :=
  ∃ s h l r, t = s ++ '%' :: h :: l :: r ∧ (hexChar h).isSome = true ∧ (hexChar l).isSome = true

theorem byteWeight_rawChar_le (hf : ∀ c : Char, 128 ≤ c.toNat → f c = 0) {c : Char}
    (hchar : c ≠ '+' → f c ≤ g c) (hplus : f ' ' ≤ g '+') : byteWeight f (rawChar c) ≤ g c := by
  unfold rawChar
  split
  · rename_i hc
    subst hc
    simpa using hplus
  · rename_i hc
    rw [byteWeight_encodeChar hf]
    exact hchar hc

theorem byteWeight_flatMap_rawChar_le (hf : ∀ c : Char, 128 ≤ c.toNat → f c = 0) {t : Text}
    (hchar : ∀ c ∈ t, c ≠ '+' → f c ≤ g c) (hplus : f ' ' ≤ g '+') :
    byteWeight f (t.flatMap rawChar) ≤ weight g t := by
  induction t with
  | nil => exact le_rfl
  | cons c t ih =>
    rw [List.flatMap_cons, byteWeight_append, weight_cons]
    exact Nat.add_le_add (byteWeight_rawChar_le hf (hchar c (by simp)) hplus)
      (ih fun d hd => hchar d (by simp [hd]))

/-- An escape weighs no more than its percent sign. -/
theorem byteWeight_rawBytes_le (hf : ∀ c : Char, 128 ≤ c.toNat → f c = 0) {t : Text}
    (hchar : ∀ c ∈ t, c ≠ '+' → f c ≤ g c) (hplus : f ' ' ≤ g '+') (hesc : ∀ c, f c ≤ g '%') :
    byteWeight f (rawBytes t) ≤ weight g t := by
  fun_induction rawBytes t with
  | case1 c h l rest v hv ih =>
    obtain ⟨rfl, -⟩ := escapedChars_some hv
    have hrest := ih fun d hd => hchar d (by simp [hd])
    have hval : (if v.toNat < 128 then f (Char.ofNat v.toNat) else 0) ≤ g '%' := by
      split
      · exact hesc _
      · exact Nat.zero_le _
    simp only [byteWeight_cons, weight_cons]
    omega
  | case2 c h l rest hv ih =>
    rw [byteWeight_append, weight_cons]
    exact Nat.add_le_add (byteWeight_rawChar_le hf (hchar c (by simp)) hplus)
      (ih fun d hd => hchar d (List.mem_cons_of_mem _ hd))
  | case3 t hshort => exact byteWeight_flatMap_rawChar_le hf hchar hplus

/-- Whether a character is ASCII, as a weight. -/
def asciiOne (c : Char) : ℕ := if c.toNat < 128 then 1 else 0

/-- Whether a character is the given one, as a weight. -/
def one (d c : Char) : ℕ := if c = d then 1 else 0

theorem weight_one (d : Char) (t : Text) : weight (one d) t = t.count d := by
  induction t with
  | nil => rfl
  | cons c t ih =>
    rw [weight_cons, ih, List.count_cons, one, Nat.add_comm]
    simp

theorem weight_add (f g : Char → ℕ) (t : Text) :
    weight (fun c => f c + g c) t = weight f t + weight g t := by
  induction t with
  | nil => rfl
  | cons c t ih =>
    simp only [weight_cons, ih]
    omega

/-- An escape weighs less than its three characters. -/
theorem asciiWeight_rawBytes_lt {t : Text} (h : HasEscape t) :
    byteWeight asciiOne (rawBytes t) < weight asciiOne t := by
  have hf : ∀ c : Char, 128 ≤ c.toNat → asciiOne c = 0 := fun c hc => if_neg (by omega)
  have hone : ∀ c, asciiOne c ≤ 1 := by
    intro c
    unfold asciiOne
    split <;> omega
  obtain ⟨s, h', l', r, hs, hh, hl⟩ := h
  fun_induction rawBytes t generalizing s with
  | case1 c h l rest v hv ih =>
    obtain ⟨rfl, a, b, ha, hb, rfl⟩ := escapedChars_some hv
    have hrest := byteWeight_rawBytes_le hf (t := rest) (fun c _ _ => le_rfl) (by decide) hone
    have hval : (if (a * 16 + b).toNat < 128 then asciiOne (Char.ofNat (a * 16 + b).toNat) else 0) ≤ 1 := by
      split
      · exact hone _
      · omega
    have hh1 : asciiOne h = 1 := if_pos (hexChar_spec ha).1
    have hl1 : asciiOne l = 1 := if_pos (hexChar_spec hb).1
    have hp1 : asciiOne '%' = 1 := rfl
    simp only [byteWeight_cons, weight_cons]
    omega
  | case2 c h l rest hv ih =>
    cases s with
    | nil =>
      cases hs
      rcases escapedChars_none hv with hno | hno
      · rw [hno] at hh
        cases hh
      · rw [hno] at hl
        cases hl
    | cons d s =>
      obtain ⟨rfl, htl⟩ := List.cons.inj hs
      have hhead := byteWeight_rawChar_le hf (c := c) (g := asciiOne) (fun _ => le_rfl) (by decide)
      have htail := ih s htl
      rw [byteWeight_append, weight_cons]
      omega
  | case3 t hshort =>
    match s with
    | [] => exact (hshort _ _ _ _ hs).elim
    | [_] => exact (hshort _ _ _ _ hs).elim
    | [_, _] => exact (hshort _ _ _ _ hs).elim
    | _ :: _ :: _ :: _ => exact (hshort _ _ _ _ hs).elim

theorem rawBytes_of_not_hasEscape {t : Text} (h : ¬ HasEscape t) : rawBytes t = t.flatMap rawChar := by
  fun_induction rawBytes t with
  | case1 c h' l' rest v hv ih =>
    obtain ⟨rfl, a, b, ha, hb, rfl⟩ := escapedChars_some hv
    exact absurd ⟨[], h', l', rest, rfl, by rw [ha]; rfl, by rw [hb]; rfl⟩ h
  | case2 c h' l' rest hv ih =>
    rw [ih ?_]
    · rfl
    · rintro ⟨s, a, b, r, hs, ha, hb⟩
      exact h ⟨c :: s, a, b, r, by rw [hs]; rfl, ha, hb⟩
  | case3 t hshort => rfl

namespace QuerySet

variable (Q : QuerySet) {t : Text}

/-- A text that is stored and read as it is: no separator `&`, no `+`, no
    escape, nothing that is dropped. -/
structure PlainText (t : Text) : Prop where
  no_amp : '&' ∉ t
  no_plus : '+' ∉ t
  no_escape : ¬ HasEscape t
  no_dropped : ∀ c ∈ t, Q.dropped c = false

theorem kept_eq (h : ∀ c ∈ t, Q.dropped c = false) : Q.kept t = t :=
  List.filter_eq_self.2 fun c hc => by rw [h c hc]; rfl

theorem readText_store_plain (h : Q.PlainText t) : readText (Q.store t) = t := by
  have hraw : ∀ c ∈ t, rawChar c = String.utf8EncodeChar c := by
    intro c hc
    refine if_neg ?_
    rintro rfl
    exact h.no_plus hc
  rw [Q.readText_store, Q.kept_eq h.no_dropped, rawBytes_of_not_hasEscape h.no_escape,
    List.flatMap_congr hraw, fromUtf8Lossy_text]

theorem weight_kept_le (t : Text) : weight g (Q.kept t) ≤ weight g t := by
  induction t with
  | nil => exact le_rfl
  | cons c t ih =>
    unfold kept at ih ⊢
    rw [List.filter_cons]
    split <;> simp only [weight_cons] <;> omega

theorem weight_readText_le (hf : ∀ c : Char, 128 ≤ c.toNat → f c = 0) (t : Text)
    (hchar : ∀ c, Q.dropped c = false → c ≠ '+' → f c ≤ g c) (hplus : f ' ' ≤ g '+')
    (hesc : ∀ c, f c ≤ g '%') : weight f (readText (Q.store t)) ≤ weight g t := by
  rw [Q.readText_store]
  calc weight f (fromUtf8Lossy (rawBytes (Q.kept t)))
      ≤ byteWeight f (rawBytes (Q.kept t)) := weight_lossyFrom_le hf 0 _
    _ ≤ weight g (Q.kept t) :=
        byteWeight_rawBytes_le hf (fun c hc => hchar c (Q.not_dropped_of_mem_kept hc)) hplus hesc
    _ ≤ weight g t := Q.weight_kept_le t

theorem one_add_one_le {d : Char} (hp : d ≠ '%') (c : Char) : one d c + one '%' c ≤ 1 := by
  by_cases hcd : c = d
  · subst hcd
    simp [one, hp]
  · simp only [one, if_neg hcd]
    split <;> omega

theorem one_add_one_eq_zero {d c : Char} (hd : d.toNat < 128) (hc : 128 ≤ c.toNat) :
    one d c + one '%' c = 0 := by
  have hcd : c ≠ d := by rintro rfl; omega
  have hcp : c ≠ '%' := by rintro rfl; exact absurd hc (by decide)
  simp [one, hcd, hcp]

/-- A mark is read from a mark or from an escape. -/
theorem count_readText_le {d : Char} (hd : d.toNat < 128) (hp : d ≠ '%') (hs : d ≠ ' ') (t : Text) :
    (readText (Q.store t)).count d + (readText (Q.store t)).count '%' ≤ t.count d + t.count '%' := by
  have hle := Q.weight_readText_le (f := fun c => one d c + one '%' c)
    (g := fun c => one d c + one '%' c) (fun c hc => one_add_one_eq_zero hd hc) t
    (fun c _ _ => le_rfl) ?_ ?_
  · simpa only [weight_add, weight_one] using hle
  · simp [one, hs.symm]
  · intro c
    have hc := one_add_one_le hp c
    have hself : one '%' '%' = 1 := rfl
    omega

/-- A `+` is read from an escape only, and so is what is dropped. -/
theorem not_mem_of_readText {d : Char} (hd : d = '+' ∨ Q.dropped d = true)
    (h : readText (Q.store t) = t) : d ∉ t := by
  have hmark : d.toNat < 128 ∧ d ≠ '%' ∧ d ≠ ' ' := by
    rcases hd with rfl | hd
    · decide
    · have hc := Q.dropped_control d hd
      simp only [List.mem_cons, List.not_mem_nil, or_false] at hc
      rcases hc with rfl | rfl | rfl <;> decide
  have hle := Q.weight_readText_le (f := fun c => one d c + one '%' c) (g := one '%')
    (fun c hc => one_add_one_eq_zero hmark.1 hc) t (fun c hc hplus => ?_) ?_
    fun c => one_add_one_le hmark.2.1 c
  · rw [h, weight_add, weight_one, weight_one] at hle
    exact List.count_eq_zero.1 (by omega)
  · have hcd : c ≠ d := by
      rintro rfl
      rcases hd with rfl | hd
      · exact hplus rfl
      · rw [hd] at hc
        cases hc
    simp [one, hcd]
  · have := hmark.2.2
    simp [one, this.symm]

/-- A text that is read as itself is plain. -/
theorem plainText_of_fixed (hamp : '&' ∉ t) (h : readText (Q.store t) = t) : Q.PlainText t := by
  have hdropped : ∀ c ∈ t, Q.dropped c = false := by
    intro c hc
    by_contra hd
    exact Q.not_mem_of_readText (Or.inr (by simpa using hd)) h hc
  refine ⟨hamp, Q.not_mem_of_readText (Or.inl rfl) h, ?_, hdropped⟩
  intro hesc
  have hf : ∀ c : Char, 128 ≤ c.toNat → asciiOne c = 0 := fun c hc => if_neg (by omega)
  have hlt := asciiWeight_rawBytes_lt hesc
  have hle := weight_lossyFrom_le hf 0 (rawBytes t)
  have hread : lossyFrom 0 (rawBytes t) = t := by
    rw [← Q.kept_eq hdropped, ← fromUtf8Lossy, ← Q.readText_store, Q.kept_eq hdropped, h]
  rw [hread] at hle
  omega

end QuerySet

end Lib
