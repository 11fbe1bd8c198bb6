/-
  Compact JSON text: a writer and a reader.

  Strings use the escapes of RFC 8259 that a compact writer needs (the quote,
  the backslash, the control characters); numbers are written exactly, with a
  decimal point when they are not integers.  `parse_render` is the round trip.
-/
import OpenAgentGraph.Lib.Bytes
import OpenAgentGraph.Lib.Json

namespace Lib.JsonText

/-! ## Digits -/

def digitChar (d : ℕ) : Char := Char.ofNat (48 + d)

def isDigit (c : Char) : Bool := decide (48 ≤ c.toNat) && decide (c.toNat ≤ 57)

/-- The value of a list of decimal digits. -/
def readNat (cs : List Char) : ℕ := cs.foldl (fun acc c => 10 * acc + (c.toNat - 48)) 0

/-- The decimal digits of a number. -/
def natChars (n : ℕ) : List Char :=
  if n = 0 then ['0'] else ((Nat.digits 10 n).reverse).map digitChar

/-- The last `k` decimal digits of a number. -/
def padChars : ℕ → ℕ → List Char
  | 0, _ => []
  | k + 1, n => padChars k (n / 10) ++ [digitChar (n % 10)]

theorem digitChar_toNat {d : ℕ} (h : d < 10) : (digitChar d).toNat = 48 + d := by
  have hv : (48 + d).isValidChar := Or.inl (by omega)
  simp [digitChar, Char.toNat_ofNat, hv]

theorem isDigit_digitChar {d : ℕ} (h : d < 10) : isDigit (digitChar d) = true := by
  have hd := digitChar_toNat h
  simp [isDigit, hd]
  omega

theorem readNat_snoc (cs : List Char) (c : Char) :
    readNat (cs ++ [c]) = 10 * readNat cs + (c.toNat - 48) := by
  simp [readNat]

theorem readNat_natChars (n : ℕ) : readNat (natChars n) = n := by
  unfold natChars
  split
  · rename_i h; rw [h]; rfl
  · have hdigits : ∀ d ∈ Nat.digits 10 n, d < 10 := fun d hd => Nat.digits_lt_base (by omega) hd
    conv_rhs => rw [← Nat.ofDigits_digits 10 n]
    generalize Nat.digits 10 n = l at hdigits
    induction l with
    | nil => rfl
    | cons d l ih =>
      have hd := digitChar_toNat (hdigits d (List.mem_cons_self ..))
      rw [List.reverse_cons, List.map_append, List.map_singleton, readNat_snoc,
        ih fun e he => hdigits e (List.mem_cons_of_mem _ he), hd, Nat.ofDigits_cons]
      omega

theorem readNat_append_padChars (cs : List Char) (k n : ℕ) :
    readNat (cs ++ padChars k n) = readNat cs * 10 ^ k + n % 10 ^ k := by
  induction k generalizing n with
  | zero => simp [padChars, Nat.mod_one]
  | succ k ih =>
    have hd := digitChar_toNat (Nat.mod_lt n (by omega : 0 < 10))
    rw [padChars, ← List.append_assoc, readNat_snoc, ih, hd]
    have hmod : n % 10 ^ (k + 1) = 10 * (n / 10 % 10 ^ k) + n % 10 := by
      rw [pow_succ', Nat.mod_mul]
      omega
    rw [hmod, pow_succ]
    ring_nf
    omega

theorem padChars_digits (k n : ℕ) : ∀ c ∈ padChars k n, isDigit c = true := by
  induction k generalizing n with
  | zero => intro c hc; cases hc
  | succ k ih =>
    intro c hc
    rcases List.mem_append.1 hc with hc | hc
    · exact ih _ c hc
    · obtain rfl : c = _ := List.mem_singleton.1 hc
      exact isDigit_digitChar (Nat.mod_lt _ (by omega))

theorem length_padChars (k n : ℕ) : (padChars k n).length = k := by
  induction k generalizing n with
  | zero => rfl
  | succ k ih => simp [padChars, ih]

theorem natChars_digits (n : ℕ) : ∀ c ∈ natChars n, isDigit c = true := by
  intro c hc
  unfold natChars at hc
  split at hc
  · obtain rfl : c = '0' := List.mem_singleton.1 hc
    decide
  · obtain ⟨d, hd, rfl⟩ := List.mem_map.1 hc
    exact isDigit_digitChar (Nat.digits_lt_base (by omega) (List.mem_reverse.1 hd))

theorem natChars_ne_nil (n : ℕ) : natChars n ≠ [] := by
  unfold natChars
  split
  · simp
  · rename_i h
    simp [Nat.digits_ne_nil_iff_ne_zero.2 h]

/-! ## Numbers -/

/-- A number of the form `± m / 10 ^ k`, with its decimal point. -/
def decimalChars (m k : ℕ) : List Char :=
  natChars (m / 10 ^ k) ++ if k = 0 then [] else '.' :: padChars k m

/-- The exact decimal text of a number: its denominator is a power of two. -/
def numberChars (n : Number) : List Char :=
  let k := n.val.den.log2
  let m := n.val.num.natAbs * 5 ^ k
  if n.val.num < 0 then '-' :: decimalChars m k else decimalChars m k

/-- Digits, with a fraction if a point follows: the value as `m / 10 ^ k`. -/
def parseDecimal (cs : List Char) : Option ((ℕ × ℕ) × List Char) :=
  let ds := cs.takeWhile isDigit
  if ds.isEmpty then none
  else
    match cs.dropWhile isDigit with
    | '.' :: rest =>
      let fs := rest.takeWhile isDigit
      if fs.isEmpty then none
      else some ((readNat (ds ++ fs), fs.length), rest.dropWhile isDigit)
    | rest => some ((readNat ds, 0), rest)

def mkNumber (neg : Bool) (m k : ℕ) : Option Number :=
  let q : ℚ := (m : ℚ) / 10 ^ k
  let v := if neg then -q else q
  if h : isNumber v = true then some ⟨v, h⟩ else none

def parseNumber : List Char → Option (Number × List Char)
  | '-' :: cs => do
    let ((m, k), rest) ← parseDecimal cs
    return (← mkNumber true m k, rest)
  | cs => do
    let ((m, k), rest) ← parseDecimal cs
    return (← mkNumber false m k, rest)

/-- What may follow a value: nothing that would continue a number. -/
def Delim (rest : List Char) : Prop := ∀ c ∈ rest.head?, isDigit c = false ∧ c ≠ '.'

theorem takeWhile_digits {ds rest : List Char} (hds : ∀ c ∈ ds, isDigit c = true)
    (hrest : ∀ c ∈ rest.head?, isDigit c = false) :
    (ds ++ rest).takeWhile isDigit = ds ∧ (ds ++ rest).dropWhile isDigit = rest := by
  have htake : rest.takeWhile isDigit = [] ∧ rest.dropWhile isDigit = rest := by
    cases rest with
    | nil => exact ⟨rfl, rfl⟩
    | cons c cs =>
      have hc := hrest c rfl
      simp [hc]
  constructor
  · rw [List.takeWhile_append_of_pos hds, htake.1, List.append_nil]
  · rw [List.dropWhile_append_of_pos hds, htake.2]

theorem parseDecimal_decimalChars (m k : ℕ) {rest : List Char} (hrest : Delim rest) :
    parseDecimal (decimalChars m k ++ rest) = some ((m, k), rest) := by
  have hne : (natChars (m / 10 ^ k)).isEmpty = false := by
    simpa using natChars_ne_nil _
  unfold decimalChars
  by_cases hk : k = 0
  · subst hk
    obtain ⟨htake, hdrop⟩ := takeWhile_digits (natChars_digits (m / 10 ^ 0))
      (fun c hc => (hrest c hc).1)
    rw [if_pos rfl, List.append_nil, parseDecimal]
    simp only [htake, hdrop, hne, Bool.false_eq_true, if_false]
    have hval : readNat (natChars (m / 10 ^ 0)) = m := by rw [readNat_natChars]; simp
    split
    · rename_i rest' _
      exact absurd rfl (hrest '.' rfl).2
    · rw [hval]
  · rw [if_neg hk, List.append_assoc, List.cons_append]
    have hpoint : ∀ c ∈ ('.' :: (padChars k m ++ rest)).head?, isDigit c = false := by
      intro c hc
      cases hc
      decide
    obtain ⟨htake, hdrop⟩ := takeWhile_digits (natChars_digits (m / 10 ^ k)) hpoint
    obtain ⟨htake', hdrop'⟩ := takeWhile_digits (padChars_digits k m)
      (fun c hc => (hrest c hc).1)
    have hpad : (padChars k m).isEmpty = false := by
      rw [List.isEmpty_eq_false_iff, ← List.length_pos_iff, length_padChars]
      omega
    have hval : readNat (natChars (m / 10 ^ k) ++ padChars k m) = m := by
      rw [readNat_append_padChars, readNat_natChars]
      exact Nat.div_add_mod' m (10 ^ k)
    rw [parseDecimal]
    simp only [htake, hdrop, hne, htake', hdrop', hpad, Bool.false_eq_true, if_false, hval,
      length_padChars]

theorem den_eq_pow (n : Number) : n.val.den = 2 ^ n.val.den.log2 := by
  have h := n.valid
  unfold isNumber isBinary64 at h
  simp only [Bool.or_eq_true, Bool.and_eq_true, beq_iff_eq] at h
  rcases h with h | h
  · rw [h.1.1]; rfl
  · exact h.1.1.1

theorem decimal_value (n : Number) :
    ((n.val.num.natAbs * 5 ^ n.val.den.log2 : ℕ) : ℚ) / 10 ^ n.val.den.log2 = |n.val| := by
  have hden := den_eq_pow n
  have hq : |n.val| = (n.val.num.natAbs : ℚ) / n.val.den := by
    conv_lhs => rw [← Rat.num_div_den n.val]
    rw [abs_div]
    simp [Nat.cast_natAbs]
  have hcast : ((n.val.den : ℕ) : ℚ) = 2 ^ n.val.den.log2 := by
    conv_lhs => rw [hden]
    push_cast
    rfl
  rw [hq, hcast]
  have hten : (10 : ℚ) ^ n.val.den.log2 = 2 ^ n.val.den.log2 * 5 ^ n.val.den.log2 := by
    rw [← mul_pow]; norm_num
  rw [hten]
  push_cast
  field_simp

theorem mkNumber_eq (n : Number) : mkNumber (decide (n.val.num < 0))
    (n.val.num.natAbs * 5 ^ n.val.den.log2) n.val.den.log2 = some n := by
  have hval := decimal_value n
  have hsign : (if decide (n.val.num < 0) = true then -|n.val| else |n.val|) = n.val := by
    simp only [decide_eq_true_eq]
    split
    · rename_i h
      rw [abs_of_neg (Rat.num_neg.1 h), neg_neg]
    · rename_i h
      rw [abs_of_nonneg (Rat.num_nonneg.1 (not_lt.1 h))]
  unfold mkNumber
  simp only [hval, hsign]
  rw [dif_pos n.valid]

theorem decimalChars_ne_minus (m k : ℕ) (rest : List Char) :
    ∀ cs, decimalChars m k ++ rest ≠ '-' :: cs := by
  intro cs h
  unfold decimalChars at h
  cases hd : natChars (m / 10 ^ k) with
  | nil => exact natChars_ne_nil _ hd
  | cons c ds =>
    rw [hd] at h
    have hc := natChars_digits (m / 10 ^ k) c (by rw [hd]; exact List.mem_cons_self ..)
    simp only [List.cons_append, List.cons.injEq] at h
    rw [h.1] at hc
    exact absurd hc (by decide)

theorem parseNumber_numberChars (n : Number) {rest : List Char} (hrest : Delim rest) :
    parseNumber (numberChars n ++ rest) = some (n, rest) := by
  have hmk := mkNumber_eq n
  have hdec := parseDecimal_decimalChars (n.val.num.natAbs * 5 ^ n.val.den.log2) n.val.den.log2 hrest
  unfold numberChars
  by_cases hneg : n.val.num < 0
  · simp only [hneg, decide_true] at hmk
    simp only [hneg, if_true, List.cons_append, parseNumber, hdec, hmk, Option.bind_eq_bind,
      Option.bind_some, Option.pure_def]
  · simp only [hneg, decide_false] at hmk
    simp only [hneg, if_false]
    rw [parseNumber]
    · simp only [hdec, hmk, Option.bind_eq_bind, Option.bind_some, Option.pure_def]
    · exact fun cs h => decimalChars_ne_minus _ _ _ cs h

/-! ## Strings -/

def hexChar (n : ℕ) : Char := if n < 10 then Char.ofNat (48 + n) else Char.ofNat (87 + n)

def hexCharVal (c : Char) : Option ℕ :=
  let n := c.toNat
  if 48 ≤ n ∧ n ≤ 57 then some (n - 48)
  else if 97 ≤ n ∧ n ≤ 102 then some (n - 87)
  else if 65 ≤ n ∧ n ≤ 70 then some (n - 55)
  else none

/-- A character inside a string. -/
def escapeChar (c : Char) : List Char :=
  if c = '"' then ['\\', '"']
  else if c = '\\' then ['\\', '\\']
  else if c.toNat = 8 then ['\\', 'b']
  else if c.toNat = 9 then ['\\', 't']
  else if c.toNat = 10 then ['\\', 'n']
  else if c.toNat = 12 then ['\\', 'f']
  else if c.toNat = 13 then ['\\', 'r']
  else if c.toNat < 32 then ['\\', 'u', '0', '0', hexChar (c.toNat / 16), hexChar (c.toNat % 16)]
  else [c]

def escape (cs : List Char) : List Char := cs.flatMap escapeChar

/-- The character of a short escape. -/
def unescapeChar (c : Char) : Option Char :=
  if c = '"' then some '"'
  else if c = '\\' then some '\\'
  else if c = '/' then some '/'
  else if c = 'b' then some (Char.ofNat 8)
  else if c = 't' then some (Char.ofNat 9)
  else if c = 'n' then some (Char.ofNat 10)
  else if c = 'f' then some (Char.ofNat 12)
  else if c = 'r' then some (Char.ofNat 13)
  else none

/-- Reads up to the closing quote. -/
def parseString : List Char → Option (List Char × List Char)
  | '"' :: rest => some ([], rest)
  | '\\' :: 'u' :: a :: b :: c :: d :: rest => do
    let a ← hexCharVal a
    let b ← hexCharVal b
    let c ← hexCharVal c
    let d ← hexCharVal d
    let (cs, rest) ← parseString rest
    return (Char.ofNat (((a * 16 + b) * 16 + c) * 16 + d) :: cs, rest)
  | '\\' :: e :: rest => do
    let c ← unescapeChar e
    let (cs, rest) ← parseString rest
    return (c :: cs, rest)
  | c :: rest => do
    if c.toNat < 32 then none
    else
      let (cs, rest) ← parseString rest
      return (c :: cs, rest)
  | [] => none

/-- The short escapes. -/
theorem parseString_short {e c : Char} {rest cs tail : List Char} (he : e ≠ 'u')
    (hc : unescapeChar e = some c) (h : parseString rest = some (cs, tail)) :
    parseString ('\\' :: e :: rest) = some (c :: cs, tail) := by
  rw [parseString]
  · simp [hc, h]
  · intro a b c d rest' hu _
    exact he hu

theorem parseString_plain {c : Char} {rest cs tail : List Char} (hq : c ≠ '"') (hb : c ≠ '\\')
    (hc : ¬ c.toNat < 32) (h : parseString rest = some (cs, tail)) :
    parseString (c :: rest) = some (c :: cs, tail) := by
  rw [parseString]
  · simp [hc, h]
  · exact fun h => hq h
  · intro a b c' d rest' h _; exact hb h
  · intro e rest' h _; exact hb h

theorem hexCharVal_hexChar {n : ℕ} (h : n < 16) : hexCharVal (hexChar n) = some n := by
  have key : ∀ m : Fin 16, hexCharVal (hexChar m) = some m.val := by decide
  exact key ⟨n, h⟩

/-- A control character, written by its code. -/
theorem parseString_control {c : Char} {rest cs tail : List Char} (hc : c.toNat < 32)
    (h : parseString rest = some (cs, tail)) :
    parseString ('\\' :: 'u' :: '0' :: '0' :: hexChar (c.toNat / 16) :: hexChar (c.toNat % 16) ::
      rest) = some (c :: cs, tail) := by
  have h₀ : hexCharVal '0' = some 0 := by decide
  have h₁ := hexCharVal_hexChar (show c.toNat / 16 < 16 by omega)
  have h₂ := hexCharVal_hexChar (show c.toNat % 16 < 16 by omega)
  have hval : ((0 * 16 + 0) * 16 + c.toNat / 16) * 16 + c.toNat % 16 = c.toNat := by omega
  rw [parseString]
  simp only [h₀, h₁, h₂, h, Option.bind_eq_bind, Option.bind_some, Option.pure_def, hval,
    Char.ofNat_toNat]

theorem parseString_escapeChar {c : Char} {rest cs tail : List Char}
    (h : parseString rest = some (cs, tail)) :
    parseString (escapeChar c ++ rest) = some (c :: cs, tail) := by
  have hcode : ∀ n, c.toNat = n → c = Char.ofNat n := by
    rintro n rfl
    exact (Char.ofNat_toNat c).symm
  unfold escapeChar
  split
  · rename_i hq
    subst hq
    exact parseString_short (by decide) (by decide) h
  split
  · rename_i hb
    subst hb
    exact parseString_short (by decide) (by decide) h
  split
  · rename_i hn
    rw [hcode 8 hn]
    exact parseString_short (by decide) (by decide) h
  split
  · rename_i hn
    rw [hcode 9 hn]
    exact parseString_short (by decide) (by decide) h
  split
  · rename_i hn
    rw [hcode 10 hn]
    exact parseString_short (by decide) (by decide) h
  split
  · rename_i hn
    rw [hcode 12 hn]
    exact parseString_short (by decide) (by decide) h
  split
  · rename_i hn
    rw [hcode 13 hn]
    exact parseString_short (by decide) (by decide) h
  split
  · rename_i hc
    exact parseString_control hc h
  · rename_i hq hb _ _ _ _ _ hc
    exact parseString_plain hq hb hc h

theorem parseString_escape (cs rest : List Char) :
    parseString (escape cs ++ '"' :: rest) = some (cs, rest) := by
  induction cs with
  | nil => rw [escape, List.flatMap_nil, List.nil_append, parseString]
  | cons c cs ih =>
    rw [escape, List.flatMap_cons, List.append_assoc]
    exact parseString_escapeChar ih

/-! ## Values -/

def stringChars (s : String) : List Char := '"' :: (escape s.toList ++ ['"'])

mutual

/-- The compact text of a value. -/
def render : Json → List Char
  | .null => "null".toList
  | .bool true => "true".toList
  | .bool false => "false".toList
  | .num n => numberChars n
  | .str s => stringChars s
  | .arr xs => '[' :: (renderList xs ++ [']'])
  | .obj kvs => '\x7b' :: (renderFields kvs ++ ['\x7d'])

def renderList : List Json → List Char
  | [] => []
  | [x] => render x
  | x :: y :: xs => render x ++ ',' :: renderList (y :: xs)

def renderFields : List (String × Json) → List Char
  | [] => []
  | [(k, v)] => stringChars k ++ ':' :: render v
  | (k, v) :: kv :: kvs => stringChars k ++ ':' :: (render v ++ ',' :: renderFields (kv :: kvs))

end

mutual

/-- Reads a value; the first argument bounds the depth. -/
def parseValue : ℕ → List Char → Option (Json × List Char)
  | 0, _ => none
  | n + 1, cs =>
    match cs with
    | 'n' :: 'u' :: 'l' :: 'l' :: rest => some (.null, rest)
    | 't' :: 'r' :: 'u' :: 'e' :: rest => some (.bool true, rest)
    | 'f' :: 'a' :: 'l' :: 's' :: 'e' :: rest => some (.bool false, rest)
    | '"' :: rest => do
      let (s, rest) ← parseString rest
      return (.str (String.ofList s), rest)
    | '[' :: ']' :: rest => some (.arr [], rest)
    | '[' :: rest => do
      let (xs, rest) ← parseElems n rest
      return (.arr xs, rest)
    | '\x7b' :: '\x7d' :: rest => some (.obj [], rest)
    | '\x7b' :: rest => do
      let (kvs, rest) ← parseFields n rest
      return (.obj kvs, rest)
    | cs => do
      let (v, rest) ← parseNumber cs
      return (.num v, rest)

def parseElems : ℕ → List Char → Option (List Json × List Char)
  | 0, _ => none
  | n + 1, cs => do
    let (v, rest) ← parseValue n cs
    match rest with
    | ',' :: rest => do
      let (vs, rest) ← parseElems n rest
      return (v :: vs, rest)
    | ']' :: rest => some ([v], rest)
    | _ => none

def parseFields : ℕ → List Char → Option (List (String × Json) × List Char)
  | 0, _ => none
  | n + 1, cs =>
    match cs with
    | '"' :: cs => do
      let (k, rest) ← parseString cs
      match rest with
      | ':' :: rest => do
        let (v, rest) ← parseValue n rest
        match rest with
        | ',' :: rest => do
          let (kvs, rest) ← parseFields n rest
          return ((String.ofList k, v) :: kvs, rest)
        | '\x7d' :: rest => some ([(String.ofList k, v)], rest)
        | _ => none
      | _ => none
    | _ => none

end

/-! ## Round trip -/

mutual

/-- The depth that reading a value takes. -/
def cost : Json → ℕ
  | .arr xs => 1 + costList xs
  | .obj kvs => 1 + costFields kvs
  | .null => 1
  | .bool _ => 1
  | .num _ => 1
  | .str _ => 1

def costList : List Json → ℕ
  | [] => 0
  | x :: xs => 1 + cost x + costList xs

def costFields : List (String × Json) → ℕ
  | [] => 0
  | (_, v) :: kvs => 1 + cost v + costFields kvs

end

theorem delim_comma (rest : List Char) : Delim (',' :: rest) := by
  intro c hc; cases hc; decide

theorem delim_bracket (rest : List Char) : Delim (']' :: rest) := by
  intro c hc; cases hc; decide

theorem delim_brace (rest : List Char) : Delim ('\x7d' :: rest) := by
  intro c hc; cases hc; decide

/-- A number starts with a digit or a minus sign. -/
theorem numberChars_head (n : Number) :
    ∃ c cs, numberChars n = c :: cs ∧ (isDigit c = true ∨ c = '-') := by
  have hdec : ∀ m k, ∃ c cs, decimalChars m k = c :: cs ∧ isDigit c = true := by
    intro m k
    cases hd : natChars (m / 10 ^ k) with
    | nil => exact absurd hd (natChars_ne_nil _)
    | cons c cs =>
      have hc := natChars_digits (m / 10 ^ k) c (by rw [hd]; exact List.mem_cons_self ..)
      exact ⟨c, _, by rw [decimalChars, hd]; rfl, hc⟩
  unfold numberChars
  split
  · exact ⟨_, _, rfl, Or.inr rfl⟩
  · obtain ⟨c, cs, h, hc⟩ := hdec (n.val.num.natAbs * 5 ^ n.val.den.log2) n.val.den.log2
    exact ⟨c, cs, h, Or.inl hc⟩

/-- No value starts with a closing bracket. -/
theorem render_head (j : Json) : ∃ c cs, render j = c :: cs ∧ c ≠ ']' := by
  cases j with
  | null => exact ⟨'n', _, by rw [render]; rfl, by decide⟩
  | bool b =>
    cases b with
    | true => exact ⟨'t', _, by rw [render]; rfl, by decide⟩
    | false => exact ⟨'f', _, by rw [render]; rfl, by decide⟩
  | num n =>
    obtain ⟨c, cs, h, hc⟩ := numberChars_head n
    refine ⟨c, cs, by rw [render, h], ?_⟩
    rintro rfl
    rcases hc with hc | hc
    · exact absurd hc (by decide)
    · exact absurd hc (by decide)
  | str s => exact ⟨_, _, by rw [render, stringChars], by decide⟩
  | arr xs => exact ⟨_, _, by rw [render], by decide⟩
  | obj kvs => exact ⟨_, _, by rw [render], by decide⟩

theorem parseValue_number (n : ℕ) {c : Char} {cs : List Char} (hc : isDigit c = true ∨ c = '-') :
    parseValue (n + 1) (c :: cs) = (parseNumber (c :: cs)).map fun p => (.num p.1, p.2) := by
  have hne : ∀ d : Char, isDigit d = false → d ≠ '-' → c ≠ d := by
    rintro d hd hm rfl
    rcases hc with hc | hc
    · rw [hc] at hd; cases hd
    · exact hm hc
  rw [parseValue]
  · cases parseNumber (c :: cs) <;> rfl
  -- every other pattern starts with another character
  all_goals
    intro rest heq
    exact hne _ (by decide) (by decide) (List.cons.inj heq).1

theorem parseValue_array (n : ℕ) {c : Char} {cs : List Char} (hc : c ≠ ']') :
    parseValue (n + 1) ('[' :: c :: cs) = (parseElems n (c :: cs)).map fun p => (.arr p.1, p.2) := by
  rw [parseValue]
  · cases parseElems n (c :: cs) <;> rfl
  · intro rest h
    simp only [List.cons.injEq] at h
    exact hc h.1

theorem parseValue_object (n : ℕ) {c : Char} {cs : List Char} (hc : c ≠ '\x7d') :
    parseValue (n + 1) ('\x7b' :: c :: cs)
      = (parseFields n (c :: cs)).map fun p => (.obj p.1, p.2) := by
  rw [parseValue]
  · cases parseFields n (c :: cs) <;> rfl
  · intro rest h
    simp only [List.cons.injEq] at h
    exact hc h.1

mutual

theorem parseValue_render : ∀ (j : Json) (n : ℕ) (rest : List Char), cost j ≤ n → Delim rest →
    parseValue n (render j ++ rest) = some (j, rest)
  | .null, n, rest, hn, _ => by
    obtain ⟨n, rfl⟩ : ∃ m, n = m + 1 := ⟨n - 1, by rw [cost] at hn; omega⟩
    rw [render]
    rfl
  | .bool true, n, rest, hn, _ => by
    obtain ⟨n, rfl⟩ : ∃ m, n = m + 1 := ⟨n - 1, by rw [cost] at hn; omega⟩
    rw [render]
    rfl
  | .bool false, n, rest, hn, _ => by
    obtain ⟨n, rfl⟩ : ∃ m, n = m + 1 := ⟨n - 1, by rw [cost] at hn; omega⟩
    rw [render]
    rfl
  | .num v, n, rest, hn, hrest => by
    obtain ⟨n, rfl⟩ : ∃ m, n = m + 1 := ⟨n - 1, by rw [cost] at hn; omega⟩
    have hnum := parseNumber_numberChars v hrest
    obtain ⟨c, cs, hcs, hc⟩ := numberChars_head v
    rw [render]
    rw [hcs, List.cons_append] at hnum ⊢
    rw [parseValue_number n hc, hnum]
    rfl
  | .str s, n, rest, hn, _ => by
    obtain ⟨n, rfl⟩ : ∃ m, n = m + 1 := ⟨n - 1, by rw [cost] at hn; omega⟩
    rw [render, stringChars, List.cons_append, List.append_assoc, List.singleton_append, parseValue]
    rw [parseString_escape]
    simp
  | .arr [], n, rest, hn, _ => by
    obtain ⟨n, rfl⟩ : ∃ m, n = m + 1 := ⟨n - 1, by rw [cost] at hn; omega⟩
    rw [render, renderList]
    rfl
  | .arr (x :: xs), n, rest, hn, _ => by
    obtain ⟨n, rfl⟩ : ∃ m, n = m + 1 := ⟨n - 1, by rw [cost] at hn; omega⟩
    rw [cost] at hn
    have hel := parseElems_render x xs n rest (by omega)
    rw [render, List.cons_append, List.append_assoc, List.singleton_append]
    obtain ⟨c, cs, hcs, hc⟩ : ∃ c cs, renderList (x :: xs) = c :: cs ∧ c ≠ ']' := by
      obtain ⟨c, cs, hcs, hc⟩ := render_head x
      cases xs with
      | nil => exact ⟨c, cs, by rw [renderList, hcs], hc⟩
      | cons y ys => exact ⟨c, _, by rw [renderList, hcs]; rfl, hc⟩
    rw [hcs, List.cons_append] at hel ⊢
    rw [parseValue_array n hc, hel]
    rfl
  | .obj [], n, rest, hn, _ => by
    obtain ⟨n, rfl⟩ : ∃ m, n = m + 1 := ⟨n - 1, by rw [cost] at hn; omega⟩
    rw [render, renderFields]
    rfl
  | .obj ((k, v) :: kvs), n, rest, hn, _ => by
    obtain ⟨n, rfl⟩ : ∃ m, n = m + 1 := ⟨n - 1, by rw [cost] at hn; omega⟩
    rw [cost] at hn
    have hel := parseFields_render k v kvs n rest (by omega)
    rw [render, List.cons_append, List.append_assoc, List.singleton_append]
    obtain ⟨cs, hcs⟩ : ∃ cs, renderFields ((k, v) :: kvs) = '"' :: cs := by
      cases kvs with
      | nil => exact ⟨_, by rw [renderFields, stringChars]; rfl⟩
      | cons kv kvs => exact ⟨_, by rw [renderFields, stringChars]; rfl⟩
    rw [hcs, List.cons_append] at hel ⊢
    rw [parseValue_object n (by decide), hel]
    rfl
termination_by _ n => n

theorem parseElems_render : ∀ (x : Json) (xs : List Json) (n : ℕ) (rest : List Char),
    costList (x :: xs) ≤ n → parseElems n (renderList (x :: xs) ++ ']' :: rest) = some (x :: xs, rest)
  | x, [], n, rest, hn => by
    rw [costList] at hn
    obtain ⟨n, rfl⟩ : ∃ m, n = m + 1 := ⟨n - 1, by omega⟩
    rw [renderList, parseElems, parseValue_render x n _ (by omega) (delim_bracket rest)]
    rfl
  | x, y :: ys, n, rest, hn => by
    rw [costList] at hn
    obtain ⟨n, rfl⟩ : ∃ m, n = m + 1 := ⟨n - 1, by omega⟩
    rw [renderList, List.append_assoc, List.cons_append, parseElems,
      parseValue_render x n _ (by omega) (delim_comma _)]
    simp only [Option.bind_eq_bind, Option.bind_some]
    rw [parseElems_render y ys n rest (by omega)]
    rfl
termination_by _ _ n => n

theorem parseFields_render : ∀ (k : String) (v : Json) (kvs : List (String × Json)) (n : ℕ)
    (rest : List Char), costFields ((k, v) :: kvs) ≤ n →
    parseFields n (renderFields ((k, v) :: kvs) ++ '\x7d' :: rest) = some ((k, v) :: kvs, rest)
  | k, v, [], n, rest, hn => by
    rw [costFields] at hn
    obtain ⟨n, rfl⟩ : ∃ m, n = m + 1 := ⟨n - 1, by omega⟩
    have hv := parseValue_render v n ('\x7d' :: rest) (by omega) (delim_brace rest)
    rw [renderFields, stringChars]
    simp only [List.cons_append, List.append_assoc, List.nil_append]
    rw [parseFields, parseString_escape]
    simp only [Option.bind_eq_bind, Option.bind_some, hv, String.ofList_toList]
  | k, v, (k', v') :: kvs, n, rest, hn => by
    rw [costFields] at hn
    obtain ⟨n, rfl⟩ : ∃ m, n = m + 1 := ⟨n - 1, by omega⟩
    have hv := fun r => parseValue_render v n (',' :: r) (by omega) (delim_comma r)
    have ih := parseFields_render k' v' kvs n rest (by omega)
    rw [renderFields, stringChars]
    simp only [List.cons_append, List.append_assoc, List.nil_append]
    rw [parseFields, parseString_escape]
    simp only [Option.bind_eq_bind, Option.bind_some, hv, ih, String.ofList_toList,
      Option.pure_def]
termination_by _ _ _ n => n

end

mutual

theorem cost_le_length : ∀ j : Json, cost j ≤ (render j).length
  | .null => by rw [cost, render]; decide
  | .bool true => by rw [cost, render]; decide
  | .bool false => by rw [cost, render]; decide
  | .num n => by
    obtain ⟨c, cs, h, -⟩ := numberChars_head n
    rw [cost, render, h, List.length_cons]
    omega
  | .str s => by rw [cost, render, stringChars, List.length_cons]; omega
  | .arr xs => by
    have := costList_le_length xs
    rw [cost, render, List.length_cons, List.length_append, List.length_singleton]
    omega
  | .obj kvs => by
    have := costFields_le_length kvs
    rw [cost, render, List.length_cons, List.length_append, List.length_singleton]
    omega

theorem costList_le_length : ∀ xs : List Json, costList xs ≤ (renderList xs).length + 1
  | [] => by rw [costList]; omega
  | [x] => by
    have := cost_le_length x
    rw [costList, costList, renderList]
    omega
  | x :: y :: xs => by
    have h₁ := cost_le_length x
    have h₂ := costList_le_length (y :: xs)
    rw [costList, renderList, List.length_append, List.length_cons]
    omega

theorem costFields_le_length : ∀ kvs : List (String × Json),
    costFields kvs ≤ (renderFields kvs).length + 1
  | [] => by rw [costFields]; omega
  | [(k, v)] => by
    have := cost_le_length v
    rw [costFields, costFields, renderFields, List.length_append, List.length_cons]
    omega
  | (k, v) :: (k', v') :: kvs => by
    have h₁ := cost_le_length v
    have h₂ := costFields_le_length ((k', v') :: kvs)
    rw [costFields, renderFields, List.length_append, List.length_cons, List.length_append,
      List.length_cons]
    omega

end

/-! ## Length -/

theorem length_le_renderList : ∀ xs : List Json,
    (xs.map fun x => (render x).length).sum ≤ (renderList xs).length
  | [] => by simp
  | [x] => by rw [renderList]; simp
  | x :: y :: xs => by
    have ih := length_le_renderList (y :: xs)
    rw [renderList, List.map_cons, List.sum_cons, List.length_append, List.length_cons]
    omega

theorem length_le_renderFields {k : String} {v : Json} : ∀ kvs : List (String × Json),
    (k, v) ∈ kvs → (render v).length ≤ (renderFields kvs).length
  | [], h => by cases h
  | [(k', v')], h => by
    obtain ⟨-, rfl⟩ := Prod.mk.inj (List.mem_singleton.1 h)
    rw [renderFields, List.length_append, List.length_cons]
    omega
  | (k', v') :: kv :: kvs, h => by
    rw [renderFields, List.length_append, List.length_cons, List.length_append, List.length_cons]
    rcases List.mem_cons.1 h with h | h
    · obtain ⟨-, rfl⟩ := Prod.mk.inj h
      omega
    · have ih := length_le_renderFields (kv :: kvs) h
      omega

theorem length_le_render_arr (xs : List Json) :
    (xs.map fun x => (render x).length).sum ≤ (render (.arr xs)).length := by
  have h := length_le_renderList xs
  rw [render, List.length_cons, List.length_append]
  omega

theorem length_le_render_obj {k : String} {v : Json} {kvs : List (String × Json)}
    (h : (k, v) ∈ kvs) : (render v).length ≤ (render (.obj kvs)).length := by
  have h := length_le_renderFields kvs h
  rw [render, List.length_cons, List.length_append]
  omega

/-- A text of `n` equal characters is at least `n` times as long as one, escaped. -/
theorem length_render_replicate (n : ℕ) (c : Char) :
    n * (escapeChar c).length ≤ (render (.str (String.ofList (List.replicate n c)))).length := by
  have hescape : (escape (List.replicate n c)).length = n * (escapeChar c).length := by
    rw [escape, List.length_flatMap, List.map_replicate, List.sum_replicate, smul_eq_mul]
  rw [render, stringChars, List.length_cons, List.length_append, String.toList_ofList, hescape]
  omega

/-- Reads a text that holds one value. -/
def parse (cs : List Char) : Option Json :=
  match parseValue (cs.length + 1) cs with
  | some (j, []) => some j
  | _ => none

/-- **Round trip.**  Reading the text of a value gives the value back. -/
theorem parse_render (j : Json) : parse (render j) = some j := by
  have hcost := cost_le_length j
  have h := parseValue_render j ((render j).length + 1) [] (by omega) (by intro c hc; cases hc)
  rw [List.append_nil] at h
  rw [parse, h]

end Lib.JsonText
