/-
  JSON values.

  A value is a tree; an object is written as a list of fields in any order.
  `canon` is the value a reader builds from it: the keys of every object in
  strictly ascending order, the last of several fields with one key kept.
  `JsonValue` is a tree that is its own `canon`.

  * `get?_canon`: reading a field of a value with distinct keys does not
    depend on the order the fields were written in.
  * `canon_canon`: a value that was read is its own `canon`.
-/
import Mathlib

namespace Lib

/-! ## Numbers -/

/-- The finite values of an IEEE binary64 number. -/
def isBinary64 (q : ℚ) : Bool :=
  q.den == 2 ^ q.den.log2 && decide (q.den.log2 ≤ 1074) &&
    q.num.natAbs % 2 ^ (q.num.natAbs.log2 - 52) == 0 && decide (q.num.natAbs.log2 < 1024)

/-- The values a JSON number holds: 64-bit integers of either sign, and doubles. -/
def isNumber (q : ℚ) : Bool :=
  (q.den == 1 && decide (-2 ^ 63 ≤ q.num) && decide (q.num < 2 ^ 64)) || isBinary64 q

/-- A JSON number, by its numeric value. -/
@[ext] structure Number where
  val : ℚ
  valid : isNumber val = true
  deriving DecidableEq

namespace Number

def ofInt (z : ℤ) (h₁ : -2 ^ 63 ≤ z) (h₂ : z < 2 ^ 64) : Number :=
  ⟨(z : ℚ), by
    simp only [isNumber, Rat.den_intCast, Rat.num_intCast, h₁, h₂, decide_true, beq_self_eq_true,
      Bool.and_self, Bool.true_or]⟩

def ofUInt64 (n : UInt64) : Number :=
  ofInt n.toNat (by omega) (by have := n.toNat_lt; omega)

def ofUInt16 (n : UInt16) : Number :=
  ofInt n.toNat (by omega) (by have := n.toNat_lt; omega)

def ofInt64 (n : Int64) : Number :=
  ofInt n.toInt n.le_toInt (by have := n.toInt_lt; omega)

def toUInt64? (n : Number) : Option UInt64 :=
  if n.val.den = 1 ∧ 0 ≤ n.val.num ∧ n.val.num < 2 ^ 64 then some (UInt64.ofNat n.val.num.toNat)
  else none

def toUInt16? (n : Number) : Option UInt16 :=
  if n.val.den = 1 ∧ 0 ≤ n.val.num ∧ n.val.num < 2 ^ 16 then some (UInt16.ofNat n.val.num.toNat)
  else none

def toInt64? (n : Number) : Option Int64 :=
  if n.val.den = 1 ∧ -2 ^ 63 ≤ n.val.num ∧ n.val.num < 2 ^ 63 then some (Int64.ofInt n.val.num)
  else none

@[simp] theorem toUInt64?_ofUInt64 (n : UInt64) : (ofUInt64 n).toUInt64? = some n := by
  have h := n.toNat_lt
  simp only [toUInt64?, ofUInt64, ofInt, Rat.den_intCast, Rat.num_intCast]
  rw [if_pos ⟨trivial, by omega, by omega⟩]
  simp

@[simp] theorem toUInt16?_ofUInt16 (n : UInt16) : (ofUInt16 n).toUInt16? = some n := by
  have h := n.toNat_lt
  simp only [toUInt16?, ofUInt16, ofInt, Rat.den_intCast, Rat.num_intCast]
  rw [if_pos ⟨trivial, by omega, by omega⟩]
  simp

@[simp] theorem toInt64?_ofInt64 (n : Int64) : (ofInt64 n).toInt64? = some n := by
  have h₁ := n.le_toInt
  have h₂ := n.toInt_lt
  simp only [toInt64?, ofInt64, ofInt, Rat.den_intCast, Rat.num_intCast]
  rw [if_pos ⟨trivial, h₁, h₂⟩]
  simp

end Number

/-! ## Trees -/

inductive Json
  | null
  | bool (b : Bool)
  | num (n : Number)
  | str (s : String)
  | arr (xs : List Json)
  | obj (kvs : List (String × Json))

namespace Json

/-- Inserts a field at its place in a list sorted by key; at an equal key the
    old value is passed to `f`. -/
def insertWith (f : Json → Json) (k : String) (v : Json) :
    List (String × Json) → List (String × Json)
  | [] => [(k, v)]
  | (k', v') :: kvs =>
    if k < k' then (k, v) :: (k', v') :: kvs
    else if k = k' then (k', f v') :: kvs
    else (k', v') :: insertWith f k v kvs

/-- Inserts a field, replacing one of the same key. -/
def insert (k : String) (v : Json) : List (String × Json) → List (String × Json) :=
  insertWith (fun _ => v) k v

mutual

/-- The value a reader builds from a written tree. -/
def canon : Json → Json
  | .arr xs => .arr (canonList xs)
  | .obj kvs => .obj (canonFields kvs)
  | .null => .null
  | .bool b => .bool b
  | .num n => .num n
  | .str s => .str s

def canonList : List Json → List Json
  | [] => []
  | x :: xs => canon x :: canonList xs

def canonFields : List (String × Json) → List (String × Json)
  | [] => []
  | (k, v) :: kvs => insertWith id k (canon v) (canonFields kvs)

end

/-- The value of the field `k` of an object. -/
def get? (k : String) : Json → Option Json
  | .obj kvs => kvs.lookup k
  | _ => none

/-! ## Sorted fields -/

/-- The keys are strictly ascending. -/
def SortedKeys (kvs : List (String × Json)) : Prop := kvs.Pairwise fun a b => a.1 < b.1

theorem mem_insertWith {f : Json → Json} {k : String} {v : Json} {kvs : List (String × Json)}
    {e : String × Json} (h : e ∈ insertWith f k v kvs) :
    e = (k, v) ∨ e ∈ kvs ∨ ∃ w, (k, w) ∈ kvs ∧ e = (k, f w) := by
  induction kvs with
  | nil => simp only [insertWith, List.mem_singleton] at h; exact Or.inl h
  | cons kv kvs ih =>
    obtain ⟨k', v'⟩ := kv
    rw [insertWith] at h
    split at h
    · rcases List.mem_cons.1 h with rfl | h
      · exact Or.inl rfl
      · exact Or.inr (Or.inl h)
    · split at h
      · rename_i hk
        subst hk
        rcases List.mem_cons.1 h with rfl | h
        · exact Or.inr (Or.inr ⟨v', List.mem_cons_self .., rfl⟩)
        · exact Or.inr (Or.inl (List.mem_cons_of_mem _ h))
      · rcases List.mem_cons.1 h with rfl | h
        · exact Or.inr (Or.inl (List.mem_cons_self ..))
        · rcases ih h with rfl | h | ⟨w, hw, rfl⟩
          · exact Or.inl rfl
          · exact Or.inr (Or.inl (List.mem_cons_of_mem _ h))
          · exact Or.inr (Or.inr ⟨w, List.mem_cons_of_mem _ hw, rfl⟩)

theorem sortedKeys_insertWith {f : Json → Json} {k : String} {v : Json}
    {kvs : List (String × Json)} (h : SortedKeys kvs) : SortedKeys (insertWith f k v kvs) := by
  induction kvs with
  | nil => simp [insertWith, SortedKeys]
  | cons kv kvs ih =>
    obtain ⟨k', v'⟩ := kv
    obtain ⟨hhd, htl⟩ := List.pairwise_cons.1 h
    rw [insertWith]
    split
    · rename_i hlt
      refine List.pairwise_cons.2 ⟨?_, h⟩
      intro e he
      rcases List.mem_cons.1 he with rfl | he
      · exact hlt
      · exact lt_trans hlt (hhd e he)
    · rename_i hnlt
      split
      · exact List.pairwise_cons.2 ⟨hhd, htl⟩
      · rename_i hne
        have hgt : k' < k := lt_of_le_of_ne (not_lt.1 hnlt) (Ne.symm hne)
        refine List.pairwise_cons.2 ⟨?_, ih htl⟩
        intro e he
        rcases mem_insertWith he with rfl | he | ⟨w, hw, rfl⟩
        · exact hgt
        · exact hhd e he
        · exact hgt

theorem insertWith_of_lt {f : Json → Json} {k : String} {v : Json} {kvs : List (String × Json)}
    (h : ∀ e ∈ kvs, k < e.1) : insertWith f k v kvs = (k, v) :: kvs := by
  cases kvs with
  | nil => rfl
  | cons kv kvs => rw [insertWith, if_pos (h kv (List.mem_cons_self ..))]

theorem lookup_insertWith_ne {f : Json → Json} {k k' : String} {v : Json}
    {kvs : List (String × Json)} (h : k' ≠ k) :
    (insertWith f k v kvs).lookup k' = kvs.lookup k' := by
  induction kvs with
  | nil => simp [insertWith, List.lookup, beq_eq_false_iff_ne.2 h]
  | cons kv kvs ih =>
    obtain ⟨k₁, v₁⟩ := kv
    rw [insertWith]
    split
    · simp [List.lookup, beq_eq_false_iff_ne.2 h]
    · split
      · rename_i hk
        subst hk
        simp [List.lookup, beq_eq_false_iff_ne.2 h]
      · simp only [List.lookup, ih]

theorem lookup_insertWith_new {f : Json → Json} {k : String} {v : Json}
    {kvs : List (String × Json)} (h : kvs.lookup k = none) :
    (insertWith f k v kvs).lookup k = some v := by
  induction kvs with
  | nil => simp [insertWith]
  | cons kv kvs ih =>
    obtain ⟨k₁, v₁⟩ := kv
    rw [insertWith]
    have hne : k ≠ k₁ := by
      rintro rfl
      simp [List.lookup] at h
    simp only [List.lookup, beq_eq_false_iff_ne.2 hne] at h
    split
    · simp [List.lookup]
    · simp only [List.lookup, beq_eq_false_iff_ne.2 hne, ih h]

theorem sortedKeys_canonFields (kvs : List (String × Json)) : SortedKeys (canonFields kvs) := by
  induction kvs with
  | nil => simp [canonFields, SortedKeys]
  | cons kv kvs ih => exact sortedKeys_insertWith ih

/-! ## Values that were read -/

/-- A list of fields in the form a reader builds. -/
theorem canonFields_of_sorted {kvs : List (String × Json)} (hs : SortedKeys kvs)
    (hv : ∀ e ∈ kvs, canon e.2 = e.2) : canonFields kvs = kvs := by
  induction kvs with
  | nil => rfl
  | cons kv kvs ih =>
    obtain ⟨hhd, htl⟩ := List.pairwise_cons.1 hs
    rw [canonFields, ih htl fun e he => hv e (List.mem_cons_of_mem _ he),
      hv _ (List.mem_cons_self ..), insertWith_of_lt hhd]

mutual

/-- **A value that was read is its own canonical form.** -/
theorem canon_canon : ∀ j : Json, canon (canon j) = canon j
  | .arr xs => by rw [canon, canon, canonList_canonList]
  | .obj kvs => by
    rw [canon, canon, canonFields_of_sorted (sortedKeys_canonFields kvs) (canonFields_values kvs)]
  | .null => rfl
  | .bool _ => rfl
  | .num _ => rfl
  | .str _ => rfl

theorem canonList_canonList : ∀ xs : List Json, canonList (canonList xs) = canonList xs
  | [] => rfl
  | x :: xs => by rw [canonList, canonList, canon_canon x, canonList_canonList xs]

theorem canonFields_values : ∀ kvs : List (String × Json), ∀ e ∈ canonFields kvs, canon e.2 = e.2
  | [], e, he => by simp [canonFields] at he
  | (k, v) :: kvs, e, he => by
    rw [canonFields] at he
    rcases mem_insertWith he with rfl | he | ⟨w, hw, rfl⟩
    · exact canon_canon v
    · exact canonFields_values kvs e he
    · exact canonFields_values kvs (k, w) hw

end

theorem values_of_canon {kvs : List (String × Json)} (h : canon (.obj kvs) = .obj kvs) :
    SortedKeys kvs ∧ ∀ e ∈ kvs, canon e.2 = e.2 := by
  have hk : canonFields kvs = kvs := by simpa [canon] using h
  rw [← hk]
  exact ⟨sortedKeys_canonFields kvs, canonFields_values kvs⟩

/-- Inserting a value that was read keeps the form. -/
theorem canon_insert {k : String} {v : Json} {kvs : List (String × Json)}
    (h : canon (.obj kvs) = .obj kvs) (hv : canon v = v) :
    canon (.obj (insert k v kvs)) = .obj (insert k v kvs) := by
  obtain ⟨hs, hvals⟩ := values_of_canon h
  have hfields : canonFields (insert k v kvs) = insert k v kvs := by
    refine canonFields_of_sorted (sortedKeys_insertWith hs) ?_
    intro e he
    rcases mem_insertWith he with rfl | he | ⟨w, -, rfl⟩
    · exact hv
    · exact hvals e he
    · exact hv
  rw [canon, hfields]

theorem lookup_canonFields (k : String) (kvs : List (String × Json)) (h : (kvs.map Prod.fst).Nodup) :
    (canonFields kvs).lookup k = (kvs.lookup k).map canon := by
  induction kvs with
  | nil => rfl
  | cons kv kvs ih =>
    obtain ⟨k₁, v₁⟩ := kv
    obtain ⟨hnot, hnd⟩ := List.nodup_cons.1 h
    rw [canonFields]
    by_cases hk : k = k₁
    · subst hk
      have hnone : kvs.lookup k = none := by
        rw [List.lookup_eq_none_iff]
        intro p hp
        have hkp : k ≠ p.1 := by
          rintro rfl
          exact hnot (List.mem_map.2 ⟨p, hp, rfl⟩)
        simpa using hkp
      rw [lookup_insertWith_new (by rw [ih hnd, hnone]; rfl)]
      simp [List.lookup]
    · rw [lookup_insertWith_ne hk, ih hnd]
      simp [List.lookup, beq_eq_false_iff_ne.2 hk]

theorem perm_insertWith {f : Json → Json} {k : String} {v : Json} {kvs : List (String × Json)}
    (h : k ∉ kvs.map Prod.fst) : (insertWith f k v kvs).Perm ((k, v) :: kvs) := by
  induction kvs with
  | nil => exact .refl _
  | cons kv kvs ih =>
    obtain ⟨k', v'⟩ := kv
    obtain ⟨hne, hrest⟩ := not_or.1 fun hmem => h (List.mem_cons.2 hmem)
    rw [insertWith]
    split
    · exact .refl _
    · exact ((ih hrest).cons _).trans (.swap _ _ _)

/-- A reader keeps every field of a value with distinct keys. -/
theorem perm_canonFields {kvs : List (String × Json)} (h : (kvs.map Prod.fst).Nodup) :
    (canonFields kvs).Perm (kvs.map fun e => (e.1, canon e.2)) := by
  induction kvs with
  | nil => exact .refl _
  | cons kv kvs ih =>
    obtain ⟨k, v⟩ := kv
    obtain ⟨hnot, hnd⟩ := List.nodup_cons.1 h
    have hkeys : ((canonFields kvs).map Prod.fst).Perm (kvs.map Prod.fst) := by
      have hmap := (ih hnd).map Prod.fst
      rwa [List.map_map] at hmap
    rw [canonFields]
    exact (perm_insertWith fun hmem => hnot (hkeys.mem_iff.1 hmem)).trans ((ih hnd).cons _)

/-- **A field of a value with distinct keys** is read back, whatever the order
    the fields were written in. -/
theorem get?_canon (k : String) (kvs : List (String × Json)) (h : (kvs.map Prod.fst).Nodup) :
    (canon (.obj kvs)).get? k = (kvs.lookup k).map canon := by
  rw [canon, get?, lookup_canonFields k kvs h]

end Json

/-- A JSON value in the form a reader builds it. -/
@[ext] structure JsonValue where
  val : Json
  canonical : val.canon = val

namespace JsonValue

def ofJson (j : Json) : JsonValue := ⟨j.canon, j.canon_canon⟩

@[simp] theorem ofJson_val (v : JsonValue) : ofJson v.val = v := JsonValue.ext v.canonical

theorem canon_empty : (Json.obj []).canon = .obj [] := rfl

/-- The empty object. -/
def emptyObj : JsonValue := ⟨.obj [], canon_empty⟩

end JsonValue

end Lib
