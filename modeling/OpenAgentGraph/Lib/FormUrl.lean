/-
  Form-encoded queries: reading them into pairs, and writing decoded pairs
  back with nothing but `=` and `&` between them.

  * `alike_iff`: two lists of pairs are stored as the same query exactly when
    three rewritings turn one into the other.
  * `readQuery_store`, `plain_of_fixed`: a list is read back from what is
    stored for it exactly when its texts are plain.
-/
import OpenAgentGraph.Lib.Percent

namespace Lib

/-- A key and its value. -/
abbrev Pair := Text × Text

/-! ## Reading and writing -/

/-- `key=value`, cut at the first `=`. -/
def readPair (s : Bytes) : Pair :=
  (readText (s.takeWhile (· ≠ 61)), readText ((s.dropWhile (· ≠ 61)).drop 1))

/-- The pairs of a query: `form_urlencoded::parse`. -/
def readQuery (b : Bytes) : List Pair := ((b.splitOn 38).filter (· ≠ [])).map readPair

def writePair (p : Pair) : Text := p.1 ++ '=' :: p.2

/-- Pairs as decoded, joined by `&`. -/
def writeQuery (l : List Pair) : Text := ['&'].intercalate (l.map writePair)

@[simp] theorem writeQuery_nil : writeQuery [] = [] := rfl
@[simp] theorem writeQuery_singleton (p : Pair) : writeQuery [p] = writePair p := by simp [writeQuery]

theorem writeQuery_cons_cons (p q : Pair) (l : List Pair) :
    writeQuery (p :: q :: l) = writePair p ++ '&' :: writeQuery (q :: l) := by
  simp [writeQuery, List.intercalate_cons_cons]

theorem cut_first {α : Type} [DecidableEq α] {x : α} {a b : List α} (h : x ∉ a) :
    (a ++ x :: b).takeWhile (· ≠ x) = a ∧ ((a ++ x :: b).dropWhile (· ≠ x)).drop 1 = b := by
  have hall : ∀ y ∈ a, decide (y ≠ x) = true := by
    intro y hy
    refine decide_eq_true ?_
    rintro rfl
    exact h hy
  rw [List.takeWhile_append_of_pos hall, List.dropWhile_append_of_pos hall]
  simp

theorem cut_none {α : Type} [DecidableEq α] {x : α} {a : List α} (h : x ∉ a) :
    a.takeWhile (· ≠ x) = a ∧ (a.dropWhile (· ≠ x)).drop 1 = [] := by
  have hall : ∀ y ∈ a, decide (y ≠ x) = true := by
    intro y hy
    refine decide_eq_true ?_
    rintro rfl
    exact h hy
  have htake := @List.takeWhile_append_of_pos _ (fun y => decide (y ≠ x)) a [] hall
  have hdrop := @List.dropWhile_append_of_pos _ (fun y => decide (y ≠ x)) a [] hall
  simp only [List.append_nil, List.takeWhile_nil, List.dropWhile_nil] at htake hdrop
  rw [htake, hdrop]
  exact ⟨rfl, rfl⟩

/-- The pieces of a split list have what the list has, and no separators. -/
theorem mem_of_mem_splitOnP {α : Type} {p : α → Bool} {xs t : List α} (h : t ∈ xs.splitOnP p) :
    ∀ y ∈ t, y ∈ xs ∧ p y = false := by
  induction xs generalizing t with
  | nil =>
    obtain rfl : t = [] := by simpa using h
    simp
  | cons x xs ih =>
    have htail : ∀ {t}, t ∈ xs.splitOnP p → ∀ y ∈ t, y ∈ x :: xs ∧ p y = false :=
      fun ht y hy => ⟨List.mem_cons_of_mem _ (ih ht y hy).1, (ih ht y hy).2⟩
    rw [List.splitOnP_cons_eq_if_modifyHead] at h
    split at h
    · rcases List.mem_cons.1 h with rfl | h
      · simp
      · exact htail h
    · rename_i hx
      cases hs : xs.splitOnP p with
      | nil => exact absurd hs (List.splitOnP_ne_nil _ _)
      | cons q qs =>
        rw [hs, List.modifyHead_cons] at h
        rcases List.mem_cons.1 h with rfl | h
        · intro y hy
          rcases List.mem_cons.1 hy with rfl | hy
          · exact ⟨by simp, by simpa using hx⟩
          · exact htail (by rw [hs]; simp) y hy
        · exact htail (by rw [hs]; simp [h])

theorem not_mem_of_mem_splitOn {α : Type} [DecidableEq α] {x : α} {xs t : List α}
    (h : t ∈ xs.splitOn x) : x ∉ t := by
  intro hmem
  have hsep := (mem_of_mem_splitOnP (List.splitOn_eq_splitOnP (x := x) ▸ h) x hmem).2
  simp at hsep

namespace QuerySet

variable (Q : QuerySet)

theorem storeChar_amp : Q.storeChar '&' = [38] := Q.storeChar_legal (Q.legal_marks _ (by simp))

theorem storeChar_eq : Q.storeChar '=' = [61] := Q.storeChar_legal (Q.legal_marks _ (by simp))

/-- The separators are stored for themselves only. -/
theorem eq_of_mem_storeChar {d c : Char} (hd : d = '&' ∨ d = '=') (h : charByte d ∈ Q.storeChar c) :
    c = d := by
  have hbyte : charByte d = 38 ∨ charByte d = 61 := by
    rcases hd with rfl | rfl
    · exact Or.inl rfl
    · exact Or.inr rfl
  have hascii : d.toNat < 128 := by rcases hd with rfl | rfl <;> decide
  unfold storeChar at h
  split at h
  · cases h
  split at h
  · rename_i hl
    exact (charByte_injOn hascii (Q.legal_ascii c hl) (List.mem_singleton.1 h)).symm
  · rcases mem_percentEncode h with heq | ⟨n, hn, heq⟩
    · rw [heq] at hbyte
      exact absurd hbyte (by decide)
    · obtain ⟨-, -, hamp, hequ, -⟩ := upperDigit_spec n hn
      rw [heq] at hbyte
      rcases hbyte with hb | hb
      · exact absurd hb hamp
      · exact absurd hb hequ

theorem mem_of_mem_store {d : Char} (hd : d = '&' ∨ d = '=') {t : Text} (h : charByte d ∈ Q.store t) :
    d ∈ t := by
  obtain ⟨c, hc, hmem⟩ := List.mem_flatMap.1 h
  rw [← Q.eq_of_mem_storeChar hd hmem]
  exact hc

theorem store_intercalate (ps : List Text) :
    Q.store (['&'].intercalate ps) = [38].intercalate (ps.map Q.store) := by
  induction ps with
  | nil => rfl
  | cons p ps ih =>
    cases ps with
    | nil => simp
    | cons q ps =>
      rw [List.intercalate_cons_cons, List.map_cons, List.map_cons, List.intercalate_cons_cons,
        ← List.map_cons, ← ih]
      simp [Q.storeChar_amp]

/-! ## Reading what is stored -/

theorem readQuery_store_pieces {ps : List Text} (hps : ps ≠ []) (hamp : ∀ p ∈ ps, '&' ∉ p) :
    readQuery (Q.store (['&'].intercalate ps)) = ((ps.map Q.store).filter (· ≠ [])).map readPair := by
  have hsplit : (([38] : Bytes).intercalate (ps.map Q.store)).splitOn 38 = ps.map Q.store := by
    refine List.splitOn_intercalate 38 ?_ (by simpa using hps)
    intro b hb hmem
    obtain ⟨p, hp, rfl⟩ := List.mem_map.1 hb
    exact hamp p hp (Q.mem_of_mem_store (d := '&') (Or.inl rfl) hmem)
  rw [readQuery, Q.store_intercalate, hsplit]

theorem readPair_store {k v : Text} (h : '=' ∉ k) :
    readPair (Q.store (k ++ '=' :: v)) = (readText (Q.store k), readText (Q.store v)) := by
  have hno : (61 : UInt8) ∉ Q.store k := fun hmem => h (Q.mem_of_mem_store (d := '=') (Or.inr rfl) hmem)
  have hstore : Q.store (k ++ '=' :: v) = Q.store k ++ 61 :: Q.store v := by
    rw [Q.store_append, Q.store_cons, Q.storeChar_eq]
    rfl
  rw [readPair, hstore, (cut_first hno).1, (cut_first hno).2]

theorem readPair_store_keyOnly {k : Text} (h : '=' ∉ k) :
    readPair (Q.store k) = (readText (Q.store k), []) := by
  have hno : (61 : UInt8) ∉ Q.store k := fun hmem => h (Q.mem_of_mem_store (d := '=') (Or.inr rfl) hmem)
  rw [readPair, (cut_none hno).1, (cut_none hno).2]
  rfl

/-- A pair that is stored and read as it is. -/
structure PlainPair (p : Pair) : Prop where
  key : Q.PlainText p.1
  value : Q.PlainText p.2
  no_eq : '=' ∉ p.1

theorem writePair_no_amp {p : Pair} (hk : '&' ∉ p.1) (hv : '&' ∉ p.2) : '&' ∉ writePair p := by
  simp [writePair, hk, hv]

theorem store_writePair_ne_nil (p : Pair) : Q.store (writePair p) ≠ [] := by
  rw [writePair, Q.store_append, Q.store_cons, Q.storeChar_eq]
  simp

/-- Where no text has an `&`, the pairs are read one by one. -/
theorem readQuery_store_pairs {l : List Pair} (hl : l ≠ []) (hamp : ∀ p ∈ l, '&' ∉ p.1 ∧ '&' ∉ p.2) :
    readQuery (Q.store (writeQuery l)) = l.map fun p => readPair (Q.store (writePair p)) := by
  have hpieces : ∀ t ∈ l.map writePair, '&' ∉ t := by
    intro t ht
    obtain ⟨p, hp, rfl⟩ := List.mem_map.1 ht
    exact writePair_no_amp (hamp p hp).1 (hamp p hp).2
  rw [writeQuery, Q.readQuery_store_pieces (by simpa using hl) hpieces, List.filter_eq_self.2]
  · simp [Function.comp_def]
  · intro b hb
    obtain ⟨t, ht, rfl⟩ := List.mem_map.1 hb
    obtain ⟨p, -, rfl⟩ := List.mem_map.1 ht
    exact decide_eq_true (Q.store_writePair_ne_nil p)

theorem readQuery_store {l : List Pair} (h : ∀ p ∈ l, Q.PlainPair p) :
    readQuery (Q.store (writeQuery l)) = l := by
  rcases eq_or_ne l [] with rfl | hl
  · rfl
  · rw [Q.readQuery_store_pairs hl fun p hp => ⟨(h p hp).key.no_amp, (h p hp).value.no_amp⟩]
    calc l.map (fun p => readPair (Q.store (writePair p)))
        = l.map id := List.map_congr_left fun p hp => by
          rw [writePair, Q.readPair_store (h p hp).no_eq, Q.readText_store_plain (h p hp).key,
            Q.readText_store_plain (h p hp).value]
          rfl
      _ = l := List.map_id l

/-! ## What is read from the list itself -/

/-- How often a character stands in the texts of the pairs. -/
def occurrences (d : Char) (l : List Pair) : ℕ :=
  (l.map fun p => p.1.count d + p.2.count d).sum

theorem occurrences_cons (d : Char) (p : Pair) (l : List Pair) :
    occurrences d (p :: l) = p.1.count d + p.2.count d + occurrences d l := by
  simp [occurrences]

theorem occurrences_filter_le (d : Char) (keep : Pair → Bool) (l : List Pair) :
    occurrences d (l.filter keep) ≤ occurrences d l := by
  induction l with
  | nil => exact le_rfl
  | cons p l ih =>
    rw [List.filter_cons]
    split <;> simp only [occurrences_cons] <;> omega

theorem count_eq_zero_of_occurrences {d : Char} {l : List Pair} (h : occurrences d l = 0) {p : Pair}
    (hp : p ∈ l) : d ∉ p.1 ∧ d ∉ p.2 := by
  rw [occurrences, List.sum_eq_zero_iff] at h
  have hzero := h _ (List.mem_map_of_mem hp)
  exact ⟨List.count_eq_zero.1 (by omega), List.count_eq_zero.1 (by omega)⟩

theorem count_writePair {d : Char} (hd : d ≠ '=') (p : Pair) :
    (writePair p).count d = p.1.count d + p.2.count d := by
  rw [writePair, List.count_append, List.count_cons_of_ne hd.symm]

theorem count_writeQuery {d : Char} (hd : d ≠ '=') (hd' : d ≠ '&') (l : List Pair) :
    (writeQuery l).count d = occurrences d l := by
  induction l with
  | nil => rfl
  | cons p l ih =>
    cases l with
    | nil => simp [occurrences, count_writePair hd]
    | cons q l =>
      rw [writeQuery_cons_cons, List.count_append, List.count_cons_of_ne hd'.symm, ih,
        count_writePair hd, occurrences_cons d p]

theorem count_intercalate {d : Char} (hd : d ≠ '&') (ps : List Text) :
    (['&'].intercalate ps).count d = (ps.map fun p => p.count d).sum := by
  induction ps with
  | nil => rfl
  | cons p ps ih =>
    cases ps with
    | nil => simp
    | cons q ps =>
      rw [List.intercalate_cons_cons, List.count_append, List.count_append, ih]
      simp [hd.symm]

/-- A mark of a pair is read from a mark or from an escape of its piece. -/
theorem count_readPair_le {d : Char} (hd : d.toNat < 128) (hp : d ≠ '%') (hs : d ≠ ' ') (t : Text) :
    (readPair (Q.store t)).1.count d + (readPair (Q.store t)).2.count d
        + ((readPair (Q.store t)).1.count '%' + (readPair (Q.store t)).2.count '%')
      ≤ t.count d + t.count '%' := by
  by_cases heq : '=' ∈ t
  · obtain ⟨k, v, rfl, hk⟩ := List.eq_append_cons_of_mem heq
    have hkey := Q.count_readText_le hd hp hs k
    have hvalue := Q.count_readText_le hd hp hs v
    rw [Q.readPair_store hk]
    simp only [List.count_append, List.count_cons]
    omega
  · have hkey := Q.count_readText_le hd hp hs t
    rw [Q.readPair_store_keyOnly heq]
    simp only [List.count_nil]
    omega

theorem occurrences_pieces_le {ps : List Text} (hamp : ∀ p ∈ ps, '&' ∉ p) :
    occurrences '&' (((ps.map Q.store).filter (· ≠ [])).map readPair)
        + occurrences '%' (((ps.map Q.store).filter (· ≠ [])).map readPair)
      ≤ (ps.map fun p => p.count '%').sum := by
  induction ps with
  | nil => exact le_rfl
  | cons t ps ih =>
    have hrest := ih fun p hp => hamp p (List.mem_cons_of_mem _ hp)
    have hnone : t.count '&' = 0 := List.count_eq_zero.2 (hamp t (by simp))
    have hle := Q.count_readPair_le (d := '&') (by decide) (by decide) (by decide) t
    rw [List.map_cons, List.map_cons, List.sum_cons, List.filter_cons]
    split
    · rw [List.map_cons]
      simp only [occurrences_cons]
      omega
    · omega

/-- A list that is read back from what is stored for it, but for pairs that are
    filtered out, has no `&`: its percent signs are all needed for themselves. -/
theorem no_amp_of_fixed {keep : Pair → Bool} {l : List Pair}
    (h : (readQuery (Q.store (writeQuery l))).filter keep = l) : ∀ p ∈ l, '&' ∉ p.1 ∧ '&' ∉ p.2 := by
  have hpieces : ∀ p ∈ (writeQuery l).splitOn '&', '&' ∉ p := fun p hp => not_mem_of_mem_splitOn hp
  have hread : readQuery (Q.store (writeQuery l))
      = ((((writeQuery l).splitOn '&').map Q.store).filter (· ≠ [])).map readPair := by
    rw [← Q.readQuery_store_pieces (List.splitOn_ne_nil _ _) hpieces, List.intercalate_splitOn]
  have hcount : (((writeQuery l).splitOn '&').map fun p => p.count '%').sum = occurrences '%' l := by
    rw [← count_intercalate (by decide), List.intercalate_splitOn,
      count_writeQuery (by decide) (by decide)]
  have hle := Q.occurrences_pieces_le hpieces
  rw [← hread, hcount] at hle
  have hamp := occurrences_filter_le '&' keep (readQuery (Q.store (writeQuery l)))
  have hpct := occurrences_filter_le '%' keep (readQuery (Q.store (writeQuery l)))
  rw [h] at hamp hpct
  exact fun p hp => count_eq_zero_of_occurrences (by omega) hp

/-- A pair that is read as itself is plain. -/
theorem plainPair_of_fixed {p : Pair} (hamp : '&' ∉ p.1 ∧ '&' ∉ p.2)
    (h : readPair (Q.store (writePair p)) = p) : Q.PlainPair p := by
  obtain ⟨k, v⟩ := p
  have hno : '=' ∉ k := by
    intro hmem
    -- the key would be cut at its first `=`, and gain one from an escape
    obtain ⟨a, b, rfl, ha⟩ := List.eq_append_cons_of_mem hmem
    have hwrite : writePair (a ++ '=' :: b, v) = a ++ '=' :: (b ++ '=' :: v) := by
      simp [writePair]
    rw [hwrite, Q.readPair_store ha] at h
    have hkey : readText (Q.store a) = a ++ '=' :: b := (Prod.mk.inj h).1
    have hle := Q.count_readText_le (d := '=') (by decide) (by decide) (by decide) a
    rw [hkey] at hle
    simp only [List.count_append, List.count_cons] at hle
    simp at hle
    omega
  rw [writePair, Q.readPair_store hno] at h
  obtain ⟨hk, hv⟩ := Prod.mk.inj h
  exact ⟨Q.plainText_of_fixed hamp.1 hk, Q.plainText_of_fixed hamp.2 hv, hno⟩

theorem plain_of_fixed {keep : Pair → Bool} {l : List Pair}
    (h : (readQuery (Q.store (writeQuery l))).filter keep = l) : ∀ p ∈ l, Q.PlainPair p := by
  rcases eq_or_ne l [] with rfl | hl
  · intro p hp
    cases hp
  · have hamp := Q.no_amp_of_fixed h
    have hread := Q.readQuery_store_pairs hl hamp
    have hlen : (readQuery (Q.store (writeQuery l))).length = l.length := by
      rw [hread, List.length_map]
    have hall : (readQuery (Q.store (writeQuery l))).filter keep = readQuery (Q.store (writeQuery l)) :=
      List.filter_eq_self.2 (List.length_filter_eq_length_iff.1 (by rw [h, hlen]))
    have hmap : l.map (fun p => readPair (Q.store (writePair p))) = l.map id := by
      rw [← hread, ← hall, h, List.map_id]
    intro p hp
    exact Q.plainPair_of_fixed (hamp p hp) (List.map_inj_left.1 hmap p hp)

end QuerySet

/-! ## Lists that are stored alike -/

/-- The text of what is stored for a character. -/
def QuerySet.storedChar (Q : QuerySet) (c : Char) : Text :=
  (Q.storeChar c).map fun x => Char.ofNat x.toNat

def QuerySet.storedText (Q : QuerySet) (t : Text) : Text := t.flatMap Q.storedChar

namespace QuerySet

/-- One step between lists of pairs that are written alike. -/
inductive Move (Q : QuerySet) : List Pair → List Pair → Prop
  /-- A value is cut at an `&` with an `=` after it. -/
  | cut (k v k' v' : Text) (l : List Pair) :
    Move Q ((k, v ++ '&' :: (k' ++ '=' :: v')) :: l) ((k, v) :: (k', v') :: l)
  /-- An `=` of the key is taken for the one after the key. -/
  | shift (k k' v : Text) (l : List Pair) :
    Move Q ((k ++ '=' :: k', v) :: l) ((k, k' ++ '=' :: v) :: l)
  /-- A character is replaced by the text of what is stored for it. -/
  | key (a : Text) (c : Char) (b v : Text) (l : List Pair) :
    Move Q ((a ++ c :: b, v) :: l) ((a ++ (Q.storedChar c ++ b), v) :: l)
  | value (k a : Text) (c : Char) (b : Text) (l : List Pair) :
    Move Q ((k, a ++ c :: b) :: l) ((k, a ++ (Q.storedChar c ++ b)) :: l)
  | tail (p : Pair) {l l' : List Pair} : Move Q l l' → Move Q (p :: l) (p :: l')

/-- Moves in either direction turn one list into the other. -/
def Alike (Q : QuerySet) : List Pair → List Pair → Prop := Relation.EqvGen (Move Q)

variable {Q : QuerySet}

theorem Move.alike {l l' : List Pair} (h : Move Q l l') : Q.Alike l l' := .rel _ _ h

theorem Alike.refl (l : List Pair) : Q.Alike l l := Relation.EqvGen.refl l

theorem Alike.symm {l l' : List Pair} (h : Q.Alike l l') : Q.Alike l' l := Relation.EqvGen.symm _ _ h

theorem Alike.trans {l l' l'' : List Pair} (h : Q.Alike l l') (h' : Q.Alike l' l'') : Q.Alike l l'' :=
  Relation.EqvGen.trans _ _ _ h h'

theorem Alike.cons (p : Pair) {l l' : List Pair} (h : Q.Alike l l') : Q.Alike (p :: l) (p :: l') := by
  induction h with
  | rel l l' h => exact (Move.tail p h).alike
  | refl l => exact Alike.refl _
  | symm l l' _ ih => exact ih.symm
  | trans l l' l'' _ _ ih ih' => exact ih.trans ih'

variable (Q)

theorem byte_of_mem_storeChar {c : Char} {x : UInt8} (h : x ∈ Q.storeChar c) :
    Q.storeChar (Char.ofNat x.toNat) = [x] := by
  unfold storeChar at h
  split at h
  · cases h
  split at h
  · rename_i hl
    have hc := Q.legal_ascii c hl
    obtain rfl : x = charByte c := List.mem_singleton.1 h
    rw [charByte_toNat hc, Char.ofNat_toNat]
    exact Q.storeChar_legal hl
  · rcases mem_percentEncode h with rfl | ⟨n, hn, rfl⟩
    · exact Q.storeChar_percent
    · have hdigit : ∀ n : UInt8, n < 16 → (Char.ofNat (upperDigit n).toNat).isAlphanum = true ∧
          charByte (Char.ofNat (upperDigit n).toNat) = upperDigit n := forall_byte (by decide +kernel)
      rw [Q.storeChar_legal (Q.legal_digit _ (hdigit n hn).1), (hdigit n hn).2]

theorem store_storedChar (c : Char) : Q.store (Q.storedChar c) = Q.storeChar c := by
  have hbytes : ∀ b : Bytes, (∀ x ∈ b, x ∈ Q.storeChar c) →
      Q.store (b.map fun x => Char.ofNat x.toNat) = b := by
    intro b
    induction b with
    | nil => exact fun _ => rfl
    | cons x b ih =>
      intro hb
      rw [List.map_cons, Q.store_cons, Q.byte_of_mem_storeChar (hb x (by simp)),
        ih fun y hy => hb y (List.mem_cons_of_mem _ hy)]
      rfl
  exact hbytes _ fun x hx => hx

theorem storedText_eq (t : Text) : Q.storedText t = (Q.store t).map fun x => Char.ofNat x.toNat := by
  rw [storedText, store, List.map_flatMap]
  rfl

theorem storedText_eq_of_store_eq {s t : Text} (h : Q.store s = Q.store t) :
    Q.storedText s = Q.storedText t := by
  rw [storedText_eq, storedText_eq, h]

/-- A step keeps what is stored, and no list is emptied or filled. -/
theorem Move.store_eq {l l' : List Pair} (h : Move Q l l') :
    Q.store (writeQuery l) = Q.store (writeQuery l') ∧ (l = [] ↔ l' = []) := by
  have hhead : ∀ (p q : Pair) (l : List Pair), Q.store (writePair p) = Q.store (writePair q) →
      Q.store (writeQuery (p :: l)) = Q.store (writeQuery (q :: l)) := by
    intro p q l hpq
    cases l with
    | nil => simpa using hpq
    | cons r l => rw [writeQuery_cons_cons, writeQuery_cons_cons, Q.store_append, hpq, Q.store_append]
  induction h with
  | cut k v k' v' l =>
    refine ⟨?_, by simp⟩
    have htext : ∀ l, writeQuery ((k, v ++ '&' :: (k' ++ '=' :: v')) :: l)
        = writeQuery ((k, v) :: (k', v') :: l) := by
      intro l
      cases l with
      | nil => simp [writeQuery_cons_cons, writePair]
      | cons r l => simp [writeQuery_cons_cons, writePair]
    rw [htext]
  | shift k k' v l =>
    refine ⟨hhead _ _ _ ?_, by simp⟩
    simp [writePair]
  | key a c b v l =>
    refine ⟨hhead _ _ _ ?_, by simp⟩
    simp [writePair, Q.store_storedChar]
  | value k a c b l =>
    refine ⟨hhead _ _ _ ?_, by simp⟩
    simp [writePair, Q.store_storedChar]
  | @tail p l l' h ih =>
    refine ⟨?_, by simp⟩
    obtain ⟨heq, hnil⟩ := ih
    cases l with
    | nil => rw [hnil.1 rfl]
    | cons q l =>
      cases l' with
      | nil => exact absurd (hnil.2 rfl) (by simp)
      | cons r l' =>
        rw [writeQuery_cons_cons, writeQuery_cons_cons, Q.store_append, Q.store_cons, heq,
          Q.store_append, Q.store_cons]

theorem Alike.store_eq {l l' : List Pair} (h : Q.Alike l l') :
    Q.store (writeQuery l) = Q.store (writeQuery l') := by
  induction h with
  | rel l l' h => exact h.store_eq.1
  | refl l => rfl
  | symm l l' _ ih => exact ih.symm
  | trans l l' l'' _ _ ih ih' => exact ih.trans ih'

/-! ### A list as one pair -/

/-- All pairs are cut parts of one. -/
theorem alike_single (p : Pair) (l : List Pair) :
    ∃ v, Q.Alike (p :: l) [(p.1, v)] ∧ writePair (p.1, v) = writeQuery (p :: l) := by
  induction l generalizing p with
  | nil => exact ⟨p.2, Alike.refl _, by simp⟩
  | cons q l ih =>
    obtain ⟨w, hw, htext⟩ := ih q
    refine ⟨p.2 ++ '&' :: (q.1 ++ '=' :: w), ?_, ?_⟩
    · exact (hw.cons p).trans (Move.cut p.1 p.2 q.1 w []).alike.symm
    · rw [writeQuery_cons_cons, ← htext]
      simp [writePair]

/-- Characters can be replaced by what is stored for them one after the other,
    in any place where each of them can. -/
theorem alike_storedText (place : Text → List Pair)
    (hstep : ∀ a c b, Q.Alike (place (a ++ c :: b)) (place (a ++ (Q.storedChar c ++ b)))) (a b : Text) :
    Q.Alike (place (a ++ b)) (place (a ++ Q.storedText b)) := by
  induction b generalizing a with
  | nil => exact Alike.refl _
  | cons c b ih =>
    have hrest := ih (a ++ Q.storedChar c)
    simp only [List.append_assoc] at hrest
    exact (hstep a c b).trans hrest

theorem alike_storedKey (k v : Text) : Q.Alike [(k, v)] [(Q.storedText k, v)] :=
  Q.alike_storedText (fun t => [(t, v)]) (fun a c b => (Move.key a c b v []).alike) [] k

theorem alike_storedValue (k v : Text) : Q.Alike [(k, v)] [(k, Q.storedText v)] :=
  Q.alike_storedText (fun t => [(k, t)]) (fun a c b => (Move.value k a c b []).alike) [] v

theorem storedText_writePair (p : Pair) :
    Q.storedText (writePair p) = Q.storedText p.1 ++ '=' :: Q.storedText p.2 := by
  simp [storedText, writePair, storedChar, Q.storeChar_eq]

/-- Every list that is not empty is alike to one pair, which is what is stored
    for the list, cut at its first `=`. -/
theorem alike_normal (p : Pair) (l : List Pair) :
    ∃ k v, Q.Alike (p :: l) [(k, v)] ∧ k ++ '=' :: v = Q.storedText (writeQuery (p :: l)) ∧ '=' ∉ k := by
  obtain ⟨w, hw, htext⟩ := Q.alike_single p l
  have hstored : Q.Alike (p :: l) [(Q.storedText p.1, Q.storedText w)] :=
    hw.trans ((Q.alike_storedKey p.1 w).trans (Q.alike_storedValue _ w))
  have hwrite : Q.storedText (writeQuery (p :: l)) = Q.storedText p.1 ++ '=' :: Q.storedText w := by
    rw [← htext, storedText_writePair]
  by_cases heq : '=' ∈ Q.storedText p.1
  · obtain ⟨k, b, hk, hno⟩ := List.eq_append_cons_of_mem heq
    rw [hk] at hstored hwrite
    refine ⟨k, b ++ '=' :: Q.storedText w, hstored.trans (Move.shift k b _ []).alike, ?_, hno⟩
    rw [hwrite]
    simp
  · exact ⟨_, _, hstored, hwrite.symm, heq⟩

theorem store_writeQuery_ne_nil (p : Pair) (l : List Pair) : Q.store (writeQuery (p :: l)) ≠ [] := by
  cases l with
  | nil => simpa using Q.store_writePair_ne_nil p
  | cons q l =>
    rw [writeQuery_cons_cons, Q.store_append]
    simp [Q.store_writePair_ne_nil p]

/-- **Stored alike.**  Two lists are stored as the same query exactly when they
    are alike. -/
theorem alike_iff {l l' : List Pair} :
    Q.Alike l l' ↔ Q.store (writeQuery l) = Q.store (writeQuery l') := by
  constructor
  · exact Alike.store_eq Q
  · intro h
    cases l with
    | nil =>
      cases l' with
      | nil => exact Alike.refl _
      | cons p l' => exact absurd h.symm (Q.store_writeQuery_ne_nil p l')
    | cons p l =>
      cases l' with
      | nil => exact absurd h (Q.store_writeQuery_ne_nil p l)
      | cons q l' =>
        obtain ⟨k, v, hkv, htext, hno⟩ := Q.alike_normal p l
        obtain ⟨k', v', hkv', htext', hno'⟩ := Q.alike_normal q l'
        have hsame : k ++ '=' :: v = k' ++ '=' :: v' := by
          rw [htext, htext', Q.storedText_eq_of_store_eq h]
        obtain ⟨rfl, rfl⟩ := split_first hno hno' hsame
        exact hkv.trans hkv'.symm

end QuerySet

end Lib
