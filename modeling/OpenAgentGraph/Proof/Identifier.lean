/-
  Canonical identifiers are stable, but for those of URLs.

  An identifier is read again as `scheme:rest`, and what has a scheme is
  lowered as a whole (`canonicalizeValue_of_scheme`).  Slugs and identifiers
  with a scheme are in lower case already; a canonical URL need not be.
-/
import OpenAgentGraph.Proof.Canonical

namespace OpenAgentGraph

open Lib

variable {H U ε : Type} {P : Prims H} {L : UrlLib U ε}

/-! ## Trimmed texts -/

/-- No white space at either end. -/
def Trimmed (t : Text) : Prop :=
  (∀ c ∈ t.head?, isWhiteSpace c = false) ∧ (∀ c ∈ t.getLast?, isWhiteSpace c = false)

theorem trim_eq_self {s : String} (h : Trimmed s.toList) : trim s = s := by
  have hdrop : ∀ t : Text, (∀ c ∈ t.head?, isWhiteSpace c = false) → t.dropWhile isWhiteSpace = t := by
    intro t ht
    cases t with
    | nil => rfl
    | cons c t => simp [ht c (by simp)]
  rw [trim, hdrop _ h.1, hdrop, List.reverse_reverse, String.ofList_toList]
  rw [List.head?_reverse]
  exact h.2

theorem trimmed_trim (s : String) : Trimmed (trim s).toList := by
  have hhead : ∀ t : Text, ∀ c ∈ (t.dropWhile isWhiteSpace).head?, isWhiteSpace c = false := by
    intro t c hc
    have hnot := List.head?_dropWhile_not isWhiteSpace t
    rw [Option.mem_def.1 hc] at hnot
    exact hnot
  rw [trim, String.toList_ofList]
  constructor
  · intro c hc
    -- what is left at the end is a prefix of what is left at the front
    obtain ⟨t, ht⟩ := List.rdropWhile_prefix isWhiteSpace (s.toList.dropWhile isWhiteSpace)
    refine hhead s.toList c ?_
    rw [← ht, List.head?_append]
    exact Option.mem_def.2 (by rw [List.rdropWhile, Option.mem_def.1 hc]; rfl)
  · intro c hc
    rw [List.getLast?_reverse] at hc
    exact hhead _ c hc

theorem trimmed_of_no_white {t : Text} (h : ∀ c ∈ t, isWhiteSpace c = false) : Trimmed t :=
  ⟨fun c hc => h c (List.mem_of_mem_head? hc), fun c hc => h c (List.mem_of_mem_getLast? hc)⟩

/-- A text is trimmed when its front is not empty and starts without white
    space, and its rest is trimmed. -/
theorem trimmed_append {s t : Text} (hs : s ≠ []) (hwhite : ∀ c ∈ s, isWhiteSpace c = false)
    (ht : Trimmed t) : Trimmed (s ++ t) := by
  constructor
  · intro c hc
    rw [List.head?_append_of_ne_nil _ hs] at hc
    exact hwhite c (List.mem_of_mem_head? hc)
  · intro c hc
    rcases eq_or_ne t [] with rfl | hne
    · rw [List.append_nil] at hc
      exact hwhite c (List.mem_of_mem_getLast? hc)
    · rw [List.getLast?_append_of_ne_nil _ hne] at hc
      exact ht.2 c hc

/-! ## Schemes -/

theorem schemeOf_eq_some {s scheme : String} :
    schemeOf s = some scheme ↔ ':' ∉ scheme.toList ∧ ∃ rest, s.toList = scheme.toList ++ ':' :: rest := by
  unfold schemeOf
  constructor
  · intro h
    split at h
    · rename_i hmem
      obtain ⟨a, b, hab, hno⟩ := List.eq_append_cons_of_mem hmem
      cases h
      rw [hab, (cut_first hno).1, String.toList_ofList]
      exact ⟨hno, b, rfl⟩
    · cases h
  · rintro ⟨hno, rest, hrest⟩
    rw [if_pos (by rw [hrest]; simp), hrest, (cut_first hno).1, String.ofList_toList]

theorem isScheme_ascii {c : Char} (h : isSchemeChar c = true) : c.toNat < 128 := by
  simp only [isSchemeChar, Char.isAlphanum, Char.isAlpha, Char.isUpper, Char.isLower, Char.isDigit,
    Bool.or_eq_true, Bool.and_eq_true, decide_eq_true_eq, beq_iff_eq, UInt32.le_iff_toNat_le] at h
  change c.val.toNat < 128
  rcases h with (((h | h) | h) | rfl) | rfl
  · exact Nat.lt_of_le_of_lt h.2 (by decide)
  · exact Nat.lt_of_le_of_lt h.2 (by decide)
  · exact Nat.lt_of_le_of_lt h.2 (by decide)
  · decide
  · decide

/-- What lower case does to the characters of a scheme. -/
theorem toLower_scheme {c : Char} (h : isSchemeChar c = true) :
    isSchemeChar c.toLower = true ∧ c.toLower ≠ ':' ∧ isWhiteSpace c = false ∧
      asciiLower (charByte c.toLower) = asciiLower (charByte c) := by
  have hall : ∀ n : Fin 128, isSchemeChar (Char.ofNat n) = true →
      isSchemeChar (Char.ofNat n).toLower = true ∧ (Char.ofNat n).toLower ≠ ':' ∧
        isWhiteSpace (Char.ofNat n) = false ∧
        asciiLower (charByte (Char.ofNat n).toLower) = asciiLower (charByte (Char.ofNat n)) := by
    decide +kernel
  have hc := hall ⟨c.toNat, isScheme_ascii h⟩
  simp only [Char.ofNat_toNat] at hc
  exact hc h

theorem utf8_scheme {t : Text} (h : ∀ c ∈ t, isSchemeChar c = true) :
    utf8 (String.ofList t) = t.map charByte := by
  rw [utf8_ofList]
  induction t with
  | nil => rfl
  | cons c t ih =>
    have hc := isScheme_ascii (h c (by simp))
    rw [List.flatMap_cons, ih fun d hd => h d (List.mem_cons_of_mem _ hd),
      utf8EncodeChar_ascii (by change c.toNat ≤ 127; omega)]
    rfl

theorem isHttp_toLower {t : Text} (h : ∀ c ∈ t, isSchemeChar c = true) :
    isHttp (String.ofList (t.map Char.toLower)) = isHttp (String.ofList t) := by
  have hlower : ∀ c ∈ t.map Char.toLower, isSchemeChar c = true := by
    intro c hc
    obtain ⟨d, hd, rfl⟩ := List.mem_map.1 hc
    exact (toLower_scheme (h d hd)).1
  have hbytes : (utf8 (String.ofList (t.map Char.toLower))).map asciiLower
      = (utf8 (String.ofList t)).map asciiLower := by
    rw [utf8_scheme hlower, utf8_scheme h, List.map_map, List.map_map, List.map_map]
    exact List.map_congr_left fun c hc => (toLower_scheme (h c hc)).2.2.2
  unfold isHttp
  rw [hbytes]

/-! ## Lower case -/

/-- The character is in lower case. -/
def IsLower (P : Prims H) (c : Char) : Prop := P.toLowercase (String.ofList [c]) = String.ofList [c]

theorem isLower_ascii (h : LowercaseLaws P.toLowercase) {c : Char} (hc : c.toNat < 128)
    (hl : c.toLower = c) : IsLower P c := by
  obtain ⟨parts, hparts, htext⟩ := h.chars (String.ofList [c])
  rw [String.toList_ofList] at hparts
  obtain ⟨p, ps, hp, hps, rfl⟩ := List.forall₂_cons_left_iff.1 hparts
  obtain rfl := List.forall₂_nil_left_iff.1 hps
  rw [hp.ascii hc, hl] at htext
  exact String.toList_inj.1 (by simpa using htext)

theorem toLowercase_eq_self_iff (h : LowercaseLaws P.toLowercase) {s : String} :
    P.toLowercase s = s ↔ ∀ c ∈ s.toList, IsLower P c := by
  constructor
  · intro heq c hc
    exact h.image s c (by rw [heq]; exact hc)
  · exact h.fixed s

theorem toLowercase_toLowercase (h : LowercaseLaws P.toLowercase) (s : String) :
    P.toLowercase (P.toLowercase s) = P.toLowercase s :=
  h.fixed _ (h.image s)

theorem forall₂_mem_right {α β : Type} {R : α → β → Prop} {l : List α} {l' : List β}
    (h : List.Forall₂ R l l') : ∀ b ∈ l', ∃ a ∈ l, R a b := by
  induction h with
  | nil => simp
  | cons hab _ ih =>
    intro b hb
    rcases List.mem_cons.1 hb with rfl | hb
    · exact ⟨_, by simp, hab⟩
    · obtain ⟨a, ha, hR⟩ := ih b hb
      exact ⟨a, List.mem_cons_of_mem _ ha, hR⟩

/-- White space in a lowered text is white space of the text. -/
theorem white_of_toLowercase (h : LowercaseLaws P.toLowercase) {s : String} {c : Char}
    (hc : c ∈ (P.toLowercase s).toList) (hw : isWhiteSpace c = true) : c ∈ s.toList := by
  obtain ⟨parts, hparts, htext⟩ := h.chars s
  rw [htext] at hc
  obtain ⟨p, hp, hcp⟩ := List.mem_flatten.1 hc
  obtain ⟨d, hd, hform⟩ := forall₂_mem_right hparts p hp
  rw [hform.white c hcp hw]
  exact hd

theorem trimmed_flatten {t : Text} {parts : List Text} (h : List.Forall₂ LowerForm t parts)
    (ht : Trimmed t) : Trimmed parts.flatten := by
  constructor
  · cases h with
    | nil => simp
    | @cons d p t ps hd _ =>
      intro c hc
      rw [List.flatten_cons, List.head?_append_of_ne_nil _ hd.ne_nil] at hc
      by_contra hw
      have hcd := hd.white c (List.mem_of_mem_head? hc) (by simpa using hw)
      subst hcd
      exact hw (ht.1 c (by simp))
  · have hlast : (∀ c ∈ t.getLast?, isWhiteSpace c = false) →
        ∀ c ∈ parts.flatten.getLast?, isWhiteSpace c = false := by
      clear ht
      induction h with
      | nil => simp
      | @cons d p t ps hd hrest ih =>
        intro hwhite c hc
        rw [List.flatten_cons] at hc
        cases hrest with
        | nil =>
          simp only [List.flatten_nil, List.append_nil] at hc
          by_contra hw
          have hcd := hd.white c (List.mem_of_mem_getLast? hc) (by simpa using hw)
          subst hcd
          exact hw (hwhite c (by simp))
        | @cons d' p' t' ps' hd' hrest' =>
          have hne : (p' :: ps').flatten ≠ [] := by
            rw [List.flatten_cons]
            exact List.append_ne_nil_of_left_ne_nil hd'.ne_nil _
          rw [List.getLast?_append_of_ne_nil _ hne] at hc
          exact ih (fun e he => hwhite e (by simpa using he)) c hc
    exact hlast ht.2

theorem trimmed_toLowercase (h : LowercaseLaws P.toLowercase) {s : String} (hs : Trimmed s.toList) :
    Trimmed (P.toLowercase s).toList := by
  obtain ⟨parts, hparts, htext⟩ := h.chars s
  rw [htext]
  exact trimmed_flatten hparts hs

/-- A scheme is lowered by itself. -/
theorem schemeOf_toLowercase (h : LowercaseLaws P.toLowercase) {s scheme : String}
    (hs : schemeOf s = some scheme) (hchars : ∀ c ∈ scheme.toList, isSchemeChar c = true) :
    schemeOf (P.toLowercase s) = some (String.ofList (scheme.toList.map Char.toLower)) := by
  obtain ⟨hno, rest, hrest⟩ := schemeOf_eq_some.1 hs
  obtain ⟨parts, hparts, htext⟩ := h.chars s
  have hfront : ∀ (t : Text) (parts : List Text), (∀ c ∈ t, isSchemeChar c = true) →
      List.Forall₂ LowerForm (t ++ ':' :: rest) parts →
      ∃ rest', parts.flatten = t.map Char.toLower ++ ':' :: rest' := by
    intro t
    induction t with
    | nil =>
      intro parts _ hparts
      obtain ⟨p, ps, hp, -, rfl⟩ := List.forall₂_cons_left_iff.1 hparts
      have hcolon : p = [':'] := hp.ascii (by decide)
      rw [hcolon]
      exact ⟨ps.flatten, rfl⟩
    | cons c t ih =>
      intro parts hall hparts
      obtain ⟨p, ps, hp, hps, rfl⟩ := List.forall₂_cons_left_iff.1 hparts
      obtain ⟨rest', hrest'⟩ := ih ps (fun d hd => hall d (List.mem_cons_of_mem _ hd)) hps
      refine ⟨rest', ?_⟩
      rw [List.flatten_cons, hp.ascii (isScheme_ascii (hall c (by simp))), hrest']
      rfl
  rw [hrest] at hparts
  obtain ⟨rest', hrest'⟩ := hfront scheme.toList parts hchars hparts
  refine schemeOf_eq_some.2 ⟨?_, rest', by rw [htext, hrest', String.toList_ofList]⟩
  rw [String.toList_ofList]
  intro hmem
  obtain ⟨c, hc, hcolon⟩ := List.mem_map.1 hmem
  exact (toLower_scheme (hchars c hc)).2.1 hcolon

/-! ## Reading an identifier -/

/-- `scheme:rest` as an identifier: trimmed, without blanks, not an `http` URL. -/
structure Schemed (s : String) : Prop where
  trimmed : Trimmed s.toList
  no_blank : ' ' ∉ s.toList
  scheme : ∃ scheme, schemeOf s = some scheme ∧ scheme ≠ "" ∧ isHttp scheme = false ∧
    ∀ c ∈ scheme.toList, isSchemeChar c = true

theorem canonicalizeValue_of_schemed {s : String} (h : Schemed s) :
    (P.canonicalizeValue L s).1 = P.toLowercase s := by
  obtain ⟨scheme, hs, hne, hhttp, hchars⟩ := h.scheme
  have hall : scheme.toList.all isSchemeChar = true := List.all_eq_true.2 hchars
  simp only [Prims.canonicalizeValue, trim_eq_self h.trimmed, hs, hhttp, Bool.false_eq_true, if_false]
  rw [if_pos ⟨hne, h.no_blank, hall⟩]

theorem Schemed.toLowercase (h : LowercaseLaws P.toLowercase) {s : String} (hs : Schemed s) :
    Schemed (P.toLowercase s) := by
  obtain ⟨scheme, hscheme, hne, hhttp, hchars⟩ := hs.scheme
  refine ⟨trimmed_toLowercase h hs.trimmed, ?_, _, schemeOf_toLowercase h hscheme hchars, ?_, ?_, ?_⟩
  · intro hmem
    exact hs.no_blank (white_of_toLowercase h hmem (by decide))
  · intro hnil
    have hlist := congrArg String.toList hnil
    rw [String.toList_ofList] at hlist
    exact hne (String.toList_inj.1 (List.map_eq_nil_iff.1 hlist))
  · rw [isHttp_toLower hchars, String.ofList_toList]
    exact hhttp
  · intro c hc
    rw [String.toList_ofList] at hc
    obtain ⟨d, hd, rfl⟩ := List.mem_map.1 hc
    exact (toLower_scheme (hchars d hd)).1

theorem kind_no_white {kind : String} (hkind : kind = "url" ∨ kind = "concept") :
    ∀ c ∈ kind.toList ++ [':'], isWhiteSpace c = false := by
  have hall : (kind.toList ++ [':']).all (fun c => !isWhiteSpace c) = true := by
    rcases hkind with rfl | rfl <;> decide +kernel
  intro c hc
  simpa using List.all_eq_true.1 hall c hc

/-- A text after `url:` or `concept:`. -/
theorem schemed_prefixed {kind : String} (hkind : kind = "url" ∨ kind = "concept") {s : String}
    (hs : Trimmed s.toList) (hblank : ' ' ∉ s.toList) : Schemed (kind ++ ":" ++ s) := by
  have htext : (kind ++ ":" ++ s).toList = kind.toList ++ ':' :: s.toList := by simp
  have hkinds : kind ≠ "" ∧ isHttp kind = false ∧ ':' ∉ kind.toList := by
    rcases hkind with rfl | rfl <;> decide +kernel
  have hchars : ∀ c ∈ kind.toList, isSchemeChar c = true :=
    List.all_eq_true.1 (by rcases hkind with rfl | rfl <;> decide +kernel)
  obtain ⟨hne, hhttp, hcolon⟩ := hkinds
  have hwhite := kind_no_white hkind
  refine ⟨?_, ?_, kind, schemeOf_eq_some.2 ⟨hcolon, _, htext⟩, hne, hhttp, hchars⟩
  · rw [htext, List.append_cons]
    exact trimmed_append (by simp) hwhite hs
  · rw [htext, List.append_cons, List.mem_append, not_or]
    refine ⟨fun hmem => ?_, hblank⟩
    exact absurd (hwhite ' ' hmem) (by decide)

/-! ## Slugs -/

theorem mem_slug {s : String} {c : Char} (hc : c ∈ (P.slug s).toList) :
    c = '-' ∨ (c ∈ (P.toLowercase s).toList ∧ isWhiteSpace c = false) := by
  have hwords : ∀ w ∈ splitWhitespace (P.toLowercase s), ∀ c ∈ w.toList,
      c ∈ (P.toLowercase s).toList ∧ isWhiteSpace c = false := by
    intro w hw c hc
    obtain ⟨t, ht, rfl⟩ := List.mem_map.1 hw
    rw [String.toList_ofList] at hc
    exact mem_of_mem_splitOnP (List.mem_filter.1 ht).1 c hc
  have hjoin : ∀ ws : List String, c ∈ (String.intercalate "-" ws).toList →
      c = '-' ∨ ∃ w ∈ ws, c ∈ w.toList := by
    intro ws
    induction ws with
    | nil => simp
    | cons w ws ih =>
      intro hmem
      cases ws with
      | nil => exact Or.inr ⟨w, by simp, by simpa using hmem⟩
      | cons w' ws =>
        rw [String.intercalate_cons_cons, String.toList_append, String.toList_append, List.mem_append,
          List.mem_append] at hmem
        rcases hmem with (hmem | hmem) | hmem
        · exact Or.inr ⟨w, by simp, hmem⟩
        · exact Or.inl (by simpa using hmem)
        · rcases ih hmem with h | ⟨v, hv, hcv⟩
          · exact Or.inl h
          · exact Or.inr ⟨v, List.mem_cons_of_mem _ hv, hcv⟩
  rcases hjoin _ hc with h | ⟨w, hw, hcw⟩
  · exact Or.inl h
  · exact Or.inr (hwords w hw c hcw)

theorem slug_no_white {s : String} : ∀ c ∈ (P.slug s).toList, isWhiteSpace c = false := by
  intro c hc
  rcases mem_slug hc with rfl | ⟨-, hw⟩
  · decide
  · exact hw

theorem slug_isLower (h : LowercaseLaws P.toLowercase) {s : String} :
    ∀ c ∈ (P.slug s).toList, IsLower P c := by
  intro c hc
  rcases mem_slug hc with rfl | ⟨hmem, -⟩
  · exact isLower_ascii h (by decide) (by decide)
  · exact h.image s c hmem

theorem kind_isLower (h : LowercaseLaws P.toLowercase) {kind : String}
    (hkind : kind = "url" ∨ kind = "concept") : ∀ c ∈ (kind ++ ":").toList, IsLower P c := by
  have hall : (kind ++ ":").toList.all (fun c => c.toNat < 128 && c.toLower == c) = true := by
    rcases hkind with rfl | rfl <;> decide +kernel
  intro c hc
  have hc := List.all_eq_true.1 hall c hc
  simp only [Bool.and_eq_true, decide_eq_true_eq, beq_iff_eq] at hc
  exact isLower_ascii h hc.1 hc.2

theorem canonicalIdentifier_eq (h : LowercaseLaws P.toLowercase) {kind : String}
    (hkind : kind = "url" ∨ kind = "concept") (value : String) :
    P.canonicalIdentifier kind value = kind ++ ":" ++ trim value := by
  have htrim : trim kind = kind := by
    exact trim_eq_self (trimmed_of_no_white fun c hc => kind_no_white hkind c (by simp [hc]))
  have hlower : P.toLowercase kind = kind := by
    refine (toLowercase_eq_self_iff h).2 fun c hc => kind_isLower h hkind c ?_
    rw [String.toList_append]
    exact List.mem_append_left _ hc
  rw [Prims.canonicalIdentifier, htrim, hlower]

/-- The identifier of a URL. -/
theorem canonicalizeValue_url {v scheme url : String} (hs : schemeOf (trim v) = some scheme)
    (hhttp : isHttp scheme = true) (hurl : L.canonicalizeUrl (trim v) = .ok url) :
    (P.canonicalizeValue L v).1 = P.canonicalIdentifier "url" url := by
  simp only [Prims.canonicalizeValue, hs, hhttp, if_true, hurl]

/-- The identifier of anything else: a slug, or the text in lower case. -/
theorem canonicalizeValue_other {v : String}
    (hno : ¬ ∃ scheme url, schemeOf (trim v) = some scheme ∧ isHttp scheme = true ∧
      L.canonicalizeUrl (trim v) = .ok url) :
    (P.canonicalizeValue L v).1 = P.canonicalIdentifier "concept" (P.slug (trim v)) ∨
      (Schemed (trim v) ∧ (P.canonicalizeValue L v).1 = P.toLowercase (trim v)) := by
  unfold Prims.canonicalizeValue
  simp only
  cases hs : schemeOf (trim v) with
  | none => exact Or.inl rfl
  | some scheme =>
    simp only
    cases hhttp : isHttp scheme with
    | true =>
      cases hurl : L.canonicalizeUrl (trim v) with
      | ok url => exact absurd ⟨scheme, url, hs, hhttp, hurl⟩ hno
      | error e => exact Or.inl rfl
    | false =>
      simp only [Bool.false_eq_true, if_false]
      split
      · rename_i hcond
        obtain ⟨hne, hblank, hchars⟩ := hcond
        exact Or.inr ⟨⟨trimmed_trim v, hblank, scheme, hs, hne, hhttp, List.all_eq_true.1 hchars⟩, rfl⟩
      · exact Or.inl rfl

/-! ## Stability -/

/-- An identifier of a URL is read as it is, exactly when the canonical URL has
    no blank and is in lower case. -/
theorem url_identifier_stable_iff (h : LowercaseLaws P.toLowercase) (url : String) :
    (P.canonicalizeValue L (P.canonicalIdentifier "url" url)).1 = P.canonicalIdentifier "url" url ↔
      ' ' ∉ (trim url).toList ∧ P.toLowercase (trim url) = trim url := by
  rw [canonicalIdentifier_eq h (Or.inl rfl)]
  by_cases hblank : ' ' ∈ (trim url).toList
  · -- with a blank the identifier is taken for a phrase
    refine iff_of_false ?_ fun hcond => hcond.1 hblank
    intro heq
    have htrim : trim ("url" ++ ":" ++ trim url) = "url" ++ ":" ++ trim url := by
      refine trim_eq_self ?_
      rw [String.toList_append]
      exact trimmed_append (by simp) (fun c hc => kind_no_white (Or.inl rfl) c (by simpa using hc))
        (trimmed_trim url)
    have hscheme : schemeOf ("url" ++ ":" ++ trim url) = some "url" :=
      schemeOf_eq_some.2 ⟨by decide, (trim url).toList, by simp⟩
    have hconcept : (P.canonicalizeValue L ("url" ++ ":" ++ trim url)).1
        = P.canonicalIdentifier "concept" (P.slug ("url" ++ ":" ++ trim url)) := by
      have hhttp : isHttp "url" = false := by decide +kernel
      simp only [Prims.canonicalizeValue, htrim, hscheme, hhttp, Bool.false_eq_true, if_false]
      rw [if_neg]
      rintro ⟨-, hno, -⟩
      exact hno (by simp [hblank])
    rw [hconcept, canonicalIdentifier_eq h (Or.inr rfl)] at heq
    have hlist := congrArg String.toList heq
    simp at hlist
  · rw [canonicalizeValue_of_schemed (schemed_prefixed (Or.inl rfl) (trimmed_trim url) hblank),
      toLowercase_eq_self_iff h, toLowercase_eq_self_iff h]
    constructor
    · intro hall
      refine ⟨hblank, fun c hc => hall c ?_⟩
      rw [String.toList_append]
      exact List.mem_append_right _ hc
    · rintro ⟨-, hall⟩ c hc
      rw [String.toList_append] at hc
      rcases List.mem_append.1 hc with hc | hc
      · exact kind_isLower h (Or.inl rfl) c hc
      · exact hall c hc

theorem concept_identifier_stable (h : LowercaseLaws P.toLowercase) (s : String) :
    (P.canonicalizeValue L (P.canonicalIdentifier "concept" (P.slug s))).1
      = P.canonicalIdentifier "concept" (P.slug s) := by
  have htrimmed := trimmed_of_no_white (slug_no_white (P := P) (s := s))
  have hblank : ' ' ∉ (P.slug s).toList := fun hmem => absurd (slug_no_white ' ' hmem) (by decide)
  rw [canonicalIdentifier_eq h (Or.inr rfl), trim_eq_self htrimmed,
    canonicalizeValue_of_schemed (schemed_prefixed (Or.inr rfl) htrimmed hblank),
    toLowercase_eq_self_iff h]
  intro c hc
  rw [String.toList_append] at hc
  rcases List.mem_append.1 hc with hc | hc
  · exact kind_isLower h (Or.inr rfl) c hc
  · exact slug_isLower h c hc

/-- If the value is an `http` URL, then its canonical form has no blank and no
    character that lower case changes. -/
def LowerUrl (P : Prims H) (L : UrlLib U ε) (v : String) : Prop :=
  ∀ scheme url, schemeOf (trim v) = some scheme → isHttp scheme = true →
    L.canonicalizeUrl (trim v) = .ok url → ' ' ∉ (trim url).toList ∧ P.toLowercase (trim url) = trim url

/-- **Identifiers are stable.**  The identifier of a value has itself for its
    identifier, and so reaches the same node, if and only if the value is no
    URL whose canonical form is not in lower case. -/
theorem canonicalizeValue_stable_iff (P : Prims H) (L : UrlLib U ε) (h : LowercaseLaws P.toLowercase)
    (v : String) :
    ((P.canonicalizeValue L (P.canonicalizeValue L v).1).1 = (P.canonicalizeValue L v).1 ∧
      P.nodeId (P.canonicalizeValue L (P.canonicalizeValue L v).1).1
        = P.nodeId (P.canonicalizeValue L v).1) ↔
      LowerUrl P L v := by
  have hnode : ∀ s t : String, (s = t ∧ P.nodeId s = P.nodeId t) ↔ s = t :=
    fun s t => ⟨And.left, fun heq => ⟨heq, by rw [heq]⟩⟩
  rw [hnode]
  by_cases hurl : ∃ scheme url, schemeOf (trim v) = some scheme ∧ isHttp scheme = true ∧
      L.canonicalizeUrl (trim v) = .ok url
  · obtain ⟨scheme, url, hs, hhttp, hok⟩ := hurl
    rw [canonicalizeValue_url hs hhttp hok, url_identifier_stable_iff h]
    constructor
    · intro hcond scheme' url' _ _ hok'
      cases hok.symm.trans hok'
      exact hcond
    · intro hcond
      exact hcond scheme url hs hhttp hok
  · refine iff_of_true ?_ fun scheme url hs hhttp hok => absurd ⟨scheme, url, hs, hhttp, hok⟩ hurl
    rcases canonicalizeValue_other (P := P) hurl with hconcept | ⟨hschemed, hlower⟩
    · rw [hconcept]
      exact concept_identifier_stable h _
    · rw [hlower, canonicalizeValue_of_schemed (hschemed.toLowercase h), toLowercase_toLowercase h]

/-- A phrase. -/
theorem canonicalizeValue_stable_iff_phrase :
    ((idealOpen.canonicalizeValue idealUrl
        (idealOpen.canonicalizeValue idealUrl "Model Context Protocol").1).1
        = (idealOpen.canonicalizeValue idealUrl "Model Context Protocol").1 ∧
      idealOpen.nodeId (idealOpen.canonicalizeValue idealUrl
        (idealOpen.canonicalizeValue idealUrl "Model Context Protocol").1).1
        = idealOpen.nodeId (idealOpen.canonicalizeValue idealUrl "Model Context Protocol").1) ↔
      LowerUrl idealOpen idealUrl "Model Context Protocol" :=
  canonicalizeValue_stable_iff idealOpen idealUrl idealOpen_lowercase "Model Context Protocol"

/-- A page whose path has an upper-case letter. -/
def pathUrl : IdealUrl where
  host := "example.com".toList
  path := some "Path".toList
  query := none
  fragment := none
  host_free := IdealUrl.host_free_example
  path_free := IdealUrl.path_free_some (by decide +kernel)
  query_free := IdealUrl.query_free_none

theorem canonicalizeUrl_pathUrl :
    idealUrl.canonicalizeUrl "https://example.com/Path" = .ok "https://example.com/Path" := by
  have htext : pathUrl.toString = "https://example.com/Path" := by decide +kernel
  have hform := canonicalUrl_form idealUrl_laws pathUrl
  have hsame : idealUrl.canonicalUrl pathUrl = pathUrl := by
    refine idealUrl_laws.ext _ _ hform.front_eq ?_ ?_ ?_
    · rw [hform.path_eq, if_neg]
      change String.ofList ('/' :: "Path".toList) ≠ ""
      decide +kernel
    · rw [hform.query_eq]
      rfl
    · rw [hform.fragment_eq]
      rfl
  refine canonicalizeUrl_ok.2 ⟨pathUrl, ?_, ?_⟩
  · rw [← htext]
    exact idealUrl_laws.parse_toString pathUrl
  · rw [hsame]
    exact htext.symm

/-- The identifier of a URL, taken for a value again, loses the case of its path. -/
theorem canonicalizeValue_unstable :
    (idealOpen.canonicalizeValue idealUrl "https://example.com/Path").1 = "url:https://example.com/Path" ∧
    (idealOpen.canonicalizeValue idealUrl "url:https://example.com/Path").1
      = "url:https://example.com/path" := by
  have htrim : trim "https://example.com/Path" = "https://example.com/Path" := by decide +kernel
  have hscheme : schemeOf (trim "https://example.com/Path") = some "https" := by decide +kernel
  constructor
  · rw [canonicalizeValue_url hscheme (by decide +kernel) (by rw [htrim]; exact canonicalizeUrl_pathUrl),
      canonicalIdentifier_eq idealOpen_lowercase (Or.inl rfl), htrim]
    decide +kernel
  · have hschemed : Schemed "url:https://example.com/Path" := by
      have htext : "url:https://example.com/Path" = "url" ++ ":" ++ trim "https://example.com/Path" := by
        decide +kernel
      rw [htext]
      exact schemed_prefixed (Or.inl rfl) (trimmed_trim _) (by decide +kernel)
    rw [canonicalizeValue_of_schemed hschemed, idealOpen, ideal_toLowercase]
    decide +kernel

end OpenAgentGraph
