/-
  An ideal instance of the URL library: `https` URLs with a host and no port,
  serialized as they are and parsed by what they are serialized to; and the
  laws of ASCII lower case.
-/
import OpenAgentGraph.Graph.Identifier
import OpenAgentGraph.Ideal

namespace OpenAgentGraph

open Lib

/-- A part of a URL after the character that introduces it. -/
def marked (c : Char) (part : Option Text) : Text := part.elim [] (c :: ·)

theorem marked_append_inj {c : Char} {a a' : Text} {o o' : Option Text} (ha : c ∉ a) (ha' : c ∉ a')
    (h : a ++ marked c o = a' ++ marked c o') : a = a' ∧ o = o' := by
  cases o with
  | none =>
    cases o' with
    | none => simpa [marked] using h
    | some t' =>
      have hmem : c ∈ a ++ marked c none := by
        rw [h]
        simp [marked]
      exact absurd (by simpa [marked] using hmem) ha
  | some t =>
    cases o' with
    | none =>
      have hmem : c ∈ a' ++ marked c none := by
        rw [← h]
        simp [marked]
      exact absurd (by simpa [marked] using hmem) ha'
    | some t' =>
      obtain ⟨rfl, rfl⟩ := split_first ha ha' h
      exact ⟨rfl, rfl⟩

theorem marked_injective (c : Char) : Function.Injective (marked c) := by
  intro o o' h
  cases o <;> cases o' <;> simp_all [marked]

theorem not_mem_marked {c d : Char} {part : Option Text} (hne : c ≠ d) (h : ∀ t, part = some t → c ∉ t) :
    c ∉ marked d part := by
  cases part with
  | none => simp [marked]
  | some t => simp [marked, hne, h t rfl]

/-- A URL with the parts of it that its serialization is cut at. -/
@[ext]
structure IdealUrl where
  host : Text
  path : Option Text
  query : Option Text
  fragment : Option Text
  host_free : '/' ∉ host ∧ '?' ∉ host ∧ '#' ∉ host
  path_free : ∀ t, path = some t → '?' ∉ t ∧ '#' ∉ t
  query_free : ∀ t, query = some t → '#' ∉ t

namespace IdealUrl

theorem host_free_example :
    '/' ∉ "example.com".toList ∧ '?' ∉ "example.com".toList ∧ '#' ∉ "example.com".toList := by
  decide +kernel

theorem path_free_some {path : Text} (h : '?' ∉ path ∧ '#' ∉ path) :
    ∀ t, some path = some t → '?' ∉ t ∧ '#' ∉ t := by
  rintro _ ⟨⟩
  exact h

theorem query_free_some {query : Text} (h : '#' ∉ query) : ∀ t, some query = some t → '#' ∉ t := by
  rintro _ ⟨⟩
  exact h

theorem query_free_none : ∀ t, (none : Option Text) = some t → '#' ∉ t := by
  rintro _ ⟨⟩

end IdealUrl

/-- The character may stand in the query of an `https` URL. -/
def isQueryChar (c : Char) : Bool :=
  33 ≤ c.toNat && c.toNat ≤ 126 && c != '"' && c != '#' && c != '<' && c != '>' && c != '\''

def specialQuery : QuerySet where
  legal := isQueryChar
  dropped c := decide (c ∈ ['\t', '\n', '\r'])
  legal_ascii c h := by
    simp only [isQueryChar, Bool.and_eq_true, decide_eq_true_eq] at h
    omega
  legal_marks c h := by
    simp only [List.mem_cons, List.not_mem_nil, or_false] at h
    rcases h with rfl | rfl | rfl | rfl <;> decide
  legal_digit c h := by
    have hrange : c.toNat < 128 := by
      simp only [Char.isAlphanum, Char.isAlpha, Char.isUpper, Char.isLower, Char.isDigit,
        Bool.or_eq_true, Bool.and_eq_true, decide_eq_true_eq, UInt32.le_iff_toNat_le] at h
      change c.val.toNat < 128
      rcases h with (h | h) | h
      · exact Nat.lt_of_le_of_lt h.2 (by decide)
      · exact Nat.lt_of_le_of_lt h.2 (by decide)
      · exact Nat.lt_of_le_of_lt h.2 (by decide)
    have hall : ∀ n : Fin 128, (Char.ofNat n).isAlphanum = true → isQueryChar (Char.ofNat n) = true := by
      decide +kernel
    have hc := hall ⟨c.toNat, hrange⟩
    simp only [Char.ofNat_toNat] at hc
    exact hc h
  dropped_control c h := of_decide_eq_true h
  dropped_illegal c h := by
    have hc := of_decide_eq_true h
    simp only [List.mem_cons, List.not_mem_nil, or_false] at hc
    rcases hc with rfl | rfl | rfl <;> decide

theorem hash_not_mem_storedText (t : Text) : '#' ∉ specialQuery.storedText t := by
  rw [specialQuery.storedText_eq]
  intro h
  obtain ⟨x, hx, heq⟩ := List.mem_map.1 h
  obtain ⟨c, -, hx⟩ := List.mem_flatMap.1 hx
  have hstore := specialQuery.byte_of_mem_storeChar hx
  rw [heq] at hstore
  have hlen := congrArg List.length hstore
  rw [List.length_singleton] at hlen
  exact absurd hlen (by decide)

namespace IdealUrl

def text (u : IdealUrl) : Text :=
  ((u.host ++ marked '/' u.path) ++ marked '?' u.query) ++ marked '#' u.fragment

theorem text_injective : Function.Injective text := by
  intro u v h
  have hhash : ∀ u : IdealUrl, '#' ∉ (u.host ++ marked '/' u.path) ++ marked '?' u.query := by
    intro u
    simp only [List.mem_append, not_or]
    exact ⟨⟨u.host_free.2.2, not_mem_marked (by decide) fun t ht => (u.path_free t ht).2⟩,
      not_mem_marked (by decide) u.query_free⟩
  have hmark : ∀ u : IdealUrl, '?' ∉ u.host ++ marked '/' u.path := by
    intro u
    simp only [List.mem_append, not_or]
    exact ⟨u.host_free.2.1, not_mem_marked (by decide) fun t ht => (u.path_free t ht).1⟩
  obtain ⟨hrest, hfragment⟩ := marked_append_inj (hhash u) (hhash v) h
  obtain ⟨hfront, hquery⟩ := marked_append_inj (hmark u) (hmark v) hrest
  obtain ⟨hhost, hpath⟩ := marked_append_inj u.host_free.1 v.host_free.1 hfront
  ext1
  · exact hhost
  · exact hpath
  · exact hquery
  · exact hfragment

def toString (u : IdealUrl) : String := "https://" ++ String.ofList u.text

theorem toString_injective : Function.Injective toString := by
  intro u v h
  have hlist := congrArg String.toList h
  simp only [toString, String.toList_append, String.toList_ofList, List.append_cancel_left_eq] at hlist
  exact text_injective hlist

end IdealUrl

open Classical in
/-- The ideal URL library. -/
noncomputable def idealUrl : UrlLib IdealUrl Unit where
  parse s := if h : ∃ u, IdealUrl.toString u = s then .ok h.choose else .error ()
  toString := IdealUrl.toString
  path u := String.ofList (marked '/' u.path)
  setPath u p :=
    { u with
      path := some ((p.toList.drop 1).filter fun c => c ≠ '?' ∧ c ≠ '#')
      path_free := by
        rintro _ ⟨⟩
        simp }
  fragment u := u.fragment.map String.ofList
  setFragment u f := { u with fragment := f.map String.toList }
  query u := u.query.map String.ofList
  setQuery u q :=
    { u with
      query := q.map fun t => specialQuery.storedText t.toList
      query_free := by
        intro t ht
        obtain ⟨s, -, rfl⟩ := Option.map_eq_some_iff.1 ht
        exact hash_not_mem_storedText _ }

open Classical in
theorem idealUrl_laws : idealUrl.Laws IdealUrl.host fun _ => specialQuery := by
  refine ⟨?_, ?_, ?_, ?_, ?_, ?_⟩
  · intro u v hhost hpath hquery hfragment
    have hpath' : marked '/' u.path = marked '/' v.path := String.ofList_injective hpath
    have hmap : Function.Injective (Option.map String.ofList) :=
      Option.map_injective fun _ _ h => String.ofList_injective h
    ext1
    · exact hhost
    · exact marked_injective '/' hpath'
    · exact hmap hquery
    · exact hmap hfragment
  · intro u
    have hex : ∃ v, IdealUrl.toString v = IdealUrl.toString u := ⟨u, rfl⟩
    change (if h : ∃ v, IdealUrl.toString v = IdealUrl.toString u then Except.ok h.choose
      else Except.error ()) = _
    rw [dif_pos hex, IdealUrl.toString_injective hex.choose_spec]
  · intro u
    exact ⟨rfl, by change String.ofList ['/'] ≠ ""; decide, rfl, rfl⟩
  · intro u v _
    rfl
  · intro u
    exact ⟨rfl, rfl, rfl, rfl⟩
  · intro u q
    refine ⟨rfl, rfl, ?_, rfl⟩
    cases q with
    | none => rfl
    | some t =>
      change some (String.ofList (specialQuery.storedText t.toList)) = _
      rw [specialQuery.storedText_eq]
      rfl

/-! ## ASCII lower case -/

theorem toLower_cases (c : Char) : c.toLower = c ∨ (c.toNat < 128 ∧ c.toLower.isAlpha = true) := by
  by_cases hc : c.toNat < 128
  · have hall : ∀ n : Fin 128, (Char.ofNat n).toLower = Char.ofNat n ∨
        (Char.ofNat n).toLower.isAlpha = true := by decide +kernel
    have h := hall ⟨c.toNat, hc⟩
    simp only [Char.ofNat_toNat] at h
    exact h.imp_right fun h => ⟨hc, h⟩
  · refine Or.inl ?_
    unfold Char.toLower
    split
    · rename_i h
      have hle : c.val.toNat ≤ 90 := UInt32.le_iff_toNat_le.1 h.2
      exact absurd (Nat.lt_of_le_of_lt hle (by decide)) hc
    · rfl

theorem toLower_toLower (c : Char) : c.toLower.toLower = c.toLower := by
  rcases toLower_cases c with h | ⟨hc, -⟩
  · rw [h, h]
  · have hall : ∀ n : Fin 128, (Char.ofNat n).toLower.toLower = (Char.ofNat n).toLower := by
      decide +kernel
    have h := hall ⟨c.toNat, hc⟩
    simpa only [Char.ofNat_toNat] using h

theorem asciiLowercase_laws : LowercaseLaws asciiLowercase := by
  refine ⟨?_, ?_, ?_⟩
  · intro s
    refine ⟨s.toList.map fun c => [c.toLower], ?_, ?_⟩
    · rw [List.forall₂_map_right_iff]
      refine List.forall₂_same.2 fun c _ => ⟨by simp, fun _ => rfl, ?_⟩
      intro d hd hw
      obtain rfl := List.mem_singleton.1 hd
      rcases toLower_cases c with h | ⟨hc, halpha⟩
      · exact h
      · have hall : ∀ n : Fin 128, (Char.ofNat n).toLower.isAlpha = true →
            isWhiteSpace (Char.ofNat n).toLower = false := by decide +kernel
        have h := hall ⟨c.toNat, hc⟩
        simp only [Char.ofNat_toNat] at h
        rw [h halpha] at hw
        cases hw
    · rw [asciiLowercase, String.toList_ofList]
      induction s.toList with
      | nil => rfl
      | cons c t ih => rw [List.map_cons, ih]; rfl
  · intro s c hc
    rw [asciiLowercase, String.toList_ofList] at hc
    obtain ⟨d, -, rfl⟩ := List.mem_map.1 hc
    rw [asciiLowercase, String.toList_ofList, List.map_cons, toLower_toLower]
    rfl
  · intro s hs
    have hid : ∀ c ∈ s.toList, c.toLower = c := by
      intro c hc
      have h := congrArg String.toList (hs c hc)
      rw [asciiLowercase, String.toList_ofList, String.toList_ofList] at h
      exact (List.cons.inj h).1
    rw [asciiLowercase]
    calc String.ofList (s.toList.map Char.toLower)
        = String.ofList (s.toList.map id) := congrArg _ (List.map_congr_left hid)
      _ = s := by rw [List.map_id, String.ofList_toList]

theorem idealOpen_lowercase : LowercaseLaws idealOpen.toLowercase := by
  rw [idealOpen, ideal_toLowercase]
  exact asciiLowercase_laws

end OpenAgentGraph
