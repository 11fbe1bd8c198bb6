/-
  Canonical URLs.

  A query is decoded, filtered, and joined again as it was decoded, so what is
  written is not read as what was written: the pairs of two queries may be
  written alike, and a canonical URL may have another canonical form.
-/
import OpenAgentGraph.IdealUrl

namespace OpenAgentGraph

open Lib

variable {U ε B : Type} {L : UrlLib U ε} {front : U → B} {querySet : B → QuerySet}

/-! ## Components of a canonical URL -/

/-- The query that is stored for the pairs that are kept. -/
def storedQuery (Q : QuerySet) (l : List Pair) : Option String :=
  if l = [] then none else some (asciiText (Q.store (writeQuery l)))

theorem store_ascii (Q : QuerySet) (t : Text) : ∀ x ∈ Q.store t, x.toNat ≤ 127 := by
  intro x hx
  obtain ⟨c, -, hx⟩ := List.mem_flatMap.1 hx
  unfold QuerySet.storeChar at hx
  split at hx
  · cases hx
  split at hx
  · rename_i hl
    obtain rfl := List.mem_singleton.1 hx
    have hascii := Q.legal_ascii c hl
    rw [charByte_toNat hascii]
    omega
  · rcases mem_percentEncode hx with rfl | ⟨n, hn, rfl⟩
    · decide
    · exact (upperDigit_spec n hn).2.2.2.2

theorem storedQuery_inj (Q : QuerySet) {l l' : List Pair} :
    storedQuery Q l = storedQuery Q l' ↔ Q.Alike l l' := by
  have hascii : ∀ s t : Text, asciiText (Q.store s) = asciiText (Q.store t) ↔ Q.store s = Q.store t := by
    intro s t
    constructor
    · intro h
      have hbytes := congrArg utf8 h
      rwa [utf8_asciiText _ (store_ascii Q s), utf8_asciiText _ (store_ascii Q t)] at hbytes
    · exact congrArg asciiText
  rw [Q.alike_iff]
  cases l with
  | nil =>
    cases l' with
    | nil => simp
    | cons q l' => simp [storedQuery, (Q.store_writeQuery_ne_nil q l').symm]
  | cons p l =>
    cases l' with
    | nil => simp [storedQuery, Q.store_writeQuery_ne_nil p l]
    | cons q l' => simp only [storedQuery, reduceCtorEq, if_false, Option.some.injEq, hascii]

/-- The pairs of a stored query. -/
theorem filteredQuery_of_stored {u : U} {Q : QuerySet} {l : List Pair}
    (h : L.query u = storedQuery Q l) :
    L.filteredQuery u = (readQuery (Q.store (writeQuery l))).filter notTracking := by
  unfold UrlLib.filteredQuery UrlLib.queryPairs
  rw [h, storedQuery]
  split
  · rename_i hl
    rw [hl]
    rfl
  · rw [Option.getD_some, utf8_asciiText _ (store_ascii Q _)]

/-- What a canonical URL consists of. -/
structure CanonicalForm (L : UrlLib U ε) (front : U → B) (querySet : B → QuerySet) (u v : U) :
    Prop where
  front_eq : front v = front u
  path_ne : L.path v ≠ ""
  path_eq : L.path v = if L.path u = "" then L.path (L.setPath u "/") else L.path u
  query_eq : L.query v = storedQuery (querySet (front u)) (L.filteredQuery u)
  fragment_eq : L.fragment v = if L.fragment u = some "" then none else L.fragment u

theorem canonicalUrl_form (hL : L.Laws front querySet) (u : U) :
    CanonicalForm L front querySet u (L.canonicalUrl u) := by
  have hpath : ∃ v, (if L.path u = "" then L.setPath u "/" else u) = v ∧ front v = front u ∧
      L.path v ≠ "" ∧ (L.path v = if L.path u = "" then L.path (L.setPath u "/") else L.path u) ∧
      L.query v = L.query u ∧ L.fragment v = L.fragment u := by
    by_cases h : L.path u = ""
    · obtain ⟨hf, hp, hq, hfr⟩ := hL.setPath u
      exact ⟨_, rfl, by rw [if_pos h]; exact ⟨hf, hp, by rw [if_pos h], hq, hfr⟩⟩
    · exact ⟨_, rfl, by rw [if_neg h]; exact ⟨rfl, h, by rw [if_neg h], rfl, rfl⟩⟩
  obtain ⟨v, hv, hvf, hvp, hvp', hvq, hvfr⟩ := hpath
  have hfrag : ∃ w, (if L.fragment v = some "" then L.setFragment v none else v) = w ∧
      front w = front v ∧ L.path w = L.path v ∧ L.query w = L.query v ∧
      (L.fragment w = if L.fragment v = some "" then none else L.fragment v) := by
    by_cases h : L.fragment v = some ""
    · obtain ⟨hf, hp, hq, hfr⟩ := hL.setFragment v
      exact ⟨_, rfl, by rw [if_pos h]; exact ⟨hf, hp, hq, by rw [if_pos h, hfr]⟩⟩
    · exact ⟨_, rfl, by rw [if_neg h]; exact ⟨rfl, rfl, rfl, by rw [if_neg h]⟩⟩
  obtain ⟨w, hw, hwf, hwp, hwq, hwfr⟩ := hfrag
  have hkept : L.filteredQuery w = L.filteredQuery u := by
    unfold UrlLib.filteredQuery UrlLib.queryPairs
    rw [hwq, hvq]
  have hset : L.canonicalUrl u = L.setQuery w (if L.filteredQuery u = [] then none
      else some (String.ofList (writeQuery (L.filteredQuery u)))) := by
    unfold UrlLib.canonicalUrl
    simp only
    rw [hv, hw, hkept]
    split <;> rfl
  obtain ⟨hf, hp, hq, hfr⟩ := hL.setQuery w (if L.filteredQuery u = [] then none
      else some (String.ofList (writeQuery (L.filteredQuery u))))
  rw [hset]
  refine ⟨hf.trans (hwf.trans hvf), ?_, ?_, ?_, ?_⟩
  · rw [hp, hwp]
    exact hvp
  · rw [hp, hwp]
    exact hvp'
  · rw [hq, hwf, hvf, storedQuery]
    split <;> simp
  · rw [hfr, hwfr, hvfr]

theorem canonicalizeUrl_ok {raw c : String} :
    L.canonicalizeUrl raw = .ok c ↔ ∃ u, L.parse raw = .ok u ∧ c = L.toString (L.canonicalUrl u) := by
  unfold UrlLib.canonicalizeUrl
  cases h : L.parse raw with
  | error e => simp [Except.mapError, bind, Except.bind]
  | ok u => simp [Except.mapError, bind, Except.bind, pure, Except.pure, eq_comm]

theorem toString_inj (hL : L.Laws front querySet) {u v : U} : L.toString u = L.toString v ↔ u = v := by
  constructor
  · intro h
    have hparse := hL.parse_toString u
    rw [h, hL.parse_toString v] at hparse
    exact (Except.ok.inj hparse).symm
  · exact congrArg L.toString

/-- Canonical URLs are equal when their queries are, where the URLs differ in
    nothing else. -/
theorem canonicalUrl_eq_iff (hL : L.Laws front querySet) {u v : U} (hfront : front u = front v)
    (hpath : L.path (L.canonicalUrl u) = L.path (L.canonicalUrl v))
    (hfrag : L.fragment (L.canonicalUrl u) = L.fragment (L.canonicalUrl v)) :
    L.canonicalUrl u = L.canonicalUrl v ↔
      (querySet (front u)).Alike (L.filteredQuery u) (L.filteredQuery v) := by
  have hu := canonicalUrl_form hL u
  have hv := canonicalUrl_form hL v
  rw [← storedQuery_inj, ← hu.query_eq]
  constructor
  · intro h
    rw [h, hv.query_eq, hfront]
  · intro h
    refine hL.ext _ _ ?_ hpath ?_ hfrag
    · rw [hu.front_eq, hv.front_eq, hfront]
    · rw [h, hv.query_eq, hfront]

/-! ## Canonical twice -/

/-- Pairs that are alike to pairs which are kept and read as they are. -/
def Settled (Q : QuerySet) (l : List Pair) : Prop :=
  ∃ l', (∀ p ∈ l', Q.PlainPair p ∧ notTracking p = true) ∧ Q.Alike l l'

theorem filter_readQuery_alike_iff (Q : QuerySet) (l : List Pair) :
    Q.Alike ((readQuery (Q.store (writeQuery l))).filter notTracking) l ↔ Settled Q l := by
  constructor
  · intro h
    refine ⟨_, ?_, h.symm⟩
    intro p hp
    have hfixed : (readQuery (Q.store (writeQuery
        ((readQuery (Q.store (writeQuery l))).filter notTracking)))).filter notTracking
        = (readQuery (Q.store (writeQuery l))).filter notTracking := by
      rw [Q.alike_iff.1 h]
    exact ⟨Q.plain_of_fixed hfixed p hp, (List.mem_filter.1 hp).2⟩
  · rintro ⟨l', hplain, hlike⟩
    have hread : (readQuery (Q.store (writeQuery l))).filter notTracking = l' := by
      rw [Q.alike_iff.1 hlike, Q.readQuery_store fun p hp => (hplain p hp).1]
      exact List.filter_eq_self.2 fun p hp => (hplain p hp).2
    rw [hread]
    exact hlike.symm

theorem canonicalUrl_canonicalUrl_iff (hL : L.Laws front querySet) (u : U) :
    L.canonicalUrl (L.canonicalUrl u) = L.canonicalUrl u ↔
      Settled (querySet (front u)) (L.filteredQuery u) := by
  have hu := canonicalUrl_form hL u
  have hcc := canonicalUrl_form hL (L.canonicalUrl u)
  rw [canonicalUrl_eq_iff hL hu.front_eq, hu.front_eq, filteredQuery_of_stored hu.query_eq,
    filter_readQuery_alike_iff]
  · rw [hcc.path_eq, if_neg hu.path_ne]
  · rw [hcc.fragment_eq, if_neg]
    rw [hu.fragment_eq]
    split
    · simp
    · assumption

/-! ## The canonical form -/

/-- The URLs are equal but for their queries. -/
def SameButQuery (L : UrlLib U ε) (front : U → B) (u v : U) : Prop :=
  front u = front v ∧ L.path u = L.path v ∧ L.fragment u = L.fragment v

/-- **Canonical URLs.**  A canonical URL is its own canonical form if and only
    if its pairs are settled; two URLs that are equal but for their queries,
    and have different pairs, have different canonical forms if and only if
    their pairs are not alike. -/
theorem canonicalizeUrl_iff (hL : L.Laws front querySet) {raw₁ raw₂ : String} {u₁ u₂ : U}
    (h₁ : L.parse raw₁ = .ok u₁) (h₂ : L.parse raw₂ = .ok u₂) (hsame : SameButQuery L front u₁ u₂) :
    ((∀ c, L.canonicalizeUrl raw₁ = .ok c → L.canonicalizeUrl c = .ok c) ↔
      Settled (querySet (front u₁)) (L.filteredQuery u₁)) ∧
    ((L.filteredQuery u₁ ≠ L.filteredQuery u₂ → L.canonicalizeUrl raw₁ ≠ L.canonicalizeUrl raw₂) ↔
      (L.filteredQuery u₁ ≠ L.filteredQuery u₂ →
        ¬ (querySet (front u₁)).Alike (L.filteredQuery u₁) (L.filteredQuery u₂))) := by
  have hcanon : ∀ {raw u}, L.parse raw = .ok u →
      L.canonicalizeUrl raw = .ok (L.toString (L.canonicalUrl u)) :=
    fun h => canonicalizeUrl_ok.2 ⟨_, h, rfl⟩
  constructor
  · rw [← canonicalUrl_canonicalUrl_iff hL, ← toString_inj hL]
    constructor
    · intro h
      have htwice := h _ (hcanon h₁)
      rw [hcanon (hL.parse_toString _)] at htwice
      exact Except.ok.inj htwice
    · intro h c hc
      obtain ⟨u, hu, rfl⟩ := canonicalizeUrl_ok.1 hc
      obtain rfl : u₁ = u := Except.ok.inj (h₁.symm.trans hu)
      rw [hcanon (hL.parse_toString _), h]
  · obtain ⟨hfront, hpath, hfrag⟩ := hsame
    have heq : L.canonicalizeUrl raw₁ = L.canonicalizeUrl raw₂ ↔
        (querySet (front u₁)).Alike (L.filteredQuery u₁) (L.filteredQuery u₂) := by
      rw [hcanon h₁, hcanon h₂, Except.ok.injEq, toString_inj hL, canonicalUrl_eq_iff hL hfront]
      · rw [(canonicalUrl_form hL u₁).path_eq, (canonicalUrl_form hL u₂).path_eq, hpath,
          hL.path_setPath u₁ u₂ hfront]
      · rw [(canonicalUrl_form hL u₁).fragment_eq, (canonicalUrl_form hL u₂).fragment_eq, hfrag]
    rw [ne_eq (L.canonicalizeUrl raw₁), heq]

/-! ## Queries that are written alike -/

/-- A page with a query. -/
def pageUrl (query : Text) (h : '#' ∉ query) : IdealUrl where
  host := "example.com".toList
  path := some []
  query := some query
  fragment := none
  host_free := IdealUrl.host_free_example
  path_free := IdealUrl.path_free_some (by simp)
  query_free := IdealUrl.query_free_some h

theorem parse_pageUrl {query : Text} {h : '#' ∉ query} {raw : String}
    (hraw : (pageUrl query h).toString = raw) : idealUrl.parse raw = .ok (pageUrl query h) := by
  rw [← hraw]
  exact idealUrl_laws.parse_toString _

theorem sameButQuery_pageUrl {query query' : Text} {h : '#' ∉ query} {h' : '#' ∉ query'} :
    SameButQuery idealUrl IdealUrl.host (pageUrl query h) (pageUrl query' h') := ⟨rfl, rfl, rfl⟩

/-- The query of a page's canonical form is what is stored for the pairs. -/
theorem canonicalizeUrl_pageUrl {query query' : Text} {h : '#' ∉ query} {h' : '#' ∉ query'}
    {p : Pair} {l : List Pair} {raw raw' : String} (hraw : (pageUrl query h).toString = raw)
    (hraw' : (pageUrl query' h').toString = raw')
    (hpairs : (readQuery (utf8 (String.ofList query))).filter notTracking = p :: l)
    (hstored : specialQuery.storedText (writeQuery (p :: l)) = query') :
    idealUrl.canonicalizeUrl raw = .ok raw' := by
  refine canonicalizeUrl_ok.2 ⟨_, parse_pageUrl hraw, ?_⟩
  have hform := canonicalUrl_form idealUrl_laws (pageUrl query h)
  rw [← hraw']
  refine congrArg IdealUrl.toString (idealUrl_laws.ext _ _ hform.front_eq.symm ?_ ?_ ?_)
  · rw [hform.path_eq, if_neg]
    · rfl
    · change String.ofList ['/'] ≠ ""
      decide
  · have hkept : idealUrl.filteredQuery (pageUrl query h) = p :: l := hpairs
    rw [hform.query_eq, hkept, storedQuery, if_neg (by simp), asciiText, ← specialQuery.storedText_eq,
      hstored]
    rfl
  · rw [hform.fragment_eq]
    rfl

/-- The canonical form of an escaped escape has a canonical form of its own, and
    a value that contains a whole pair is written like two pairs. -/
theorem canonicalizeUrl_unsettled :
    (idealUrl.canonicalizeUrl "https://example.com/?a=%2541" = .ok "https://example.com/?a=%41" ∧
      idealUrl.canonicalizeUrl "https://example.com/?a=%41" = .ok "https://example.com/?a=A") ∧
    ∃ u₁ u₂, idealUrl.parse "https://example.com/?a=b%26c%3Dd" = .ok u₁ ∧
      idealUrl.parse "https://example.com/?a=b&c=d" = .ok u₂ ∧
      SameButQuery idealUrl IdealUrl.host u₁ u₂ ∧
      idealUrl.filteredQuery u₁ ≠ idealUrl.filteredQuery u₂ ∧
      idealUrl.canonicalizeUrl "https://example.com/?a=b%26c%3Dd"
        = idealUrl.canonicalizeUrl "https://example.com/?a=b&c=d" := by
  have h₁ : (pageUrl "a=%2541".toList (by decide)).toString = "https://example.com/?a=%2541" := by
    decide +kernel
  have h₂ : (pageUrl "a=%41".toList (by decide)).toString = "https://example.com/?a=%41" := by
    decide +kernel
  have h₃ : (pageUrl "a=A".toList (by decide)).toString = "https://example.com/?a=A" := by
    decide +kernel
  have h₄ : (pageUrl "a=b%26c%3Dd".toList (by decide)).toString = "https://example.com/?a=b%26c%3Dd" := by
    decide +kernel
  have h₅ : (pageUrl "a=b&c=d".toList (by decide)).toString = "https://example.com/?a=b&c=d" := by
    decide +kernel
  refine ⟨⟨?_, ?_⟩, _, _, parse_pageUrl h₄, parse_pageUrl h₅, sameButQuery_pageUrl, ?_, ?_⟩
  · exact canonicalizeUrl_pageUrl (p := ("a".toList, "%41".toList)) (l := []) h₁ h₂ (by decide +kernel)
      (by decide +kernel)
  · exact canonicalizeUrl_pageUrl (p := ("a".toList, "A".toList)) (l := []) h₂ h₃ (by decide +kernel)
      (by decide +kernel)
  · change (readQuery (utf8 (String.ofList "a=b%26c%3Dd".toList))).filter notTracking
      ≠ (readQuery (utf8 (String.ofList "a=b&c=d".toList))).filter notTracking
    decide +kernel
  · rw [canonicalizeUrl_pageUrl (p := ("a".toList, "b&c=d".toList)) (l := []) h₄ h₅ (by decide +kernel)
        (by decide +kernel),
      canonicalizeUrl_pageUrl (p := ("a".toList, "b".toList)) (l := [("c".toList, "d".toList)]) h₅ h₅
        (by decide +kernel) (by decide +kernel)]

/-- Two plain pairs, in either order, are kept apart, and stay as they are. -/
theorem canonicalizeUrl_iff_plain :
    ∃ u₁ u₂, idealUrl.parse "https://example.com/?a=b&c=d" = .ok u₁ ∧
      idealUrl.parse "https://example.com/?c=d&a=b" = .ok u₂ ∧
      ((∀ c, idealUrl.canonicalizeUrl "https://example.com/?a=b&c=d" = .ok c →
          idealUrl.canonicalizeUrl c = .ok c) ↔
        Settled specialQuery (idealUrl.filteredQuery u₁)) ∧
      ((idealUrl.filteredQuery u₁ ≠ idealUrl.filteredQuery u₂ →
          idealUrl.canonicalizeUrl "https://example.com/?a=b&c=d"
            ≠ idealUrl.canonicalizeUrl "https://example.com/?c=d&a=b") ↔
        (idealUrl.filteredQuery u₁ ≠ idealUrl.filteredQuery u₂ →
          ¬ specialQuery.Alike (idealUrl.filteredQuery u₁) (idealUrl.filteredQuery u₂))) := by
  have h₁ : (pageUrl "a=b&c=d".toList (by decide)).toString = "https://example.com/?a=b&c=d" := by
    decide +kernel
  have h₂ : (pageUrl "c=d&a=b".toList (by decide)).toString = "https://example.com/?c=d&a=b" := by
    decide +kernel
  exact ⟨_, _, parse_pageUrl h₁, parse_pageUrl h₂,
    canonicalizeUrl_iff idealUrl_laws (parse_pageUrl h₁) (parse_pageUrl h₂) sameButQuery_pageUrl⟩

end OpenAgentGraph
