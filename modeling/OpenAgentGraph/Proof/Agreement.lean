/-
  What the answer of a quorum over pages says about the outcomes of the
  fan-out.

  * `httpGroups_eq`: the groups are the pages of each content hash, in the
    order of the outcomes.
  * `http_agreement_iff`: when an answer is the page of `min_agree` outcomes.
    The groups compare content hashes only, which every responder declares
    itself.
-/
import OpenAgentGraph.Proof.Quorum

namespace OpenAgentGraph

open Lib
open scoped List

/-! ## The groups -/

/-- The page of an outcome, if its content hash is `hash`. -/
def PeerOutcome.pageWith (hash : String) : PeerOutcome → Option GatewayResult
  | .ok (.http status h body cc) => if h = hash then some (.http status h body cc) else none
  | _ => none

/-- The pages with one content hash, in the order of the outcomes. -/
def pagesWith (hash : String) (outcomes : List PeerOutcome) : List GatewayResult :=
  outcomes.filterMap (PeerOutcome.pageWith hash)

theorem pagesWith_length (hash : String) (outcomes : List PeerOutcome) :
    (pagesWith hash outcomes).length = outcomes.countP (PeerOutcome.hashes hash) := by
  rw [pagesWith, List.length_filterMap_eq_countP]
  refine List.countP_congr ?_
  intro o _
  rcases o with e | (t | ⟨status, h, body, cc⟩)
  · simp [PeerOutcome.pageWith, PeerOutcome.hashes]
  · simp [PeerOutcome.pageWith, PeerOutcome.hashes]
  · by_cases heq : h = hash
    · simp [PeerOutcome.pageWith, PeerOutcome.hashes, heq]
    · simp [PeerOutcome.pageWith, PeerOutcome.hashes, heq]

theorem mem_pagesWith {hash : String} {outcomes : List PeerOutcome} {r : GatewayResult} :
    r ∈ pagesWith hash outcomes ↔ .ok r ∈ outcomes ∧ r.contentHash? = some hash := by
  rw [pagesWith, List.mem_filterMap]
  constructor
  · rintro ⟨o, ho, h⟩
    rcases o with e | (t | ⟨status, h', body, cc⟩)
    · cases h
    · cases h
    · by_cases heq : h' = hash
      · simp only [PeerOutcome.pageWith, heq, if_true, Option.some.injEq] at h
        exact ⟨h ▸ heq ▸ ho, h ▸ rfl⟩
      · simp [PeerOutcome.pageWith, heq] at h
  · rintro ⟨ho, h⟩
    cases r with
    | ntp t => cases h
    | http status h' body cc =>
      cases h
      exact ⟨_, ho, by simp [PeerOutcome.pageWith]⟩

theorem pushGroup_map {keys : List String} (hnd : keys.Nodup) (pages : String → List GatewayResult)
    (hash : String) (hnew : hash ∉ keys → pages hash = []) (r : GatewayResult) :
    pushGroup hash r (keys.map fun h => (h, pages h))
      = (if hash ∈ keys then keys else keys ++ [hash]).map
          fun h => (h, if h = hash then pages h ++ [r] else pages h) := by
  induction keys with
  | nil => simp [pushGroup, hnew]
  | cons k keys ih =>
    obtain ⟨hk, hnd'⟩ := List.nodup_cons.1 hnd
    by_cases heq : k = hash
    · subst heq
      have hrest : keys.map (fun h => (h, pages h))
          = keys.map fun h => (h, if h = k then pages h ++ [r] else pages h) := by
        refine List.map_congr_left ?_
        intro h hh
        have hne : h ≠ k := fun heq => hk (heq ▸ hh)
        simp [hne]
      simp only [List.map_cons, pushGroup, if_true, List.mem_cons, true_or]
      rw [hrest]
    · have hiff : hash ∈ k :: keys ↔ hash ∈ keys := by simp [Ne.symm heq]
      rw [List.map_cons, pushGroup, if_neg heq, ih hnd' fun h => hnew (mt hiff.1 h)]
      by_cases hin : hash ∈ keys
      · simp [hin, heq]
      · simp [hin, heq, Ne.symm heq]

theorem pagesWith_push {hash : String} {outcomes : List PeerOutcome} {status : UInt16} {h : String}
    {body : Bytes} {cc : Option String} :
    pagesWith h (outcomes ++ [.ok (.http status hash body cc)])
      = if h = hash then pagesWith h outcomes ++ [.http status hash body cc]
        else pagesWith h outcomes := by
  rw [pagesWith, List.filterMap_append]
  by_cases heq : h = hash
  · simp [heq, PeerOutcome.pageWith, pagesWith]
  · simp [heq, PeerOutcome.pageWith, Ne.symm heq, pagesWith]

theorem httpGroups_eq (outcomes : List PeerOutcome) :
    ∃ keys : List String, keys.Nodup ∧ (∀ h, h ∈ keys ↔ pagesWith h outcomes ≠ []) ∧
      httpGroups outcomes = keys.map fun h => (h, pagesWith h outcomes) := by
  induction outcomes using List.reverseRecOn with
  | nil => exact ⟨[], by simp, by simp [pagesWith], rfl⟩
  | append_singleton outcomes o ih =>
    obtain ⟨keys, hnd, hkeys, heq⟩ := ih
    rcases o with e | (t | ⟨status, hash, body, cc⟩)
    · refine ⟨keys, hnd, ?_, ?_⟩
      · simpa [pagesWith, PeerOutcome.pageWith] using hkeys
      · rw [httpGroups, List.foldl_append, ← httpGroups, heq]
        simp [pagesWith, PeerOutcome.pageWith]
    · refine ⟨keys, hnd, ?_, ?_⟩
      · simpa [pagesWith, PeerOutcome.pageWith] using hkeys
      · rw [httpGroups, List.foldl_append, ← httpGroups, heq]
        simp [pagesWith, PeerOutcome.pageWith]
    · refine ⟨if hash ∈ keys then keys else keys ++ [hash], ?_, ?_, ?_⟩
      · split
        · exact hnd
        · next hin => exact hnd.append (List.nodup_singleton _) (List.disjoint_singleton.2 hin)
      · intro h
        rw [pagesWith_push]
        by_cases hh : h = hash
        · subst hh
          by_cases hin : h ∈ keys
          · simp [hin]
          · simp [hin]
        · rw [if_neg hh, ← hkeys h]
          by_cases hin : hash ∈ keys
          · simp [hin]
          · simp [hin, hh]
      · have hnew : hash ∉ keys → pagesWith hash outcomes = [] := by
          intro hin
          by_contra hne
          exact hin ((hkeys hash).2 hne)
        rw [httpGroups, List.foldl_append, ← httpGroups, heq]
        simp only [List.foldl_cons, List.foldl_nil]
        rw [pushGroup_map hnd _ _ hnew]
        simp only [pagesWith_push]

/-! ## The answer -/

/-- No content hash has more pages. -/
def MostPages (outcomes : List PeerOutcome) (hash : String) : Prop :=
  ∀ h, (pagesWith h outcomes).length ≤ (pagesWith hash outcomes).length

theorem longestGroup_le {groups : List (String × List GatewayResult)}
    {g : String × List GatewayResult} (h : longestGroup groups = some g) :
    ∀ g' ∈ groups, g'.2.length ≤ g.2.length := by
  cases groups with
  | nil => cases h
  | cons g₀ groups =>
    cases h
    obtain ⟨hstart, hrest⟩ := le_foldl_best (r := (· ≤ ·))
      (fun g : String × List GatewayResult => g.2.length) id (fun _ _ h => h)
      (fun _ _ h => (not_le.1 h).le) g₀ groups
    intro g' hg'
    rcases List.mem_cons.1 hg' with rfl | hg'
    · exact hstart
    · exact hrest g' hg'

/-- The group that wins holds the pages of a content hash with the most of them. -/
theorem longestGroup_spec {order : GroupOrder} {outcomes : List PeerOutcome} {hash : String}
    {group : List GatewayResult}
    (h : longestGroup (order.order (httpGroups outcomes)) = some (hash, group)) :
    group = pagesWith hash outcomes ∧ group ≠ [] ∧ MostPages outcomes hash := by
  obtain ⟨keys, -, hkeys, heq⟩ := httpGroups_eq outcomes
  have hmem := (order.perm _).mem_iff.1 (longestGroup_mem h)
  rw [heq] at hmem
  obtain ⟨k, hk, hkeq⟩ := List.mem_map.1 hmem
  cases hkeq
  refine ⟨rfl, (hkeys _).1 hk, ?_⟩
  intro h'
  by_cases hnil : pagesWith h' outcomes = []
  · simp [hnil]
  · refine longestGroup_le h (h', pagesWith h' outcomes) ((order.perm _).mem_iff.2 ?_)
    rw [heq]
    exact List.mem_map.2 ⟨h', (hkeys h').2 hnil, rfl⟩

theorem longestGroup_isSome {groups : List (String × List GatewayResult)} (h : groups ≠ []) :
    ∃ g, longestGroup groups = some g := by
  cases groups with
  | nil => exact absurd rfl h
  | cons g groups => exact ⟨_, rfl⟩

/-- The answer is the first page of a content hash with the most pages. -/
theorem aggregateHttp_spec {order : GroupOrder} {outcomes : List PeerOutcome} {n : ℕ}
    {r : GatewayResult} (h : aggregateHttp order outcomes n = .ok r) :
    ∃ hash, MostPages outcomes hash ∧ n ≤ (pagesWith hash outcomes).length ∧
      (pagesWith hash outcomes).head? = some r := by
  rw [aggregateHttp] at h
  cases hg : longestGroup (order.order (httpGroups outcomes)) with
  | none =>
    rw [hg] at h
    cases h
  | some g =>
    obtain ⟨hash, group⟩ := g
    obtain ⟨rfl, -, hmost⟩ := longestGroup_spec hg
    rw [hg] at h
    by_cases hmin : (pagesWith hash outcomes).length < n
    · simp only [if_pos hmin] at h
      cases h
    · simp only [if_neg hmin] at h
      refine ⟨hash, hmost, not_lt.1 hmin, ?_⟩
      cases hp : pagesWith hash outcomes with
      | nil =>
        rw [hp] at h
        cases h
      | cons r' group =>
        rw [hp] at h
        cases h
        rfl

/-- There is no answer iff no content hash has enough pages. -/
theorem aggregateHttp_error_iff {order : GroupOrder} {outcomes : List PeerOutcome} {n : ℕ}
    (hn : 1 ≤ n) : aggregateHttp order outcomes n = .error (.error .noQuorum) ↔
      ∀ hash, (pagesWith hash outcomes).length < n := by
  rw [aggregateHttp]
  obtain ⟨keys, -, hkeys, heq⟩ := httpGroups_eq outcomes
  cases hg : longestGroup (order.order (httpGroups outcomes)) with
  | none =>
    simp only [true_iff]
    intro hash
    have hnil : pagesWith hash outcomes = [] := by
      by_contra hne
      have hmem : (hash, pagesWith hash outcomes) ∈ order.order (httpGroups outcomes) := by
        refine (order.perm _).mem_iff.2 ?_
        rw [heq]
        exact List.mem_map.2 ⟨hash, (hkeys hash).2 hne, rfl⟩
      obtain ⟨g, hsome⟩ := longestGroup_isSome (List.ne_nil_of_mem hmem)
      rw [hg] at hsome
      cases hsome
    rw [hnil]
    exact hn
  | some g =>
    obtain ⟨hash, group⟩ := g
    obtain ⟨rfl, hne, hmost⟩ := longestGroup_spec hg
    by_cases hmin : (pagesWith hash outcomes).length < n
    · simp only [if_pos hmin, true_iff]
      exact fun h => (hmost h).trans_lt hmin
    · simp only [if_neg hmin]
      cases hp : pagesWith hash outcomes with
      | nil => exact absurd hp hne
      | cons r group =>
        constructor
        · intro h
          cases h
        · intro h
          exact absurd (h hash) hmin

theorem aggregateHttp_total (order : GroupOrder) (outcomes : List PeerOutcome) {n : ℕ} (hn : 1 ≤ n) :
    aggregateHttp order outcomes n = .error (.error .noQuorum) ∨
      ∃ r, aggregateHttp order outcomes n = .ok r := by
  rw [aggregateHttp]
  cases longestGroup (order.order (httpGroups outcomes)) with
  | none => exact Or.inl rfl
  | some g =>
    obtain ⟨hash, group⟩ := g
    by_cases hmin : group.length < n
    · exact Or.inl (by simp only [if_pos hmin])
    · simp only [if_neg hmin]
      cases group with
      | nil =>
        simp only [List.length_nil] at hmin
        omega
      | cons r group => exact Or.inr ⟨r, rfl⟩

/-- The iteration order that comes to the group of `hash` last. -/
def GroupOrder.last (hash : String) : GroupOrder where
  order m := m.filter (fun g => !decide (g.1 = hash)) ++ m.filter (fun g => decide (g.1 = hash))
  perm m := List.perm_append_comm.trans (List.filter_append_perm _ m)

theorem longestGroup_append_singleton {groups : List (String × List GatewayResult)}
    {g : String × List GatewayResult} (h : ∀ g' ∈ groups, g'.2.length ≤ g.2.length) :
    longestGroup (groups ++ [g]) = some g := by
  cases groups with
  | nil => rfl
  | cons g₀ groups =>
    rw [List.cons_append, longestGroup, List.foldl_append, List.foldl_cons, List.foldl_nil, if_pos]
    exact h _ (longestGroup_mem rfl)

/-- Each content hash with the most pages, and enough of them, wins in some order. -/
theorem aggregateHttp_last {outcomes : List PeerOutcome} {n : ℕ} {hash : String} {r : GatewayResult}
    (hmost : MostPages outcomes hash) (hlen : n ≤ (pagesWith hash outcomes).length)
    (hhead : (pagesWith hash outcomes).head? = some r) :
    aggregateHttp (GroupOrder.last hash) outcomes n = .ok r := by
  obtain ⟨keys, hnd, hkeys, heq⟩ := httpGroups_eq outcomes
  have hin : hash ∈ keys := by
    refine (hkeys hash).2 ?_
    intro hnil
    simp [hnil] at hhead
  have hgroup : (httpGroups outcomes).filter (fun g => decide (g.1 = hash))
      = [(hash, pagesWith hash outcomes)] := by
    rw [heq, List.filter_map]
    have hfil : keys.filter ((fun g : String × List GatewayResult => decide (g.1 = hash)) ∘
        fun h => (h, pagesWith h outcomes)) = [hash] := by
      have hfun : ((fun g : String × List GatewayResult => decide (g.1 = hash)) ∘
          fun h => (h, pagesWith h outcomes)) = (· == hash) := by
        funext h
        rw [Bool.eq_iff_iff]
        simp
      rw [hfun, List.filter_beq, List.count_eq_one_of_mem hnd hin]
      rfl
    rw [hfil]
    rfl
  have hlong : longestGroup ((GroupOrder.last hash).order (httpGroups outcomes))
      = some (hash, pagesWith hash outcomes) := by
    simp only [GroupOrder.last, hgroup]
    refine longestGroup_append_singleton ?_
    intro g hg
    have hmem := (List.mem_filter.1 hg).1
    rw [heq] at hmem
    obtain ⟨h, -, rfl⟩ := List.mem_map.1 hmem
    exact hmost h
  rw [aggregateHttp, hlong]
  simp only [if_neg (not_lt.2 hlen)]
  cases hp : pagesWith hash outcomes with
  | nil => simp [hp] at hhead
  | cons r' group =>
    rw [hp] at hhead
    cases hhead
    rfl

/-! ## Agreement on the page -/

/-- The outcome is a page with the same status, body and `Cache-Control`. -/
def PeerOutcome.samePage : GatewayResult → PeerOutcome → Bool
  | .http status _ body cc, .ok (.http status' _ body' cc') =>
    decide (status' = status) && decide (body' = body) && decide (cc' = cc)
  | _, _ => false

/-- Every answer, in whatever order the map of the groups is iterated, is the
    page of at least `n` outcomes. -/
def AgreesOnPage (url : String) (outcomes : List PeerOutcome) (tolerance : Int64) (n : ℕ) : Prop :=
  ∀ order r, aggregateQuorum order (.http url) outcomes tolerance n = .ok r →
    n ≤ outcomes.countP (PeerOutcome.samePage r)

/-- The groups are honest where it matters: where a content hash has the most
    pages, and enough of them, its first page is that of at least `n`
    outcomes. -/
def FirstPageBacked (outcomes : List PeerOutcome) (n : ℕ) : Prop :=
  ∀ hash, MostPages outcomes hash → n ≤ (pagesWith hash outcomes).length →
    ∀ first ∈ (pagesWith hash outcomes).head?, n ≤ outcomes.countP (PeerOutcome.samePage first)

/-- **Agreement on a page.** -/
theorem http_agreement_iff (url : String) (outcomes : List PeerOutcome) (tolerance : Int64) (n : ℕ) :
    AgreesOnPage url outcomes tolerance n ↔ FirstPageBacked outcomes n := by
  constructor
  · intro h hash hmost hlen first hfirst
    exact h (GroupOrder.last hash) first (aggregateHttp_last hmost hlen hfirst)
  · intro h order r hr
    obtain ⟨hash, hmost, hlen, hhead⟩ := aggregateHttp_spec hr
    exact h hash hmost hlen r hhead

/-- Two pages that share a content hash and nothing else. -/
def forgedPages : List PeerOutcome :=
  [.ok (.http 200 "h" [1] none), .ok (.http 500 "h" [2] (some "no-store"))]

/-- One forged page is served as the answer of two peers. -/
theorem forged_page_served : ¬ AgreesOnPage "http://example.com" forgedPages 1000 2 := by
  intro h
  have hserved := h ⟨id, List.Perm.refl⟩ (.http 200 "h" [1] none) rfl
  exact absurd hserved (by decide)

end OpenAgentGraph
