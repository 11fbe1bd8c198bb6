/-
  The median of the largest cluster of a list of values.

  A cluster holds the values near one of them, its centre; of several largest
  clusters the first counts.

  * `around_length_le_largest`, `largest_eq_around`, `largest_of_first`: which
    cluster is taken.
  * `getElem?_lt_iff`, `middle_lt_iff`: where the middle of a list lies, by
    counting.
  * `clusterMedian_map`: a map that keeps nearness and order keeps the median.
  * `clusterMedian_perm_isSome`: whether there is a median does not depend on
    the order of the values.
-/
import OpenAgentGraph.Lib.Best

namespace Lib

open scoped List

section cluster

variable {α β : Type} (near : α → α → Bool)

/-- The values near `v`. -/
def around (values : List α) (v : α) : List α := values.filter fun o => near o v

/-- The first of the largest clusters. -/
def largest (values : List α) : List α :=
  values.foldl (fun best v =>
    if best.length < (around near values v).length then around near values v else best) []

/-- The middle element in the order `le`. -/
def middle (le : α → α → Bool) (l : List α) : Option α := (l.mergeSort le)[l.length / 2]?

/-- The middle of the largest cluster, if it has at least `n` elements. -/
def clusterMedian (le : α → α → Bool) (values : List α) (n : ℕ) : Option α :=
  if (largest near values).length < n then none else middle le (largest near values)

/-! ## The largest cluster -/

theorem largest_eq_around (values : List α) :
    largest near values = [] ∨ ∃ v ∈ values, largest near values = around near values v :=
  foldl_best_mem List.length (around near values) [] values

variable {near}

theorem around_length_le_largest {values : List α} {v : α} (hv : v ∈ values) :
    (around near values v).length ≤ (largest near values).length :=
  (le_foldl_best List.length (around near values) (fun _ _ h => h.le)
    (fun _ _ h => not_lt.1 h) [] values).2 v hv

theorem mem_around {values : List α} {v x : α} :
    x ∈ around near values v ↔ x ∈ values ∧ near x v = true := List.mem_filter

/-- The first value with the most values near it is the centre. -/
theorem largest_of_first {before after : List α} {c : α} (hc : near c c = true)
    (hbefore : ∀ v ∈ before, (around near (before ++ c :: after) v).length
      < (around near (before ++ c :: after) c).length)
    (hafter : ∀ v ∈ after, (around near (before ++ c :: after) v).length
      ≤ (around near (before ++ c :: after) c).length) :
    largest near (before ++ c :: after) = around near (before ++ c :: after) c := by
  have hpos : 0 < (around near (before ++ c :: after) c).length :=
    List.length_pos_of_mem (mem_around.2 ⟨by simp, hc⟩)
  refine foldl_best_first List.length (around near (before ++ c :: after)) hpos hbefore hafter

theorem length_around_perm {values values' : List α} (h : values ~ values') (v : α) :
    (around near values v).length = (around near values' v).length := (h.filter _).length_eq

/-- The size of the largest cluster does not depend on the order of the values. -/
theorem length_largest_le_of_perm {values values' : List α} (h : values ~ values') :
    (largest near values).length ≤ (largest near values').length := by
  rcases largest_eq_around near values with hnil | ⟨v, hv, heq⟩
  · simp [hnil]
  · rw [heq, length_around_perm h]
    exact around_length_le_largest (h.mem_iff.1 hv)

variable (near) in
theorem length_largest_perm {values values' : List α} (h : values ~ values') :
    (largest near values).length = (largest near values').length :=
  le_antisymm (length_largest_le_of_perm h) (length_largest_le_of_perm h.symm)

/-! ## The middle -/

theorem middle_isSome (le : α → α → Bool) {l : List α} (h : l ≠ []) : (middle le l).isSome = true := by
  have hpos := List.length_pos_iff.2 h
  rw [middle, List.getElem?_eq_getElem (by rw [List.length_mergeSort]; omega)]
  rfl

theorem middle_mem {le : α → α → Bool} {l : List α} {m : α} (h : middle le l = some m) : m ∈ l :=
  List.mem_mergeSort.1 (List.mem_of_getElem? h)

/-- In a sorted list, the entries below `x` are the first ones. -/
theorem getElem?_lt_iff [LinearOrder α] {s : List α} (hs : s.Pairwise (· ≤ ·)) {i : ℕ} {m : α}
    (h : s[i]? = some m) (x : α) : m < x ↔ i < s.countP fun y => decide (y < x) := by
  induction s generalizing i with
  | nil => simp at h
  | cons y s ih =>
    obtain ⟨hy, hs'⟩ := List.pairwise_cons.1 hs
    by_cases hyx : y < x
    · rw [List.countP_cons_of_pos (by simpa using hyx)]
      cases i with
      | zero =>
        simp only [List.getElem?_cons_zero, Option.some.injEq] at h
        simp [← h, hyx]
      | succ i =>
        rw [ih hs' (by simpa using h), Nat.add_lt_add_iff_right]
    · have hzero : (y :: s).countP (fun y => decide (y < x)) = 0 := by
        refine List.countP_eq_zero.2 ?_
        intro z hz
        rcases List.mem_cons.1 hz with rfl | hz
        · simpa using hyx
        · simpa using (not_lt.1 hyx).trans (hy z hz)
      rw [hzero]
      have hm : ¬ m < x := by
        rcases List.mem_cons.1 (List.mem_of_getElem? h) with rfl | hm
        · exact hyx
        · exact not_lt.2 ((not_lt.1 hyx).trans (hy m hm))
      simp [hm]

/-- The middle of a list lies below `x` iff more than half of it does. -/
theorem middle_lt_iff [LinearOrder α] {l : List α} {m : α}
    (h : middle (fun a b => decide (a ≤ b)) l = some m) (x : α) :
    m < x ↔ l.length / 2 < l.countP fun y => decide (y < x) := by
  have hsorted : (l.mergeSort fun a b => decide (a ≤ b)).Pairwise (· ≤ ·) := by
    have hp : (l.mergeSort fun a b => decide (a ≤ b)).Pairwise fun a b => decide (a ≤ b) = true := by
      refine List.pairwise_mergeSort ?_ ?_ l
      · intro a b c hab hbc
        simp only [decide_eq_true_eq] at hab hbc ⊢
        exact hab.trans hbc
      · intro a b
        simpa using le_total a b
    simpa using hp
  rw [getElem?_lt_iff hsorted h x, (List.mergeSort_perm l _).countP_eq]

/-! ## The median -/

theorem clusterMedian_eq_some {le : α → α → Bool} {values : List α} {n : ℕ} {m : α}
    (h : clusterMedian near le values n = some m) :
    ∃ c ∈ values, m ∈ around near values c ∧ n ≤ (around near values c).length ∧
      largest near values = around near values c := by
  rw [clusterMedian] at h
  by_cases hlen : (largest near values).length < n
  · simp [hlen] at h
  · rw [if_neg hlen] at h
    have hmem := middle_mem h
    rcases largest_eq_around near values with hnil | ⟨c, hc, heq⟩
    · rw [hnil] at hmem
      cases hmem
    · rw [heq] at hmem hlen
      exact ⟨c, hc, hmem, not_lt.1 hlen, heq⟩

theorem clusterMedian_isSome_iff {le : α → α → Bool} {values : List α} {n : ℕ} (hn : 1 ≤ n) :
    (clusterMedian near le values n).isSome = true ↔ n ≤ (largest near values).length := by
  rw [clusterMedian]
  by_cases hlen : (largest near values).length < n
  · simp [hlen]
  · rw [if_neg hlen]
    have hne : largest near values ≠ [] := by
      intro hnil
      simp only [hnil, List.length_nil] at hlen
      omega
    simp only [middle_isSome le hne, true_iff]
    exact not_lt.1 hlen

theorem clusterMedian_perm_isSome {le : α → α → Bool} {values values' : List α}
    (h : values ~ values') {n : ℕ} (hn : 1 ≤ n) :
    (clusterMedian near le values n).isSome = (clusterMedian near le values' n).isSome := by
  rw [Bool.eq_iff_iff, clusterMedian_isSome_iff hn, clusterMedian_isSome_iff hn, length_largest_perm near h]

/-! ## Another order of the values -/

/-- Two clusters of more than half of the values have a common member. -/
theorem clusters_meet {values : List α} {n : ℕ} {c c' : α} (hmaj : values.length < 2 * n)
    (hc : n ≤ (around near values c).length) (hc' : n ≤ (around near values c').length) :
    ∃ x ∈ values, near x c = true ∧ near x c' = true := by
  by_contra hcon
  push Not at hcon
  rw [around, ← List.countP_eq_length_filter] at hc hc'
  have hle : values.countP (fun o => near o c') ≤ values.countP (fun o => !near o c) := by
    refine List.countP_mono_left ?_
    intro x hx hx'
    by_contra hxc
    exact hcon x hx (by simpa using hxc) hx'
  have hsum := List.length_eq_countP_add_countP (fun o => near o c) (l := values)
  simp only [Bool.not_eq_true, Bool.decide_eq_false] at hsum
  omega

/-- The medians of two orders, with a majority required, are linked by three values. -/
theorem clusterMedian_perm_near {le : α → α → Bool} {values values' : List α} {n : ℕ} {m m' : α}
    (h : values ~ values') (hmaj : values.length < 2 * n)
    (hm : clusterMedian near le values n = some m) (hm' : clusterMedian near le values' n = some m') :
    ∃ c ∈ values, ∃ x ∈ values, ∃ c' ∈ values, m ∈ values ∧ m' ∈ values ∧
      near m c = true ∧ near x c = true ∧ near x c' = true ∧ near m' c' = true := by
  obtain ⟨c, hc, hmc, hlen, -⟩ := clusterMedian_eq_some hm
  obtain ⟨c', hc', hmc', hlen', -⟩ := clusterMedian_eq_some hm'
  rw [← length_around_perm h] at hlen'
  obtain ⟨x, hx, hxc, hxc'⟩ := clusters_meet hmaj hlen hlen'
  obtain ⟨hmv, hmc⟩ := mem_around.1 hmc
  obtain ⟨hmv', hmc'⟩ := mem_around.1 hmc'
  exact ⟨c, hc, x, hx, c', h.mem_iff.2 hc', hmv, h.mem_iff.2 hmv', hmc, hxc, hxc', hmc'⟩

section order

variable {le : α → α → Bool} (htrans : ∀ a b c, le a b = true → le b c = true → le a c = true)
  (htotal : ∀ a b, (le a b || le b a) = true)
  (hantisymm : ∀ a b, le a b = true → le b a = true → a = b)

include htrans htotal hantisymm

theorem middle_perm {l l' : List α} (h : l ~ l') : middle le l = middle le l' := by
  have hsort : l.mergeSort le = l'.mergeSort le := by
    refine List.Perm.eq_of_pairwise (fun a b _ _ => hantisymm a b)
      (List.pairwise_mergeSort htrans htotal l) (List.pairwise_mergeSort htrans htotal l') ?_
    exact ((List.mergeSort_perm l le).trans h).trans (List.mergeSort_perm l' le).symm
  rw [middle, middle, hsort, h.length_eq]

/-- Where all largest clusters hold the same values, the order does not matter. -/
theorem clusterMedian_perm {values values' : List α} (h : values ~ values')
    (hsame : ∀ c ∈ values, ∀ c' ∈ values,
      (around near values c).length = (largest near values).length →
      (around near values c').length = (largest near values).length →
      around near values c ~ around near values c') (n : ℕ) :
    clusterMedian near le values n = clusterMedian near le values' n := by
  have hperm : largest near values ~ largest near values' := by
    rcases largest_eq_around near values with hnil | ⟨c, hc, heq⟩
    · have hlen := length_largest_perm near h
      rw [hnil] at hlen ⊢
      rw [List.length_eq_zero_iff.1 hlen.symm]
    · rcases largest_eq_around near values' with hnil' | ⟨c', hc', heq'⟩
      · have hlen := length_largest_perm near h
        rw [hnil'] at hlen ⊢
        rw [List.length_eq_zero_iff.1 hlen]
      · have hback : around near values c' ~ around near values' c' := h.filter _
        have hlen := length_largest_perm near h
        rw [heq'] at hlen ⊢
        rw [heq]
        refine (hsame c hc c' (h.mem_iff.2 hc') (by rw [heq]) ?_).trans hback
        rw [hback.length_eq, hlen]
  rw [clusterMedian, clusterMedian, hperm.length_eq, middle_perm htrans htotal hantisymm hperm]

end order

/-! ## Maps -/

section map

variable {near' : β → β → Bool} {f : α → β} {values : List α}
  (hnear : ∀ a ∈ values, ∀ b ∈ values, near' (f a) (f b) = near a b)

include hnear

theorem around_map {v : α} (hv : v ∈ values) :
    around near' (values.map f) (f v) = (around near values v).map f := by
  rw [around, List.filter_map]
  congr 1
  exact List.filter_congr fun a ha => hnear a ha v hv

theorem largest_map : largest near' (values.map f) = (largest near values).map f := by
  -- by induction on the centres still to be tried, with any cluster kept so far
  have hfold : ∀ (centres best : List α), (∀ v ∈ centres, v ∈ values) →
      (centres.map f).foldl (fun best v => if best.length < (around near' (values.map f) v).length
        then around near' (values.map f) v else best) (best.map f)
      = (centres.foldl (fun best v => if best.length < (around near values v).length
        then around near values v else best) best).map f := by
    intro centres
    induction centres with
    | nil => intro best _; rfl
    | cons v centres ih =>
      intro best hsub
      have hv := around_map hnear (hsub v (by simp))
      rw [List.map_cons, List.foldl_cons, List.foldl_cons, hv, List.length_map, List.length_map,
        ← ih _ fun w hw => hsub w (by simp [hw])]
      split
      · rfl
      · rfl
  exact hfold values [] fun _ h => h

theorem clusterMedian_map {le : α → α → Bool} {le' : β → β → Bool}
    (hle : ∀ a ∈ values, ∀ b ∈ values, le a b = le' (f a) (f b)) (n : ℕ) :
    clusterMedian near' le' (values.map f) n = (clusterMedian near le values n).map f := by
  have hsub : ∀ a ∈ largest near values, a ∈ values := by
    intro a ha
    rcases largest_eq_around near values with hnil | ⟨c, -, heq⟩
    · rw [hnil] at ha
      cases ha
    · rw [heq] at ha
      exact (mem_around.1 ha).1
  rw [clusterMedian, clusterMedian, largest_map hnear, List.length_map]
  split
  · rfl
  · rw [middle, middle, List.length_map, ← List.map_mergeSort
      fun a ha b hb => hle a (hsub a ha) b (hsub b hb), List.getElem?_map]

end map

end cluster

end Lib
