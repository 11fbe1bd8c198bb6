/-
  What the answer of a quorum over times says about the outcomes of the
  fan-out.

  The code compares times in 64-bit arithmetic that wraps around;
  `aggregateExact` is the same computation in integers.

  * `timeOf_aggregateQuorum`: the two agree where no difference of two times
    overflows.
  * `ntp_agreement_iff`: when the answer is one of `min_agree` times that are
    pairwise within the tolerance.  A cluster only bounds the distance to its
    centre.
  * `ntp_byzantine_bound`: what fewer than `min_agree` dishonest times can do.
  * `quorum_order`: what the order of the outcomes can change, for times and
    for pages.
-/
import OpenAgentGraph.Lib.Cluster
import OpenAgentGraph.Proof.Agreement

namespace OpenAgentGraph

open Lib
open scoped List

/-! ## Exact arithmetic -/

/-- The distance of two integers is at most `t`. -/
def within (t o v : ℤ) : Bool := decide (|o - v| ≤ t)

/-- The aggregation of times, in integers. -/
def aggregateExact (values : List ℤ) (t : ℤ) (minAgree : ℕ) : Option ℤ :=
  clusterMedian (within t) (fun a b => decide (a ≤ b)) values minAgree

/-- No difference of two of the times leaves the range of an `i64`. -/
def NoOverflow (values : List Int64) : Prop :=
  ∀ a ∈ values, ∀ b ∈ values, |a.toInt - b.toInt| < 2 ^ 63

/-- Times after the epoch. -/
theorem NoOverflow.of_nonneg {values : List Int64} (h : ∀ a ∈ values, 0 ≤ a) : NoOverflow values := by
  intro a ha b hb
  have ha0 := Int64.le_iff_toInt_le.1 (h a ha)
  have hb0 := Int64.le_iff_toInt_le.1 (h b hb)
  have ha1 := a.toInt_lt
  have hb1 := b.toInt_lt
  rw [Int64.toInt_zero] at ha0 hb0
  rw [abs_lt]
  omega

/-- The times of the outcomes, as integers. -/
def exactValues (outcomes : List PeerOutcome) : List ℤ := (ntpValues outcomes).map Int64.toInt

@[simp] theorem within_eq_true {t o v : ℤ} : within t o v = true ↔ |o - v| ≤ t := decide_eq_true_iff

theorem toInt_absDiff {a b : Int64} (h : |a.toInt - b.toInt| < 2 ^ 63) :
    (absDiff a b).toInt = |a.toInt - b.toInt| := by
  obtain ⟨hlo, hhi⟩ := abs_lt.1 h
  have hsub : (a - b).toInt = a.toInt - b.toInt := by
    rw [Int64.toInt_sub]
    refine Int.bmod_eq_of_le ?_ ?_
    · norm_num
      omega
    · norm_num
      omega
  have hmin : (a - b).toBitVec ≠ BitVec.intMin 64 := by
    intro heq
    have hint : (a - b).toInt = -2 ^ 63 := by
      rw [← Int64.toInt_toBitVec, heq]
      decide
    omega
  calc (absDiff a b).toInt = ((a - b).toBitVec.abs).toInt := rfl
    _ = ((a - b).toBitVec.toInt.natAbs : ℤ) := BitVec.toInt_abs_eq_natAbs_of_ne_intMin hmin
    _ = |a.toInt - b.toInt| := by rw [Int64.toInt_toBitVec, hsub, Int.natCast_natAbs]

theorem absDiff_le_iff {a b tolerance : Int64} (h : |a.toInt - b.toInt| < 2 ^ 63) :
    absDiff a b ≤ tolerance ↔ |a.toInt - b.toInt| ≤ tolerance.toInt := by
  rw [Int64.le_iff_toInt_le, toInt_absDiff h]

/-- The aggregation of times by the code, as the median of a cluster. -/
def clusterNtp (tolerance : Int64) (values : List Int64) (minAgree : ℕ) : Option Int64 :=
  clusterMedian (fun o v => decide (absDiff o v ≤ tolerance)) (fun a b => decide (a ≤ b)) values minAgree

theorem aggregateNtp_eq {outcomes : List PeerOutcome} {tolerance : Int64} {n : ℕ} (hn : 1 ≤ n) :
    aggregateNtp outcomes tolerance n
      = match clusterNtp tolerance (ntpValues outcomes) n with
        | some m => .ok (.ntp m)
        | none => .error (.error .noQuorum) := by
  have hbest : bestCluster tolerance (ntpValues outcomes)
      = largest (fun o v => decide (absDiff o v ≤ tolerance)) (ntpValues outcomes) := rfl
  rw [aggregateNtp, hbest, clusterNtp, clusterMedian]
  by_cases hlen : (largest (fun o v => decide (absDiff o v ≤ tolerance)) (ntpValues outcomes)).length < n
  · simp [hlen]
  · simp only [if_neg hlen]
    have hne : largest (fun o v => decide (absDiff o v ≤ tolerance)) (ntpValues outcomes) ≠ [] := by
      intro hnil
      simp only [hnil, List.length_nil] at hlen
      omega
    obtain ⟨m, hm⟩ := Option.isSome_iff_exists.1
      (middle_isSome (fun a b : Int64 => decide (a ≤ b)) hne)
    rw [hm]
    rw [middle] at hm
    rw [hm]

theorem clusterNtp_exact {tolerance : Int64} {values : List Int64} (h : NoOverflow values) (n : ℕ) :
    aggregateExact (values.map Int64.toInt) tolerance.toInt n
      = (clusterNtp tolerance values n).map Int64.toInt := by
  refine clusterMedian_map ?_ ?_ n
  · intro a ha b hb
    rw [Bool.eq_iff_iff, within_eq_true, decide_eq_true_iff, absDiff_le_iff (h a ha b hb)]
  · intro a _ b _
    rw [decide_eq_decide, Int64.le_iff_toInt_le]

/-- The time of an answer. -/
def timeOf : Except Failure GatewayResult → Option ℤ
  | .ok (.ntp m) => some m.toInt
  | _ => none

/-- Without overflow the code computes the exact answer. -/
theorem timeOf_aggregateQuorum {outcomes : List PeerOutcome} {tolerance : Int64} {n : ℕ}
    (order : GroupOrder) (hn : 1 ≤ n) (h : NoOverflow (ntpValues outcomes)) :
    timeOf (aggregateQuorum order .ntp outcomes tolerance n)
      = aggregateExact (exactValues outcomes) tolerance.toInt n := by
  rw [aggregateQuorum, aggregateNtp_eq hn, exactValues, clusterNtp_exact h]
  cases clusterNtp tolerance (ntpValues outcomes) n with
  | none => rfl
  | some m => rfl

/-! ## Pairwise agreement -/

/-- `m` is one of at least `n` of the values that are pairwise within `t`. -/
def PairwiseAgreed (values : List ℤ) (t : ℤ) (n : ℕ) (m : ℤ) : Prop :=
  ∃ agreeing, agreeing <+ values ∧ n ≤ agreeing.length ∧ m ∈ agreeing ∧
    ∀ a ∈ agreeing, ∀ b ∈ agreeing, |a - b| ≤ t

/-- The values in the interval of length `t` from `a`. -/
def inWindow (a t v : ℤ) : Bool := decide (a ≤ v ∧ v ≤ a + t)

/-- `c` is the first value with the most values within `t`. -/
def FirstCentre (values : List ℤ) (t c : ℤ) : Prop :=
  ∃ before after, values = before ++ c :: after ∧
    (∀ v ∈ before, (around (within t) values v).length < (around (within t) values c).length) ∧
    ∀ v ∈ after, (around (within t) values v).length ≤ (around (within t) values c).length

/-- The largest cluster is too small, or its middle is covered by an interval
    of length `t` that holds at least `n` values: at most half of the cluster
    lies below the interval, and more than half below its end. -/
def MiddleCovered (values : List ℤ) (t : ℤ) (n : ℕ) : Prop :=
  ∀ c, FirstCentre values t c →
    (around (within t) values c).length < n ∨
    ∃ a, n ≤ values.countP (inWindow a t) ∧
      (around (within t) values c).countP (fun v => decide (v < a))
        ≤ (around (within t) values c).length / 2 ∧
      (around (within t) values c).length / 2
        < (around (within t) values c).countP (fun v => decide (v ≤ a + t))

theorem FirstCentre.largest_eq {values : List ℤ} {t c : ℤ} (ht : 0 ≤ t) (h : FirstCentre values t c) :
    largest (within t) values = around (within t) values c := by
  obtain ⟨before, after, rfl, hbefore, hafter⟩ := h
  exact largest_of_first (by simpa using ht) hbefore hafter

theorem FirstCentre.mem {values : List ℤ} {t c : ℤ} (h : FirstCentre values t c) : c ∈ values := by
  obtain ⟨before, after, rfl, -⟩ := h
  simp

theorem exists_firstCentre {values : List ℤ} (h : values ≠ []) (t : ℤ) :
    ∃ c, FirstCentre values t c := by
  obtain ⟨before, c, after, heq, hbefore, hafter⟩ :=
    exists_first_heaviest (fun v => (around (within t) values v).length) h
  exact ⟨c, before, after, heq, hbefore, hafter⟩

theorem pairwiseAgreed_iff {values : List ℤ} {t : ℤ} {n : ℕ} {m : ℤ} :
    PairwiseAgreed values t n m ↔
      m ∈ values ∧ ∃ a, n ≤ values.countP (inWindow a t) ∧ a ≤ m ∧ m ≤ a + t := by
  constructor
  · rintro ⟨agreeing, hsub, hlen, hm, hpair⟩
    obtain ⟨a, ha, hmin⟩ := agreeing.toFinset.exists_min_image id ⟨m, List.mem_toFinset.2 hm⟩
    have hin : ∀ v ∈ agreeing, a ≤ v ∧ v ≤ a + t := by
      intro v hv
      have hav : a ≤ v := hmin v (List.mem_toFinset.2 hv)
      have hdist := hpair v hv a (List.mem_toFinset.1 ha)
      rw [abs_of_nonneg (by omega)] at hdist
      omega
    refine ⟨hsub.subset hm, a, ?_, hin m hm⟩
    calc n ≤ agreeing.length := hlen
      _ = agreeing.countP (inWindow a t) :=
        (List.countP_eq_length.2 fun v hv => by simpa [inWindow] using hin v hv).symm
      _ ≤ values.countP (inWindow a t) := hsub.countP_le
  · rintro ⟨hm, a, hcount, ham, hma⟩
    refine ⟨values.filter (inWindow a t), List.filter_sublist, ?_, ?_, ?_⟩
    · rwa [← List.countP_eq_length_filter]
    · exact List.mem_filter.2 ⟨hm, by simp [inWindow, ham, hma]⟩
    · intro x hx y hy
      have hx' := (List.mem_filter.1 hx).2
      have hy' := (List.mem_filter.1 hy).2
      simp only [inWindow, decide_eq_true_eq] at hx' hy'
      rw [abs_le]
      omega

/-- The interval of length `t` from `a` covers the median of the cluster. -/
theorem middle_covered_iff {l : List ℤ} {m : ℤ} (h : middle (fun a b => decide (a ≤ b)) l = some m)
    (a t : ℤ) : a ≤ m ∧ m ≤ a + t ↔
      l.countP (fun v => decide (v < a)) ≤ l.length / 2 ∧
        l.length / 2 < l.countP (fun v => decide (v ≤ a + t)) := by
  have hlo := middle_lt_iff h a
  have hhi := middle_lt_iff h (a + t + 1)
  simp only [Int.lt_add_one_iff] at hhi
  rw [hhi, ← not_lt, hlo, not_lt]

theorem exact_agreement_iff {values : List ℤ} {t : ℤ} {n : ℕ} (ht : 0 ≤ t) :
    (∀ m, aggregateExact values t n = some m → PairwiseAgreed values t n m) ↔
      MiddleCovered values t n := by
  constructor
  · intro h c hc
    by_cases hlen : (around (within t) values c).length < n
    · exact Or.inl hlen
    · have hne : around (within t) values c ≠ [] :=
        List.ne_nil_of_mem (mem_around.2 ⟨hc.mem, by simpa using ht⟩)
      obtain ⟨m, hm⟩ := Option.isSome_iff_exists.1 (middle_isSome (fun a b : ℤ => decide (a ≤ b)) hne)
      have hagg : aggregateExact values t n = some m := by
        rw [aggregateExact, clusterMedian, hc.largest_eq ht, if_neg hlen, hm]
      obtain ⟨-, a, hcount, hcover⟩ := pairwiseAgreed_iff.1 (h m hagg)
      exact Or.inr ⟨a, hcount, (middle_covered_iff hm a t).1 hcover⟩
  · intro h m hm
    have hmem : m ∈ values := by
      obtain ⟨c, -, hmc, -⟩ := clusterMedian_eq_some hm
      exact (mem_around.1 hmc).1
    obtain ⟨c, hc⟩ := exists_firstCentre (List.ne_nil_of_mem hmem) t
    rw [aggregateExact, clusterMedian, hc.largest_eq ht] at hm
    rcases h c hc with hlen | ⟨a, hcount, hcover⟩
    · simp [hlen] at hm
    · by_cases hlen : (around (within t) values c).length < n
      · simp [hlen] at hm
      · rw [if_neg hlen] at hm
        exact pairwiseAgreed_iff.2 ⟨hmem, a, hcount, (middle_covered_iff hm a t).2 hcover⟩

/-- **Agreement on a time**, in integers and in the code. -/
theorem ntp_agreement_iff (order : GroupOrder) (n : ℕ) (hn : 1 ≤ n) :
    (∀ (values : List ℤ) (t : ℤ), 0 ≤ t →
      ((∀ m, aggregateExact values t n = some m → PairwiseAgreed values t n m) ↔
        MiddleCovered values t n)) ∧
    (∀ (outcomes : List PeerOutcome) (tolerance : Int64),
      0 ≤ tolerance → NoOverflow (ntpValues outcomes) →
      ((∀ m, timeOf (aggregateQuorum order .ntp outcomes tolerance n) = some m →
          PairwiseAgreed (exactValues outcomes) tolerance.toInt n m) ↔
        MiddleCovered (exactValues outcomes) tolerance.toInt n)) := by
  refine ⟨?_, ?_⟩
  · intro values t ht
    exact exact_agreement_iff ht
  · intro outcomes tolerance ht hover
    rw [timeOf_aggregateQuorum order hn hover]
    exact exact_agreement_iff (Int64.le_iff_toInt_le.1 ht)

/-- The times 0 and 600. -/
def closeTimes : List PeerOutcome := [.ok (.ntp 0), .ok (.ntp 600)]

theorem closeTimes_covered : MiddleCovered (exactValues closeTimes) (1000 : Int64).toInt 2 := by
  intro c hc
  have hmem : c = 0 ∨ c = 600 := by simpa [exactValues, closeTimes, ntpValues] using hc.mem
  refine Or.inr ⟨0, ?_⟩
  rcases hmem with rfl | rfl
  · decide
  · decide

theorem closeTimes_served :
    timeOf (aggregateQuorum ⟨id, List.Perm.refl⟩ .ntp closeTimes 1000 2) = some 600 := by
  have hbest : bestCluster 1000 (ntpValues closeTimes) = [0, 600] := by decide
  have hsort : ([0, 600] : List Int64).mergeSort (fun a b => decide (a ≤ b)) = [0, 600] :=
    List.mergeSort_of_pairwise (by decide)
  simp only [aggregateQuorum, aggregateNtp, hbest, hsort]
  rfl

theorem ntp_agreement_iff_close : PairwiseAgreed (exactValues closeTimes) (1000 : Int64).toInt 2 600 :=
  ((ntp_agreement_iff ⟨id, List.Perm.refl⟩ 2 (by decide)).2 closeTimes 1000 (by decide)
    (NoOverflow.of_nonneg (by simp [closeTimes, ntpValues]))).2
    closeTimes_covered 600 closeTimes_served

/-- The times 0, 1000 and 2000. -/
def spreadTimes : List PeerOutcome := [.ok (.ntp 0), .ok (.ntp 1000), .ok (.ntp 2000)]

/-- All three are within 1000 of the middle one; the outer two are not within
    1000 of each other. -/
theorem spread_times_served :
    timeOf (aggregateQuorum ⟨id, List.Perm.refl⟩ .ntp spreadTimes 1000 3) = some 1000 ∧
      NoOverflow (ntpValues spreadTimes) ∧
      ¬ PairwiseAgreed (exactValues spreadTimes) (1000 : Int64).toInt 3 1000 := by
  have hbest : bestCluster 1000 (ntpValues spreadTimes) = [0, 1000, 2000] := by decide
  have hsort : ([0, 1000, 2000] : List Int64).mergeSort (fun a b => decide (a ≤ b)) = [0, 1000, 2000] :=
    List.mergeSort_of_pairwise (by decide)
  refine ⟨?_, NoOverflow.of_nonneg (by simp [spreadTimes, ntpValues]), ?_⟩
  · simp only [aggregateQuorum, aggregateNtp, hbest, hsort]
    rfl
  · rintro ⟨agreeing, hsub, hlen, -, hpair⟩
    have hall : agreeing = exactValues spreadTimes := hsub.eq_of_length_le hlen
    rw [hall] at hpair
    exact absurd (hpair 0 (by decide) 2000 (by decide)) (by decide)

/-! ## Dishonest times -/

/-- An answer is within `2t` of an honest value, and honest values that agree
    give an answer. -/
def ByzantineBound (tagged : List (Bool × ℤ)) (t : ℤ) (n : ℕ) (answer : Option ℤ) : Prop :=
  (∀ m, answer = some m → ∃ h, (true, h) ∈ tagged ∧ |m - h| ≤ 2 * t) ∧
  (∀ a, (∀ h, (true, h) ∈ tagged → a ≤ h ∧ h ≤ a + t) → n ≤ tagged.countP (fun x => x.1) →
    answer ≠ none)

/-- The times of tagged outcomes (`true`: honest), as integers. -/
def taggedTimes (tagged : List (Bool × PeerOutcome)) : List (Bool × ℤ) :=
  tagged.filterMap fun
    | (honest, .ok (.ntp t)) => some (honest, t.toInt)
    | _ => none

theorem taggedTimes_values (tagged : List (Bool × PeerOutcome)) :
    (taggedTimes tagged).map Prod.snd = exactValues (tagged.map Prod.snd) := by
  rw [taggedTimes, exactValues, ntpValues, List.filterMap_map, List.map_filterMap, List.map_filterMap]
  refine List.filterMap_congr ?_
  rintro ⟨honest, o⟩ _
  rcases o with e | (t | ⟨status, hash, body, cc⟩)
  · rfl
  · rfl
  · rfl

theorem around_length_tagged (tagged : List (Bool × ℤ)) (t v : ℤ) :
    (around (within t) (tagged.map Prod.snd) v).length = tagged.countP fun x => within t x.2 v := by
  rw [around, ← List.countP_eq_length_filter, List.countP_map]
  rfl

theorem exact_byzantine_bound {tagged : List (Bool × ℤ)} {t : ℤ} {n : ℕ} (hn : 1 ≤ n)
    (hbad : tagged.countP (fun x => !x.1) < n) :
    ByzantineBound tagged t n (aggregateExact (tagged.map Prod.snd) t n) := by
  refine ⟨?_, ?_⟩
  · intro m hm
    obtain ⟨c, -, hmc, hlen, -⟩ := clusterMedian_eq_some hm
    rw [around_length_tagged] at hlen
    -- the cluster has more members than there are dishonest values
    have hhonest : ∃ x ∈ tagged, x.1 = true ∧ within t x.2 c = true := by
      by_contra hcon
      push Not at hcon
      have hle : tagged.countP (fun x => within t x.2 c) ≤ tagged.countP (fun x => !x.1) := by
        refine List.countP_mono_left ?_
        intro x hx hnear
        by_contra htrue
        exact hcon x hx (by simpa using htrue) hnear
      omega
    obtain ⟨⟨honest, h⟩, hx, rfl, hnear⟩ := hhonest
    refine ⟨h, hx, ?_⟩
    have hm' := within_eq_true.1 (mem_around.1 hmc).2
    rw [within_eq_true, abs_sub_comm] at hnear
    simp only at hnear
    calc |m - h| ≤ |m - c| + |c - h| := abs_sub_le m c h
      _ ≤ 2 * t := by omega
  · intro a hall hcount
    have hpos : 0 < tagged.countP (fun x => x.1) := by omega
    obtain ⟨⟨honest, v⟩, hv, hv1⟩ := List.countP_pos_iff.1 hpos
    cases hv1
    have hlen : n ≤ (around (within t) (tagged.map Prod.snd) v).length := by
      rw [around_length_tagged]
      refine hcount.trans (List.countP_mono_left ?_)
      rintro ⟨honest, h⟩ hx rfl
      obtain ⟨hlo, hhi⟩ := hall h hx
      obtain ⟨hlo', hhi'⟩ := hall v hv
      rw [within_eq_true, abs_le]
      omega
    have hmem : v ∈ tagged.map Prod.snd := List.mem_map.2 ⟨_, hv, rfl⟩
    exact Option.isSome_iff_ne_none.1
      ((clusterMedian_isSome_iff hn).2 (hlen.trans (around_length_le_largest hmem)))

/-- **Fewer than `min_agree` dishonest times**, in integers and in the code. -/
theorem ntp_byzantine_bound :
    (∀ (tagged : List (Bool × ℤ)) (t : ℤ) (n : ℕ), 0 ≤ t → 1 ≤ n →
      tagged.countP (fun x => !x.1) < n →
      ByzantineBound tagged t n (aggregateExact (tagged.map Prod.snd) t n)) ∧
    (∀ (order : GroupOrder) (tagged : List (Bool × PeerOutcome)) (tolerance : Int64) (n : ℕ),
      0 ≤ tolerance → 1 ≤ n → NoOverflow (ntpValues (tagged.map Prod.snd)) →
      (taggedTimes tagged).countP (fun x => !x.1) < n →
      ByzantineBound (taggedTimes tagged) tolerance.toInt n
        (timeOf (aggregateQuorum order .ntp (tagged.map Prod.snd) tolerance n))) := by
  refine ⟨?_, ?_⟩
  · intro tagged t n _ hn hbad
    exact exact_byzantine_bound hn hbad
  · intro order tagged tolerance n _ hn hover hbad
    rw [timeOf_aggregateQuorum order hn hover, ← taggedTimes_values]
    exact exact_byzantine_bound hn hbad

/-- Two honest times and one that is not. -/
def oneLiar : List (Bool × PeerOutcome) :=
  [(true, .ok (.ntp 0)), (false, .ok (.ntp 90000)), (true, .ok (.ntp 600))]

theorem ntp_byzantine_bound_liar : ByzantineBound (taggedTimes oneLiar) (1000 : Int64).toInt 2
    (timeOf (aggregateQuorum ⟨id, List.Perm.refl⟩ .ntp (oneLiar.map Prod.snd) 1000 2)) :=
  ntp_byzantine_bound.2 _ oneLiar 1000 2 (by decide) (by decide)
    (NoOverflow.of_nonneg (by simp [oneLiar, ntpValues])) (by decide)

/-! ## The order of the outcomes -/

/-- All largest clusters hold the same times. -/
def OneCluster (tolerance : Int64) (values : List Int64) : Prop :=
  ∀ c ∈ values, ∀ c' ∈ values,
    (cluster tolerance values c).length = (bestCluster tolerance values).length →
    (cluster tolerance values c').length = (bestCluster tolerance values).length →
    cluster tolerance values c ~ cluster tolerance values c'

/-- The pages with this content hash are all the same. -/
def OnePage (outcomes : List PeerOutcome) (hash : String) : Prop :=
  ∀ p ∈ pagesWith hash outcomes, ∀ q ∈ pagesWith hash outcomes, p = q

/-- How two answers from the same outcomes may differ. -/
def Interchangeable (outcomes : List PeerOutcome) (tolerance : Int64) :
    GatewayResult → GatewayResult → Prop
  | .ntp m, .ntp m' =>
    (NoOverflow (ntpValues outcomes) → |m.toInt - m'.toInt| ≤ 4 * tolerance.toInt) ∧
      (OneCluster tolerance (ntpValues outcomes) → m = m')
  | .http status hash body cc, .http status' hash' body' cc' =>
    hash = hash' ∧ (OnePage outcomes hash → status = status' ∧ body = body' ∧ cc = cc')
  | _, _ => False

theorem clusterNtp_interchangeable {outcomes outcomes' : List PeerOutcome} {tolerance : Int64} {n : ℕ}
    {m m' : Int64} (h : outcomes ~ outcomes') (hmaj : outcomes.length < 2 * n)
    (hm : clusterNtp tolerance (ntpValues outcomes) n = some m)
    (hm' : clusterNtp tolerance (ntpValues outcomes') n = some m') :
    Interchangeable outcomes tolerance (.ntp m) (.ntp m') := by
  have hvalues : ntpValues outcomes ~ ntpValues outcomes' := h.filterMap _
  refine ⟨?_, ?_⟩
  · intro hover
    obtain ⟨c, hc, x, hx, c', hc', hmv, hmv', hmc, hxc, hxc', hmc'⟩ := clusterMedian_perm_near hvalues
      ((ntpValues_length_le outcomes).trans_lt hmaj) hm hm'
    simp only [decide_eq_true_eq] at hmc hxc hxc' hmc'
    rw [absDiff_le_iff (hover _ hmv _ hc)] at hmc
    rw [absDiff_le_iff (hover _ hx _ hc), abs_sub_comm] at hxc
    rw [absDiff_le_iff (hover _ hx _ hc')] at hxc'
    rw [absDiff_le_iff (hover _ hmv' _ hc'), abs_sub_comm] at hmc'
    calc |m.toInt - m'.toInt| ≤ |m.toInt - x.toInt| + |x.toInt - m'.toInt| := abs_sub_le _ _ _
      _ ≤ (|m.toInt - c.toInt| + |c.toInt - x.toInt|) + (|x.toInt - c'.toInt| + |c'.toInt - m'.toInt|) :=
        add_le_add (abs_sub_le _ _ _) (abs_sub_le _ _ _)
      _ ≤ 4 * tolerance.toInt := by omega
  · intro hone
    have heq : clusterNtp tolerance (ntpValues outcomes) n = clusterNtp tolerance (ntpValues outcomes') n := by
      refine clusterMedian_perm ?_ ?_ ?_ hvalues hone n
      · intro a b c hab hbc
        simp only [decide_eq_true_eq] at hab hbc ⊢
        exact Int64.le_trans hab hbc
      · intro a b
        simpa using Int64.le_total a b
      · intro a b hab hba
        simp only [decide_eq_true_eq] at hab hba
        exact Int64.le_antisymm hab hba
    rw [hm, hm'] at heq
    exact Option.some.inj heq

/-- A content hash with a majority of the outcomes is the only one. -/
theorem majority_hash_unique {outcomes : List PeerOutcome} {n : ℕ} {hash hash' : String}
    (hmaj : outcomes.length < 2 * n) (h : n ≤ (pagesWith hash outcomes).length)
    (h' : n ≤ (pagesWith hash' outcomes).length) : hash = hash' := by
  by_contra hne
  rw [pagesWith_length] at h h'
  have hle : outcomes.countP (PeerOutcome.hashes hash')
      ≤ outcomes.countP (fun o => !PeerOutcome.hashes hash o) := by
    refine List.countP_mono_left ?_
    intro o _ ho
    rcases o with e | (t | ⟨status, h, body, cc⟩)
    · cases ho
    · cases ho
    · simp only [PeerOutcome.hashes, decide_eq_true_eq] at ho
      simp [PeerOutcome.hashes, ho, Ne.symm hne]
  have hsum := List.length_eq_countP_add_countP (PeerOutcome.hashes hash) (l := outcomes)
  simp only [Bool.not_eq_true, Bool.decide_eq_false] at hsum
  omega

theorem aggregateHttp_interchangeable {order order' : GroupOrder} {outcomes outcomes' : List PeerOutcome}
    {n : ℕ} {r r' : GatewayResult} (h : outcomes ~ outcomes') (hmaj : outcomes.length < 2 * n)
    (hr : aggregateHttp order outcomes n = .ok r) (hr' : aggregateHttp order' outcomes' n = .ok r')
    (tolerance : Int64) : Interchangeable outcomes tolerance r r' := by
  obtain ⟨hash, -, hlen, hhead⟩ := aggregateHttp_spec hr
  obtain ⟨hash', -, hlen', hhead'⟩ := aggregateHttp_spec hr'
  have hpages : pagesWith hash' outcomes ~ pagesWith hash' outcomes' := h.filterMap _
  rw [← hpages.length_eq] at hlen'
  have hmem := List.mem_of_mem_head? hhead
  have hmem' := hpages.mem_iff.2 (List.mem_of_mem_head? hhead')
  obtain rfl := majority_hash_unique hmaj hlen hlen'
  have hhash := (mem_pagesWith.1 hmem).2
  have hhash' := (mem_pagesWith.1 hmem').2
  cases r with
  | ntp t => cases hhash
  | http status h₁ body cc =>
    cases r' with
    | ntp t => cases hhash'
    | http status' h₂ body' cc' =>
      cases hhash
      cases hhash'
      refine ⟨rfl, ?_⟩
      intro hone
      have heq := hone _ hmem _ hmem'
      simp only [GatewayResult.http.injEq, true_and] at heq
      exact heq

/-- **The order of the outcomes**, with a majority required: it decides neither
    whether there is an answer nor its content hash, and moves a time by at
    most four tolerances. -/
theorem quorum_order {outcomes outcomes' : List PeerOutcome} (h : outcomes ~ outcomes') {n : ℕ}
    (hmaj : outcomes.length < 2 * n) (service : GatewayService) (tolerance : Int64)
    (order order' : GroupOrder) :
    (aggregateQuorum order service outcomes tolerance n = .error (.error .noQuorum) ∧
      aggregateQuorum order' service outcomes' tolerance n = .error (.error .noQuorum)) ∨
    ∃ r r', aggregateQuorum order service outcomes tolerance n = .ok r ∧
      aggregateQuorum order' service outcomes' tolerance n = .ok r' ∧
      Interchangeable outcomes tolerance r r' := by
  have hn : 1 ≤ n := by omega
  cases service with
  | ntp =>
    have hvalues : ntpValues outcomes ~ ntpValues outcomes' := h.filterMap _
    have hsome : (clusterNtp tolerance (ntpValues outcomes) n).isSome
        = (clusterNtp tolerance (ntpValues outcomes') n).isSome := clusterMedian_perm_isSome hvalues hn
    simp only [aggregateQuorum, aggregateNtp_eq hn]
    cases hm : clusterNtp tolerance (ntpValues outcomes) n with
    | none =>
      cases hm' : clusterNtp tolerance (ntpValues outcomes') n with
      | none => exact Or.inl ⟨rfl, rfl⟩
      | some m' => simp [hm, hm'] at hsome
    | some m =>
      cases hm' : clusterNtp tolerance (ntpValues outcomes') n with
      | none => simp [hm, hm'] at hsome
      | some m' => exact Or.inr ⟨_, _, rfl, rfl, clusterNtp_interchangeable h hmaj hm hm'⟩
  | http url =>
    simp only [aggregateQuorum]
    have hiff : (∀ hash, (pagesWith hash outcomes).length < n) ↔
        ∀ hash, (pagesWith hash outcomes').length < n := by
      refine forall_congr' ?_
      intro hash
      rw [pagesWith_length, pagesWith_length, h.countP_eq]
    rcases aggregateHttp_total order outcomes hn with herr | ⟨r, hr⟩
    · refine Or.inl ⟨herr, ?_⟩
      exact (aggregateHttp_error_iff hn).2 (hiff.1 ((aggregateHttp_error_iff hn).1 herr))
    · rcases aggregateHttp_total order' outcomes' hn with herr' | ⟨r', hr'⟩
      · have herr : aggregateHttp order outcomes n = .error (.error .noQuorum) :=
          (aggregateHttp_error_iff hn).2 (hiff.2 ((aggregateHttp_error_iff hn).1 herr'))
        rw [hr] at herr
        cases herr
      · exact Or.inr ⟨r, r', hr, hr', aggregateHttp_interchangeable h hmaj hr hr' tolerance⟩

/-- Four times at equal distances. -/
def evenTimes : List PeerOutcome := [.ok (.ntp 0), .ok (.ntp 10), .ok (.ntp 20), .ok (.ntp 30)]

theorem evenTimes_served : aggregateQuorum ⟨id, List.Perm.refl⟩ .ntp evenTimes 10 3 = .ok (.ntp 10) := by
  have hbest : bestCluster 10 (ntpValues evenTimes) = [0, 10, 20] := by decide
  have hsort : ([0, 10, 20] : List Int64).mergeSort (fun a b => decide (a ≤ b)) = [0, 10, 20] :=
    List.mergeSort_of_pairwise (by decide)
  simp only [aggregateQuorum, aggregateNtp, hbest, hsort]
  rfl

theorem evenTimes_reversed_served :
    aggregateQuorum ⟨id, List.Perm.refl⟩ .ntp evenTimes.reverse 10 3 = .ok (.ntp 20) := by
  have hbest : bestCluster 10 (ntpValues evenTimes.reverse) = [30, 20, 10] := by decide
  have hsort : ([30, 20, 10] : List Int64).mergeSort (fun a b => decide (a ≤ b)) = [10, 20, 30] := by
    simp [List.mergeSort]
  simp only [aggregateQuorum, aggregateNtp, hbest, hsort]
  rfl

/-- The first of two largest clusters wins, so that the order shows. -/
theorem even_times_order : evenTimes ~ evenTimes.reverse ∧ evenTimes.length < 2 * 3 ∧
    aggregateQuorum ⟨id, List.Perm.refl⟩ .ntp evenTimes 10 3
      ≠ aggregateQuorum ⟨id, List.Perm.refl⟩ .ntp evenTimes.reverse 10 3 := by
  refine ⟨(List.reverse_perm _).symm, by decide, ?_⟩
  rw [evenTimes_served, evenTimes_reversed_served]
  decide

theorem quorum_order_reversed : Interchangeable evenTimes 10 (.ntp 10) (.ntp 20) := by
  rcases quorum_order (List.reverse_perm evenTimes).symm (by decide : evenTimes.length < 2 * 3) .ntp 10
    ⟨id, List.Perm.refl⟩ ⟨id, List.Perm.refl⟩ with ⟨herr, -⟩ | ⟨r, r', hr, hr', h⟩
  · rw [evenTimes_served] at herr
    cases herr
  · rw [evenTimes_served] at hr
    rw [evenTimes_reversed_served] at hr'
    cases hr
    cases hr'
    exact h

end OpenAgentGraph
