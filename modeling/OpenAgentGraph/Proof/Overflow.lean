/-
  The arithmetic of the gateway over times that peers choose.

  * `…Checked_eq`: a checked computation is the unchecked one, or nothing where
    an operation overflows;
  * `gateway_arithmetic_safe_iff`: when the gateway neither overflows nor
    indexes out of bounds.
-/
import OpenAgentGraph.Gateway.Checked
import OpenAgentGraph.Proof.Agreement
import OpenAgentGraph.Proof.Median

namespace OpenAgentGraph

open Lib

/-! ## Checked and unchecked -/

/-- No difference between `v` and one of the times leaves the range of an `i64`. -/
def NoOverflowAt (values : List Int64) (v : Int64) : Prop :=
  ∀ o ∈ values, |o.toInt - v.toInt| < 2 ^ 63

instance (values : List Int64) (v : Int64) : Decidable (NoOverflowAt values v) :=
  inferInstanceAs (Decidable (∀ o ∈ values, _))

theorem noOverflow_iff {values : List Int64} :
    NoOverflow values ↔ ∀ v ∈ values, NoOverflowAt values v := by
  constructor
  · intro h v hv o ho
    exact h o ho v hv
  · intro h a ha b hb
    exact h b hb a ha

instance (values : List Int64) : Decidable (NoOverflow values) := decidable_of_iff' _ noOverflow_iff

theorem absDiffChecked_eq (a b : Int64) :
    absDiffChecked a b = if |a.toInt - b.toInt| < 2 ^ 63 then some (absDiff a b) else none := by
  by_cases h : |a.toInt - b.toInt| < 2 ^ 63
  · rw [if_pos h]
    exact checkedAbs_checkedSub.2 ⟨h, rfl⟩
  · rw [if_neg h, Option.eq_none_iff_forall_ne_some]
    intro d hd
    exact h (checkedAbs_checkedSub.1 hd).1

theorem clusterChecked_eq (tolerance v : Int64) (values : List Int64) :
    clusterChecked tolerance v values
      = if NoOverflowAt values v then some (cluster tolerance values v) else none := by
  induction values with
  | nil => simp [clusterChecked, cluster, NoOverflowAt]
  | cons o rest ih =>
    have hiff : NoOverflowAt (o :: rest) v ↔ |o.toInt - v.toInt| < 2 ^ 63 ∧ NoOverflowAt rest v :=
      List.forall_mem_cons
    rw [clusterChecked, absDiffChecked_eq, ih]
    by_cases ho : |o.toInt - v.toInt| < 2 ^ 63
    · by_cases hrest : NoOverflowAt rest v
      · rw [if_pos ho, if_pos hrest, if_pos (hiff.2 ⟨ho, hrest⟩)]
        by_cases hnear : absDiff o v ≤ tolerance
        · simp [hnear, cluster]
        · simp [hnear, cluster]
      · rw [if_pos ho, if_neg hrest, if_neg fun h => hrest (hiff.1 h).2]
        rfl
    · rw [if_neg ho, if_neg fun h => ho (hiff.1 h).1]
      rfl

/-- A fold whose steps may fail. -/
theorem foldlM_eq_ite {α β : Type} {f : α → β → Option α} (g : α → β → α) (ok : β → Prop)
    [DecidablePred ok] (h : ∀ a x, f a x = if ok x then some (g a x) else none) (xs : List β) (a : α) :
    xs.foldlM f a = if ∀ x ∈ xs, ok x then some (xs.foldl g a) else none := by
  induction xs generalizing a with
  | nil => simp
  | cons x xs ih =>
    rw [List.foldlM_cons, h]
    by_cases hx : ok x
    · rw [if_pos hx]
      simp only [Option.bind_eq_bind, Option.bind_some, ih, List.forall_mem_cons, hx, true_and,
        List.foldl_cons]
    · rw [if_neg hx, if_neg fun hall => hx (hall x (List.mem_cons_self ..))]
      rfl

theorem bestClusterChecked_eq (tolerance : Int64) (values : List Int64) :
    bestClusterChecked tolerance values
      = if NoOverflow values then some (bestCluster tolerance values) else none := by
  have hstep : ∀ best v, (do
      let near ← clusterChecked tolerance v values
      return if best.length < near.length then near else best)
        = if NoOverflowAt values v then some (if best.length < (cluster tolerance values v).length
            then cluster tolerance values v else best) else none := by
    intro best v
    rw [clusterChecked_eq]
    by_cases h : NoOverflowAt values v
    · rw [if_pos h, if_pos h]
      rfl
    · rw [if_neg h, if_neg h]
      rfl
  rw [bestClusterChecked, foldlM_eq_ite _ _ hstep]
  by_cases h : NoOverflow values
  · rw [if_pos h, if_pos (noOverflow_iff.1 h), bestCluster]
  · rw [if_neg h, if_neg (mt noOverflow_iff.2 h)]

theorem aggregateNtpChecked_eq (outcomes : List PeerOutcome) (tolerance : Int64) (minAgree : ℕ) :
    aggregateNtpChecked outcomes tolerance minAgree
      = if NoOverflow (ntpValues outcomes) then some (aggregateNtp outcomes tolerance minAgree)
        else none := by
  rw [aggregateNtpChecked, bestClusterChecked_eq]
  by_cases h : NoOverflow (ntpValues outcomes)
  · rw [if_pos h, if_pos h]
    rfl
  · rw [if_neg h, if_neg h]
    rfl

/-- A time that moves on by some milliseconds stays in range. -/
def TimeInRange (result : GatewayResult) (ms : Int64) : Prop :=
  match result with
  | .ntp t => InI64 (t.toInt + ms.toInt)
  | .http _ _ _ _ => True

theorem addHalfRttChecked_eq_some {result r : GatewayResult} {rttNs : ℕ} :
    addHalfRttChecked result rttNs = some r ↔
      TimeInRange result (Int64.ofNat (rttNs / 1000000) / 2) ∧ addHalfRtt result rttNs = r := by
  cases result with
  | ntp t =>
    simp only [addHalfRttChecked, Option.map_eq_map, Option.map_eq_some_iff, checkedAdd_eq_some,
      TimeInRange, addHalfRtt, and_assoc, exists_and_left, exists_eq_left']
  | http status contentHash body cacheControl => simp [addHalfRttChecked, TimeInRange, addHalfRtt]

theorem adjustForElapsedChecked_eq_some {result r : GatewayResult} {elapsedNs : ℕ} :
    adjustForElapsedChecked result elapsedNs = some r ↔
      TimeInRange result (Int64.ofNat (elapsedNs / 1000000)) ∧ adjustForElapsed result elapsedNs = r := by
  cases result with
  | ntp t =>
    simp only [adjustForElapsedChecked, Option.map_eq_map, Option.map_eq_some_iff, checkedAdd_eq_some,
      TimeInRange, adjustForElapsed, and_assoc, exists_and_left, exists_eq_left']
  | http status contentHash body cacheControl =>
    simp [adjustForElapsedChecked, TimeInRange, adjustForElapsed]

/-! ## The index -/

/-- The largest cluster is empty only without values, or with a tolerance that
    not even the distance of a value to itself meets. -/
theorem bestCluster_eq_nil_iff {tolerance : Int64} {values : List Int64} (h : NoOverflow values) :
    bestCluster tolerance values = [] ↔ values = [] ∨ tolerance < 0 := by
  have hlargest : bestCluster tolerance values
      = largest (fun o v => decide (absDiff o v ≤ tolerance)) values := rfl
  rw [hlargest]
  constructor
  · intro hnil
    by_cases hvalues : values = []
    · exact Or.inl hvalues
    · refine Or.inr (Int64.not_le.1 fun htol => ?_)
      obtain ⟨v, hv⟩ := List.exists_mem_of_ne_nil values hvalues
      have hself : v ∈ around (fun o v => decide (absDiff o v ≤ tolerance)) values v :=
        mem_around.2 ⟨hv, by simpa using htol⟩
      have hlen : (around (fun o v => decide (absDiff o v ≤ tolerance)) values v).length
          ≤ (largest (fun o v => decide (absDiff o v ≤ tolerance)) values).length :=
        around_length_le_largest hv
      rw [hnil, List.length_nil, Nat.le_zero, List.length_eq_zero_iff] at hlen
      rw [hlen] at hself
      cases hself
  · rintro (rfl | htol)
    · rfl
    · rcases largest_eq_around (fun o v => decide (absDiff o v ≤ tolerance)) values with hnil | ⟨v, hv, heq⟩
      · exact hnil
      · rw [heq]
        refine List.eq_nil_iff_forall_not_mem.2 fun o ho => ?_
        obtain ⟨hmem, hnear⟩ := mem_around.1 ho
        have hle := (absDiff_le_iff (h o hmem v hv)).1 (by simpa using hnear)
        have htol' := Int64.lt_iff_toInt_lt.1 htol
        rw [Int64.toInt_zero] at htol'
        have habs := abs_nonneg (o.toInt - v.toInt)
        omega

theorem aggregateNtp_panic_iff (outcomes : List PeerOutcome) (tolerance : Int64) (minAgree : ℕ) :
    aggregateNtp outcomes tolerance minAgree = .error .panic ↔
      minAgree = 0 ∧ bestCluster tolerance (ntpValues outcomes) = [] := by
  unfold aggregateNtp
  by_cases hlt : (bestCluster tolerance (ntpValues outcomes)).length < minAgree
  · simp only [if_pos hlt, Except.error.injEq, reduceCtorEq, false_iff, not_and]
    rintro rfl
    omega
  · simp only [if_neg hlt]
    by_cases hnil : bestCluster tolerance (ntpValues outcomes) = []
    · simp only [hnil, List.length_nil, not_lt, Nat.le_zero] at hlt
      simp [hnil, hlt]
    · have hidx : (bestCluster tolerance (ntpValues outcomes)).length / 2
          < ((bestCluster tolerance (ntpValues outcomes)).mergeSort fun a b => decide (a ≤ b)).length := by
        have hpos := List.length_pos_iff.2 hnil
        rw [List.length_mergeSort]
        omega
      rw [List.getElem?_eq_getElem hidx]
      simp [hnil]

theorem aggregateHttp_ne_panic (order : GroupOrder) (outcomes : List PeerOutcome) (minAgree : ℕ) :
    aggregateHttp order outcomes minAgree ≠ .error .panic := by
  unfold aggregateHttp
  cases hlongest : longestGroup (order.order (httpGroups outcomes)) with
  | none => simp
  | some g =>
    obtain ⟨hash, group⟩ := g
    obtain ⟨-, hne, -⟩ := longestGroup_spec hlongest
    obtain ⟨r, rest, rfl⟩ := List.exists_cons_of_ne_nil hne
    show (if (r :: rest).length < minAgree then Except.error (Failure.error .noQuorum) else .ok r)
      ≠ .error .panic
    split <;> simp

/-! ## Main result -/

/-- A computation neither overflows nor indexes out of bounds. -/
def Computes (x : Option (Except Failure GatewayResult)) : Prop := ∃ r, x = some r ∧ r ≠ .error .panic

/-- The times are close enough for `i64`, and some cluster is not empty or the
    quorum asks for one. -/
def QuorumInRange (service : GatewayService) (outcomes : List PeerOutcome) (tolerance : Int64)
    (minAgree : ℕ) : Prop :=
  match service with
  | .ntp => NoOverflow (ntpValues outcomes) ∧
      (0 < minAgree ∨ (ntpValues outcomes ≠ [] ∧ 0 ≤ tolerance))
  | .http _ => True

theorem aggregateQuorum_computes_iff (order : GroupOrder) (service : GatewayService)
    (outcomes : List PeerOutcome) (tolerance : Int64) (minAgree : ℕ) :
    Computes (aggregateQuorumChecked order service outcomes tolerance minAgree) ↔
      QuorumInRange service outcomes tolerance minAgree := by
  cases service with
  | http url =>
    refine ⟨fun _ => trivial, fun _ => ⟨_, rfl, aggregateHttp_ne_panic order outcomes minAgree⟩⟩
  | ntp =>
    unfold QuorumInRange
    rw [aggregateQuorumChecked, aggregateNtpChecked_eq]
    by_cases h : NoOverflow (ntpValues outcomes)
    · have hiff : aggregateNtp outcomes tolerance minAgree ≠ .error .panic ↔
          (0 < minAgree ∨ (ntpValues outcomes ≠ [] ∧ 0 ≤ tolerance)) := by
        rw [ne_eq, aggregateNtp_panic_iff, bestCluster_eq_nil_iff h, not_and_or, not_or,
          Int64.not_lt, Nat.pos_iff_ne_zero]
      rw [if_pos h, ← hiff]
      constructor
      · rintro ⟨r, hr, hne⟩
        obtain rfl := Option.some.inj hr
        exact ⟨h, hne⟩
      · rintro ⟨-, hne⟩
        exact ⟨_, rfl, hne⟩
    · rw [if_neg h]
      constructor
      · rintro ⟨r, hr, -⟩
        cases hr
      · rintro ⟨h', -⟩
        exact absurd h' h

/-- **When the arithmetic of the gateway is safe.** -/
theorem gateway_arithmetic_safe_iff (order : GroupOrder) (service : GatewayService)
    (outcomes : List PeerOutcome) (tolerance : Int64) (minAgree : ℕ) (result : GatewayResult)
    (rttNs elapsedNs : ℕ) :
    (Computes (aggregateQuorumChecked order service outcomes tolerance minAgree) ↔
      QuorumInRange service outcomes tolerance minAgree) ∧
    ((addHalfRttChecked result rttNs).isSome = true ↔
      TimeInRange result (Int64.ofNat (rttNs / 1000000) / 2)) ∧
    ((adjustForElapsedChecked result elapsedNs).isSome = true ↔
      TimeInRange result (Int64.ofNat (elapsedNs / 1000000))) := by
  refine ⟨aggregateQuorum_computes_iff order service outcomes tolerance minAgree, ?_, ?_⟩
  · simp only [Option.isSome_iff_exists, addHalfRttChecked_eq_some, exists_and_left, exists_eq', and_true]
  · simp only [Option.isSome_iff_exists, adjustForElapsedChecked_eq_some, exists_and_left, exists_eq',
      and_true]

/-- Without answers and without a quorum the median of nothing is indexed, times
    at both ends of the range overflow, and so does a time at the upper end. -/
theorem gateway_arithmetic_unsafe :
    ¬ Computes (aggregateNtpChecked [] 1000 0) ∧
    aggregateNtpChecked [.ok (.ntp Int64.minValue), .ok (.ntp Int64.maxValue)] 1000 2 = none ∧
    addHalfRttChecked (.ntp Int64.maxValue) 2000000 = none ∧
    adjustForElapsedChecked (.ntp Int64.maxValue) 1000000 = none := by
  have hmin : Int64.minValue.toInt = -2 ^ 63 := by decide
  have hmax : Int64.maxValue.toInt = 2 ^ 63 - 1 := by decide
  refine ⟨?_, ?_, by decide, by decide⟩
  · rintro ⟨r, hr, hne⟩
    have hnone : NoOverflow (ntpValues []) := fun a ha => by cases ha
    rw [aggregateNtpChecked_eq, if_pos hnone] at hr
    have hpanic := (aggregateNtp_panic_iff [] 1000 0).2 ⟨rfl, rfl⟩
    exact hne ((Option.some.inj hr).symm.trans hpanic)
  · rw [aggregateNtpChecked_eq, if_neg]
    intro h
    have hdiff := h Int64.minValue (by simp [ntpValues]) Int64.maxValue (by simp [ntpValues])
    rw [hmin, hmax, abs_lt] at hdiff
    omega

end OpenAgentGraph
