/-
  The answers of a front end are quorum answers: which configurations make
  the startup check of the front end enough.

  * `aggregateQuorum_agreed`, `aggregateQuorum_unanimous`: an aggregated
    answer is backed by at least `min_agree` outcomes, and equal outcomes give
    one.
  * `QuorumConfigured`: at least one query peer, a fan-out that reaches the
    threshold, a tolerance that is not negative, and (for a threshold above
    one) no peer asked twice.
-/
import OpenAgentGraph.Lib.Best
import OpenAgentGraph.Proof.Gateway

namespace OpenAgentGraph

open Lib
open scoped List

/-! ## What a quorum answer is -/

/-- The time of an outcome, within the tolerance of `v`. -/
def PeerOutcome.near (tolerance v : Int64) : PeerOutcome → Bool
  | .ok (.ntp t) => decide (absDiff t v ≤ tolerance)
  | _ => false

/-- The page of an outcome has this content hash. -/
def PeerOutcome.hashes (hash : String) : PeerOutcome → Bool
  | .ok (.http _ h _ _) => decide (h = hash)
  | _ => false

/-- Agreement as `aggregate_quorum` compares results: the times of `agreeing`
    are within the tolerance of one value of the fan-out, as the answer is;
    its pages have the content hash of the answer. -/
def AgreedOn (tolerance : Int64) (answer : GatewayResult) (outcomes agreeing : List PeerOutcome) :
    Prop :=
  match answer with
  | .ntp m => ∃ v ∈ ntpValues outcomes, absDiff m v ≤ tolerance ∧
      ∀ o ∈ agreeing, PeerOutcome.near tolerance v o = true
  | .http _ hash _ _ => ∀ o ∈ agreeing, PeerOutcome.hashes hash o = true

/-- A result of the kind that the service asks for. -/
def GatewayResult.For : GatewayResult → GatewayService → Prop
  | .ntp _, .ntp => True
  | .http _ _ _ _, .http _ => True
  | _, _ => False

variable {H : Type}

/-- The answer is one of the outcomes of the fan-out, and at least
    `max(1, quorum_min_agree)` query peers with pairwise distinct ids agree on
    it. -/
def QuorumAnswer (s : GatewayState H) (answer : GatewayResult) (outcomes : List PeerOutcome) : Prop :=
  .ok answer ∈ outcomes ∧
  ∃ l, l <+ s.asked.zip outcomes ∧ max 1 s.config.quorumMinAgree ≤ l.length ∧
    (l.map fun x => x.1.peerId).Nodup ∧
    AgreedOn s.config.ntpToleranceMs answer outcomes (l.map Prod.snd)

/-- Every answer that does not come from the cache is a quorum answer, and a
    fan-out in which all peers return one valid result is answered. -/
def FrontEndSound (P : Prims H) [DecidableEq H] (s : GatewayState H) : Prop :=
  ∀ (Ω : Type) (host : Host Ω) (post : Post Ω) (service : GatewayService) (ω : Ω),
    (∀ r ω', P.resolveFrontEnd host post s service ω = some (.ok r, ω') → r.servedFrom ≠ .cache →
      ∃ ω₁ outcomes ω₂, host.cacheGet service ω = some (none, ω₁) ∧
        P.fanout host post s service ω₁ = some (outcomes, ω₂) ∧ QuorumAnswer s r.result outcomes) ∧
    (∀ ω₁ outcomes ω₂ result, host.cacheGet service ω = some (none, ω₁) →
      P.fanout host post s service ω₁ = some (outcomes, ω₂) → result.For service →
      (∀ o ∈ outcomes, o = .ok result) →
      ∃ r ω', P.resolveFrontEnd host post s service ω = some (.ok r, ω'))

/-- The configurations whose front end only serves quorum answers. -/
structure QuorumConfigured (s : GatewayState H) : Prop where
  queryPeers : s.queryPeers ≠ []
  fanout : s.config.fanoutCount = 0 ∨ s.config.quorumMinAgree ≤ s.config.fanoutCount
  tolerance : 0 ≤ s.config.ntpToleranceMs
  distinct : s.config.quorumMinAgree ≤ 1 ∨ (s.asked.map RelayPeer.peerId).Nodup

/-! ## Aggregation of times -/

theorem bestCluster_eq (tolerance : Int64) (values : List Int64) :
    bestCluster tolerance values = [] ∨
      ∃ v ∈ values, bestCluster tolerance values = cluster tolerance values v :=
  foldl_best_mem List.length (cluster tolerance values) [] values

theorem cluster_le_bestCluster {tolerance : Int64} {values : List Int64} {v : Int64}
    (hv : v ∈ values) :
    (cluster tolerance values v).length ≤ (bestCluster tolerance values).length :=
  (le_foldl_best List.length (cluster tolerance values) (fun _ _ h => h.le)
    (fun _ _ h => not_lt.1 h) [] values).2 v hv

theorem ntpValues_length_le (outcomes : List PeerOutcome) :
    (ntpValues outcomes).length ≤ outcomes.length := List.length_filterMap_le _ _

theorem near_isOk {tolerance v : Int64} {o : PeerOutcome} (h : PeerOutcome.near tolerance v o = true) :
    o.isOk = true := by
  cases o with
  | error e => cases h
  | ok r => rfl

theorem mem_ntpValues {outcomes : List PeerOutcome} {t : Int64} :
    t ∈ ntpValues outcomes ↔ .ok (.ntp t) ∈ outcomes := by
  simp only [ntpValues, List.mem_filterMap]
  constructor
  · rintro ⟨o, ho, heq⟩
    rcases o with e | (t' | ⟨st, hash, body, cc⟩)
    · cases heq
    · cases heq
      exact ho
    · cases heq
  · intro h
    exact ⟨_, h, rfl⟩

theorem cluster_length (tolerance : Int64) (outcomes : List PeerOutcome) (v : Int64) :
    (cluster tolerance (ntpValues outcomes) v).length
      = outcomes.countP (PeerOutcome.near tolerance v) := by
  rw [cluster, ← List.countP_eq_length_filter, ntpValues, List.countP_filterMap]
  refine List.countP_congr ?_
  intro o _
  rcases o with e | (t | ⟨st, hash, body, cc⟩)
  · simp [PeerOutcome.near]
  · simp [PeerOutcome.near]
  · simp [PeerOutcome.near]

/-- An aggregated time is a value of a cluster of the required size. -/
theorem aggregateNtp_ok {outcomes : List PeerOutcome} {tolerance : Int64} {minAgree : ℕ}
    {r : GatewayResult} (h : aggregateNtp outcomes tolerance minAgree = .ok r) :
    ∃ m v, r = .ntp m ∧ m ∈ ntpValues outcomes ∧ v ∈ ntpValues outcomes ∧
      absDiff m v ≤ tolerance ∧
      max 1 minAgree ≤ outcomes.countP (PeerOutcome.near tolerance v) := by
  simp only [aggregateNtp] at h
  by_cases hlen : (bestCluster tolerance (ntpValues outcomes)).length < minAgree
  · rw [if_pos hlen] at h
    cases h
  · rw [if_neg hlen] at h
    cases hmed : ((bestCluster tolerance (ntpValues outcomes)).mergeSort
        fun a b => decide (a ≤ b))[(bestCluster tolerance (ntpValues outcomes)).length / 2]? with
    | none =>
      rw [hmed] at h
      cases h
    | some m =>
      rw [hmed] at h
      cases h
      have hmem : m ∈ bestCluster tolerance (ntpValues outcomes) :=
        List.mem_mergeSort.1 (List.mem_of_getElem? hmed)
      rcases bestCluster_eq tolerance (ntpValues outcomes) with hnil | ⟨v, hmemv, hv⟩
      · rw [hnil] at hmem
        cases hmem
      · have hpos := List.length_pos_of_mem hmem
        rw [hv] at hmem hlen hpos
        rw [cluster_length] at hlen hpos
        obtain ⟨hm, hdiff⟩ := List.mem_filter.1 hmem
        refine ⟨m, v, rfl, hm, hmemv, by simpa using hdiff, ?_⟩
        omega

/-- A cluster of the required size gives an answer. -/
theorem aggregateNtp_isOk {outcomes : List PeerOutcome} {tolerance : Int64} {minAgree : ℕ}
    {v : Int64} (hv : v ∈ ntpValues outcomes) (htol : 0 ≤ tolerance)
    (hmin : minAgree ≤ outcomes.countP (PeerOutcome.near tolerance v)) :
    ∃ r, aggregateNtp outcomes tolerance minAgree = .ok r := by
  have hself : v ∈ cluster tolerance (ntpValues outcomes) v :=
    List.mem_filter.2 ⟨hv, by simpa using htol⟩
  have hpos : 0 < (bestCluster tolerance (ntpValues outcomes)).length :=
    (List.length_pos_of_mem hself).trans_le (cluster_le_bestCluster hv)
  have hle : (cluster tolerance (ntpValues outcomes) v).length ≤ _ := cluster_le_bestCluster hv
  rw [cluster_length] at hle
  simp only [aggregateNtp]
  rw [if_neg (by omega), List.getElem?_eq_getElem (by rw [List.length_mergeSort]; omega)]
  exact ⟨_, rfl⟩

/-! ## Aggregation of pages -/

/-- Every group holds pages of the fan-out with its hash, at most as many as
    there are. -/
def GroupsOf (outcomes : List PeerOutcome) (groups : List (String × List GatewayResult)) : Prop :=
  ∀ g ∈ groups, g.2.length ≤ outcomes.countP (PeerOutcome.hashes g.1) ∧
    ∀ r ∈ g.2, .ok r ∈ outcomes ∧ r.contentHash? = some g.1

theorem mem_pushGroup {hash : String} {r : GatewayResult} {groups : List (String × List GatewayResult)}
    {g : String × List GatewayResult} (h : g ∈ pushGroup hash r groups) :
    g ∈ groups ∨ g = (hash, [r]) ∨ ∃ rs, (hash, rs) ∈ groups ∧ g = (hash, rs ++ [r]) := by
  induction groups with
  | nil => exact Or.inr (Or.inl (List.mem_singleton.1 h))
  | cons g' groups ih =>
    obtain ⟨hash', rs⟩ := g'
    by_cases heq : hash' = hash
    · subst heq
      rw [pushGroup, if_pos rfl] at h
      rcases List.mem_cons.1 h with rfl | h
      · exact Or.inr (Or.inr ⟨rs, by simp, rfl⟩)
      · exact Or.inl (List.mem_cons_of_mem _ h)
    · rw [pushGroup, if_neg heq] at h
      rcases List.mem_cons.1 h with rfl | h
      · exact Or.inl (by simp)
      · rcases ih h with h | h | ⟨rs', hrs', h⟩
        · exact Or.inl (List.mem_cons_of_mem _ h)
        · exact Or.inr (Or.inl h)
        · exact Or.inr (Or.inr ⟨rs', List.mem_cons_of_mem _ hrs', h⟩)

theorem GroupsOf.push {outcomes : List PeerOutcome} {groups : List (String × List GatewayResult)}
    (h : GroupsOf outcomes groups) (status : UInt16) (hash : String) (body : Bytes)
    (cc : Option String) :
    GroupsOf (outcomes ++ [.ok (.http status hash body cc)])
      (pushGroup hash (.http status hash body cc) groups) := by
  intro g hg
  rcases mem_pushGroup hg with hg | rfl | ⟨rs, hrs, rfl⟩
  · obtain ⟨hlen, hall⟩ := h g hg
    refine ⟨hlen.trans ?_, fun r hr => ⟨List.mem_append_left _ (hall r hr).1, (hall r hr).2⟩⟩
    rw [List.countP_append]
    exact Nat.le_add_right _ _
  · refine ⟨?_, by simp [GatewayResult.contentHash?]⟩
    rw [List.countP_append]
    simp [PeerOutcome.hashes]
  · obtain ⟨hlen, hall⟩ := h _ hrs
    refine ⟨?_, ?_⟩
    · rw [List.countP_append]
      simpa [PeerOutcome.hashes] using hlen
    · intro r hr
      rcases List.mem_append.1 hr with hr | hr
      · exact ⟨List.mem_append_left _ (hall r hr).1, (hall r hr).2⟩
      · rw [List.mem_singleton.1 hr]
        exact ⟨by simp, rfl⟩

theorem GroupsOf.skip {outcomes : List PeerOutcome} {groups : List (String × List GatewayResult)}
    (h : GroupsOf outcomes groups) {o : PeerOutcome} (ho : ∀ hash, PeerOutcome.hashes hash o = false) :
    GroupsOf (outcomes ++ [o]) groups := by
  intro g hg
  obtain ⟨hlen, hall⟩ := h g hg
  refine ⟨?_, fun r hr => ⟨List.mem_append_left _ (hall r hr).1, (hall r hr).2⟩⟩
  simpa [ho] using hlen

theorem httpGroups_groupsOf (outcomes : List PeerOutcome) : GroupsOf outcomes (httpGroups outcomes) := by
  induction outcomes using List.reverseRecOn with
  | nil =>
    intro g hg
    cases hg
  | append_singleton outcomes o ih =>
    rw [httpGroups, List.foldl_append]
    rcases o with e | (t | ⟨status, hash, body, cc⟩)
    · exact ih.skip (by simp [PeerOutcome.hashes])
    · exact ih.skip (by simp [PeerOutcome.hashes])
    · exact ih.push status hash body cc

theorem longestGroup_mem {groups : List (String × List GatewayResult)}
    {g : String × List GatewayResult} (h : longestGroup groups = some g) : g ∈ groups := by
  cases groups with
  | nil => cases h
  | cons g' groups =>
    cases h
    rcases foldl_best_mem (r := (· ≤ ·)) (fun g : String × List GatewayResult => g.2.length) id g'
      groups with h | ⟨x, hx, h⟩
    · exact List.mem_cons.2 (Or.inl h)
    · exact List.mem_cons.2 (Or.inr (h.symm ▸ hx))

/-- An aggregated page is one of the required number with its content hash. -/
theorem aggregateHttp_ok {order : GroupOrder} {outcomes : List PeerOutcome} {minAgree : ℕ}
    {r : GatewayResult} (h : aggregateHttp order outcomes minAgree = .ok r) :
    ∃ hash, .ok r ∈ outcomes ∧ r.contentHash? = some hash ∧
      max 1 minAgree ≤ outcomes.countP (PeerOutcome.hashes hash) := by
  rw [aggregateHttp] at h
  cases hg : longestGroup (order.order (httpGroups outcomes)) with
  | none =>
    rw [hg] at h
    cases h
  | some g =>
    obtain ⟨hash, group⟩ := g
    rw [hg] at h
    have hmem : (hash, group) ∈ httpGroups outcomes :=
      (order.perm _).mem_iff.1 (longestGroup_mem hg)
    obtain ⟨hlen, hall⟩ := httpGroups_groupsOf outcomes _ hmem
    by_cases hmin : group.length < minAgree
    · simp only [if_pos hmin] at h
      cases h
    · simp only [if_neg hmin] at h
      cases group with
      | nil => cases h
      | cons r' group =>
        cases h
        obtain ⟨hmem', hhash⟩ := hall _ (by simp : r ∈ r :: group)
        refine ⟨hash, hmem', hhash, ?_⟩
        simp only [List.length_cons] at hlen hmin
        omega

theorem httpGroups_replicate (status : UInt16) (hash : String) (body : Bytes) (cc : Option String)
    (n : ℕ) : httpGroups (List.replicate (n + 1) (.ok (.http status hash body cc)))
      = [(hash, List.replicate (n + 1) (.http status hash body cc))] := by
  induction n with
  | zero => rfl
  | succ n ih =>
    rw [List.replicate_succ', httpGroups, List.foldl_append, ← httpGroups, ih]
    simp [pushGroup, List.replicate_succ']

/-! ## The quorum of the distinct peers -/

theorem aggregateQuorum_agreed {order : GroupOrder} {service : GatewayService} {s : GatewayState H}
    {outcomes : List PeerOutcome} {r : GatewayResult} (hlen : s.asked.length = outcomes.length)
    (hd : s.config.quorumMinAgree ≤ 1 ∨ (s.asked.map RelayPeer.peerId).Nodup)
    (h : aggregateQuorum order service outcomes s.config.ntpToleranceMs s.config.quorumMinAgree = .ok r) :
    QuorumAnswer s r outcomes := by
  have hd' : max 1 s.config.quorumMinAgree ≤ 1 ∨ (s.asked.map RelayPeer.peerId).Nodup := by
    rcases hd with h1 | hnd
    · exact Or.inl (max_le le_rfl h1)
    · exact Or.inr hnd
  cases service with
  | ntp =>
    obtain ⟨m, v, rfl, hmem, hv, hm, hcount⟩ := aggregateNtp_ok h
    obtain ⟨l, hl, hk, hnd, hall⟩ := exists_distinct_sublist RelayPeer.peerId _ hlen hcount hd'
    refine ⟨mem_ntpValues.1 hmem, l, hl, hk, hnd, v, hv, hm, ?_⟩
    intro o ho
    obtain ⟨x, hx, rfl⟩ := List.mem_map.1 ho
    exact hall x hx
  | http url =>
    obtain ⟨hash, hmem, hr, hcount⟩ := aggregateHttp_ok h
    obtain ⟨l, hl, hk, hnd, hall⟩ := exists_distinct_sublist RelayPeer.peerId _ hlen hcount hd'
    refine ⟨hmem, l, hl, hk, hnd, ?_⟩
    cases r with
    | ntp t => cases hr
    | http status h body cc =>
      cases hr
      intro o ho
      obtain ⟨x, hx, rfl⟩ := List.mem_map.1 ho
      exact hall x hx

theorem aggregateQuorum_unanimous (order : GroupOrder) {service : GatewayService}
    {outcomes : List PeerOutcome} {result : GatewayResult} {tolerance : Int64} {minAgree : ℕ}
    (hne : outcomes ≠ []) (hfor : result.For service) (hall : ∀ o ∈ outcomes, o = .ok result)
    (htol : 0 ≤ tolerance) (hmin : minAgree ≤ outcomes.length) :
    ∃ r, aggregateQuorum order service outcomes tolerance minAgree = .ok r := by
  obtain ⟨n, hn⟩ := Nat.exists_eq_succ_of_ne_zero (mt List.length_eq_zero_iff.1 hne)
  have hrep : outcomes = List.replicate (n + 1) (.ok result) := List.eq_replicate_iff.2 ⟨hn, hall⟩
  cases service with
  | ntp =>
    cases result with
    | http status hash body cc => exact hfor.elim
    | ntp t =>
      refine aggregateNtp_isOk (v := t) ?_ htol ?_
      · rw [hrep]
        simp [ntpValues]
      · rw [hrep, List.countP_replicate, if_pos (by simpa [PeerOutcome.near] using htol)]
        omega
  | http url =>
    cases result with
    | ntp t => exact hfor.elim
    | http status hash body cc =>
      have hord : order.order (httpGroups outcomes)
          = [(hash, List.replicate (n + 1) (.http status hash body cc))] := by
        have hperm := order.perm (httpGroups outcomes)
        rw [hrep, httpGroups_replicate] at hperm ⊢
        exact List.perm_singleton.1 hperm
      refine ⟨.http status hash body cc, ?_⟩
      rw [aggregateQuorum, aggregateHttp, hord]
      simp only [longestGroup, List.foldl_nil, List.length_replicate, if_neg (show ¬ n + 1 < minAgree by omega)]
      rfl

/-! ## One resolution of the front end -/

theorem fanoutN_le (s : GatewayState H) : fanoutN s ≤ s.queryPeers.length := by
  unfold fanoutN
  split
  · exact le_rfl
  · exact min_le_right _ _

theorem asked_length (s : GatewayState H) : s.asked.length = fanoutN s := by
  rw [GatewayState.asked, List.length_take, min_eq_left (fanoutN_le s)]

theorem requireQuorumCapable_ok {s : GatewayState H} (h : requireQuorumCapable s = .ok ()) :
    s.config.quorumMinAgree ≤ s.queryPeers.length := by
  unfold requireQuorumCapable at h
  split at h
  · cases h
  · omega

theorem QuorumConfigured.le_fanoutN {s : GatewayState H} (hs : QuorumConfigured s)
    (hcap : requireQuorumCapable s = .ok ()) : s.config.quorumMinAgree ≤ fanoutN s := by
  have hle := requireQuorumCapable_ok hcap
  unfold fanoutN
  rcases hs.fanout with h0 | h
  · rwa [if_pos h0]
  · split
    · exact hle
    · exact le_min h hle

theorem fanoutN_pos {s : GatewayState H} (hq : s.queryPeers ≠ []) : 0 < fanoutN s := by
  have hpos := List.length_pos_iff.2 hq
  unfold fanoutN
  split <;> omega

section resolve

variable {P : Prims H} [DecidableEq H] {Ω : Type} {host : Host Ω} {post : Post Ω}
  {s : GatewayState H} {service : GatewayService}

theorem fanout_length {ω ω' : Ω} {outcomes : List PeerOutcome}
    (h : P.fanout host post s service ω = some (outcomes, ω')) : s.asked.length = outcomes.length :=
  (Io.length_mapM h).symm

/-- What follows a cache miss and a fan-out. -/
theorem resolveFrontEnd_fanout {ω ω₁ ω₂ : Ω} {outcomes : List PeerOutcome}
    (hq : s.queryPeers ≠ []) (hget : host.cacheGet service ω = some (none, ω₁))
    (hf : P.fanout host post s service ω₁ = some (outcomes, ω₂)) :
    ∃ ω', P.resolveFrontEnd host post s service ω
      = some ((aggregateQuorum (host.groupOrder ω₂) service outcomes s.config.ntpToleranceMs
          s.config.quorumMinAgree).map (⟨·, .quorum⟩), ω') := by
  have hv : P.fanoutAndVerify host post s service ω₁
      = some (aggregateQuorum (host.groupOrder ω₂) service outcomes s.config.ntpToleranceMs
          s.config.quorumMinAgree, ω₂) := by
    simp only [Prims.fanoutAndVerify, Io.bind_apply, hf]
    rfl
  rw [Prims.resolveFrontEnd, Prims.resolveGatewayQuery, Io.bind_apply, hget]
  simp only [Option.bind_some, if_pos hq, Io.bind_apply, hv]
  cases hagg : aggregateQuorum (host.groupOrder ω₂) service outcomes s.config.ntpToleranceMs
      s.config.quorumMinAgree with
  | error e => exact ⟨ω₂, rfl⟩
  | ok r =>
    obtain ⟨⟨_, ω₃⟩, h₃⟩ := Option.isSome_iff_exists.1
      (returns_cachePut host service r (P.computeCacheTtl service r s.config) ω₂)
    refine ⟨ω₃, ?_⟩
    simp only [Io.bind_apply, h₃]
    rfl

/-- An answer that is not cached comes from a fan-out, if there are query peers. -/
theorem resolveFrontEnd_served {ω ω' : Ω} {r : ResolvedQuery} (hq : s.queryPeers ≠ [])
    (h : P.resolveFrontEnd host post s service ω = some (.ok r, ω')) (hnc : r.servedFrom ≠ .cache) :
    ∃ ω₁ outcomes ω₂, host.cacheGet service ω = some (none, ω₁) ∧
      P.fanout host post s service ω₁ = some (outcomes, ω₂) ∧
      aggregateQuorum (host.groupOrder ω₂) service outcomes s.config.ntpToleranceMs
        s.config.quorumMinAgree = .ok r.result := by
  obtain ⟨⟨cached, ω₁⟩, hget⟩ := Option.isSome_iff_exists.1 (returns_cacheGet host service ω)
  cases cached with
  | some result =>
    rw [Prims.resolveFrontEnd, Prims.resolveGatewayQuery, Io.bind_apply, hget] at h
    cases h
    exact absurd rfl hnc
  | none =>
    cases hf : P.fanout host post s service ω₁ with
    | none =>
      have hv : P.fanoutAndVerify host post s service ω₁ = none := by
        simp [Prims.fanoutAndVerify, hf]
      rw [Prims.resolveFrontEnd, Prims.resolveGatewayQuery, Io.bind_apply, hget] at h
      simp only [Option.bind_some, if_pos hq, Io.bind_apply, hv] at h
      cases h
    | some p =>
      obtain ⟨outcomes, ω₂⟩ := p
      obtain ⟨ω₃, h₃⟩ := resolveFrontEnd_fanout hq hget hf
      rw [h₃] at h
      refine ⟨ω₁, outcomes, ω₂, hget, hf, ?_⟩
      cases hagg : aggregateQuorum (host.groupOrder ω₂) service outcomes s.config.ntpToleranceMs
          s.config.quorumMinAgree with
      | error e =>
        rw [hagg] at h
        cases h
      | ok a =>
        rw [hagg] at h
        cases h
        rfl

/-- A configuration that meets the condition serves quorum answers only, and
    serves unanimous ones. -/
theorem QuorumConfigured.sound {s : GatewayState H} (hs : QuorumConfigured s)
    (hcap : requireQuorumCapable s = .ok ()) : FrontEndSound P s := by
  intro Ω host post service ω
  refine ⟨?_, ?_⟩
  · intro r ω' h hnc
    obtain ⟨ω₁, outcomes, ω₂, hget, hf, hagg⟩ := resolveFrontEnd_served hs.queryPeers h hnc
    exact ⟨ω₁, outcomes, ω₂, hget, hf, aggregateQuorum_agreed (fanout_length hf) hs.distinct hagg⟩
  · intro ω₁ outcomes ω₂ result hget hf hfor hall
    have hlen := fanout_length hf
    rw [asked_length] at hlen
    have hne : outcomes ≠ [] := List.length_pos_iff.1 (hlen ▸ fanoutN_pos hs.queryPeers)
    obtain ⟨r, hr⟩ := aggregateQuorum_unanimous (host.groupOrder ω₂) hne hfor hall hs.tolerance
      (hlen ▸ hs.le_fanoutN hcap)
    obtain ⟨ω', hω'⟩ := resolveFrontEnd_fanout hs.queryPeers hget hf
    rw [hr] at hω'
    exact ⟨_, ω', hω'⟩

end resolve

/-! ## Peers that answer as told -/

/-- The cache of a front end, and the answers of its peers still to come. -/
structure Script where
  cache : GatewayCache
  answers : List (Option (Prims.PeerIdentity × GatewayResult))

def scriptHost : Host Script :=
  stillHost Script.cache (fun c ω => { ω with cache := c }) fun _ _ => rfl

def Prims.scriptPost (P : Prims H) : Post Script := fun _ _ ω =>
  match ω.answers with
  | [] => some (.error (.failed "unreachable"), ω)
  | none :: rest => some (.error (.failed "unreachable"), { ω with answers := rest })
  | some (identity, result) :: rest =>
    some (.ok (P.buildAndSignGatewayResponse identity result (List.replicate 32 0) 0 .origin),
      { ω with answers := rest })

/-- What comes of an answer. -/
def outcomeOf (peer : RelayPeer H) : Option (Prims.PeerIdentity × GatewayResult) → PeerOutcome
  | none => .error (.internal (postErrorText peer (.failed "unreachable")))
  | some (_, result) => .ok result

section necessity

variable {P : Prims H} {s : GatewayState H} {service : GatewayService}

/-- A peer that answers holds the key of its id. -/
def AnswersFor (P : Prims H) (peer : RelayPeer H)
    (answer : Option (Prims.PeerIdentity × GatewayResult)) : Prop :=
  ∀ a ∈ answer, SignsCorrectly P a.1 ∧ a.1.peerId P = peer.peerId

theorem exists_answers {peers sel : List (RelayPeer H)} (hsel : sel <+ peers)
    (hkeys : ∀ p ∈ peers, ∃ identity, SignsCorrectly P identity ∧ identity.peerId P = p.peerId)
    (result : GatewayResult) :
    ∃ answers, List.Forall₂ (AnswersFor P) peers answers ∧
      ((peers.zip (List.zipWith outcomeOf peers answers)).filter fun x => x.2.isOk).map Prod.fst = sel ∧
      (List.zipWith outcomeOf peers answers).countP Except.isOk = sel.length ∧
      ∀ o ∈ List.zipWith outcomeOf peers answers, o.isOk = true → o = .ok result := by
  induction hsel with
  | slnil => exact ⟨[], List.Forall₂.nil, rfl, rfl, by simp⟩
  | @cons sel peers p hsel ih =>
    obtain ⟨answers, hall, hfil, hcount, hok⟩ := ih fun q hq => hkeys q (by simp [hq])
    refine ⟨none :: answers, List.Forall₂.cons (by intro a ha; cases ha) hall, ?_, ?_, ?_⟩
    · simpa [outcomeOf, Except.isOk, Except.toBool] using hfil
    · simpa [outcomeOf, Except.isOk, Except.toBool] using hcount
    · intro o ho
      rcases List.mem_cons.1 ho with rfl | ho
      · intro h
        cases h
      · exact hok o ho
  | @cons_cons sel peers p hsel ih =>
    obtain ⟨answers, hall, hfil, hcount, hok⟩ := ih fun q hq => hkeys q (by simp [hq])
    obtain ⟨identity, hsign, hid⟩ := hkeys p (by simp)
    refine ⟨some (identity, result) :: answers, List.Forall₂.cons ?_ hall, ?_, ?_, ?_⟩
    · intro a ha
      cases ha
      exact ⟨hsign, hid⟩
    · simpa [outcomeOf, Except.isOk, Except.toBool] using hfil
    · rw [List.zipWith_cons_cons, List.countP_cons_of_pos rfl, hcount, List.length_cons]
    · intro o ho
      rcases List.mem_cons.1 ho with rfl | ho
      · intro _
        rfl
      · exact hok o ho

variable [DecidableEq H]

theorem addHalfRtt_zero (result : GatewayResult) : addHalfRtt result 0 = result := by
  cases result with
  | http status hash body cc => rfl
  | ntp t =>
    have hz : Int64.ofNat (0 / 1000000) / 2 = 0 := by decide
    simp only [addHalfRtt, hz, Int64.add_zero]

theorem queryPeer_script {peer : RelayPeer H} {a : Option (Prims.PeerIdentity × GatewayResult)}
    (ha : AnswersFor P peer a) (hops : UInt8) (path : List String) (c : GatewayCache)
    (rest : List (Option (Prims.PeerIdentity × GatewayResult))) :
    P.queryPeer scriptHost P.scriptPost s peer service hops path ⟨c, a :: rest⟩
      = some (outcomeOf peer a, ⟨c, rest⟩) := by
  cases a with
  | none => rfl
  | some a =>
    obtain ⟨identity, result⟩ := a
    obtain ⟨hsign, hid⟩ := ha _ rfl
    have hlen : (List.replicate 32 0 : Bytes).length = 32 := List.length_replicate
    have hver := verifyGatewayResponse_build hsign result hlen 0 .origin
    simp only [Prims.queryPeer, Io.bind_apply, Io.of_apply, Option.bind_some, scriptHost, stillHost,
      Prims.scriptPost, hver]
    rw [if_neg (by simpa using hid)]
    simp only [Io.pure_apply, Prims.buildAndSignGatewayResponse, addHalfRtt_zero, Nat.sub_self]
    rfl

theorem mapM_script {peers : List (RelayPeer H)}
    {answers : List (Option (Prims.PeerIdentity × GatewayResult))}
    (h : List.Forall₂ (AnswersFor P) peers answers) (hops : UInt8) (path : List String)
    (c : GatewayCache) :
    peers.mapM (fun peer => P.queryPeer scriptHost P.scriptPost s peer service hops path) ⟨c, answers⟩
      = some (List.zipWith outcomeOf peers answers, ⟨c, []⟩) := by
  induction h with
  | nil => rfl
  | @cons peer a peers answers ha h ih =>
    rw [List.mapM_cons, Io.bind_apply, queryPeer_script ha]
    simp only [Option.bind_some, Io.bind_apply, ih]
    rfl

theorem cacheGet_script (service : GatewayService) (answers : List (Option (Prims.PeerIdentity × GatewayResult))) :
    scriptHost.cacheGet service ⟨[], answers⟩ = some (none, ⟨[], answers⟩) :=
  cacheGet_cold _ rfl service

theorem fanout_script (service : GatewayService) {answers : List (Option (Prims.PeerIdentity × GatewayResult))}
    (h : List.Forall₂ (AnswersFor P) s.asked answers) :
    P.fanout scriptHost P.scriptPost s service ⟨[], answers⟩
      = some (List.zipWith outcomeOf s.asked answers, ⟨[], []⟩) :=
  mapM_script h _ _ _

/-- Relay peers that do not answer. -/
theorem relayLoop_script (peers : List (RelayPeer H)) (hops : UInt8) (path : List String) :
    P.relayLoop scriptHost P.scriptPost s service hops path peers ⟨[], []⟩ = some (none, ⟨[], []⟩) := by
  induction peers with
  | nil => rfl
  | cons peer peers ih =>
    rw [Prims.relayLoop]
    split
    · exact ih
    · exact ih

theorem relayGatewayQuery_script (hops : UInt8) (path : List String) :
    P.relayGatewayQuery scriptHost P.scriptPost s service hops path ⟨[], []⟩
      = some (none, ⟨[], []⟩) := by
  rw [Prims.relayGatewayQuery]
  split
  · rfl
  · exact relayLoop_script _ _ _

/-- Without query peers, an empty fan-out goes unanswered. -/
theorem FrontEndSound.queryPeers (h : FrontEndSound P s) : s.queryPeers ≠ [] := by
  intro hq
  have hasked : s.asked = [] := by simp [GatewayState.asked, hq]
  have hall : List.Forall₂ (AnswersFor P) s.asked [] := by simp [hasked]
  have hf : P.fanout scriptHost P.scriptPost s .ntp ⟨[], []⟩ = some ([], ⟨[], []⟩) := by
    rw [fanout_script .ntp hall, hasked]
    rfl
  obtain ⟨r, ω', hr⟩ := (h Script scriptHost P.scriptPost .ntp ⟨[], []⟩).2 _ [] _ (.ntp 0)
    (cacheGet_script .ntp []) hf trivial (by simp)
  have hun : P.resolveUnverified scriptHost P.scriptPost s .ntp s.config.hopsRemaining [] ⟨[], []⟩
      = some (.error (.error .cannotResolve), ⟨[], []⟩) := by
    rw [scriptHost, resolveUnverified_still, ← scriptHost, relayGatewayQuery_script]
    rfl
  rw [Prims.resolveFrontEnd, Prims.resolveGatewayQuery, Io.bind_apply, cacheGet_script] at hr
  simp only [Option.bind_some, hq, ne_eq, not_true_eq_false, if_false] at hr
  rw [hun] at hr
  cases hr

/-- The peers that are asked all return the time zero. -/
theorem FrontEndSound.unanimous (h : FrontEndSound P s)
    (hkeys : ∀ p ∈ s.queryPeers, ∃ identity, SignsCorrectly P identity ∧ identity.peerId P = p.peerId) :
    s.config.quorumMinAgree ≤ fanoutN s ∧ 0 ≤ s.config.ntpToleranceMs := by
  have hsub : ∀ p ∈ s.asked, p ∈ s.queryPeers := fun p hp => List.mem_of_mem_take hp
  obtain ⟨answers, hall, -, hcountOk, hok⟩ := exists_answers (List.Sublist.refl s.asked)
    (fun p hp => hkeys p (hsub p hp)) (.ntp 0)
  have hf := fanout_script .ntp hall
  have hlen := fanout_length hf
  have hzero : ∀ o ∈ List.zipWith outcomeOf s.asked answers, o = .ok (.ntp 0) := by
    intro o ho
    exact hok o ho (List.countP_eq_length.1 (hcountOk.trans hlen) o ho)
  obtain ⟨r, ω', hr⟩ := (h Script scriptHost P.scriptPost .ntp ⟨[], answers⟩).2 _ _ _ (.ntp 0)
    (cacheGet_script .ntp answers) hf trivial hzero
  obtain ⟨ω₃, h₃⟩ := resolveFrontEnd_fanout h.queryPeers (cacheGet_script .ntp answers) hf
  rw [hr] at h₃
  cases hagg : aggregateQuorum (scriptHost.groupOrder ⟨[], []⟩) .ntp
      (List.zipWith outcomeOf s.asked answers) s.config.ntpToleranceMs s.config.quorumMinAgree with
  | error e =>
    rw [hagg] at h₃
    cases h₃
  | ok a =>
    obtain ⟨m, v, -, -, hv, -, hcount⟩ := aggregateNtp_ok hagg
    refine ⟨?_, ?_⟩
    · have hle : (List.zipWith outcomeOf s.asked answers).countP
          (PeerOutcome.near s.config.ntpToleranceMs v) ≤ _ := List.countP_le_length
      rw [← hlen, asked_length] at hle
      omega
    · have hpos : 0 < (List.zipWith outcomeOf s.asked answers).countP
          (PeerOutcome.near s.config.ntpToleranceMs v) := by omega
      obtain ⟨o, ho, hnear⟩ := List.countP_pos_iff.1 hpos
      have hv0 := hzero _ (mem_ntpValues.1 hv)
      cases hv0
      rw [hzero o ho] at hnear
      simpa [PeerOutcome.near] using hnear

/-- A peer that is asked twice counts twice. -/
theorem FrontEndSound.distinct (h : FrontEndSound P s)
    (hkeys : ∀ p ∈ s.queryPeers, ∃ identity, SignsCorrectly P identity ∧ identity.peerId P = p.peerId) :
    s.config.quorumMinAgree ≤ 1 ∨ (s.asked.map RelayPeer.peerId).Nodup := by
  obtain ⟨hn, htol⟩ := h.unanimous hkeys
  by_contra hcon
  obtain ⟨hq, hnd⟩ := not_or.1 hcon
  -- two positions with one id, and others up to the threshold
  obtain ⟨x, hx⟩ := List.exists_duplicate_iff_not_nodup.2 hnd
  obtain ⟨twice, htwice, hmap⟩ := List.sublist_map_iff.1 (List.duplicate_iff_sublist.1 hx)
  have htwo : twice.length = 2 := by
    have h2 := congrArg List.length hmap
    simpa using h2.symm
  obtain ⟨sel, hts, hsel, hlen⟩ := exists_sublist_between htwice (k := s.config.quorumMinAgree)
    (by omega) (by rw [asked_length]; exact hn)
  have hdup : ¬ (sel.map RelayPeer.peerId).Nodup := by
    intro hnd'
    have h2 := hnd'.sublist (hts.map RelayPeer.peerId)
    rw [← hmap] at h2
    simp at h2
  have hsub : ∀ p ∈ s.asked, p ∈ s.queryPeers := fun p hp => List.mem_of_mem_take hp
  obtain ⟨answers, hall, hfil, hcount, hok⟩ :=
    exists_answers hsel (fun p hp => hkeys p (hsub p hp)) (.ntp 0)
  have hf := fanout_script .ntp hall
  have hnear : ∀ o ∈ List.zipWith outcomeOf s.asked answers, o.isOk = true →
      PeerOutcome.near s.config.ntpToleranceMs 0 o = true := by
    intro o ho hisOk
    rw [hok o ho hisOk]
    simpa [PeerOutcome.near] using htol
  have hmin : s.config.quorumMinAgree ≤ (List.zipWith outcomeOf s.asked answers).countP
      (PeerOutcome.near s.config.ntpToleranceMs 0) := by
    rw [← hlen, ← hcount]
    exact List.countP_mono_left hnear
  have hzero : (0 : Int64) ∈ ntpValues (List.zipWith outcomeOf s.asked answers) := by
    obtain ⟨o, ho, hisOk⟩ := List.countP_pos_iff.1 (show 0 < _ by rw [hcount]; omega)
    exact mem_ntpValues.2 (hok o ho hisOk ▸ ho)
  obtain ⟨a, ha⟩ := aggregateNtp_isOk hzero htol hmin
  obtain ⟨ω', hω'⟩ := resolveFrontEnd_fanout h.queryPeers (cacheGet_script .ntp answers) hf
  rw [aggregateQuorum, ha] at hω'
  obtain ⟨ω₁, outcomes, ω₂, hget, hf', -, l, hl, hk, hlnd, hagree⟩ :=
    (h Script scriptHost P.scriptPost .ntp ⟨[], answers⟩).1 _ _ hω' (by simp)
  rw [cacheGet_script] at hget
  cases hget
  rw [hf] at hf'
  cases hf'
  obtain ⟨m, v', rfl, -⟩ := aggregateNtp_ok ha
  obtain ⟨v, -, -, hv⟩ := hagree
  -- the agreeing peers are among the selected ones, as many, so the same
  have hlok : ∀ x ∈ l, x.2.isOk = true := by
    intro x hx
    exact near_isOk (hv _ (List.mem_map_of_mem hx))
  have hlsel : l.map Prod.fst <+ sel := by
    have hfl := hl.filter fun x => x.2.isOk
    rw [List.filter_eq_self.2 hlok] at hfl
    exact hfil ▸ hfl.map Prod.fst
  have heq : l.map Prod.fst = sel := hlsel.eq_of_length_le (by rw [List.length_map]; omega)
  rw [← heq, List.map_map] at hdup
  exact hdup hlnd

end necessity

/-! ## The startup check -/

section startup

variable {P : Prims H} [DecidableEq H] {s : GatewayState H}

theorem FrontEndSound.configured (h : FrontEndSound P s)
    (hkeys : ∀ p ∈ s.queryPeers, ∃ identity, SignsCorrectly P identity ∧ identity.peerId P = p.peerId) :
    QuorumConfigured s where
  queryPeers := h.queryPeers
  fanout := by
    by_cases h0 : s.config.fanoutCount = 0
    · exact Or.inl h0
    · have hn := (h.unanimous hkeys).1
      rw [fanoutN, if_neg h0] at hn
      exact Or.inr (hn.trans (min_le_left _ _))
  tolerance := (h.unanimous hkeys).2
  distinct := h.distinct hkeys

/-- A front end with the default settings and two query peers. -/
noncomputable def frontEndOf (p q : Prims.PeerIdentity) : GatewayState Bytes where
  identity := peerA
  queryPeers := [⟨"http://10.0.0.2:8080", p.peerId idealOpen⟩,
    ⟨"http://10.0.0.3:8080", q.peerId idealOpen⟩]
  relayPeers := []
  config := {}

theorem frontEndOf_keys (p q : Prims.PeerIdentity) : ∀ r ∈ (frontEndOf p q).queryPeers,
    ∃ identity, SignsCorrectly idealOpen identity ∧ identity.peerId idealOpen = r.peerId := by
  intro r hr
  rcases List.mem_cons.1 hr with rfl | hr
  · exact ⟨p, idealOpen_signsCorrectly p, rfl⟩
  · rw [List.mem_singleton.1 hr]
    exact ⟨q, idealOpen_signsCorrectly q, rfl⟩

end startup

end OpenAgentGraph
