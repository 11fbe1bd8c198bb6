/-
  The cache of the gateway, in every interleaving of queries.

  * `cache_sound`: an entry is the result of `aggregate_quorum` for the
    service of its key and may be stored; what is served from the cache is
    such a result, within its lifetime, and a time has moved on.
  * `resolveGatewayQuery_run`: a call of `resolve_gateway_query`, with other
    queries in between, is a run of the interleaved gateway.
-/
import OpenAgentGraph.Gateway.Run
import OpenAgentGraph.Proof.Gateway

namespace OpenAgentGraph

open Lib

variable {H : Type}

/-! ## The table of the entries -/

namespace GatewayCache

theorem key_injective : Function.Injective key := by
  have hne : ∀ url : String, "ntp" ≠ "http:" ++ url := by
    intro url heq
    have hlist := congrArg String.toList heq
    simp at hlist
  intro a b h
  cases a with
  | ntp =>
    cases b with
    | ntp => rfl
    | http url => exact absurd h (hne url)
  | http url =>
    cases b with
    | ntp => exact absurd h.symm (hne url)
    | http url' =>
      have hlist := congrArg String.toList h
      simp only [key, String.toList_append, List.append_cancel_left_eq] at hlist
      rw [String.toList_inj.1 hlist]

theorem mem_of_lookup {c : GatewayCache} {k : String} {e : CacheEntry} (h : c.lookup k = some e) :
    (k, e) ∈ c := by
  obtain ⟨x, hx, rfl⟩ := Option.map_eq_some_iff.1 h
  have hk := List.find?_some hx
  simp only [decide_eq_true_eq] at hk
  exact hk ▸ List.mem_of_find?_eq_some hx

theorem mem_put {c : GatewayCache} {service : GatewayService} {result : GatewayResult} {ttlMs now : ℕ}
    {k : String} {e : CacheEntry} (h : (k, e) ∈ c.put service result ttlMs now) :
    (k, e) ∈ c ∨ (ttlMs ≠ 0 ∧ k = key service ∧ e = ⟨result, now, ttlMs⟩) := by
  rw [put] at h
  by_cases hzero : ttlMs = 0
  · rw [if_pos hzero] at h
    exact Or.inl h
  · rw [if_neg hzero, insert] at h
    rcases List.mem_cons.1 h with heq | h
    · cases heq
      exact Or.inr ⟨hzero, rfl, rfl⟩
    · exact Or.inl (List.mem_of_mem_filter h)

end GatewayCache

theorem CacheEntry.fresh_eq_some {e : CacheEntry} {now : ℕ} {r : GatewayResult}
    (h : e.fresh now = some r) :
    now - e.computedAt < e.ttlMs * 1000000 ∧ r = adjustForElapsed e.result (now - e.computedAt) := by
  rw [fresh] at h
  by_cases hold : e.ttlMs = 0 ∨ e.ttlMs * 1000000 ≤ now - e.computedAt
  · simp [hold] at h
  · rw [if_neg hold] at h
    push Not at hold
    exact ⟨hold.2, (Option.some.inj h).symm⟩

/-! ## The invariant -/

/-- A `Cache-Control` header that forbids storing. -/
def Prims.ForbidsStoring (P : Prims H) (cc : String) : Prop :=
  "no-store".toList <:+: (P.toLowercase cc).toList ∨ "no-cache".toList <:+: (P.toLowercase cc).toList

/-- The lifetime of a verified answer, in nanoseconds. -/
def Verification.lifetime (P : Prims H) {s : GatewayState H} (v : Verification s) : ℕ :=
  P.computeCacheTtl v.service v.result s.config * 1000000

section invariant

variable {P : Prims H} {s : GatewayState H}

/-- The answer of a verification that was stored, within its lifetime. -/
def FromCache (P : Prims H) (verified : List (Verification s)) (a : Answer) : Prop :=
  ∃ v ∈ verified, v.service = a.service ∧ ∃ storedAt ≤ a.time,
    a.time - storedAt < v.lifetime P ∧ a.result = adjustForElapsed v.result (a.time - storedAt)

/-- An entry of the cache is a verification, stored by now. -/
def EntryOf (P : Prims H) (st : GatewayRun s) (k : String) (e : CacheEntry) : Prop :=
  ∃ v ∈ st.verified, k = GatewayCache.key v.service ∧ e.result = v.result ∧
    e.ttlMs = P.computeCacheTtl v.service v.result s.config ∧ e.ttlMs ≠ 0 ∧ e.computedAt ≤ st.clock

structure CacheInv (P : Prims H) (st : GatewayRun s) : Prop where
  entries : ∀ k e, (k, e) ∈ st.cache → EntryOf P st k e
  tasks : ∀ v, .store v ∈ st.tasks → v ∈ st.verified
  answers : ∀ a ∈ st.answers, a.servedFrom = .cache → FromCache P st.verified a

theorem CacheInv.empty (P : Prims H) : CacheInv P ({} : GatewayRun s) where
  entries := by
    intro k e h
    cases h
  tasks := by
    intro v h
    cases h
  answers := by
    intro a h
    cases h

theorem FromCache.mono {verified verified' : List (Verification s)} {a : Answer}
    (h : FromCache P verified a) (hsub : ∀ v ∈ verified, v ∈ verified') : FromCache P verified' a := by
  obtain ⟨v, hv, hrest⟩ := h
  exact ⟨v, hsub v hv, hrest⟩

theorem EntryOf.mono {st st' : GatewayRun s} {k : String} {e : CacheEntry} (h : EntryOf P st k e)
    (hsub : ∀ v ∈ st.verified, v ∈ st'.verified) (hclock : st.clock ≤ st'.clock) : EntryOf P st' k e := by
  obtain ⟨v, hv, hk, hr, httl, hpos, hat⟩ := h
  exact ⟨v, hsub v hv, hk, hr, httl, hpos, hat.trans hclock⟩

/-- What an entry answers comes from the cache. -/
theorem CacheInv.get {st : GatewayRun s} (h : CacheInv P st) {service : GatewayService}
    {r : GatewayResult} (hget : st.cache.get service st.clock = some r) :
    FromCache P st.verified ⟨service, r, .cache, st.clock⟩ := by
  obtain ⟨e, hlookup, hfresh⟩ := Option.bind_eq_some_iff.1 hget
  obtain ⟨v, hv, hkey, hres, httl, -, hat⟩ := h.entries _ _ (GatewayCache.mem_of_lookup hlookup)
  obtain ⟨hage, rfl⟩ := CacheEntry.fresh_eq_some hfresh
  refine ⟨v, hv, (GatewayCache.key_injective hkey).symm, e.computedAt, hat, ?_, ?_⟩
  · rwa [Verification.lifetime, ← httl]
  · rw [hres]

/-! ## Steps keep it -/

theorem CacheInv.answer {st : GatewayRun s} (h : CacheInv P st) (service : GatewayService)
    (r : GatewayResult) (servedFrom : ServedFrom)
    (hfrom : servedFrom = .cache → FromCache P st.verified ⟨service, r, servedFrom, st.clock⟩) :
    CacheInv P (st.answer service r servedFrom) where
  entries := h.entries
  tasks := h.tasks
  answers := by
    intro a ha hserved
    rcases List.mem_append.1 ha with ha | ha
    · exact h.answers a ha hserved
    · obtain rfl := List.mem_singleton.1 ha
      exact hfrom hserved

theorem CacheInv.setTask {st : GatewayRun s} (h : CacheInv P st) (i : ℕ) {task : QueryTask s}
    (htask : ∀ v, task = .store v → v ∈ st.verified) : CacheInv P (st.setTask i task) where
  entries := h.entries
  tasks := by
    intro v hv
    rcases List.mem_or_eq_of_mem_set hv with hv | hv
    · exact h.tasks v hv
    · exact htask v hv.symm
  answers := h.answers

theorem CacheInv.tick {st : GatewayRun s} (h : CacheInv P st) (ns : ℕ) :
    CacheInv P { st with clock := st.clock + ns } where
  entries := by
    intro k e he
    exact (h.entries k e he).mono (fun _ hv => hv) (Nat.le_add_right _ _)
  tasks := h.tasks
  answers := h.answers

theorem CacheInv.query {st : GatewayRun s} (h : CacheInv P st) (service : GatewayService) :
    CacheInv P (st.query service) := by
  rw [GatewayRun.query]
  cases hget : st.cache.get service st.clock with
  | some r => exact h.answer service r .cache fun _ => h.get hget
  | none =>
    refine ⟨h.entries, ?_, h.answers⟩
    intro v hv
    rcases List.mem_append.1 hv with hv | hv
    · exact h.tasks v hv
    · have heq := List.mem_singleton.1 hv
      rw [GatewayRun.missed] at heq
      split at heq
      · cases heq
      · cases heq

theorem CacheInv.outcomes {st : GatewayRun s} (h : CacheInv P st) (i : ℕ) (outcomes : List PeerOutcome)
    (order : GroupOrder) : CacheInv P (st.outcomes i outcomes order) := by
  rw [GatewayRun.outcomes]
  split
  · split
    · refine ⟨?_, ?_, ?_⟩
      · intro k e he
        exact (h.entries k e he).mono (fun v hv => List.mem_append_left _ hv) le_rfl
      · intro v hv
        rcases List.mem_or_eq_of_mem_set hv with hv | hv
        · exact List.mem_append_left _ (h.tasks v hv)
        · cases hv
          exact List.mem_append_right _ (List.mem_singleton.2 rfl)
      · intro a ha hserved
        exact (h.answers a ha hserved).mono fun v hv => List.mem_append_left _ hv
    · exact h.setTask i fun v hv => by cases hv
  · exact h

theorem CacheInv.store {st : GatewayRun s} (h : CacheInv P st) (i : ℕ) :
    CacheInv P (st.store P i) := by
  rw [GatewayRun.store]
  split
  · next v htask =>
    have hv : v ∈ st.verified := h.tasks v (List.mem_of_getElem? htask)
    have hdone : CacheInv P (st.setTask i .done) := h.setTask i fun v hv => by cases hv
    have hput : CacheInv P { st.setTask i .done with
        cache := st.cache.put v.service v.result (P.computeCacheTtl v.service v.result s.config) st.clock } := by
      refine ⟨?_, hdone.tasks, hdone.answers⟩
      intro k e he
      rcases GatewayCache.mem_put he with he | ⟨hpos, rfl, rfl⟩
      · exact hdone.entries k e he
      · exact ⟨v, hv, rfl, rfl, rfl, hpos, le_rfl⟩
    exact hput.answer _ _ .quorum fun heq => by cases heq
  · exact h

theorem CacheInv.single {st : GatewayRun s} (h : CacheInv P st) (i : ℕ)
    (answer : Option (GatewayResult × SingleSource)) : CacheInv P (st.single i answer) := by
  have hdone : CacheInv P (st.setTask i .done) := h.setTask i fun v hv => by cases hv
  simp only [GatewayRun.single]
  split
  · next source _ =>
    refine hdone.answer _ _ _ ?_
    intro heq
    cases source with
    | origin => cases heq
    | relay => cases heq
  · exact hdone
  · exact h

theorem CacheInv.step {st : GatewayRun s} (h : CacheInv P st) (a : GatewayAction) :
    CacheInv P (st.step P a) := by
  cases a with
  | tick ns => exact h.tick ns
  | query service => exact h.query service
  | outcomes i outcomes order => exact h.outcomes i outcomes order
  | store i => exact h.store i
  | single i answer => exact h.single i answer
  | cancel i => exact h.setTask i fun v hv => by cases hv

theorem CacheInv.run {st : GatewayRun s} (h : CacheInv P st) (actions : List GatewayAction) :
    CacheInv P (st.run P actions) := by
  induction actions generalizing st with
  | nil => exact h
  | cons a actions ih => exact ih (h.step a)

end invariant

/-! ## What the cache serves -/

section sound

variable {P : Prims H} {s : GatewayState H}

structure CacheSound (P : Prims H) (st : GatewayRun s) : Prop where
  /-- An entry was returned by `aggregate_quorum` for its service. -/
  returned : ∀ service e, st.cache.lookup (GatewayCache.key service) = some e →
    ∃ v ∈ st.verified, v.service = service ∧ v.result = e.result
  keyed : ∀ k e, (k, e) ∈ st.cache → ∃ service, k = GatewayCache.key service
  storable : ∀ service e status hash body cc, st.cache.lookup (GatewayCache.key service) = some e →
    e.result = .http status hash body (some cc) → ¬ P.ForbidsStoring cc
  /-- What is served from the cache was verified for the service, and is
      younger than its lifetime. -/
  served : ∀ a ∈ st.answers, a.servedFrom = .cache → FromCache P st.verified a
  /-- A time that is served is the verified one and the milliseconds since it
      was stored, in `i64` arithmetic; exactly, where the sum is an `i64`. -/
  time : ∀ a ∈ st.answers, a.servedFrom = .cache → ∀ m, a.result = .ntp m →
    ∃ v ∈ st.verified, v.service = a.service ∧ ∃ t, v.result = .ntp t ∧ ∃ storedAt ≤ a.time,
      m = t + Int64.ofNat ((a.time - storedAt) / 1000000) ∧
      (t.toInt + ((a.time - storedAt) / 1000000 : ℕ) < 2 ^ 63 →
        m.toInt = t.toInt + ((a.time - storedAt) / 1000000 : ℕ))

open Classical in
theorem computeCacheTtl_page (url : String) (status : UInt16) (hash : String) (body : Bytes) (cc : String)
    (config : GatewayConfig) :
    P.computeCacheTtl (.http url) (.http status hash body (some cc)) config
      = if P.ForbidsStoring cc then 0
        else match parseMaxAge (P.toLowercase cc) with
          | some maxAgeSecs => min (min (maxAgeSecs * 1000) (2 ^ 64 - 1)) (millis config.httpMaxCacheTtlMs)
          | none => millis config.httpDefaultCacheTtlMs := by
  change (if _ then _ else _) = _
  congr

/-- A page that must not be stored has no lifetime. -/
theorem computeCacheTtl_forbidden {cc : String} (h : P.ForbidsStoring cc) (service : GatewayService)
    (status : UInt16) (hash : String) (body : Bytes) (config : GatewayConfig)
    (hservice : service ≠ .ntp) :
    P.computeCacheTtl service (.http status hash body (some cc)) config = 0 := by
  cases service with
  | ntp => exact absurd rfl hservice
  | http url => rw [computeCacheTtl_page, if_pos h]

theorem toInt_add_ofNat {t : Int64} {n : ℕ} (h : t.toInt + n < 2 ^ 63) :
    (t + Int64.ofNat n).toInt = t.toInt + n := by
  have hlo := t.le_toInt
  rw [Int64.toInt_add, Int64.toInt_ofNat', Int.add_bmod_bmod]
  refine Int.bmod_eq_of_le ?_ ?_
  · norm_num
    omega
  · norm_num
    omega

theorem aggregateNtp_time {outcomes : List PeerOutcome} {tolerance : Int64} {n : ℕ} {r : GatewayResult}
    (h : aggregateNtp outcomes tolerance n = .ok r) : ∃ m, r = .ntp m := by
  simp only [aggregateNtp] at h
  split at h
  · cases h
  · split at h
    · cases h
      exact ⟨_, rfl⟩
    · cases h

theorem adjustForElapsed_ntp {r : GatewayResult} {ns : ℕ} {m : Int64}
    (h : adjustForElapsed r ns = .ntp m) : ∃ t, r = .ntp t ∧ m = t + Int64.ofNat (ns / 1000000) := by
  cases r with
  | ntp t =>
    cases h
    exact ⟨t, rfl, rfl⟩
  | http status hash body cc => cases h

theorem CacheInv.sound {st : GatewayRun s} (h : CacheInv P st) : CacheSound P st where
  returned := by
    intro service e he
    obtain ⟨v, hv, hkey, hres, -⟩ := h.entries _ _ (GatewayCache.mem_of_lookup he)
    exact ⟨v, hv, (GatewayCache.key_injective hkey).symm, hres.symm⟩
  keyed := by
    intro k e he
    obtain ⟨v, -, hkey, -⟩ := h.entries k e he
    exact ⟨v.service, hkey⟩
  storable := by
    intro service e status hash body cc he hres hforbids
    obtain ⟨v, -, -, hv, httl, hpos, -⟩ := h.entries _ _ (GatewayCache.mem_of_lookup he)
    rw [hres] at hv
    -- only a query for a page is answered with a page
    have hservice : v.service ≠ .ntp := by
      intro hntp
      have hagg := v.aggregated
      rw [hntp, ← hv] at hagg
      obtain ⟨m, hm⟩ := aggregateNtp_time hagg
      cases hm
    rw [← hv, computeCacheTtl_forbidden hforbids _ _ _ _ _ hservice] at httl
    exact hpos httl
  served := h.answers
  time := by
    intro a ha hserved m hm
    obtain ⟨v, hv, hservice, storedAt, hat, -, hres⟩ := h.answers a ha hserved
    rw [hm] at hres
    obtain ⟨t, hvt, hsum⟩ := adjustForElapsed_ntp hres.symm
    refine ⟨v, hv, hservice, t, hvt, storedAt, hat, hsum, ?_⟩
    intro hfits
    rw [hsum]
    exact toInt_add_ofNat hfits

end sound

/-! ## A call is a run

The host on which a call runs changes while the call waits: other queries of
the same gateway run.  What they do is, by assumption, a run of the interleaved
gateway; then so is the call. -/

/-- Every value of a computation relates the states before and after. -/
def Io.Moves {Ω α : Type} (R : Ω → Ω → Prop) (x : Io Ω α) : Prop :=
  ∀ ω a ω', x ω = some (a, ω') → R ω ω'

section moves

variable {Ω α β : Type} {R : Ω → Ω → Prop}

theorem Io.moves_pure (hrefl : ∀ ω, R ω ω) (a : α) : Io.Moves R (pure a) := by
  intro ω b ω' h
  cases h
  exact hrefl ω

theorem Io.moves_of {f : Ω → α × Ω} (h : ∀ ω, R ω (f ω).2) : Io.Moves R (Io.of f) := by
  intro ω a ω' heq
  have hsnd : (f ω).2 = ω' := congrArg Prod.snd (Option.some.inj heq)
  exact hsnd ▸ h ω

theorem Io.Moves.bind (htrans : ∀ a b c, R a b → R b c → R a c) {x : Io Ω α} {f : α → Io Ω β}
    (hx : Io.Moves R x) (hf : ∀ a, Io.Moves R (f a)) : Io.Moves R (x >>= f) := by
  intro ω b ω' h
  rw [Io.bind_apply] at h
  obtain ⟨⟨a, ω₁⟩, h₁, h₂⟩ := Option.bind_eq_some_iff.1 h
  exact htrans _ _ _ (hx ω a ω₁ h₁) (hf a ω₁ b ω' h₂)

theorem Io.moves_mapM (hrefl : ∀ ω, R ω ω) (htrans : ∀ a b c, R a b → R b c → R a c)
    {f : α → Io Ω β} (xs : List α) (hf : ∀ x, Io.Moves R (f x)) : Io.Moves R (xs.mapM f) := by
  induction xs with
  | nil =>
    rw [List.mapM_nil]
    exact Io.moves_pure hrefl _
  | cons x xs ih =>
    rw [List.mapM_cons]
    refine (hf x).bind htrans fun y => ?_
    exact ih.bind htrans fun ys => Io.moves_pure hrefl _

end moves

/-- An action of another query than that of the `i`-th task. -/
def GatewayAction.Spares (i : ℕ) : GatewayAction → Prop
  | .tick _ => True
  | .query _ => True
  | .outcomes j _ _ => j ≠ i
  | .store j => j ≠ i
  | .single j _ => j ≠ i
  | .cancel j => j ≠ i

namespace GatewayRun

variable {P : Prims H} {s : GatewayState H}

theorem setTask_getElem? {st : GatewayRun s} {i j : ℕ} (h : j ≠ i) (task : QueryTask s) :
    (st.setTask j task).tasks[i]? = st.tasks[i]? := List.getElem?_set_ne h

theorem query_getElem? {st : GatewayRun s} {i : ℕ} (hi : i < st.tasks.length) (service : GatewayService) :
    (st.query service).tasks[i]? = st.tasks[i]? := by
  rw [query]
  split
  · rfl
  · exact List.getElem?_append_left hi

theorem step_spares {st : GatewayRun s} {i : ℕ} (hi : i < st.tasks.length) {a : GatewayAction}
    (ha : a.Spares i) : (st.step P a).tasks[i]? = st.tasks[i]? := by
  cases a with
  | tick ns => rfl
  | query service => exact query_getElem? hi service
  | outcomes j outcomes order =>
    rw [step, GatewayRun.outcomes]
    split
    · split
      · exact setTask_getElem? ha _
      · exact setTask_getElem? ha _
    · rfl
  | store j =>
    rw [step, GatewayRun.store]
    split
    · exact setTask_getElem? ha _
    · rfl
  | single j answer =>
    simp only [step, GatewayRun.single]
    split
    · exact setTask_getElem? ha _
    · exact setTask_getElem? ha _
    · rfl
  | cancel j => exact setTask_getElem? ha _

/-- A task that is still there is one of the tasks. -/
theorem lt_of_getElem?_eq {st st' : GatewayRun s} {i : ℕ} (h : st'.tasks[i]? = st.tasks[i]?)
    (hi : i < st.tasks.length) : i < st'.tasks.length := by
  by_contra hge
  rw [List.getElem?_eq_none (not_lt.1 hge)] at h
  exact absurd (List.getElem?_eq_none_iff.1 h.symm) (not_le.2 hi)

theorem run_spares {st : GatewayRun s} {i : ℕ} (hi : i < st.tasks.length) {actions : List GatewayAction}
    (h : ∀ a ∈ actions, a.Spares i) : (st.run P actions).tasks[i]? = st.tasks[i]? := by
  induction actions generalizing st with
  | nil => rfl
  | cons a actions ih =>
    have hstep : (st.step P a).tasks[i]? = st.tasks[i]? := step_spares hi (h a (by simp))
    exact (ih (lt_of_getElem?_eq hstep hi) fun b hb => h b (by simp [hb])).trans hstep

section outcomes

variable {st : GatewayRun s} {i : ℕ} {service : GatewayService} {outcomes : List PeerOutcome}
  {order : GroupOrder} (htask : st.tasks[i]? = some (.fanout service))

include htask

theorem outcomes_error {e : Failure}
    (h : aggregateQuorum order service outcomes s.config.ntpToleranceMs s.config.quorumMinAgree = .error e) :
    st.outcomes i outcomes order = st.setTask i .done := by
  simp only [GatewayRun.outcomes, htask]
  split
  · next result hok =>
    rw [h] at hok
    cases hok
  · rfl

theorem outcomes_ok {result : GatewayResult}
    (h : aggregateQuorum order service outcomes s.config.ntpToleranceMs s.config.quorumMinAgree = .ok result) :
    st.outcomes i outcomes order
      = { st.setTask i (.store ⟨service, outcomes, order, result, h⟩) with
          verified := st.verified ++ [⟨service, outcomes, order, result, h⟩] } := by
  simp only [GatewayRun.outcomes, htask]
  split
  · next result' hok =>
    have heq : result = result' := by
      rw [h] at hok
      exact Except.ok.inj hok
    subst heq
    rfl
  · next e herr =>
    rw [h] at herr
    cases herr

end outcomes

theorem run_append (st : GatewayRun s) (as bs : List GatewayAction) :
    st.run P (as ++ bs) = (st.run P as).run P bs := List.foldl_append

end GatewayRun

section simulation

variable (P : Prims H) {Ω : Type} (host : Host Ω) (post : Post Ω) (s : GatewayState H)
  (clock : Ω → ℕ)

/-- The cache and the clock of an interleaved gateway are those of the host. -/
def Shows (ω : Ω) (st : GatewayRun s) : Prop := st.cache = host.cache ω ∧ st.clock = clock ω

/-- Other queries than that of a given task take the host from `ω` to `ω'`. -/
def Elsewhere (ω ω' : Ω) : Prop :=
  ∀ st : GatewayRun s, Shows host s clock ω st → ∀ i < st.tasks.length,
    ∃ actions, (∀ a ∈ actions, GatewayAction.Spares i a) ∧ Shows host s clock ω' (st.run P actions)

/-- While a call waits, other queries run; the clock only moves forward, and
    is read under the lock of the cache. -/
structure Interleaved : Prop where
  instant : ∀ ω, clock ω ≤ (host.instant ω).1 ∧ clock (host.instant ω).2 = (host.instant ω).1 ∧
    host.cache (host.instant ω).2 = host.cache ω
  setCache : ∀ c ω, clock (host.setCache c ω) = clock ω
  nowUnix : ∀ ω, Elsewhere P host s clock ω (host.nowUnix ω).2
  randomBytes32 : ∀ ω, Elsewhere P host s clock ω (host.randomBytes32 ω).2
  queryUpstream : ∀ server ω, Elsewhere P host s clock ω (host.queryUpstream server ω).2
  fetchUpstreamHttp : ∀ url allowPrivate limit ω,
    Elsewhere P host s clock ω (host.fetchUpstreamHttp url allowPrivate limit ω).2
  post : ∀ url req, Io.Moves (Elsewhere P host s clock) (post url req)

variable {P host post s clock}

theorem Elsewhere.refl (ω : Ω) : Elsewhere P host s clock ω ω := by
  intro st hst i _
  exact ⟨[], by simp, hst⟩

theorem Elsewhere.trans (ω₁ ω₂ ω₃ : Ω) (h : Elsewhere P host s clock ω₁ ω₂)
    (h' : Elsewhere P host s clock ω₂ ω₃) : Elsewhere P host s clock ω₁ ω₃ := by
  intro st hst i hi
  obtain ⟨as, has, hst₂⟩ := h st hst i hi
  obtain ⟨bs, hbs, hst₃⟩ := h' _ hst₂ i (GatewayRun.lt_of_getElem?_eq (GatewayRun.run_spares hi has) hi)
  refine ⟨as ++ bs, ?_, by rwa [GatewayRun.run_append]⟩
  intro a ha
  rcases List.mem_append.1 ha with ha | ha
  · exact has a ha
  · exact hbs a ha

/-- Reading the clock lets time pass. -/
theorem Interleaved.tick (h : Interleaved P host post s clock) {ω : Ω} {st : GatewayRun s}
    (hst : Shows host s clock ω st) :
    Shows host s clock (host.instant ω).2 (st.step P (.tick ((host.instant ω).1 - clock ω))) := by
  obtain ⟨hle, hclock, hcache⟩ := h.instant ω
  refine ⟨hst.1.trans hcache.symm, ?_⟩
  rw [hclock, GatewayRun.step, hst.2]
  exact Nat.add_sub_cancel' hle

theorem Interleaved.instant_elsewhere (h : Interleaved P host post s clock) (ω : Ω) :
    Elsewhere P host s clock ω (host.instant ω).2 := by
  intro st hst i _
  refine ⟨[.tick ((host.instant ω).1 - clock ω)], ?_, h.tick hst⟩
  intro a ha
  obtain rfl := List.mem_singleton.1 ha
  trivial

theorem Interleaved.queryUpstreams (h : Interleaved P host post s clock) (servers : List String) :
    Io.Moves (Elsewhere P host s clock) (host.queryUpstreams servers) := by
  induction servers with
  | nil => exact Io.moves_pure Elsewhere.refl _
  | cons server servers ih =>
    rw [Host.queryUpstreams]
    refine (Io.moves_of (h.queryUpstream server)).bind Elsewhere.trans fun answer => ?_
    cases answer with
    | ok t => exact Io.moves_pure Elsewhere.refl _
    | error e => exact ih

theorem Interleaved.resolveDirectly (h : Interleaved P host post s clock) (config : GatewayConfig)
    (service : GatewayService) :
    Io.Moves (Elsewhere P host s clock) (host.resolveDirectly config service) := by
  cases service with
  | ntp =>
    rw [Host.resolveDirectly]
    split
    · exact Io.moves_pure Elsewhere.refl _
    · exact (h.queryUpstreams _).bind Elsewhere.trans fun _ => Io.moves_pure Elsewhere.refl _
  | http url =>
    rw [Host.resolveDirectly]
    split
    · exact (Io.moves_of (h.fetchUpstreamHttp _ _ _)).bind Elsewhere.trans
        fun _ => Io.moves_pure Elsewhere.refl _
    · exact Io.moves_pure Elsewhere.refl _

/-- A lookup: time passes, and the cache answers. -/
theorem Interleaved.cacheGet (h : Interleaved P host post s clock) {ω ω' : Ω} {service : GatewayService}
    {r : Option GatewayResult} (hget : host.cacheGet service ω = some (r, ω')) {st : GatewayRun s}
    (hst : Shows host s clock ω st) :
    ∃ ns, Shows host s clock ω' (st.step P (.tick ns)) ∧
      (st.step P (.tick ns)).cache.get service (st.step P (.tick ns)).clock = r := by
  rw [Host.cacheGet, Io.bind_apply, Io.get_apply, Option.bind_some] at hget
  cases hlookup : (host.cache ω).lookup (GatewayCache.key service) with
  | none =>
    rw [hlookup] at hget
    cases hget
    refine ⟨0, hst, ?_⟩
    change st.cache.get service _ = none
    rw [GatewayCache.get, hst.1, hlookup]
    rfl
  | some entry =>
    simp only [hlookup, Io.bind_apply, Io.of_apply, Option.bind_some, Io.pure_apply] at hget
    cases hget
    refine ⟨_, h.tick hst, ?_⟩
    rw [GatewayCache.get, (h.tick hst).1, (h.tick hst).2, (h.instant ω).2.2, (h.instant ω).2.1, hlookup]
    rfl

/-- A verified answer is stored. -/
theorem Interleaved.cachePut (h : Interleaved P host post s clock) {ω ω' : Ω} {st : GatewayRun s}
    (hst : Shows host s clock ω st) {i : ℕ} {v : Verification s} (htask : st.tasks[i]? = some (.store v))
    (hput : host.cachePut v.service v.result (P.computeCacheTtl v.service v.result s.config) ω
      = some ((), ω')) :
    ∃ ns, Shows host s clock ω' ((st.step P (.tick ns)).step P (.store i)) ∧
      ⟨v.service, v.result, .quorum, (st.step P (.tick ns)).clock⟩
        ∈ ((st.step P (.tick ns)).step P (.store i)).answers := by
  have hstore : ∀ ns, (st.step P (.tick ns)).step P (.store i)
      = ({ (st.step P (.tick ns)).setTask i .done with
          cache := st.cache.put v.service v.result (P.computeCacheTtl v.service v.result s.config)
            (st.clock + ns) } : GatewayRun s).answer v.service v.result .quorum := by
    intro ns
    have htask' : (st.step P (.tick ns)).tasks[i]? = some (.store v) := htask
    change GatewayRun.store P _ i = _
    simp only [GatewayRun.store, htask']
    rfl
  rw [Host.cachePut] at hput
  by_cases hzero : P.computeCacheTtl v.service v.result s.config = 0
  · rw [if_pos hzero] at hput
    cases hput
    refine ⟨0, ?_, ?_⟩
    · rw [hstore, hzero]
      exact hst
    · rw [hstore]
      exact List.mem_append_right _ (List.mem_singleton.2 rfl)
  · rw [if_neg hzero] at hput
    simp only [Io.bind_apply, Io.of_apply, Option.bind_some, Io.modify_apply, Option.some.injEq,
      Prod.mk.injEq, true_and] at hput
    obtain ⟨hcache, hclock⟩ := h.tick hst
    have hnow : st.clock + ((host.instant ω).1 - clock ω) = (host.instant ω).1 := by
      rw [hst.2]
      exact Nat.add_sub_cancel' (h.instant ω).1
    refine ⟨(host.instant ω).1 - clock ω, ?_, ?_⟩
    · rw [hstore, ← hput]
      refine ⟨?_, ?_⟩
      · rw [host.cache_setCache, ← hcache]
        change GatewayCache.put _ _ _ _ _ = _
        rw [GatewayCache.put, if_neg hzero, hnow]
        rfl
      · rw [h.setCache]
        exact hclock
    · rw [hstore]
      exact List.mem_append_right _ (List.mem_singleton.2 rfl)

variable [DecidableEq H]

theorem Interleaved.queryPeer (h : Interleaved P host post s clock) (peer : RelayPeer H)
    (service : GatewayService) (hops : UInt8) (path : List String) :
    Io.Moves (Elsewhere P host s clock) (P.queryPeer host post s peer service hops path) := by
  rw [Prims.queryPeer]
  refine (Io.moves_of h.randomBytes32).bind Elsewhere.trans fun nonce => ?_
  refine (Io.moves_of h.nowUnix).bind Elsewhere.trans fun requestedAt => ?_
  refine (Io.moves_of h.instant_elsewhere).bind Elsewhere.trans fun sentAt => ?_
  refine (h.post _ _).bind Elsewhere.trans fun response => ?_
  refine (Io.moves_of h.instant_elsewhere).bind Elsewhere.trans fun receivedAt => ?_
  cases response with
  | error e => exact Io.moves_pure Elsewhere.refl _
  | ok resp =>
    refine (Io.moves_of h.nowUnix).bind Elsewhere.trans fun now => ?_
    split
    · exact Io.moves_pure Elsewhere.refl _
    · split
      · exact Io.moves_pure Elsewhere.refl _
      · exact Io.moves_pure Elsewhere.refl _

theorem Interleaved.relayLoop (h : Interleaved P host post s clock) (service : GatewayService)
    (hops : UInt8) (path : List String) (peers : List (RelayPeer H)) :
    Io.Moves (Elsewhere P host s clock) (P.relayLoop host post s service hops path peers) := by
  induction peers with
  | nil => exact Io.moves_pure Elsewhere.refl _
  | cons peer peers ih =>
    rw [Prims.relayLoop]
    split
    · exact ih
    · refine (h.queryPeer peer service _ path).bind Elsewhere.trans fun outcome => ?_
      cases outcome with
      | ok result => exact Io.moves_pure Elsewhere.refl _
      | error e => exact ih

theorem Interleaved.relayGatewayQuery (h : Interleaved P host post s clock) (service : GatewayService)
    (hops : UInt8) (path : List String) :
    Io.Moves (Elsewhere P host s clock) (P.relayGatewayQuery host post s service hops path) := by
  rw [Prims.relayGatewayQuery]
  split
  · exact Io.moves_pure Elsewhere.refl _
  · exact h.relayLoop service hops _ _

/-- What the last two steps of a resolution return. -/
theorem resolveUnverified_single {ω ω' : Ω} {service : GatewayService} {hops : UInt8} {path : List String}
    {r : Except Failure ResolvedQuery}
    (h : P.resolveUnverified host post s service hops path ω = some (r, ω')) :
    (∃ e, r = .error e) ∨ ∃ result, ∃ source : SingleSource, r = .ok ⟨result, source.servedFrom⟩ := by
  rw [Prims.resolveUnverified, Io.bind_apply] at h
  obtain ⟨⟨direct, ω₁⟩, -, h⟩ := Option.bind_eq_some_iff.1 h
  have hrelay : ∀ (k : Option GatewayResult → Io Ω (Except Failure ResolvedQuery)) (ω₂ : Ω),
      k none = pure (.error (.error .cannotResolve)) →
      (∀ result, k (some result) = pure (.ok ⟨result, .relay⟩)) →
      (P.relayGatewayQuery host post s service hops path >>= k) ω₂ = some (r, ω') →
      (∃ e, r = .error e) ∨ ∃ result, ∃ source : SingleSource, r = .ok ⟨result, source.servedFrom⟩ := by
    intro k ω₂ hnone hsome h
    rw [Io.bind_apply] at h
    obtain ⟨⟨answer, ω₃⟩, -, h⟩ := Option.bind_eq_some_iff.1 h
    cases answer with
    | some result =>
      rw [hsome] at h
      cases h
      exact Or.inr ⟨result, .relay, rfl⟩
    | none =>
      rw [hnone] at h
      cases h
      exact Or.inl ⟨_, rfl⟩
  rcases direct with e | (_ | result)
  · exact hrelay _ _ rfl (fun _ => rfl) h
  · exact hrelay _ _ rfl (fun _ => rfl) h
  · cases h
    exact Or.inr ⟨result, .origin, rfl⟩

theorem Interleaved.resolveUnverified (h : Interleaved P host post s clock) (service : GatewayService)
    (hops : UInt8) (path : List String) :
    Io.Moves (Elsewhere P host s clock) (P.resolveUnverified host post s service hops path) := by
  rw [Prims.resolveUnverified]
  refine (h.resolveDirectly s.config service).bind Elsewhere.trans fun direct => ?_
  have hrelay := h.relayGatewayQuery service hops path
  rcases direct with e | (_ | result)
  · refine hrelay.bind Elsewhere.trans fun answer => ?_
    cases answer with
    | some result => exact Io.moves_pure Elsewhere.refl _
    | none => exact Io.moves_pure Elsewhere.refl _
  · refine hrelay.bind Elsewhere.trans fun answer => ?_
    cases answer with
    | some result => exact Io.moves_pure Elsewhere.refl _
    | none => exact Io.moves_pure Elsewhere.refl _
  · exact Io.moves_pure Elsewhere.refl _

/-- The gateway goes on from `st` until the host is at `ω'`, and the result of
    the call is among its answers. -/
def RunsTo (P : Prims H) (host : Host Ω) (clock : Ω → ℕ) (st : GatewayRun s) (service : GatewayService)
    (r : Except Failure ResolvedQuery) (ω' : Ω) : Prop :=
  ∃ actions, Shows host s clock ω' (st.run P actions) ∧
    ∀ q, r = .ok q → ∃ time, ⟨service, q.result, q.servedFrom, time⟩ ∈ (st.run P actions).answers

omit [DecidableEq H] in
theorem RunsTo.after {st : GatewayRun s} {service : GatewayService} {r : Except Failure ResolvedQuery}
    {ω' : Ω} (actions : List GatewayAction) (h : RunsTo P host clock (st.run P actions) service r ω') :
    RunsTo P host clock st service r ω' := by
  obtain ⟨more, hshows, hanswer⟩ := h
  exact ⟨actions ++ more, by rwa [GatewayRun.run_append], by rwa [GatewayRun.run_append]⟩

/-- The quorum step: the outcomes of the fan-out, and the stored answer. -/
theorem Interleaved.quorum (h : Interleaved P host post s clock) {service : GatewayService} {ω ω' : Ω}
    {r : Except Failure ResolvedQuery} {st : GatewayRun s} {i : ℕ} (hst : Shows host s clock ω st)
    (htask : st.tasks[i]? = some (.fanout service))
    (hcall : (P.fanoutAndVerify host post s service >>= fun answer =>
      match answer with
      | .error e => pure (Except.error e)
      | .ok verified => do
        host.cachePut service verified (P.computeCacheTtl service verified s.config)
        pure (Except.ok ⟨verified, .quorum⟩)) ω = some (r, ω')) :
    RunsTo P host clock st service r ω' := by
  have hi : i < st.tasks.length := (List.getElem?_eq_some_iff.1 htask).1
  rw [Io.bind_apply] at hcall
  obtain ⟨⟨answer, ω₂⟩, hfan, hcall⟩ := Option.bind_eq_some_iff.1 hcall
  rw [Prims.fanoutAndVerify, Io.bind_apply] at hfan
  obtain ⟨⟨outcomes, ω₁⟩, hfan, hagg⟩ := Option.bind_eq_some_iff.1 hfan
  have hmoves : Elsewhere P host s clock ω ω₁ := Io.moves_mapM Elsewhere.refl Elsewhere.trans _
    (fun peer => h.queryPeer peer service _ _) ω outcomes ω₁ hfan
  obtain ⟨others, hspare, hst₁⟩ := hmoves st hst i hi
  have htask₁ := (GatewayRun.run_spares (P := P) hi hspare).trans htask
  refine RunsTo.after others ?_
  generalize st.run P others = st₁ at hst₁ htask₁
  have hi₁ : i < st₁.tasks.length := (List.getElem?_eq_some_iff.1 htask₁).1
  simp only [Io.bind_apply, Io.get_apply, Option.bind_some, Io.pure_apply, Option.some.injEq,
    Prod.mk.injEq] at hagg
  obtain ⟨rfl, rfl⟩ := hagg
  cases hres : aggregateQuorum (host.groupOrder ω₁) service outcomes s.config.ntpToleranceMs
      s.config.quorumMinAgree with
  | error e =>
    rw [hres] at hcall
    cases hcall
    refine ⟨[.outcomes i outcomes (host.groupOrder ω₁)], ?_, fun q hq => by cases hq⟩
    change Shows host s clock _ (st₁.outcomes i outcomes (host.groupOrder ω₁))
    rw [GatewayRun.outcomes_error htask₁ hres]
    exact hst₁
  | ok verified =>
    rw [hres] at hcall
    simp only [Io.bind_apply] at hcall
    obtain ⟨⟨_, ω₃⟩, hput, hcall⟩ := Option.bind_eq_some_iff.1 hcall
    cases hcall
    refine RunsTo.after [.outcomes i outcomes (host.groupOrder ω₁)] ?_
    change RunsTo P host clock (st₁.outcomes i outcomes (host.groupOrder ω₁)) service _ _
    rw [GatewayRun.outcomes_ok htask₁ hres]
    have hst₂ : Shows host s clock ω₁
        { st₁.setTask i (.store ⟨service, outcomes, host.groupOrder ω₁, verified, hres⟩) with
          verified := st₁.verified ++ [⟨service, outcomes, host.groupOrder ω₁, verified, hres⟩] } := hst₁
    obtain ⟨ns, hshows, hanswer⟩ := h.cachePut hst₂
      (v := ⟨service, outcomes, host.groupOrder ω₁, verified, hres⟩) (List.getElem?_set_self hi₁) hput
    refine ⟨[.tick ns, .store i], hshows, ?_⟩
    intro q hq
    cases hq
    exact ⟨_, hanswer⟩

/-- The single sources: the own origin, then the relay peers. -/
theorem Interleaved.unverified (h : Interleaved P host post s clock) {service : GatewayService} {ω ω' : Ω}
    {hops : UInt8} {path : List String} {r : Except Failure ResolvedQuery} {st : GatewayRun s} {i : ℕ}
    (hst : Shows host s clock ω st) (htask : st.tasks[i]? = some (.unverified service))
    (hcall : P.resolveUnverified host post s service hops path ω = some (r, ω')) :
    RunsTo P host clock st service r ω' := by
  have hi : i < st.tasks.length := (List.getElem?_eq_some_iff.1 htask).1
  obtain ⟨others, hspare, hst₁⟩ := h.resolveUnverified service hops path ω r ω' hcall st hst i hi
  have htask₁ := (GatewayRun.run_spares (P := P) hi hspare).trans htask
  refine RunsTo.after others ?_
  generalize st.run P others = st₁ at hst₁ htask₁
  rcases resolveUnverified_single hcall with ⟨e, rfl⟩ | ⟨result, source, rfl⟩
  · exact ⟨[], hst₁, fun q hq => by cases hq⟩
  · have hsingle : st₁.single i (some (result, source))
        = (st₁.setTask i .done).answer service result source.servedFrom := by
      simp only [GatewayRun.single, htask₁]
    refine ⟨[.single i (some (result, source))], ?_, ?_⟩
    · change Shows host s clock _ (st₁.single i (some (result, source)))
      rw [hsingle]
      exact hst₁
    · intro q hq
      cases hq
      refine ⟨st₁.clock, ?_⟩
      change _ ∈ (st₁.single i (some (result, source))).answers
      rw [hsingle]
      exact List.mem_append_right _ (List.mem_singleton.2 rfl)

/-- A call of `resolve_gateway_query` is a run of the interleaved gateway, and
    what it returns is one of the answers of the run. -/
theorem resolveGatewayQuery_run (h : Interleaved P host post s clock) {service : GatewayService}
    {ω ω' : Ω} {hops : UInt8} {path : List String} {r : Except Failure ResolvedQuery}
    (hcall : P.resolveGatewayQuery host post s service hops path ω = some (r, ω'))
    {st : GatewayRun s} (hst : Shows host s clock ω st) : RunsTo P host clock st service r ω' := by
  rw [Prims.resolveGatewayQuery, Io.bind_apply] at hcall
  obtain ⟨⟨cached, ω₁⟩, hget, hcall⟩ := Option.bind_eq_some_iff.1 hcall
  obtain ⟨ns, hst₁, hcached⟩ := h.cacheGet hget hst
  refine RunsTo.after [.tick ns] ?_
  change RunsTo P host clock (st.step P (.tick ns)) service r ω'
  generalize st.step P (.tick ns) = st₁ at hst₁ hcached
  cases cached with
  | some result =>
    cases hcall
    have hquery : st₁.query service = st₁.answer service result .cache := by
      rw [GatewayRun.query, hcached]
    refine ⟨[.query service], ?_, ?_⟩
    · change Shows host s clock _ (st₁.query service)
      rw [hquery]
      exact hst₁
    · intro q hq
      cases hq
      refine ⟨st₁.clock, ?_⟩
      change _ ∈ (st₁.query service).answers
      rw [hquery]
      exact List.mem_append_right _ (List.mem_singleton.2 rfl)
  | none =>
    have hquery : st₁.query service
        = { st₁ with tasks := st₁.tasks ++ [GatewayRun.missed s service] } := by
      rw [GatewayRun.query, hcached]
    have htask : (st₁.query service).tasks[st₁.tasks.length]? = some (GatewayRun.missed s service) := by
      rw [hquery]
      exact List.getElem?_concat_length
    have hst₂ : Shows host s clock ω₁ (st₁.query service) := by
      rw [hquery]
      exact hst₁
    refine RunsTo.after [.query service] ?_
    change RunsTo P host clock (st₁.query service) service r ω'
    simp only at hcall
    by_cases hq : s.queryPeers ≠ []
    · rw [if_pos hq] at hcall
      rw [GatewayRun.missed, if_pos hq] at htask
      exact h.quorum hst₂ htask hcall
    · rw [if_neg hq] at hcall
      rw [GatewayRun.missed, if_neg hq] at htask
      exact h.unverified hst₂ htask hcall

/-- What a call returns, with the cache reached by any run, is sound. -/
theorem resolveGatewayQuery_sound (h : Interleaved P host post s clock) {service : GatewayService}
    {ω ω' : Ω} {hops : UInt8} {path : List String} {q : ResolvedQuery} {actions : List GatewayAction}
    (hst : Shows host s clock ω (({} : GatewayRun s).run P actions))
    (hcall : P.resolveGatewayQuery host post s service hops path ω = some (.ok q, ω')) :
    ∃ st : GatewayRun s, Shows host s clock ω' st ∧ CacheSound P st ∧
      ∃ time, ⟨service, q.result, q.servedFrom, time⟩ ∈ st.answers := by
  obtain ⟨more, hshows, hanswer⟩ := resolveGatewayQuery_run h hcall hst
  exact ⟨_, hshows, (((CacheInv.empty P).run actions).run more).sound, hanswer q rfl⟩

end simulation

end OpenAgentGraph
