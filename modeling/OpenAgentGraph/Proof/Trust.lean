/-
  The trust score over the rationals.

  It is a blend of two ramps (`trustScore_exact`): one that rises with the
  session, and one that falls once the peer is silent.

  * `trust_floor_iff`: a score is positive unless the session has only just
    begun or the peer has been silent for too long, and federation refuses
    exactly those peers beside the forked and the unknown ones;
  * `trust_bounded`: the score is bounded by the time that the peer was
    observed, if its first heartbeat claims no earlier session.
-/
import OpenAgentGraph.Lib.Ramp
import OpenAgentGraph.Proof.Presence
import OpenAgentGraph.Proof.Progress
import OpenAgentGraph.Sync.Floor

namespace OpenAgentGraph

open Lib Repo

/-! ## The score -/

variable {H : Type}

/-- Where the score of a new session starts. -/
def startingTrust (announced : Bool) : ℚ := if announced then 3 / 10 else 0

theorem startingTrust_nonneg (announced : Bool) : 0 ≤ startingTrust announced := by
  cases announced <;> norm_num [startingTrust]

theorem startingTrust_lt_one (announced : Bool) : startingTrust announced < 1 := by
  cases announced <;> norm_num [startingTrust]

/-- Trust after `elapsed` seconds of a session. -/
def risen (cfg : TrustConfig) (announced : Bool) (elapsed : ℤ) : ℚ :=
  blend (startingTrust announced) (ramp (cfg.trustRebuildSeconds.toInt : ℚ) elapsed)

/-- What is left of the trust after `elapsed` seconds of decay. -/
def kept (cfg : TrustConfig) (elapsed : ℤ) : ℚ := 1 - ramp (cfg.trustRebuildSeconds.toInt : ℚ) elapsed

theorem risen_nonneg (cfg : TrustConfig) (announced : Bool) (elapsed : ℤ) :
    0 ≤ risen cfg announced elapsed :=
  blend_nonneg (startingTrust_nonneg announced) (startingTrust_lt_one announced).le ramp_nonneg

theorem risen_le_one (cfg : TrustConfig) (announced : Bool) (elapsed : ℤ) :
    risen cfg announced elapsed ≤ 1 :=
  blend_le_one (startingTrust_lt_one announced).le ramp_le_one

theorem kept_nonneg (cfg : TrustConfig) (elapsed : ℤ) : 0 ≤ kept cfg elapsed :=
  sub_nonneg.2 ramp_le_one

theorem kept_le_one (cfg : TrustConfig) (elapsed : ℤ) : kept cfg elapsed ≤ 1 :=
  sub_le_self 1 ramp_nonneg

theorem exactOps_clamp {x : ℚ} (h0 : 0 ≤ x) (h1 : x ≤ 1) :
    exactOps.clamp x exactOps.zero exactOps.one = x := by
  show max 0 (min x 1) = x
  rw [min_eq_left h1, max_eq_right h0]

theorem rebuildSeconds_pos {cfg : TrustConfig} (hcfg : 0 < cfg.trustRebuildSeconds) :
    (0 : ℚ) < cfg.trustRebuildSeconds.toInt := by
  exact_mod_cast Int64.lt_iff_toInt_lt.1 hcfg

theorem rebuildFraction_exact {cfg : TrustConfig} (hcfg : 0 < cfg.trustRebuildSeconds)
    (sessionStartedAt asOf : Int64) (announced : Bool) :
    rebuildFraction exactOps sessionStartedAt asOf cfg announced
      = risen cfg announced (asOf - sessionStartedAt).toInt := by
  have hr := rebuildSeconds_pos hcfg
  have hcut : (((if asOf - sessionStartedAt < 0 then 0 else asOf - sessionStartedAt) : Int64).toInt : ℚ)
      = max 0 ((asOf - sessionStartedAt).toInt : ℚ) := by
    by_cases hneg : asOf - sessionStartedAt < 0
    · have hneg' : ((asOf - sessionStartedAt).toInt : ℚ) ≤ 0 := by
        exact_mod_cast (Int64.lt_iff_toInt_lt.1 hneg).le
      rw [if_pos hneg, max_eq_left hneg']
      rfl
    · have hpos : (0 : ℚ) ≤ ((asOf - sessionStartedAt).toInt : ℚ) := by
        exact_mod_cast Int64.le_iff_toInt_le.1 (Int64.not_lt.1 hneg)
      rw [if_neg hneg, max_eq_right hpos]
  have hramp : exactOps.clamp (exactOps.div (exactOps.ofInt
        (if asOf - sessionStartedAt < 0 then 0 else asOf - sessionStartedAt))
        (exactOps.ofInt cfg.trustRebuildSeconds)) exactOps.zero exactOps.one
      = ramp (cfg.trustRebuildSeconds.toInt : ℚ) ((asOf - sessionStartedAt).toInt : ℚ) := by
    rw [← ramp_max_zero hr, ← hcut]
    rfl
  simp only [rebuildFraction, hramp]
  cases announced <;> rfl

def staleAfter (cfg : TrustConfig) : Int64 := cfg.heartbeatIntervalSeconds * staleMultiplier

/-- **The score over the rationals.** -/
theorem trustScore_exact {cfg : TrustConfig} (hcfg : 0 < cfg.trustRebuildSeconds)
    (row : PeerPresenceRow H) (announced : Bool) (now : Int64) :
    trustScore exactOps (some row) false announced now cfg
      = if now - row.lastHeartbeatAt ≤ staleAfter cfg then
          risen cfg announced (now - row.sessionStartedAt).toInt
        else risen cfg announced (row.lastHeartbeatAt - row.sessionStartedAt).toInt *
          kept cfg (now - row.lastHeartbeatAt - staleAfter cfg).toInt := by
  have hrisen := risen_nonneg cfg announced
  have hrisen' := risen_le_one cfg announced
  have hkept := kept_nonneg cfg
  have hkept' := kept_le_one cfg
  have hstale : cfg.heartbeatIntervalSeconds * staleMultiplier = staleAfter cfg := rfl
  simp only [trustScore, hstale, rebuildFraction_exact hcfg, Bool.false_eq_true, if_false]
  by_cases hfresh : now - row.lastHeartbeatAt ≤ staleAfter cfg
  · rw [if_pos hfresh, if_pos hfresh]
    exact exactOps_clamp (hrisen _) (hrisen' _)
  · rw [if_neg hfresh, if_neg hfresh]
    exact exactOps_clamp (mul_nonneg (hrisen _) (hkept _)) (mul_le_one₀ (hrisen' _) (hkept _) (hkept' _))

/-! ## The floor -/

theorem risen_pos {cfg : TrustConfig} (hcfg : 0 < cfg.trustRebuildSeconds) {announced : Bool}
    {elapsed : ℤ} : 0 < risen cfg announced elapsed ↔ announced = true ∨ 0 < elapsed := by
  have hr := rebuildSeconds_pos hcfg
  cases announced with
  | true =>
    have hstart : (0 : ℚ) < startingTrust true := by norm_num [startingTrust]
    have hpos : 0 < risen cfg true elapsed :=
      hstart.trans_le (le_blend (startingTrust_lt_one true).le ramp_nonneg)
    exact ⟨fun _ => Or.inl rfl, fun _ => hpos⟩
  | false =>
    have hzero : startingTrust false = 0 := rfl
    rw [risen, hzero, blend_zero_left, ramp_pos hr]
    simp

theorem kept_pos {cfg : TrustConfig} (hcfg : 0 < cfg.trustRebuildSeconds) {elapsed : ℤ} :
    0 < kept cfg elapsed ↔ elapsed < cfg.trustRebuildSeconds.toInt := by
  rw [kept, sub_pos, ramp_lt_one (rebuildSeconds_pos hcfg), Int.cast_lt]

/-- The session has begun, and the peer has not been silent for too long. -/
def AboveFloor (row : PeerPresenceRow H) (announced : Bool) (now : Int64) (cfg : TrustConfig) : Prop :=
  if now - row.lastHeartbeatAt ≤ staleAfter cfg then
    announced = true ∨ 0 < now - row.sessionStartedAt
  else (announced = true ∨ 0 < row.lastHeartbeatAt - row.sessionStartedAt) ∧
    now - row.lastHeartbeatAt - staleAfter cfg < cfg.trustRebuildSeconds

theorem trustScore_pos_iff {cfg : TrustConfig} (hcfg : 0 < cfg.trustRebuildSeconds)
    (row : PeerPresenceRow H) (announced : Bool) (now : Int64) :
    0 < trustScore exactOps (some row) false announced now cfg ↔ AboveFloor row announced now cfg := by
  rw [trustScore_exact hcfg, AboveFloor]
  by_cases hfresh : now - row.lastHeartbeatAt ≤ staleAfter cfg
  · rw [if_pos hfresh, if_pos hfresh, risen_pos hcfg, Int64.lt_iff_toInt_lt]
    rfl
  · have hrisen := risen_nonneg cfg announced (row.lastHeartbeatAt - row.sessionStartedAt).toInt
    have hkept := kept_nonneg cfg (now - row.lastHeartbeatAt - staleAfter cfg).toInt
    rw [if_neg hfresh, if_neg hfresh, (mul_nonneg hrisen hkept).lt_iff_ne', mul_ne_zero_iff,
      ← hrisen.lt_iff_ne', ← hkept.lt_iff_ne', risen_pos hcfg, kept_pos hcfg, Int64.lt_iff_toInt_lt,
      Int64.lt_iff_toInt_lt]
    rfl

theorem trustScore_eq_zero {cfg : TrustConfig} (hcfg : 0 < cfg.trustRebuildSeconds)
    {row : PeerPresenceRow H} {announced : Bool} {now : Int64} (h : ¬ AboveFloor row announced now cfg) :
    trustScore exactOps (some row) false announced now cfg = 0 := by
  have hnonneg : 0 ≤ trustScore exactOps (some row) false announced now cfg := by
    rw [trustScore_exact hcfg]
    split
    · exact risen_nonneg ..
    · exact mul_nonneg (risen_nonneg ..) (kept_nonneg ..)
  rw [← trustScore_pos_iff hcfg, not_lt] at h
  exact le_antisymm h hnonneg

/-- Both ramps move in whole seconds, so that no factor is positive and tiny. -/
theorem rebuildSeconds_inv {cfg : TrustConfig} (hcfg : 0 < cfg.trustRebuildSeconds) :
    (1 : ℚ) / 2 ^ 63 ≤ 1 / cfg.trustRebuildSeconds.toInt := by
  have hr := rebuildSeconds_pos hcfg
  have hmax : (cfg.trustRebuildSeconds.toInt : ℚ) ≤ 2 ^ 63 := by
    exact_mod_cast cfg.trustRebuildSeconds.toInt_lt.le
  exact one_div_le_one_div_of_le hr hmax

theorem one_le_rebuildSeconds {cfg : TrustConfig} (hcfg : 0 < cfg.trustRebuildSeconds) :
    (1 : ℚ) ≤ cfg.trustRebuildSeconds.toInt := by
  exact_mod_cast Int64.lt_iff_toInt_lt.1 hcfg

theorem le_risen {cfg : TrustConfig} (hcfg : 0 < cfg.trustRebuildSeconds) {announced : Bool}
    {elapsed : ℤ} (h : 0 < risen cfg announced elapsed) : 1 / 2 ^ 63 ≤ risen cfg announced elapsed := by
  have hr := rebuildSeconds_pos hcfg
  cases announced with
  | true =>
    have hstart : (1 : ℚ) / 2 ^ 63 ≤ startingTrust true := by norm_num [startingTrust]
    exact hstart.trans (le_blend (startingTrust_lt_one true).le ramp_nonneg)
  | false =>
    have hone : (1 : ℚ) ≤ elapsed := by
      exact_mod_cast ((risen_pos hcfg).1 h).resolve_left Bool.false_ne_true
    have hzero : startingTrust false = 0 := rfl
    rw [risen, hzero, blend_zero_left]
    calc (1 : ℚ) / 2 ^ 63 ≤ 1 / cfg.trustRebuildSeconds.toInt := rebuildSeconds_inv hcfg
      _ = ramp (cfg.trustRebuildSeconds.toInt : ℚ) 1 :=
        (ramp_of_mem hr zero_le_one (one_le_rebuildSeconds hcfg)).symm
      _ ≤ ramp (cfg.trustRebuildSeconds.toInt : ℚ) elapsed := ramp_mono hr hone

theorem le_kept {cfg : TrustConfig} (hcfg : 0 < cfg.trustRebuildSeconds) {elapsed : ℤ}
    (h : 0 < kept cfg elapsed) : 1 / 2 ^ 63 ≤ kept cfg elapsed := by
  have hr := rebuildSeconds_pos hcfg
  have hone := one_le_rebuildSeconds hcfg
  have hle : (elapsed : ℚ) ≤ cfg.trustRebuildSeconds.toInt - 1 := by
    have hlt := (kept_pos hcfg).1 h
    exact_mod_cast Int.le_sub_one_of_lt hlt
  calc (1 : ℚ) / 2 ^ 63 ≤ 1 / cfg.trustRebuildSeconds.toInt := rebuildSeconds_inv hcfg
    _ = 1 - (cfg.trustRebuildSeconds.toInt - 1) / cfg.trustRebuildSeconds.toInt := by
      rw [sub_div, div_self hr.ne']
      ring
    _ = 1 - ramp (cfg.trustRebuildSeconds.toInt : ℚ) (cfg.trustRebuildSeconds.toInt - 1) := by
      rw [ramp_of_mem hr (sub_nonneg.2 hone) (sub_le_self _ zero_le_one)]
    _ ≤ kept cfg elapsed := sub_le_sub_left (ramp_mono hr hle) 1

/-- A positive score reaches the minimum. -/
theorem minimumTrust_le_iff {cfg : TrustConfig} (hcfg : 0 < cfg.trustRebuildSeconds)
    (row : PeerPresenceRow H) (announced : Bool) (now : Int64) :
    ephemeralMinimumTrust ≤ trustScore exactOps (some row) false announced now cfg
      ↔ AboveFloor row announced now cfg := by
  have hmin : 0 < ephemeralMinimumTrust := by norm_num [ephemeralMinimumTrust]
  rw [← trustScore_pos_iff hcfg]
  refine ⟨hmin.trans_le, fun hpos => ?_⟩
  rw [trustScore_exact hcfg] at hpos ⊢
  by_cases hfresh : now - row.lastHeartbeatAt ≤ staleAfter cfg
  · rw [if_pos hfresh] at hpos ⊢
    have hle : ephemeralMinimumTrust ≤ 1 / 2 ^ 63 := by norm_num [ephemeralMinimumTrust]
    exact hle.trans (le_risen hcfg hpos)
  · rw [if_neg hfresh] at hpos ⊢
    have hrisen := risen_nonneg cfg announced (row.lastHeartbeatAt - row.sessionStartedAt).toInt
    have hkept := kept_nonneg cfg (now - row.lastHeartbeatAt - staleAfter cfg).toInt
    calc ephemeralMinimumTrust = 1 / 2 ^ 63 * (1 / 2 ^ 63) := by norm_num [ephemeralMinimumTrust]
      _ ≤ _ := mul_le_mul (le_risen hcfg (pos_of_mul_pos_left hpos hkept))
        (le_kept hcfg (pos_of_mul_pos_right hpos hrisen)) (by norm_num) hrisen

/-! ## The trust of a peer -/

section peer

variable [DecidableEq H]

/-- `peer_presence::get`. -/
def presenceOf (presence : Presence H) (p : H) : Option (PeerPresenceRow H) :=
  Table.find PeerPresenceRow.peerId p presence.peerPresence

/-- The flag of the peer's row. -/
def isForked (s : Store H) (p : H) : Bool :=
  ((Table.find PeerRow.peerId p s.peers).map PeerRow.forked).getD false

/-- Whether the peer has a row and an announcement that explains it. -/
def announcedOf (s : Store H) (presence : Presence H) (p : H) (now : Int64) (cfg : TrustConfig) : Bool :=
  match presenceOf presence p with
  | some row => announcedRestart s presence p row now cfg
  | none => false

theorem computeTrust_eq {F : Type} (f : F32Ops F) {s : Store H} (hlen : KeyLengths s.peers)
    (presence : Presence H) (p : H) (now : Int64) (cfg : TrustConfig) :
    computeTrust f s presence p now cfg = .ok (trustScore f (presenceOf presence p) (isForked s p)
      (announcedOf s presence p now cfg) now cfg) := by
  unfold computeTrust isForked
  cases hfind : Table.find PeerRow.peerId p s.peers with
  | none =>
    have hget : getPeer s.peers p = .ok none := by simp only [getPeer, hfind]
    rw [hget]
    rfl
  | some r =>
    rw [getPeer_of_find hlen hfind]
    rfl

/-- Federation refuses, on trust, exactly the forked peers and those it never
    heard from. -/
def RefusesOnlyFloor (o : Observer H) (p : H) (now : Int64) (cfg : TrustConfig) : Prop :=
  ∀ svc : SyncService H, svc.sameCluster o.db.store p = false → svc.federation.allows p = true →
    ((svc.withMinimumTrust exactOps o.presence ephemeralMinimumTrust cfg).federationAllows
        o.db.store p now = false ↔
      isForked o.db.store p = true ∨ presenceOf o.presence p = none)

theorem federationAllows_withMinimumTrust {o : Observer H} (hlen : KeyLengths o.db.store.peers)
    {svc : SyncService H} {p : H} (hcluster : svc.sameCluster o.db.store p = false)
    (hallows : svc.federation.allows p = true) (now : Int64) {cfg : TrustConfig}
    (hcfg : 0 < cfg.trustRebuildSeconds) :
    (svc.withMinimumTrust exactOps o.presence ephemeralMinimumTrust cfg).federationAllows
        o.db.store p now = true ↔
      isForked o.db.store p = false ∧ ∃ row, presenceOf o.presence p = some row ∧
        AboveFloor row (announcedRestart o.db.store o.presence p row now cfg) now cfg := by
  have hmin : ¬ ephemeralMinimumTrust ≤ exactOps.zero := by
    show ¬ (1 / 2 ^ 126 : ℚ) ≤ 0
    norm_num
  have hcluster' : (svc.withMinimumTrust exactOps o.presence ephemeralMinimumTrust cfg).sameCluster
      o.db.store p = false := hcluster
  have hallows' : (svc.withMinimumTrust exactOps o.presence ephemeralMinimumTrust
      cfg).federation.allows p = true := hallows
  rw [SyncService.federationAllows, hcluster', hallows']
  simp only [SyncService.withMinimumTrust, if_neg hmin, computeTrust_eq exactOps hlen,
    Bool.false_eq_true, if_false, Bool.not_true, decide_eq_true_eq]
  cases hforked : isForked o.db.store p with
  | true =>
    have hzero : trustScore exactOps (presenceOf o.presence p) true
        (announcedOf o.db.store o.presence p now cfg) now cfg = exactOps.zero := rfl
    rw [hzero]
    simp [hmin]
  | false =>
    cases hrow : presenceOf o.presence p with
    | none =>
      have hzero : trustScore exactOps (none : Option (PeerPresenceRow H)) false
          (announcedOf o.db.store o.presence p now cfg) now cfg = exactOps.zero := rfl
      rw [hzero]
      simp [hmin]
    | some row =>
      have hannounced : announcedOf o.db.store o.presence p now cfg
          = announcedRestart o.db.store o.presence p row now cfg := by
        simp only [announcedOf, hrow]
      rw [hannounced, minimumTrust_le_iff hcfg]
      simp

theorem refusesOnlyFloor_iff {o : Observer H} (hlen : KeyLengths o.db.store.peers) (p : H) (now : Int64)
    {cfg : TrustConfig} (hcfg : 0 < cfg.trustRebuildSeconds) :
    RefusesOnlyFloor o p now cfg ↔
      ∀ row, presenceOf o.presence p = some row → isForked o.db.store p = false →
        AboveFloor row (announcedRestart o.db.store o.presence p row now cfg) now cfg := by
  constructor
  · intro hfloor row hrow hforked
    obtain ⟨svc, hcluster, hallows⟩ : ∃ svc : SyncService H, svc.sameCluster o.db.store p = false ∧
        svc.federation.allows p = true :=
      ⟨⟨p, [], .anyOrigin, none, none, ⟨id, fun _ => .refl _⟩⟩, rfl, rfl⟩
    have hsvc := hfloor svc hcluster hallows
    have hallowed : ¬ (isForked o.db.store p = true ∨ presenceOf o.presence p = none) := by
      simp [hforked, hrow]
    rw [← hsvc, Bool.not_eq_false, federationAllows_withMinimumTrust hlen hcluster hallows now hcfg]
      at hallowed
    obtain ⟨-, row', hrow', habove⟩ := hallowed
    obtain rfl : row = row' := Option.some.inj (hrow.symm.trans hrow')
    exact habove
  · intro habove svc hcluster hallows
    rw [← Bool.not_eq_true, federationAllows_withMinimumTrust hlen hcluster hallows now hcfg]
    constructor
    · intro hrefused
      by_contra hnot
      push Not at hnot
      obtain ⟨hforked, hrow⟩ := hnot
      obtain ⟨row, hrow⟩ := Option.ne_none_iff_exists'.1 hrow
      have hforked' : isForked o.db.store p = false := Bool.not_eq_true _ ▸ hforked
      exact hrefused ⟨hforked', row, hrow, habove row hrow hforked'⟩
    · rintro (hforked | hnone) ⟨hnot, row, hrow, -⟩
      · rw [hforked] at hnot
        cases hnot
      · rw [hnone] at hrow
        cases hrow

variable {P : Prims H}

/-! ## Observed time -/

theorem staleMultiplier_toInt : staleMultiplier.toInt = 3 := by decide

theorem staleAfter_toInt {cfg : TrustConfig} (hbeat : 0 < cfg.heartbeatIntervalSeconds)
    (hrange : cfg.heartbeatIntervalSeconds.toInt * 3 < 2 ^ 63) :
    (staleAfter cfg).toInt = cfg.heartbeatIntervalSeconds.toInt * 3 := by
  have hpos : 0 < cfg.heartbeatIntervalSeconds.toInt := Int64.lt_iff_toInt_lt.1 hbeat
  have hin : InI64 (cfg.heartbeatIntervalSeconds.toInt * staleMultiplier.toInt) := by
    rw [staleMultiplier_toInt]
    exact ⟨by omega, hrange⟩
  rw [staleAfter, toInt_mul_exact hin, staleMultiplier_toInt]

/-- The score of a session that has lasted no longer than `t`. -/
theorem risen_le {cfg : TrustConfig} (hcfg : 0 < cfg.trustRebuildSeconds) (announced : Bool)
    {elapsed t : ℤ} (ht : 0 ≤ t) (h : elapsed ≤ t) :
    risen cfg announced elapsed ≤ startingTrust announced + t / cfg.trustRebuildSeconds.toInt := by
  have hr := rebuildSeconds_pos hcfg
  have hstart := startingTrust_nonneg announced
  calc risen cfg announced elapsed
      ≤ startingTrust announced + ramp (cfg.trustRebuildSeconds.toInt : ℚ) elapsed * 1 :=
        add_le_add_right (mul_le_mul_of_nonneg_left (sub_le_self 1 hstart) ramp_nonneg) _
    _ ≤ startingTrust announced + ramp (cfg.trustRebuildSeconds.toInt : ℚ) t := by
      rw [mul_one]
      exact add_le_add_right (ramp_mono hr (by exact_mod_cast h)) _
    _ ≤ startingTrust announced + t / cfg.trustRebuildSeconds.toInt :=
      add_le_add_right (ramp_le_div hr (by exact_mod_cast ht)) _

/-- A session that is not older than its first heartbeat. -/
theorem session_le {started first now : Int64} (h0 : 0 ≤ first) (hstart : first ≤ started)
    (hnow : first ≤ now) : (now - started).toInt ≤ now.toInt - first.toInt := by
  rw [Int64.le_iff_toInt_le] at h0 hstart hnow
  have hzero : (0 : Int64).toInt = 0 := rfl
  have hn := inI64_toInt now
  have hs := inI64_toInt started
  unfold InI64 at hn hs
  rcases toInt_sub_cases now started with ⟨-, hsub⟩ | ⟨hover, -⟩ | ⟨hunder, -⟩ <;> omega

/-- When a peer is silent, its last heartbeat is behind the clock. -/
theorem silent_session_le {started first last accepted now : Int64} (h0 : 0 ≤ first)
    (hstart : first ≤ started) (hfirst : first ≤ now) (haccepted : accepted ≤ now)
    (hclock : maxClockSkewSeconds ≤ accepted) (hnear : absDiff last accepted ≤ maxClockSkewSeconds)
    (hsilent : 0 < (now - last).toInt) : (last - started).toInt ≤ now.toInt - first.toInt := by
  have hskew : maxClockSkewSeconds.toInt = 300 := by decide
  have hzero : (0 : Int64).toInt = 0 := rfl
  have hclock0 : 0 ≤ accepted := Int64.le_trans (by decide : (0 : Int64) ≤ maxClockSkewSeconds) hclock
  have hwithin := (absDiff_le_skew_iff hclock0).1 hnear
  unfold Fresh WrapsIntoWindow at hwithin
  rw [abs_le] at hwithin
  rw [Int64.le_iff_toInt_le] at h0 hstart hfirst haccepted hclock
  have hn := inI64_toInt now
  have hs := inI64_toInt started
  have hl := inI64_toInt last
  unfold InI64 at hn hs hl
  rcases toInt_sub_cases now last with ⟨hin, hsub⟩ | ⟨hover, hsub⟩ | ⟨hunder, -⟩
  · unfold InI64 at hin
    rcases toInt_sub_cases last started with ⟨-, hsub'⟩ | ⟨hover', -⟩ | ⟨hunder', -⟩ <;> omega
  · omega
  · omega

/-- **Trust is bounded by observed presence**, in every run where the first
    heartbeat that was accepted claims no earlier session. -/
theorem trust_bounded (hJ : JsonLaws P) (hinj : Function.Injective P.blake3)
    (ops : List (ObserverOp P)) (p : H) {first : UnsignedPresenceHeartbeat} {r : Int64}
    (hfirst : (heartbeatsFrom P p ops).head? = some (first, r)) (hstart : r ≤ first.sessionStartedAt)
    (hclock : ∀ h ∈ heartbeatsFrom P p ops, maxClockSkewSeconds ≤ h.2)
    {cfg : TrustConfig} (hbeat : 0 < cfg.heartbeatIntervalSeconds) (hcfg : 0 < cfg.trustRebuildSeconds)
    (hrange : cfg.heartbeatIntervalSeconds.toInt * 3 < 2 ^ 63)
    {now : Int64} (hnow : ∀ h ∈ heartbeatsFrom P p ops, h.2 ≤ now) :
    ∃ score, computeTrust exactOps (P.observerRun ops).db.store (P.observerRun ops).presence p now cfg
        = .ok score ∧
      score ≤ startingTrust (announcedOf (P.observerRun ops).db.store (P.observerRun ops).presence p now
        cfg) + ((now.toInt - r.toInt : ℤ) : ℚ) / cfg.trustRebuildSeconds.toInt := by
  have hinv := observerRun_inv hJ hinj ops
  refine ⟨_, computeTrust_eq exactOps hinv.db.lengths _ p now cfg, ?_⟩
  generalize announcedOf _ _ p now cfg = announced
  have hmem : (first, r) ∈ heartbeatsFrom P p ops := List.mem_of_head? hfirst
  have hr0 : 0 ≤ r := Int64.le_trans (by decide : (0 : Int64) ≤ maxClockSkewSeconds) (hclock _ hmem)
  have hrnow : r ≤ now := hnow _ hmem
  have ht : 0 ≤ now.toInt - r.toInt := sub_nonneg.2 (Int64.le_iff_toInt_le.1 hrnow)
  -- the row holds the claim of the first heartbeat and the time of the last one
  obtain ⟨last, hlast⟩ := Option.ne_none_iff_exists'.1
    (mt List.getLast?_eq_none_iff.1 (List.ne_nil_of_mem hmem))
  have hlastmem := List.mem_of_getLast? hlast
  have hrow : presenceOf (P.observerRun ops).presence p
      = some ⟨p, first.sessionStartedAt, last.1.timestamp, last.1.status.asStr⟩ := by
    rw [presenceOf, hinv.presence, presenceRow, hfirst, hlast]
  rw [hrow]
  cases isForked (P.observerRun ops).db.store p with
  | true =>
    have hr := rebuildSeconds_pos hcfg
    exact add_nonneg (startingTrust_nonneg announced) (div_nonneg (by exact_mod_cast ht) hr.le)
  | false =>
    rw [trustScore_exact hcfg]
    split
    · exact risen_le hcfg announced ht (session_le hr0 hstart hrnow)
    · rename_i hstale
      have hsilent : 0 < (now - last.1.timestamp).toInt := by
        have hafter := staleAfter_toInt hbeat hrange
        have hbeat' : 0 < cfg.heartbeatIntervalSeconds.toInt := Int64.lt_iff_toInt_lt.1 hbeat
        have hlt : (staleAfter cfg).toInt < (now - last.1.timestamp).toInt :=
          Int64.lt_iff_toInt_lt.1 (Int64.not_le.1 hstale)
        omega
      have hsession := silent_session_le hr0 hstart hrnow (hnow _ hlastmem) (hclock _ hlastmem)
        (near_of_mem_heartbeatsFrom hlastmem) hsilent
      calc _ ≤ risen cfg announced (last.1.timestamp - first.sessionStartedAt).toInt :=
            mul_le_of_le_one_right (risen_nonneg ..) (kept_le_one ..)
        _ ≤ _ := risen_le hcfg announced ht hsession

theorem observerStep_presence_db (o : Observer H) (heartbeat : PresenceHeartbeat)
    (now : Int64) : (P.observerStep o (.presence heartbeat now)).db = o.db := by
  simp only [Prims.observerStep]
  split <;> rfl

end peer

/-! ## One heartbeat -/

/-- Peer A's first heartbeat, with any claim about its session. -/
noncomputable def beat (started : Int64) : PresenceHeartbeat :=
  idealOpen.buildAndSignPresence peerA .online started 1000

noncomputable def beatRun (started : Int64) : List (ObserverOp idealOpen) := [.presence (beat started) 1000]

noncomputable def beatRow (started : Int64) : PeerPresenceRow Bytes :=
  ⟨peerA.peerId idealOpen, started, 1000, "online"⟩

theorem heartbeatsFrom_beatRun (started : Int64) :
    heartbeatsFrom idealOpen (peerA.peerId idealOpen) (beatRun started)
      = [((beat started).unsigned, 1000)] := by
  have hver : idealOpen.verifyPresence (beat started) 1000 = .ok (peerA.peerId idealOpen) :=
    verifyPresence_build (idealOpen_signsCorrectly peerA) _ _ (by decide)
  rw [beatRun, heartbeatsFrom_cons hver]
  rfl

theorem presenceOf_beatRun (started : Int64) :
    presenceOf (idealOpen.observerRun (beatRun started)).presence (peerA.peerId idealOpen)
      = some (beatRow started) := by
  have hinv := observerRun_inv idealOpen_laws idealOpen_injective (beatRun started)
  rw [presenceOf, hinv.presence, heartbeatsFrom_beatRun]
  rfl

theorem beatRun_db (started : Int64) : (idealOpen.observerRun (beatRun started)).db = .empty := by
  rw [Prims.observerRun, beatRun, List.foldl_cons, List.foldl_nil, observerStep_presence_db]
  rfl

theorem announcedOf_empty (presence : Presence Bytes) (p : Bytes) (now : Int64) (cfg : TrustConfig) :
    announcedOf Database.empty.store presence p now cfg = false := by
  unfold announcedOf
  split <;> rfl

theorem computeTrust_beatRun (started now : Int64) (cfg : TrustConfig) :
    computeTrust exactOps (idealOpen.observerRun (beatRun started)).db.store
      (idealOpen.observerRun (beatRun started)).presence (peerA.peerId idealOpen) now cfg
      = .ok (trustScore exactOps (some (beatRow started)) false false now cfg) := by
  have hlen := (observerRun_inv idealOpen_laws idealOpen_injective (beatRun started)).db.lengths
  have hforked : isForked (Database.empty : Database Bytes).store (peerA.peerId idealOpen) = false := rfl
  rw [computeTrust_eq exactOps hlen, beatRun_db, presenceOf_beatRun, announcedOf_empty, hforked]

theorem not_refusesOnlyFloor_beatRun {started now : Int64} {cfg : TrustConfig}
    (hcfg : 0 < cfg.trustRebuildSeconds) (h : ¬ AboveFloor (beatRow started) false now cfg) :
    ¬ RefusesOnlyFloor (idealOpen.observerRun (beatRun started)) (peerA.peerId idealOpen) now cfg := by
  have hlen := (observerRun_inv idealOpen_laws idealOpen_injective (beatRun started)).db.lengths
  have hforked : isForked (Database.empty : Database Bytes).store (peerA.peerId idealOpen) = false := rfl
  have hannounced : announcedRestart (Database.empty : Database Bytes).store
      (idealOpen.observerRun (beatRun started)).presence (peerA.peerId idealOpen) (beatRow started) now cfg
      = false := rfl
  rw [refusesOnlyFloor_iff hlen _ _ hcfg, beatRun_db]
  intro habove
  have habove' := habove (beatRow started) (presenceOf_beatRun started) hforked
  rw [hannounced] at habove'
  exact h habove'

/-- A hundred seconds after its first heartbeat, peer A has the trust of a
    hundred seconds at most. -/
theorem trust_bounded_start :
    ∃ score, computeTrust exactOps (idealOpen.observerRun (beatRun 1000)).db.store
        (idealOpen.observerRun (beatRun 1000)).presence (peerA.peerId idealOpen) 1100 {} = .ok score ∧
      score ≤ 100 / 3600 := by
  have hmem : ∀ h ∈ heartbeatsFrom idealOpen (peerA.peerId idealOpen) (beatRun 1000), h.2 = 1000 := by
    rw [heartbeatsFrom_beatRun]
    intro h hh
    rw [List.mem_singleton.1 hh]
  have hfirst : (heartbeatsFrom idealOpen (peerA.peerId idealOpen) (beatRun 1000)).head?
      = some ((beat 1000).unsigned, 1000) := by
    rw [heartbeatsFrom_beatRun]
    rfl
  have hstart : 1000 ≤ (beat 1000).unsigned.sessionStartedAt := Int64.le_refl 1000
  have hbeat : 0 < ({} : TrustConfig).heartbeatIntervalSeconds := by decide
  have hcfg : 0 < ({} : TrustConfig).trustRebuildSeconds := by decide
  obtain ⟨score, hscore, hle⟩ := trust_bounded idealOpen_laws idealOpen_injective (beatRun 1000)
    (peerA.peerId idealOpen) hfirst hstart
    (fun h hh => by rw [hmem h hh]; decide) hbeat hcfg (by decide)
    (fun h hh => (by rw [hmem h hh]; decide : h.2 ≤ 1100))
  refine ⟨score, hscore, ?_⟩
  rw [beatRun_db, announcedOf_empty] at hle
  refine hle.trans ?_
  have hr : ({} : TrustConfig).trustRebuildSeconds.toInt = 3600 := by decide
  have ht : (1100 : Int64).toInt - (1000 : Int64).toInt = 100 := by decide
  rw [hr, ht]
  norm_num [startingTrust]

/-- Peer A says that it has been up for an hour, and has full trust with its
    first heartbeat. -/
theorem claimed_session_trusted :
    heartbeatsFrom idealOpen (peerA.peerId idealOpen) (beatRun (-2600))
      = [((beat (-2600)).unsigned, 1000)] ∧
    announcedOf (idealOpen.observerRun (beatRun (-2600))).db.store
      (idealOpen.observerRun (beatRun (-2600))).presence (peerA.peerId idealOpen) 1000 {} = false ∧
    computeTrust exactOps (idealOpen.observerRun (beatRun (-2600))).db.store
      (idealOpen.observerRun (beatRun (-2600))).presence (peerA.peerId idealOpen) 1000 {} = .ok 1 := by
  have hcfg : 0 < ({} : TrustConfig).trustRebuildSeconds := by decide
  have hfresh : 1000 - (beatRow (-2600)).lastHeartbeatAt ≤ staleAfter {} :=
    (by decide : (1000 - 1000 : Int64) ≤ staleAfter {})
  have helapsed : (1000 - (beatRow (-2600)).sessionStartedAt).toInt = 3600 :=
    (by decide : (1000 - (-2600) : Int64).toInt = 3600)
  have hr : ({} : TrustConfig).trustRebuildSeconds.toInt = 3600 := by decide
  refine ⟨heartbeatsFrom_beatRun _, ?_, ?_⟩
  · rw [beatRun_db, announcedOf_empty]
  · rw [computeTrust_beatRun, trustScore_exact hcfg, if_pos hfresh, helapsed, risen, hr,
      ramp_of_le (by norm_num) le_rfl]
    norm_num [startingTrust, blend]

end OpenAgentGraph
