/-
  How far the trust score moves in one second.

  * `fresh_step`, `stale_step`: by at most one step of the ramp, while nothing
    but the clock changes;
  * `silence_iff`, `expiry_fresh_iff`, `expiry_stale_iff`, `expiry_silence_iff`:
    when that also holds as the peer becomes silent, as the announcement of a
    restart expires, and as both happen;
  * `no_cliff_iff`: when it holds of the code.
-/
import OpenAgentGraph.Proof.Trust
import OpenAgentGraph.Sync.TrustChecked

namespace OpenAgentGraph

open Lib Repo

/-! ## Whole seconds -/

/-- The seconds that are missing from a full ramp. -/
def missing (r x : ℤ) : ℤ := max 0 (min (r - x) r)

theorem missing_of_nonpos {r x : ℤ} (hr : 0 < r) (hx : x ≤ 0) : missing r x = r := by
  unfold missing
  omega

theorem missing_of_mem {r x : ℤ} (h0 : 0 ≤ x) (hx : x ≤ r) : missing r x = r - x := by
  unfold missing
  omega

theorem missing_of_le {r x : ℤ} (hx : r ≤ x) : missing r x = 0 := by
  unfold missing
  omega

section ramps

variable {cfg : TrustConfig}

theorem kept_eq (hcfg : 0 < cfg.trustRebuildSeconds) (x : ℤ) :
    kept cfg x = missing cfg.trustRebuildSeconds.toInt x / cfg.trustRebuildSeconds.toInt := by
  have hr := rebuildSeconds_pos hcfg
  have hr' : 0 < cfg.trustRebuildSeconds.toInt := by exact_mod_cast hr
  rw [kept]
  rcases le_total x 0 with h0 | h0
  · rw [ramp_of_nonpos hr (by exact_mod_cast h0), missing_of_nonpos hr' h0, div_self hr.ne', sub_zero]
  · rcases le_total cfg.trustRebuildSeconds.toInt x with h1 | h1
    · rw [ramp_of_le hr (by exact_mod_cast h1), missing_of_le h1, Int.cast_zero, zero_div, sub_self]
    · rw [ramp_of_mem hr (by exact_mod_cast h0) (by exact_mod_cast h1), missing_of_mem h0 h1,
        Int.cast_sub, sub_div, div_self hr.ne']

theorem risen_eq (announced : Bool) (x : ℤ) :
    risen cfg announced x = 1 - (1 - startingTrust announced) * kept cfg x := by
  rw [risen, kept, mul_comm, ← one_sub_blend, sub_sub_cancel]

theorem kept_anti (hcfg : 0 < cfg.trustRebuildSeconds) {x y : ℤ} (h : x ≤ y) :
    kept cfg y ≤ kept cfg x :=
  sub_le_sub_left (ramp_mono (rebuildSeconds_pos hcfg) (by exact_mod_cast h)) 1

theorem kept_step (hcfg : 0 < cfg.trustRebuildSeconds) (x : ℤ) :
    kept cfg x - kept cfg (x + 1) ≤ 1 / cfg.trustRebuildSeconds.toInt := by
  have hstep := ramp_add_le (x := (x : ℚ)) (rebuildSeconds_pos hcfg) zero_le_one
  rw [kept, kept, sub_sub_sub_cancel_left, sub_le_iff_le_add', Int.cast_add, Int.cast_one]
  exact hstep

/-! ## Between the seams -/

theorem fresh_step (hcfg : 0 < cfg.trustRebuildSeconds) (announced : Bool) (x : ℤ) :
    |risen cfg announced (x + 1) - risen cfg announced x| ≤ 1 / cfg.trustRebuildSeconds.toInt := by
  have hstep := kept_step hcfg x
  have hanti : 0 ≤ kept cfg x - kept cfg (x + 1) := sub_nonneg.2 (kept_anti hcfg (by omega))
  have hweight : 0 ≤ 1 - startingTrust announced := sub_nonneg.2 (startingTrust_lt_one announced).le
  have hdiff : risen cfg announced (x + 1) - risen cfg announced x
      = (1 - startingTrust announced) * (kept cfg x - kept cfg (x + 1)) := by
    rw [risen_eq, risen_eq]
    ring
  rw [hdiff, abs_of_nonneg (mul_nonneg hweight hanti)]
  exact (mul_le_of_le_one_left hanti (sub_le_self 1 (startingTrust_nonneg announced))).trans hstep

theorem stale_step (hcfg : 0 < cfg.trustRebuildSeconds) (announced : Bool) (a k : ℤ) :
    |risen cfg announced a * kept cfg (k + 1) - risen cfg announced a * kept cfg k|
      ≤ 1 / cfg.trustRebuildSeconds.toInt := by
  have hstep := kept_step hcfg k
  have hanti : 0 ≤ kept cfg k - kept cfg (k + 1) := sub_nonneg.2 (kept_anti hcfg (by omega))
  rw [← mul_sub, abs_mul, abs_of_nonneg (risen_nonneg cfg announced a), abs_sub_comm,
    abs_of_nonneg hanti]
  exact (mul_le_of_le_one_left hanti (risen_le_one cfg announced a)).trans hstep

/-! ## The seams -/

theorem kept_one (hcfg : 0 < cfg.trustRebuildSeconds) :
    kept cfg 1 = 1 - 1 / cfg.trustRebuildSeconds.toInt := by
  rw [kept, Int.cast_one, ramp_of_mem (rebuildSeconds_pos hcfg) zero_le_one (one_le_rebuildSeconds hcfg)]

/-- Falling behind by the time that passed while the silence went unnoticed. -/
theorem missing_silence {r : ℤ} (hr : 0 < r) {a t : ℤ} (ht : 0 < t) :
    r * (missing r a - missing r (a + t)) ≤ missing r a ↔ r = 1 ∨ r ≤ a ∨ a + t ≤ 1 := by
  rcases le_or_gt r a with ha | ha
  · rw [missing_of_le ha, missing_of_le (by omega)]
    simp [ha]
  rcases le_or_gt r (a + t) with hat | hat
  · have hpos : 0 < missing r a := by
      unfold missing
      omega
    rw [missing_of_le hat, sub_zero, mul_le_iff_le_one_left hpos]
    omega
  rcases le_or_gt 0 a with h0 | h0
  · have hsub : r - a - (r - (a + t)) = t := by ring
    rw [missing_of_mem h0 ha.le, missing_of_mem (by omega) hat.le, hsub]
    constructor
    · intro h
      have ht1 : t = 1 := by nlinarith
      subst ht1
      omega
    · rintro (rfl | h | h)
      · omega
      · omega
      · obtain ⟨rfl, rfl⟩ : a = 0 ∧ t = 1 := by omega
        omega
  · rw [missing_of_nonpos hr h0.le]
    rcases le_or_gt (a + t) 0 with hat0 | hat0
    · rw [missing_of_nonpos hr hat0, sub_self, mul_zero]
      omega
    · rw [missing_of_mem hat0.le hat.le, sub_sub_cancel, mul_le_iff_le_one_right hr]
      omega

theorem rebuild_toInt_pos (hcfg : 0 < cfg.trustRebuildSeconds) : 0 < cfg.trustRebuildSeconds.toInt :=
  Int64.lt_iff_toInt_lt.1 hcfg

theorem silence_iff (hcfg : 0 < cfg.trustRebuildSeconds) (announced : Bool) {a t : ℤ} (ht : 0 < t) :
    |risen cfg announced a * kept cfg 1 - risen cfg announced (a + t)|
        ≤ 1 / cfg.trustRebuildSeconds.toInt ↔
      cfg.trustRebuildSeconds.toInt = 1 ∨ cfg.trustRebuildSeconds.toInt ≤ a ∨ a + t ≤ 1 := by
  have hr := rebuildSeconds_pos hcfg
  have hanti : 0 ≤ kept cfg a - kept cfg (a + t) := sub_nonneg.2 (kept_anti hcfg (by omega))
  have hweight : 0 < 1 - startingTrust announced := sub_pos.2 (startingTrust_lt_one announced)
  have hweight' : 1 - startingTrust announced ≤ 1 := sub_le_self 1 (startingTrust_nonneg announced)
  rw [← missing_silence (rebuild_toInt_pos hcfg) ht, kept_one hcfg, risen_eq, risen_eq, abs_sub_comm]
  generalize 1 - startingTrust announced = w at hweight hweight'
  have hdrop : 1 - w * kept cfg (a + t) - (1 - w * kept cfg a) * (1 - 1 / cfg.trustRebuildSeconds.toInt)
      = 1 / cfg.trustRebuildSeconds.toInt +
        w * (kept cfg a - kept cfg (a + t) - kept cfg a / cfg.trustRebuildSeconds.toInt) := by
    ring
  have hnonneg : 0 ≤ 1 / (cfg.trustRebuildSeconds.toInt : ℚ) +
      w * (kept cfg a - kept cfg (a + t) - kept cfg a / cfg.trustRebuildSeconds.toInt) := by
    have hpart : w * kept cfg a / cfg.trustRebuildSeconds.toInt ≤ 1 / cfg.trustRebuildSeconds.toInt :=
      (div_le_div_iff_of_pos_right hr).2 (mul_le_one₀ hweight' (kept_nonneg cfg a) (kept_le_one cfg a))
    have hgap : 0 ≤ w * (kept cfg a - kept cfg (a + t)) := mul_nonneg hweight.le hanti
    rw [mul_sub, ← mul_div_assoc]
    linarith
  rw [hdrop, abs_of_nonneg hnonneg, add_le_iff_nonpos_right, ← not_lt, mul_pos_iff_of_pos_left hweight,
    not_lt, kept_eq hcfg, kept_eq hcfg, ← sub_div, sub_nonpos, div_le_div_iff_of_pos_right hr,
    le_div_iff₀ hr, mul_comm]
  norm_cast

theorem risen_false (x : ℤ) : risen cfg false x = 1 - kept cfg x := by
  have hstart : startingTrust false = 0 := rfl
  rw [risen_eq, hstart, sub_zero, one_mul]

theorem risen_true (x : ℤ) : risen cfg true x = 1 - 7 / 10 * kept cfg x := by
  have hstart : 1 - startingTrust true = 7 / 10 := by norm_num [startingTrust]
  rw [risen_eq, hstart]

theorem expiry_fresh_iff (hcfg : 0 < cfg.trustRebuildSeconds) (x : ℤ) :
    |risen cfg false (x + 1) - risen cfg true x| ≤ 1 / cfg.trustRebuildSeconds.toInt ↔
      if 0 ≤ x then 3 * (cfg.trustRebuildSeconds.toInt - x) ≤ 20
      else 3 * cfg.trustRebuildSeconds.toInt ≤ 10 := by
  have hr := rebuildSeconds_pos hcfg
  have hr' := rebuild_toInt_pos hcfg
  have hstep := kept_step hcfg x
  have hnonneg := kept_nonneg cfg x
  have hmissing : (10 * missing cfg.trustRebuildSeconds.toInt (x + 1)
        - 7 * missing cfg.trustRebuildSeconds.toInt x ≤ 10) ↔
      if 0 ≤ x then 3 * (cfg.trustRebuildSeconds.toInt - x) ≤ 20
      else 3 * cfg.trustRebuildSeconds.toInt ≤ 10 := by
    unfold missing
    split <;> omega
  rw [← hmissing, risen_false, risen_true, abs_le]
  constructor
  · rintro ⟨hlow, -⟩
    rw [kept_eq hcfg, kept_eq hcfg] at hlow
    field_simp at hlow
    have hcast : (10 * missing cfg.trustRebuildSeconds.toInt (x + 1)
        - 7 * missing cfg.trustRebuildSeconds.toInt x : ℚ) ≤ 10 := by linarith
    exact_mod_cast hcast
  · intro h
    have hcast : (10 * missing cfg.trustRebuildSeconds.toInt (x + 1)
        - 7 * missing cfg.trustRebuildSeconds.toInt x : ℚ) ≤ 10 := by exact_mod_cast h
    refine ⟨?_, by linarith⟩
    rw [kept_eq hcfg, kept_eq hcfg]
    field_simp
    linarith

theorem kept_eq_zero (hcfg : 0 < cfg.trustRebuildSeconds) {x : ℤ} :
    kept cfg x = 0 ↔ cfg.trustRebuildSeconds.toInt ≤ x := by
  rw [← not_lt, ← kept_pos hcfg, not_lt]
  exact ⟨le_of_eq, fun h => le_antisymm h (kept_nonneg cfg x)⟩

theorem expiry_stale_iff (hcfg : 0 < cfg.trustRebuildSeconds) (a : ℤ) {k : ℤ} (hk : 0 ≤ k) :
    |risen cfg false a * kept cfg (k + 1) - risen cfg true a * kept cfg k|
        ≤ 1 / cfg.trustRebuildSeconds.toInt ↔
      cfg.trustRebuildSeconds.toInt ≤ a ∨ 3 * (cfg.trustRebuildSeconds.toInt - k) ≤ 10 := by
  have hr := rebuildSeconds_pos hcfg
  have hstep := kept_step hcfg k
  have hanti : 0 ≤ kept cfg k - kept cfg (k + 1) := sub_nonneg.2 (kept_anti hcfg (by omega))
  have hgap : 0 ≤ 1 - kept cfg a := sub_nonneg.2 (kept_le_one cfg a)
  have ha := kept_nonneg cfg a
  have hdrop : risen cfg true a * kept cfg k - risen cfg false a * kept cfg (k + 1)
      = (1 - kept cfg a) * (kept cfg k - kept cfg (k + 1)) + 3 / 10 * kept cfg a * kept cfg k := by
    rw [risen_false, risen_true]
    ring
  have hnonneg : 0 ≤ (1 - kept cfg a) * (kept cfg k - kept cfg (k + 1))
      + 3 / 10 * kept cfg a * kept cfg k :=
    add_nonneg (mul_nonneg hgap hanti) (mul_nonneg (by linarith) (kept_nonneg cfg k))
  rw [abs_sub_comm, hdrop, abs_of_nonneg hnonneg]
  rcases le_or_gt cfg.trustRebuildSeconds.toInt k with hdone | hleft
  · -- nothing is left to decay
    have hzero : kept cfg k = 0 := (kept_eq_zero hcfg).2 hdone
    have hzero' : kept cfg (k + 1) = 0 := (kept_eq_zero hcfg).2 (by omega)
    rw [hzero, hzero']
    refine iff_of_true ?_ (Or.inr (by omega))
    simpa using (one_div_pos.2 hr).le
  · have hkept : kept cfg k = (cfg.trustRebuildSeconds.toInt - k) / cfg.trustRebuildSeconds.toInt := by
      rw [kept_eq hcfg, missing_of_mem hk hleft.le, Int.cast_sub]
    have hkept' : kept cfg k - kept cfg (k + 1) = 1 / cfg.trustRebuildSeconds.toInt := by
      rw [hkept, kept_eq hcfg (k + 1), missing_of_mem (by omega) hleft]
      push_cast
      ring
    rw [hkept', hkept, ← kept_eq_zero hcfg]
    have hcond : (1 - kept cfg a) * (1 / cfg.trustRebuildSeconds.toInt) + 3 / 10 * kept cfg a *
          ((cfg.trustRebuildSeconds.toInt - k) / cfg.trustRebuildSeconds.toInt)
          ≤ 1 / cfg.trustRebuildSeconds.toInt ↔
        kept cfg a * (3 * (cfg.trustRebuildSeconds.toInt - k) - 10) ≤ 0 := by
      constructor
      · intro h
        field_simp at h
        linarith
      · intro h
        field_simp
        linarith
    rw [hcond]
    rcases ha.eq_or_lt with hzero | hpos
    · rw [← hzero, zero_mul]
      simp
    · rw [← not_lt, mul_pos_iff_of_pos_left hpos, not_lt, sub_nonpos, or_iff_right hpos.ne']
      norm_cast

/-- Falling behind by a silence that went unnoticed and the announcement at once. -/
theorem missing_expiry {r : ℤ} (hr : 0 < r) {a t : ℤ} (ht : 0 < t) :
    r * (10 * missing r a - 7 * missing r (a + t)) ≤ 10 * missing r a
      ↔ r = 1 ∨ r ≤ a ∨ (r ≤ 3 ∧ a + t ≤ 0) := by
  rcases le_or_gt r a with ha | ha
  · rw [missing_of_le ha, missing_of_le (by omega)]
    simp [ha]
  rcases le_or_gt r (a + t) with hat | hat
  · have hpos : 0 < 10 * missing r a := by
      unfold missing
      omega
    rw [missing_of_le hat, mul_zero, sub_zero, mul_le_iff_le_one_left hpos]
    omega
  rcases le_or_gt 0 a with h0 | h0
  · rw [missing_of_mem h0 ha.le, missing_of_mem (by omega) hat.le]
    refine iff_of_false ?_ (by omega)
    intro h
    rcases le_or_gt 4 r with h4 | h4
    · nlinarith
    · interval_cases r <;> omega
  · rw [missing_of_nonpos hr h0.le, mul_comm 10 r, mul_le_mul_iff_right₀ hr]
    rcases le_or_gt (a + t) 0 with hat0 | hat0
    · rw [missing_of_nonpos hr hat0]
      omega
    · rw [missing_of_mem hat0.le hat.le]
      omega

theorem expiry_silence_iff (hcfg : 0 < cfg.trustRebuildSeconds) {a t : ℤ} (ht : 0 < t) :
    |risen cfg false a * kept cfg 1 - risen cfg true (a + t)| ≤ 1 / cfg.trustRebuildSeconds.toInt ↔
      cfg.trustRebuildSeconds.toInt = 1 ∨ cfg.trustRebuildSeconds.toInt ≤ a ∨
        (cfg.trustRebuildSeconds.toInt ≤ 3 ∧ a + t ≤ 0) := by
  have hr := rebuildSeconds_pos hcfg
  have hanti : kept cfg (a + t) ≤ kept cfg a := kept_anti hcfg (by omega)
  have hone := kept_le_one cfg a
  have hpos := kept_nonneg cfg a
  rw [← missing_expiry (rebuild_toInt_pos hcfg) ht, kept_one hcfg, risen_false, risen_true, abs_sub_comm]
  have hdrop : 1 - 7 / 10 * kept cfg (a + t) - (1 - kept cfg a) * (1 - 1 / cfg.trustRebuildSeconds.toInt)
      = 1 / cfg.trustRebuildSeconds.toInt +
        (kept cfg a - 7 / 10 * kept cfg (a + t) - kept cfg a / cfg.trustRebuildSeconds.toInt) := by
    ring
  have hnonneg : 0 ≤ 1 / (cfg.trustRebuildSeconds.toInt : ℚ) +
      (kept cfg a - 7 / 10 * kept cfg (a + t) - kept cfg a / cfg.trustRebuildSeconds.toInt) := by
    have hpart : kept cfg a / cfg.trustRebuildSeconds.toInt ≤ 1 / cfg.trustRebuildSeconds.toInt :=
      (div_le_div_iff_of_pos_right hr).2 hone
    linarith
  rw [hdrop, abs_of_nonneg hnonneg, add_le_iff_nonpos_right, sub_nonpos, le_div_iff₀ hr, kept_eq hcfg,
    kept_eq hcfg]
  constructor
  · intro h
    field_simp at h
    have hcast : (cfg.trustRebuildSeconds.toInt * (10 * missing cfg.trustRebuildSeconds.toInt a
        - 7 * missing cfg.trustRebuildSeconds.toInt (a + t)) : ℚ)
        ≤ 10 * missing cfg.trustRebuildSeconds.toInt a := by linarith
    exact_mod_cast hcast
  · intro h
    have hcast : (cfg.trustRebuildSeconds.toInt * (10 * missing cfg.trustRebuildSeconds.toInt a
        - 7 * missing cfg.trustRebuildSeconds.toInt (a + t)) : ℚ)
        ≤ 10 * missing cfg.trustRebuildSeconds.toInt a := by exact_mod_cast h
    field_simp
    linarith

end ramps

/-! ## The score as a function of the clock -/

section clock

variable {H : Type}

/-- The length of a silence that goes unnoticed. -/
def staleSeconds (cfg : TrustConfig) : ℤ := cfg.heartbeatIntervalSeconds.toInt * 3

/-- The score in exact integers. -/
def scoreAt (row : PeerPresenceRow H) (announced : Bool) (cfg : TrustConfig) (now : ℤ) : ℚ :=
  if now - row.lastHeartbeatAt.toInt ≤ staleSeconds cfg then
    risen cfg announced (now - row.sessionStartedAt.toInt)
  else risen cfg announced (row.lastHeartbeatAt.toInt - row.sessionStartedAt.toInt) *
    kept cfg (now - row.lastHeartbeatAt.toInt - staleSeconds cfg)

theorem scoreAt_nonneg (row : PeerPresenceRow H) (announced : Bool) (cfg : TrustConfig) (now : ℤ) :
    0 ≤ scoreAt row announced cfg now := by
  unfold scoreAt
  split
  · exact risen_nonneg ..
  · exact mul_nonneg (risen_nonneg ..) (kept_nonneg ..)

theorem scoreAt_le_one (row : PeerPresenceRow H) (announced : Bool) (cfg : TrustConfig) (now : ℤ) :
    scoreAt row announced cfg now ≤ 1 := by
  unfold scoreAt
  split
  · exact risen_le_one ..
  · exact mul_le_one₀ (risen_le_one ..) (kept_nonneg ..) (kept_le_one ..)

/-- What the seams between `now` and the next second must meet: the first
    unnoticed silence may end, the announced restart (`A`, then `A'`) may
    expire, or both. -/
structure SmallSeams (row : PeerPresenceRow H) (cfg : TrustConfig) (A A' : Prop) (now : ℤ) : Prop where
  silence : now - row.lastHeartbeatAt.toInt = staleSeconds cfg → (A ↔ A') →
    cfg.trustRebuildSeconds.toInt = 1 ∨
      cfg.trustRebuildSeconds.toInt ≤ row.lastHeartbeatAt.toInt - row.sessionStartedAt.toInt ∨
      row.lastHeartbeatAt.toInt - row.sessionStartedAt.toInt + staleSeconds cfg ≤ 1
  expiryFresh : now - row.lastHeartbeatAt.toInt < staleSeconds cfg → A → ¬ A' →
    if 0 ≤ now - row.sessionStartedAt.toInt then
      3 * (cfg.trustRebuildSeconds.toInt - (now - row.sessionStartedAt.toInt)) ≤ 20
    else 3 * cfg.trustRebuildSeconds.toInt ≤ 10
  expiryStale : staleSeconds cfg < now - row.lastHeartbeatAt.toInt → A → ¬ A' →
    cfg.trustRebuildSeconds.toInt ≤ row.lastHeartbeatAt.toInt - row.sessionStartedAt.toInt ∨
      3 * (cfg.trustRebuildSeconds.toInt - (now - row.lastHeartbeatAt.toInt - staleSeconds cfg)) ≤ 10
  expirySilence : now - row.lastHeartbeatAt.toInt = staleSeconds cfg → A → ¬ A' →
    cfg.trustRebuildSeconds.toInt = 1 ∨
      cfg.trustRebuildSeconds.toInt ≤ row.lastHeartbeatAt.toInt - row.sessionStartedAt.toInt ∨
      (cfg.trustRebuildSeconds.toInt ≤ 3 ∧
        row.lastHeartbeatAt.toInt - row.sessionStartedAt.toInt + staleSeconds cfg ≤ 0)

/-- The announcement applies as before, or expires. -/
def SameOrExpires (announced announced' : Bool) (A A' : Prop) : Prop :=
  (announced' = announced ∧ (A ↔ A')) ∨ (announced = true ∧ announced' = false ∧ A ∧ ¬ A')

theorem staleSeconds_pos {cfg : TrustConfig} (hbeat : 0 < cfg.heartbeatIntervalSeconds) :
    0 < staleSeconds cfg := by
  have hbeat' : 0 < cfg.heartbeatIntervalSeconds.toInt := Int64.lt_iff_toInt_lt.1 hbeat
  unfold staleSeconds
  omega

/-- The peer is fresh, and still so in a second. -/
theorem scoreAt_fresh_iff {cfg : TrustConfig} (hcfg : 0 < cfg.trustRebuildSeconds)
    (row : PeerPresenceRow H) {announced announced' : Bool} {A A' : Prop}
    (h : SameOrExpires announced announced' A A') {now : ℤ}
    (hfresh : now - row.lastHeartbeatAt.toInt < staleSeconds cfg) :
    |scoreAt row announced' cfg (now + 1) - scoreAt row announced cfg now|
        ≤ 1 / cfg.trustRebuildSeconds.toInt ↔ SmallSeams row cfg A A' now := by
  have hnext : now + 1 - row.sessionStartedAt.toInt = now - row.sessionStartedAt.toInt + 1 := by ring
  rw [scoreAt, scoreAt, if_pos hfresh.le, if_pos (by omega), hnext]
  rcases h with ⟨rfl, hsame⟩ | ⟨rfl, rfl, ha, hna⟩
  · refine iff_of_true (fresh_step hcfg ..) ⟨fun heq => ?_, fun _ ha hna => ?_, fun hlt => ?_, fun heq => ?_⟩
    · omega
    · exact absurd (hsame.1 ha) hna
    · omega
    · omega
  · rw [expiry_fresh_iff hcfg]
    refine ⟨fun h => ⟨fun heq => ?_, fun _ _ _ => h, fun hlt => ?_, fun heq => ?_⟩,
      fun h => h.expiryFresh hfresh ha hna⟩
    · omega
    · omega
    · omega

/-- The last second of an unnoticed silence. -/
theorem scoreAt_silence_iff {cfg : TrustConfig} (hbeat : 0 < cfg.heartbeatIntervalSeconds)
    (hcfg : 0 < cfg.trustRebuildSeconds) (row : PeerPresenceRow H) {announced announced' : Bool}
    {A A' : Prop} (h : SameOrExpires announced announced' A A') {now : ℤ}
    (hseam : now - row.lastHeartbeatAt.toInt = staleSeconds cfg) :
    |scoreAt row announced' cfg (now + 1) - scoreAt row announced cfg now|
        ≤ 1 / cfg.trustRebuildSeconds.toInt ↔ SmallSeams row cfg A A' now := by
  have hpos := staleSeconds_pos hbeat
  have hone : now + 1 - row.lastHeartbeatAt.toInt - staleSeconds cfg = 1 := by omega
  have hlast : now - row.sessionStartedAt.toInt
      = row.lastHeartbeatAt.toInt - row.sessionStartedAt.toInt + staleSeconds cfg := by omega
  rw [scoreAt, scoreAt, if_pos hseam.le, if_neg (by omega), hone, hlast]
  rcases h with ⟨rfl, hsame⟩ | ⟨rfl, rfl, ha, hna⟩
  · rw [silence_iff hcfg _ hpos]
    refine ⟨fun h => ⟨fun _ _ => h, fun hlt => ?_, fun hlt => ?_, fun _ ha hna => ?_⟩,
      fun h => h.silence hseam hsame⟩
    · omega
    · omega
    · exact absurd (hsame.1 ha) hna
  · rw [expiry_silence_iff hcfg hpos]
    refine ⟨fun h => ⟨fun _ hsame => ?_, fun hlt => ?_, fun hlt => ?_, fun _ _ _ => h⟩,
      fun h => h.expirySilence hseam ha hna⟩
    · exact absurd (hsame.1 ha) hna
    · omega
    · omega

/-- The peer is silent, and still so in a second. -/
theorem scoreAt_stale_iff {cfg : TrustConfig} (hcfg : 0 < cfg.trustRebuildSeconds)
    (row : PeerPresenceRow H) {announced announced' : Bool} {A A' : Prop}
    (h : SameOrExpires announced announced' A A') {now : ℤ}
    (hstale : staleSeconds cfg < now - row.lastHeartbeatAt.toInt) :
    |scoreAt row announced' cfg (now + 1) - scoreAt row announced cfg now|
        ≤ 1 / cfg.trustRebuildSeconds.toInt ↔ SmallSeams row cfg A A' now := by
  have hnext : now + 1 - row.lastHeartbeatAt.toInt - staleSeconds cfg
      = now - row.lastHeartbeatAt.toInt - staleSeconds cfg + 1 := by ring
  rw [scoreAt, scoreAt, if_neg hstale.not_ge, if_neg (by omega), hnext]
  rcases h with ⟨rfl, hsame⟩ | ⟨rfl, rfl, ha, hna⟩
  · refine iff_of_true (stale_step hcfg ..) ⟨fun heq => ?_, fun hlt => ?_, fun _ ha hna => ?_, fun heq => ?_⟩
    · omega
    · omega
    · exact absurd (hsame.1 ha) hna
    · omega
  · rw [expiry_stale_iff hcfg _ (by omega)]
    refine ⟨fun h => ⟨fun heq => ?_, fun hlt => ?_, fun _ _ _ => h, fun heq => ?_⟩,
      fun h => h.expiryStale hstale ha hna⟩
    · omega
    · omega
    · omega

/-- **The step of the score**, when no announcement applies anew. -/
theorem scoreAt_step_iff {cfg : TrustConfig} (hbeat : 0 < cfg.heartbeatIntervalSeconds)
    (hcfg : 0 < cfg.trustRebuildSeconds) (row : PeerPresenceRow H) {announced announced' : Bool}
    {A A' : Prop} (hA : announced = true ↔ A) (hA' : announced' = true ↔ A') (hmono : A' → A) (now : ℤ) :
    |scoreAt row announced' cfg (now + 1) - scoreAt row announced cfg now|
        ≤ 1 / cfg.trustRebuildSeconds.toInt ↔ SmallSeams row cfg A A' now := by
  have hcases : SameOrExpires announced announced' A A' := by
    unfold SameOrExpires
    rw [← hA, ← hA'] at hmono ⊢
    cases announced <;> cases announced' <;> simp_all
  rcases lt_trichotomy (now - row.lastHeartbeatAt.toInt) (staleSeconds cfg) with hfresh | hseam | hstale
  · exact scoreAt_fresh_iff hcfg row hcases hfresh
  · exact scoreAt_silence_iff hbeat hcfg row hcases hseam
  · exact scoreAt_stale_iff hcfg row hcases hstale

/-! ## The code where nothing overflows -/

/-- The differences and the product that the score takes. -/
structure InRange (row : PeerPresenceRow H) (cfg : TrustConfig) (now : ℤ) : Prop where
  stale : InI64 (staleSeconds cfg)
  silence : InI64 (now - row.lastHeartbeatAt.toInt)
  session : InI64 (if now - row.lastHeartbeatAt.toInt ≤ staleSeconds cfg then
    now - row.sessionStartedAt.toInt else row.lastHeartbeatAt.toInt - row.sessionStartedAt.toInt)

theorem rebuildFractionIn_of_inI64 (checks : OverflowChecks) {F : Type} (f : F32Ops F)
    {sessionStartedAt asOf : Int64} (h : InI64 (asOf.toInt - sessionStartedAt.toInt)) (cfg : TrustConfig)
    (announced : Bool) : rebuildFractionIn checks f sessionStartedAt asOf cfg announced
      = some (rebuildFraction f sessionStartedAt asOf cfg announced) := by
  rw [rebuildFractionIn, checks.sub_of_inI64 h]
  rfl

theorem fresh_iff {cfg : TrustConfig} (hbeat : 0 < cfg.heartbeatIntervalSeconds)
    {row : PeerPresenceRow H} {now : Int64} (hstale : InI64 (staleSeconds cfg))
    (hsilence : InI64 (now.toInt - row.lastHeartbeatAt.toInt)) :
    now - row.lastHeartbeatAt ≤ staleAfter cfg ↔
      now.toInt - row.lastHeartbeatAt.toInt ≤ staleSeconds cfg := by
  rw [Int64.le_iff_toInt_le, toInt_sub_exact hsilence, staleAfter_toInt hbeat hstale.2, staleSeconds]

/-- Every build computes the score of the exact integers. -/
theorem trustScoreIn_of_inRange (checks : OverflowChecks) {cfg : TrustConfig}
    (hbeat : 0 < cfg.heartbeatIntervalSeconds) (hcfg : 0 < cfg.trustRebuildSeconds)
    {row : PeerPresenceRow H} {now : Int64} (h : InRange row cfg now.toInt) (announced : Bool) :
    trustScoreIn checks exactOps (some row) false announced now cfg
      = some (scoreAt row announced cfg now.toInt) := by
  have hmul : InI64 (cfg.heartbeatIntervalSeconds.toInt * staleMultiplier.toInt) := by
    rw [staleMultiplier_toInt]
    exact h.stale
  have hfresh := fresh_iff hbeat h.stale h.silence
  have hafter : (staleAfter cfg).toInt = staleSeconds cfg := staleAfter_toInt hbeat h.stale.2
  have hsilence := toInt_sub_exact h.silence
  have hsession := h.session
  have hproduct : cfg.heartbeatIntervalSeconds * staleMultiplier = staleAfter cfg := rfl
  unfold scoreAt
  simp only [trustScoreIn, checks.sub_of_inI64 h.silence, checks.mul_of_inI64 hmul, hproduct,
    Bool.false_eq_true, if_false, Option.bind_eq_bind, Option.bind_some]
  by_cases hle : now.toInt - row.lastHeartbeatAt.toInt ≤ staleSeconds cfg
  · rw [if_pos hle] at hsession ⊢
    rw [if_pos (hfresh.2 hle), rebuildFractionIn_of_inI64 checks _ hsession, rebuildFraction_exact hcfg,
      toInt_sub_exact hsession]
    exact congrArg some (exactOps_clamp (risen_nonneg ..) (risen_le_one ..))
  · rw [if_neg hle] at hsession ⊢
    have hdecay : InI64 ((now - row.lastHeartbeatAt).toInt - (staleAfter cfg).toInt) := by
      have hsilence' := h.silence
      have hstale := h.stale
      have hpos : 0 < cfg.heartbeatIntervalSeconds.toInt := Int64.lt_iff_toInt_lt.1 hbeat
      rw [hsilence, hafter]
      unfold InI64 staleSeconds at *
      omega
    rw [if_neg (mt hfresh.1 hle), rebuildFractionIn_of_inI64 checks _ hsession,
      rebuildFraction_exact hcfg, checks.sub_of_inI64 hdecay, toInt_sub_exact hsession, ← hafter,
      ← hsilence, ← toInt_sub_exact hdecay]
    exact congrArg some (exactOps_clamp (mul_nonneg (risen_nonneg ..) (kept_nonneg ..))
      (mul_le_one₀ (risen_le_one ..) (kept_nonneg ..) (kept_le_one ..)))

/-- A build with overflow checks computes it nowhere else. -/
theorem inRange_of_trustScoreIn {F : Type} {f : F32Ops F} {cfg : TrustConfig}
    (hbeat : 0 < cfg.heartbeatIntervalSeconds) {row : PeerPresenceRow H} {now : Int64} {announced : Bool}
    {score : F} (h : trustScoreIn .on f (some row) false announced now cfg = some score) :
    InRange row cfg now.toInt := by
  simp only [trustScoreIn, Bool.false_eq_true, if_false, Option.bind_eq_bind,
    Option.bind_eq_some_iff] at h
  obtain ⟨silence, hsub, after, hmul, h⟩ := h
  obtain ⟨hsilence, rfl⟩ := checkedSub_eq_some.1 hsub
  obtain ⟨hstale, rfl⟩ := checkedMul_eq_some.1 hmul
  rw [staleMultiplier_toInt] at hstale
  refine ⟨hstale, hsilence, ?_⟩
  have hfresh := fresh_iff hbeat hstale hsilence
  by_cases hle : now.toInt - row.lastHeartbeatAt.toInt ≤ staleSeconds cfg
  · have hle' := hfresh.2 hle
    unfold staleAfter at hle'
    rw [if_pos hle', Option.bind_eq_some_iff] at h
    obtain ⟨fraction, hfraction, -⟩ := h
    obtain ⟨elapsed, helapsed, -⟩ := Option.bind_eq_some_iff.1 hfraction
    rw [if_pos hle]
    exact (checkedSub_eq_some.1 helapsed).1
  · have hle' := mt hfresh.1 hle
    unfold staleAfter at hle'
    rw [if_neg hle', Option.bind_eq_some_iff] at h
    obtain ⟨fraction, hfraction, -⟩ := h
    obtain ⟨elapsed, helapsed, -⟩ := Option.bind_eq_some_iff.1 hfraction
    rw [if_neg hle]
    exact (checkedSub_eq_some.1 helapsed).1

/-- The announcement is recent, and not later than the session. -/
def Explains (offline : AddressGoingOfflineRow H) (row : PeerPresenceRow H) (cfg : TrustConfig)
    (now : ℤ) : Prop :=
  now - offline.announcedAt.toInt ≤ cfg.announcedRestartGraceSeconds.toInt ∧
    offline.announcedAt.toInt ≤ row.sessionStartedAt.toInt

/-- One of the addresses has an announcement that explains the session. -/
def RestartAnnounced (presence : Presence H) (row : PeerPresenceRow H) (cfg : TrustConfig)
    (addresses : List String) (now : ℤ) : Prop :=
  ∃ address ∈ addresses, ∃ offline,
    Table.find AddressGoingOfflineRow.address address presence.addressGoingOffline = some offline ∧
      Explains offline row cfg now

/-- The ages of the announcements, up to the first one that explains the session. -/
def AgesInRange (presence : Presence H) (row : PeerPresenceRow H) (cfg : TrustConfig) (now : ℤ) :
    List String → Prop
  | [] => True
  | address :: rest =>
    match Table.find AddressGoingOfflineRow.address address presence.addressGoingOffline with
    | none => AgesInRange presence row cfg now rest
    | some offline => InI64 (now - offline.announcedAt.toInt) ∧
        (Explains offline row cfg now ∨ AgesInRange presence row cfg now rest)

theorem explains_iff {offline : AddressGoingOfflineRow H} {row : PeerPresenceRow H} {cfg : TrustConfig}
    {now : Int64} (h : InI64 (now.toInt - offline.announcedAt.toInt)) :
    (decide (now - offline.announcedAt ≤ cfg.announcedRestartGraceSeconds) &&
      decide (offline.announcedAt ≤ row.sessionStartedAt)) = true ↔ Explains offline row cfg now.toInt := by
  rw [Bool.and_eq_true, decide_eq_true_eq, decide_eq_true_eq, Int64.le_iff_toInt_le,
    Int64.le_iff_toInt_le, toInt_sub_exact h, Explains]

/-- An announcement that explains the session now did so before. -/
theorem RestartAnnounced.earlier {presence : Presence H} {row : PeerPresenceRow H} {cfg : TrustConfig}
    {addresses : List String} {now : ℤ} (h : RestartAnnounced presence row cfg addresses (now + 1)) :
    RestartAnnounced presence row cfg addresses now := by
  obtain ⟨address, hmem, offline, hfind, hgrace, hbefore⟩ := h
  refine ⟨address, hmem, offline, hfind, ?_, hbefore⟩
  omega

/-- Every build finds the announcement. -/
theorem announcedRestartIn_of_agesInRange (checks : OverflowChecks) {presence : Presence H}
    {row : PeerPresenceRow H} {cfg : TrustConfig} {now : Int64} {addresses : List String}
    (h : AgesInRange presence row cfg now.toInt addresses) :
    ∃ announced, announcedRestartIn checks presence row now cfg addresses = some announced ∧
      (announced = true ↔ RestartAnnounced presence row cfg addresses now.toInt) := by
  induction addresses with
  | nil => exact ⟨false, rfl, by simp [RestartAnnounced]⟩
  | cons address rest ih =>
    unfold AgesInRange at h
    cases hfind : Table.find AddressGoingOfflineRow.address address presence.addressGoingOffline with
    | none =>
      simp only [hfind] at h
      obtain ⟨announced, hrest, hiff⟩ := ih h
      refine ⟨announced, by simp only [announcedRestartIn, hfind, hrest], ?_⟩
      rw [hiff]
      simp [RestartAnnounced, hfind]
    | some offline =>
      simp only [hfind] at h
      obtain ⟨hage, hexplains⟩ := h
      have hiff : _ ↔ Explains offline row cfg now.toInt := explains_iff hage
      by_cases hex : Explains offline row cfg now.toInt
      · refine ⟨true, ?_, iff_of_true rfl ⟨address, List.mem_cons_self .., offline, hfind, hex⟩⟩
        simp only [announcedRestartIn, hfind, checks.sub_of_inI64 hage, Option.bind_eq_bind,
          Option.bind_some, if_pos (hiff.2 hex)]
        rfl
      · obtain ⟨announced, hrest, hrestiff⟩ := ih (hexplains.resolve_left hex)
        refine ⟨announced, ?_, ?_⟩
        · simp only [announcedRestartIn, hfind, checks.sub_of_inI64 hage, Option.bind_eq_bind,
            Option.bind_some, if_neg (mt hiff.1 hex), hrest]
        · rw [hrestiff]
          simp [RestartAnnounced, hfind, hex]

theorem agesInRange_of_announcedRestartIn {presence : Presence H} {row : PeerPresenceRow H}
    {cfg : TrustConfig} {now : Int64} {addresses : List String} {announced : Bool}
    (h : announcedRestartIn .on presence row now cfg addresses = some announced) :
    AgesInRange presence row cfg now.toInt addresses := by
  induction addresses with
  | nil => trivial
  | cons address rest ih =>
    unfold AgesInRange
    cases hfind : Table.find AddressGoingOfflineRow.address address presence.addressGoingOffline with
    | none =>
      simp only [announcedRestartIn, hfind] at h
      exact ih h
    | some offline =>
      simp only [announcedRestartIn, hfind, Option.bind_eq_bind, Option.bind_eq_some_iff] at h
      obtain ⟨elapsed, hsub, h⟩ := h
      obtain ⟨hage, rfl⟩ := checkedSub_eq_some.1 hsub
      refine ⟨hage, ?_⟩
      by_cases hex : Explains offline row cfg now.toInt
      · exact Or.inl hex
      · rw [if_neg (mt (explains_iff hage).1 hex)] at h
        exact Or.inr (ih h)

/-! ## The code -/

theorem announcedRestartIn_off (presence : Presence H) (row : PeerPresenceRow H) (now : Int64)
    (cfg : TrustConfig) (addresses : List String) :
    announcedRestartIn .off presence row now cfg addresses = some (addresses.any fun address =>
      match Table.find AddressGoingOfflineRow.address address presence.addressGoingOffline with
      | none => false
      | some offline => decide (now - offline.announcedAt ≤ cfg.announcedRestartGraceSeconds) &&
          decide (offline.announcedAt ≤ row.sessionStartedAt)) := by
  induction addresses with
  | nil => rfl
  | cons address rest ih =>
    rw [List.any_cons, announcedRestartIn, ih]
    cases Table.find AddressGoingOfflineRow.address address presence.addressGoingOffline with
    | none => rfl
    | some offline =>
      simp only [OverflowChecks.sub, Option.bind_eq_bind, Option.bind_some]
      split <;> simp_all

theorem trustScoreIn_off {F : Type} (f : F32Ops F) (presence : Option (PeerPresenceRow H))
    (forked announced : Bool) (now : Int64) (cfg : TrustConfig) :
    trustScoreIn .off f presence forked announced now cfg
      = some (trustScore f presence forked announced now cfg) := by
  unfold trustScoreIn trustScore
  cases forked with
  | true => rfl
  | false =>
    cases presence with
    | none => rfl
    | some row =>
      simp only [OverflowChecks.sub, OverflowChecks.mul, Bool.false_eq_true, if_false,
        Option.bind_eq_bind, Option.bind_some]
      split <;> rfl

variable [DecidableEq H]

/-- A build without overflow checks computes the score of the model. -/
theorem computeTrustIn_off {F : Type} (f : F32Ops F) (s : Store H) (presence : Presence H) (p : H)
    (now : Int64) (cfg : TrustConfig) :
    computeTrustIn .off f s presence p now cfg = some <$> computeTrust f s presence p now cfg := by
  unfold computeTrustIn computeTrust
  cases getPeer s.peers p with
  | error e => rfl
  | ok info =>
    simp only [ok_bind]
    cases Table.find PeerPresenceRow.peerId p presence.peerPresence with
    | none =>
      simp only [Option.bind_eq_bind, Option.bind_some, trustScoreIn_off]
      rfl
    | some row =>
      simp only [announcedRestartIn_off, Option.bind_eq_bind, Option.bind_some, trustScoreIn_off]
      rfl

/-- Every build gives a score between 0 and 1, now and in a second, and the
    two differ by at most one step of the ramp. -/
def NoCliff (s : Store H) (presence : Presence H) (p : H) (cfg : TrustConfig) (now : Int64) : Prop :=
  ∀ checks, ∃ score score', computeTrustIn checks exactOps s presence p now cfg = .ok (some score) ∧
    computeTrustIn checks exactOps s presence p (now + 1) cfg = .ok (some score') ∧
    (0 ≤ score ∧ score ≤ 1) ∧ (0 ≤ score' ∧ score' ≤ 1) ∧
    |score' - score| ≤ 1 / cfg.trustRebuildSeconds.toInt

/-- Nothing overflows at a time. -/
structure NothingOverflows (s : Store H) (presence : Presence H) (p : H) (row : PeerPresenceRow H)
    (cfg : TrustConfig) (now : ℤ) : Prop where
  score : InRange row cfg now
  ages : AgesInRange presence row cfg now (listAddresses s.peerAddresses p)

/-- Nothing overflows now or in a second, and no seam between the two is a cliff. -/
structure Smooth (s : Store H) (presence : Presence H) (p : H) (row : PeerPresenceRow H)
    (cfg : TrustConfig) (now : ℤ) : Prop where
  computes : NothingOverflows s presence p row cfg now
  computesNext : NothingOverflows s presence p row cfg (now + 1)
  seams : SmallSeams row cfg
    (RestartAnnounced presence row cfg (listAddresses s.peerAddresses p) now)
    (RestartAnnounced presence row cfg (listAddresses s.peerAddresses p) (now + 1)) now

section peer

variable {s : Store H} {presence : Presence H} {p : H} {info : Option (PeerInfo H)}
  {row : PeerPresenceRow H} {cfg : TrustConfig}

theorem computeTrustIn_eq (checks : OverflowChecks) {F : Type} (f : F32Ops F)
    (hpeer : getPeer s.peers p = .ok info) (hforked : (info.map PeerInfo.forked).getD false = false)
    (hrow : presenceOf presence p = some row) (now : Int64) :
    computeTrustIn checks f s presence p now cfg
      = .ok ((announcedRestartIn checks presence row now cfg (listAddresses s.peerAddresses p)).bind
          fun announced => trustScoreIn checks f (some row) false announced now cfg) := by
  rw [presenceOf] at hrow
  rw [computeTrustIn, hpeer, ok_bind, hforked, hrow]
  rfl

theorem NothingOverflows.computeTrustIn {now : Int64}
    (h : NothingOverflows s presence p row cfg now.toInt)
    (hpeer : getPeer s.peers p = .ok info) (hforked : (info.map PeerInfo.forked).getD false = false)
    (hrow : presenceOf presence p = some row) (hbeat : 0 < cfg.heartbeatIntervalSeconds)
    (hcfg : 0 < cfg.trustRebuildSeconds) (checks : OverflowChecks) :
    ∃ announced : Bool,
      computeTrustIn checks exactOps s presence p now cfg
        = .ok (some (scoreAt row announced cfg now.toInt)) ∧
      (announced = true ↔
        RestartAnnounced presence row cfg (listAddresses s.peerAddresses p) now.toInt) := by
  obtain ⟨announced, hannounced, hiff⟩ := announcedRestartIn_of_agesInRange checks h.ages
  refine ⟨announced, ?_, hiff⟩
  rw [computeTrustIn_eq checks exactOps hpeer hforked hrow, hannounced, Option.bind_some,
    trustScoreIn_of_inRange checks hbeat hcfg h.score]

theorem nothingOverflows_of_computeTrustIn {F : Type} {f : F32Ops F} {now : Int64} {score : F}
    (h : computeTrustIn .on f s presence p now cfg = .ok (some score))
    (hpeer : getPeer s.peers p = .ok info) (hforked : (info.map PeerInfo.forked).getD false = false)
    (hrow : presenceOf presence p = some row) (hbeat : 0 < cfg.heartbeatIntervalSeconds) :
    NothingOverflows s presence p row cfg now.toInt := by
  rw [computeTrustIn_eq .on f hpeer hforked hrow, Except.ok.injEq, Option.bind_eq_some_iff] at h
  obtain ⟨announced, hannounced, hscore⟩ := h
  exact ⟨inRange_of_trustScoreIn hbeat hscore, agesInRange_of_announcedRestartIn hannounced⟩

theorem toInt_succ {now : Int64} (h : now < Int64.maxValue) : (now + 1).toInt = now.toInt + 1 := by
  have hmax : Int64.maxValue.toInt = 2 ^ 63 - 1 := by decide
  have hone : (1 : Int64).toInt = 1 := by decide
  have hlt := Int64.lt_iff_toInt_lt.1 h
  have hlow := now.le_toInt
  rw [toInt_add_exact, hone]
  rw [hone]
  constructor <;> omega

theorem NoCliff.smooth {now : Int64} (h : NoCliff s presence p cfg now)
    (hpeer : getPeer s.peers p = .ok info) (hforked : (info.map PeerInfo.forked).getD false = false)
    (hrow : presenceOf presence p = some row) (hbeat : 0 < cfg.heartbeatIntervalSeconds)
    (hcfg : 0 < cfg.trustRebuildSeconds) (hmax : now < Int64.maxValue) :
    Smooth s presence p row cfg now.toInt := by
  obtain ⟨score, score', hscore, hscore', -, -, hstep⟩ := h .on
  have hcomputes := nothingOverflows_of_computeTrustIn hscore hpeer hforked hrow hbeat
  have hnext := nothingOverflows_of_computeTrustIn hscore' hpeer hforked hrow hbeat
  obtain ⟨announced, hat, hA⟩ := hcomputes.computeTrustIn hpeer hforked hrow hbeat hcfg .on
  obtain ⟨announced', hat', hA'⟩ := hnext.computeTrustIn hpeer hforked hrow hbeat hcfg .on
  obtain rfl : score = _ := Option.some.inj (Except.ok.inj (hscore.symm.trans hat))
  obtain rfl : score' = _ := Option.some.inj (Except.ok.inj (hscore'.symm.trans hat'))
  rw [toInt_succ hmax] at hnext hA' hstep
  exact ⟨hcomputes, hnext, (scoreAt_step_iff hbeat hcfg row hA hA' RestartAnnounced.earlier _).1 hstep⟩

/-- **Trust has no cliff if and only if** nothing overflows and the seams are small. -/
theorem no_cliff_iff (hpeer : getPeer s.peers p = .ok info)
    (hforked : (info.map PeerInfo.forked).getD false = false) (hrow : presenceOf presence p = some row)
    (hbeat : 0 < cfg.heartbeatIntervalSeconds) (hcfg : 0 < cfg.trustRebuildSeconds) {now : Int64}
    (hmax : now < Int64.maxValue) :
    NoCliff s presence p cfg now ↔ Smooth s presence p row cfg now.toInt := by
  refine ⟨fun h => h.smooth hpeer hforked hrow hbeat hcfg hmax, fun h checks => ?_⟩
  have hnext : NothingOverflows s presence p row cfg (now + 1).toInt := by
    rw [toInt_succ hmax]
    exact h.computesNext
  obtain ⟨announced, hat, hA⟩ := h.computes.computeTrustIn hpeer hforked hrow hbeat hcfg checks
  obtain ⟨announced', hat', hA'⟩ := hnext.computeTrustIn hpeer hforked hrow hbeat hcfg checks
  refine ⟨_, _, hat, hat', ⟨scoreAt_nonneg .., scoreAt_le_one ..⟩,
    ⟨scoreAt_nonneg .., scoreAt_le_one ..⟩, ?_⟩
  rw [toInt_succ hmax] at hA' ⊢
  exact (scoreAt_step_iff hbeat hcfg row hA hA' RestartAnnounced.earlier _).2 h.seams

end peer

end clock

/-! ## One heartbeat -/

theorem beatRow_times :
    (beatRow 1000).sessionStartedAt.toInt = 1000 ∧ (beatRow 1000).lastHeartbeatAt.toInt = 1000 :=
  ⟨(by decide : (1000 : Int64).toInt = 1000), (by decide : (1000 : Int64).toInt = 1000)⟩

theorem staleSeconds_default : staleSeconds {} = 90 := by decide

/-- No address of peer A is known, so that no announcement applies. -/
theorem nothingOverflows_beatRow {now : ℤ} (h0 : 0 ≤ now) (hmax : now < 2 ^ 63) :
    NothingOverflows (Database.empty : Database Bytes).store
      (idealOpen.observerRun (beatRun 1000)).presence (peerA.peerId idealOpen) (beatRow 1000) {} now := by
  obtain ⟨hstarted, hlast⟩ := beatRow_times
  refine ⟨⟨?_, ?_, ?_⟩, trivial⟩
  · rw [staleSeconds_default]
    exact ⟨by norm_num, by norm_num⟩
  · rw [hlast]
    exact ⟨by omega, by omega⟩
  · rw [hstarted, hlast]
    split
    · exact ⟨by omega, by omega⟩
    · exact ⟨by norm_num, by norm_num⟩

/-- Fifty seconds after the heartbeat, peer A's trust rises as before. -/
theorem no_cliff_start :
    NoCliff (idealOpen.observerRun (beatRun 1000)).db.store
      (idealOpen.observerRun (beatRun 1000)).presence (peerA.peerId idealOpen) {} 1050 := by
  have hpeer : getPeer (idealOpen.observerRun (beatRun 1000)).db.store.peers (peerA.peerId idealOpen)
      = .ok none := by
    rw [beatRun_db]
    rfl
  have hbeat : 0 < ({} : TrustConfig).heartbeatIntervalSeconds := by decide
  have hcfg : 0 < ({} : TrustConfig).trustRebuildSeconds := by decide
  have hmax : (1050 : Int64) < Int64.maxValue := by decide
  have hnow : (1050 : Int64).toInt = 1050 := by decide
  obtain ⟨hstarted, hlast⟩ := beatRow_times
  refine (no_cliff_iff hpeer rfl (presenceOf_beatRun 1000) hbeat hcfg hmax).2 ?_
  rw [beatRun_db, hnow]
  refine ⟨nothingOverflows_beatRow (by norm_num) (by norm_num),
    nothingOverflows_beatRow (by norm_num) (by norm_num), ⟨?_, ?_, ?_, ?_⟩⟩
  · intro hseam
    rw [hlast, staleSeconds_default] at hseam
    omega
  · rintro - ⟨address, hmem, -⟩
    exact absurd hmem List.not_mem_nil
  · rintro - ⟨address, hmem, -⟩
    exact absurd hmem List.not_mem_nil
  · rintro - ⟨address, hmem, -⟩
    exact absurd hmem List.not_mem_nil

/-- In the second in which peer A becomes silent, it loses the trust of ninety seconds. -/
theorem trust_cliff :
    heartbeatsFrom idealOpen (peerA.peerId idealOpen) (beatRun 1000) = [((beat 1000).unsigned, 1000)] ∧
    computeTrust exactOps (idealOpen.observerRun (beatRun 1000)).db.store
      (idealOpen.observerRun (beatRun 1000)).presence (peerA.peerId idealOpen) 1090 {} = .ok (1 / 40) ∧
    computeTrust exactOps (idealOpen.observerRun (beatRun 1000)).db.store
      (idealOpen.observerRun (beatRun 1000)).presence (peerA.peerId idealOpen) 1091 {} = .ok 0 ∧
    ¬ NoCliff (idealOpen.observerRun (beatRun 1000)).db.store
      (idealOpen.observerRun (beatRun 1000)).presence (peerA.peerId idealOpen) {} 1090 := by
  have hcfg : 0 < ({} : TrustConfig).trustRebuildSeconds := by decide
  have hr : ({} : TrustConfig).trustRebuildSeconds.toInt = 3600 := by decide
  have hnow : trustScore exactOps (some (beatRow 1000)) false false 1090 {} = 1 / 40 := by
    have hfresh : 1090 - (beatRow 1000).lastHeartbeatAt ≤ staleAfter {} :=
      (by decide : (1090 - 1000 : Int64) ≤ staleAfter {})
    have helapsed : (1090 - (beatRow 1000).sessionStartedAt).toInt = 90 :=
      (by decide : (1090 - 1000 : Int64).toInt = 90)
    rw [trustScore_exact hcfg, if_pos hfresh, helapsed, risen, hr,
      ramp_of_mem (by norm_num) (by norm_num) (by norm_num)]
    norm_num [startingTrust, blend]
  have hnext : trustScore exactOps (some (beatRow 1000)) false false 1091 {} = 0 := by
    have hstale : ¬ 1091 - (beatRow 1000).lastHeartbeatAt ≤ staleAfter {} :=
      (by decide : ¬ (1091 - 1000 : Int64) ≤ staleAfter {})
    have helapsed : ((beatRow 1000).lastHeartbeatAt - (beatRow 1000).sessionStartedAt).toInt = 0 :=
      (by decide : (1000 - 1000 : Int64).toInt = 0)
    rw [trustScore_exact hcfg, if_neg hstale, helapsed, risen, hr,
      ramp_of_nonpos (by norm_num) (by norm_num)]
    norm_num [startingTrust, blend]
  refine ⟨heartbeatsFrom_beatRun 1000, ?_, ?_, fun hsmall => ?_⟩
  · rw [computeTrust_beatRun, hnow]
  · rw [computeTrust_beatRun, hnext]
  · obtain ⟨score, score', hscore, hscore', -, -, hstep⟩ := hsmall .off
    have hlater : (1090 + 1 : Int64) = 1091 := by decide
    rw [computeTrustIn_off, computeTrust_beatRun, hnow] at hscore
    rw [computeTrustIn_off, computeTrust_beatRun, hlater, hnext] at hscore'
    obtain rfl := Option.some.inj (Except.ok.inj hscore)
    obtain rfl := Option.some.inj (Except.ok.inj hscore')
    rw [hr] at hstep
    norm_num at hstep

end OpenAgentGraph
