/-
  The rate limiter against exact fixed windows, one for each key.
-/
import OpenAgentGraph.Api.RateLimit
import OpenAgentGraph.Lib.FixedWindow

namespace OpenAgentGraph

open Lib Lib.FixedWindow
open scoped List

/-! ## The calls of one key -/

/-- The times at which a key was checked. -/
def timesOf (key : String) (calls : List (String × Nat)) : List Nat :=
  (calls.filter fun c => c.1 = key).map Prod.snd

/-- The keys checked no longer than `W` before `now`. -/
def recentKeys (W now : Nat) (calls : List (String × Nat)) : Finset String :=
  ((calls.filter fun c => now - c.2 ≤ W).map Prod.fst).toFinset

/-- No key is checked `2 ^ 32` times within one of its windows. -/
def FewPerWindow (W : Nat) (calls : List (String × Nat)) : Prop :=
  ∀ earlier, earlier <+: calls → ∀ key w, windowAfter W none (timesOf key earlier) = some w →
    w.seen < 2 ^ 32

/-- What a limiter with exact windows answers, after the calls `history`. -/
def decisions (W m : Nat) : List (String × Nat) → List (String × Nat) → List Bool
  | _, [] => []
  | history, c :: calls =>
    decide ((tick W c.2 (windowAfter W none (timesOf c.1 history))).seen ≤ m)
      :: decisions W m (history ++ [c]) calls

variable {W m : Nat} {key : String} {history calls : List (String × Nat)} {c : String × Nat}

@[simp] theorem timesOf_append_self (now : Nat) :
    timesOf key (history ++ [(key, now)]) = timesOf key history ++ [now] := by
  simp [timesOf]

theorem timesOf_append_ne (h : c.1 ≠ key) : timesOf key (history ++ [c]) = timesOf key history := by
  simp [timesOf, h]

theorem timesOf_cons : timesOf key (c :: calls)
    = if c.1 = key then c.2 :: timesOf key calls else timesOf key calls := by
  unfold timesOf
  rw [List.filter_cons]
  split <;> simp_all

theorem pairwise_timesOf (hord : calls.Pairwise fun a b => a.2 ≤ b.2) :
    (timesOf key calls).Pairwise (· ≤ ·) :=
  List.pairwise_map.2 (hord.filter _)

theorem fewPerWindow_of_length (h : calls.length < 2 ^ 32) : FewPerWindow W calls := by
  intro earlier hpre key w hw
  have hseen := seen_le_length hw
  have htimes : (timesOf key earlier).length ≤ earlier.length := by
    rw [timesOf, List.length_map]
    exact List.length_filter_le _ _
  have hlen := hpre.length_le
  omega

/-- The checks of a key that pass, by its own calls. -/
theorem count_decisions (a : Nat) (history : List (String × Nat)) :
    (calls.zip (decisions W m history calls)).countP
        (fun d => d.1.1 = key ∧ a ≤ d.1.2 ∧ d.1.2 ≤ a + W ∧ d.2)
      = burst W m a (windowAfter W none (timesOf key history)) (timesOf key calls) := by
  induction calls generalizing history with
  | nil => rfl
  | cons c calls ih =>
    obtain ⟨k, t⟩ := c
    rw [decisions, List.zip_cons_cons, List.countP_cons, ih, timesOf_cons]
    by_cases hk : k = key
    · subst hk
      rw [timesOf_append_self, windowAfter_append, if_pos rfl, burst_cons]
      congr 1
      simp only [decide_eq_true_eq, true_and]
      refine if_congr ?_ rfl rfl
      tauto
    · rw [timesOf_append_ne hk, if_neg hk]
      simp [hk]

/-! ## The map -/

/-- The map holds the window of every key that still counts, as its calls made
    it. -/
structure Tracks (l : RateLimiter) (history : List (String × Nat)) (last : Nat) : Prop where
  nodup : (l.windows.map RateEntry.key).Nodup
  same : ∀ e ∈ l.windows,
    windowAfter l.window none (timesOf e.key history) = some ⟨e.started, e.count.toNat⟩
  gone : ∀ key w, windowAfter l.window none (timesOf key history) = some w →
    (∀ e ∈ l.windows, e.key ≠ key) → l.window < last - w.opened
  called : ∀ e ∈ l.windows, (e.key, e.started) ∈ history

variable {l : RateLimiter} {last now : Nat}

theorem tracks_new (window : Nat) (max : UInt32) (threshold : Nat) :
    Tracks (.new window max threshold) [] 0 := by
  refine ⟨List.nodup_nil, ?_, ?_, ?_⟩
  · intro e he; cases he
  · intro key w hw; cases hw
  · intro e he; cases he

theorem sweep_fields (l : RateLimiter) (now : Nat) : (l.sweep now).window = l.window ∧
    (l.sweep now).maxRequestsPerWindow = l.maxRequestsPerWindow ∧
    (l.sweep now).sweepThreshold = l.sweepThreshold := by
  unfold RateLimiter.sweep
  split <;> exact ⟨rfl, rfl, rfl⟩

/-- A window that the sweep removes would be replaced at the next check. -/
theorem Tracks.sweep (h : Tracks l history last) (hnow : last ≤ now) :
    Tracks (l.sweep now) history now := by
  have hgone : ∀ key w, windowAfter l.window none (timesOf key history) = some w →
      (∀ e ∈ l.windows, e.key ≠ key) → l.window < now - w.opened := by
    intro key w hw hno
    have := h.gone key w hw hno
    omega
  unfold RateLimiter.sweep
  split
  · refine ⟨?_, ?_, ?_, ?_⟩
    · exact h.nodup.sublist (List.filter_sublist.map _)
    · intro e he
      exact h.same e (List.mem_of_mem_filter he)
    · intro key w hw hno
      simp only at hw hno ⊢
      by_cases hheld : ∃ e ∈ l.windows, e.key = key
      · obtain ⟨e, he, rfl⟩ := hheld
        rw [h.same e he, Option.some.injEq] at hw
        subst hw
        by_contra hopen
        exact hno e (List.mem_filter.2 ⟨he, decide_eq_true (by simp only at hopen; omega)⟩) rfl
      · push Not at hheld
        exact hgone key w hw hheld
    · intro e he
      exact h.called e (List.mem_of_mem_filter he)
  · exact ⟨h.nodup, h.same, hgone, h.called⟩

/-- The entry that a check counts in is the window before it, if that is still
    open. -/
theorem Tracks.entry (h : Tracks l history now) (key : String) :
    let e := if l.window < now - (l.entryOrInsert key now).started then ⟨key, now, 0⟩
      else l.entryOrInsert key now
    e.key = key ∧
    tick l.window now (windowAfter l.window none (timesOf key history))
      = ⟨e.started, e.count.toNat + 1⟩ ∧
    (e.started = now ∨ (key, e.started) ∈ history) := by
  unfold RateLimiter.entryOrInsert
  cases hfind : Table.find RateEntry.key key l.windows with
  | none =>
    have hno := Table.find_eq_none.1 hfind
    simp only [Option.getD_none, Nat.sub_self, Nat.not_lt_zero, if_false]
    refine ⟨trivial, ?_, Or.inl trivial⟩
    cases hw : windowAfter l.window none (timesOf key history) with
    | none => rfl
    | some w => exact tick_new (h.gone key w hw hno)
  | some e =>
    obtain ⟨he, rfl⟩ := Table.find_eq_some hfind
    rw [Option.getD_some, h.same e he]
    dsimp only
    split
    · rename_i hold
      exact ⟨rfl, tick_new hold, Or.inl rfl⟩
    · rename_i hopen
      exact ⟨rfl, tick_same (Nat.not_lt.1 hopen), Or.inr (h.called e he)⟩

theorem mem_put {e e' : RateEntry} :
    e' ∈ (l.put e).windows ↔ e' = e ∨ e' ∈ l.windows ∧ e'.key ≠ e.key := by
  have hupdate : ∀ z : RateEntry, z.key = e.key →
      { z with started := e.started, count := e.count } = e := by
    rintro ⟨_, _, _⟩ rfl
    rfl
  unfold RateLimiter.put
  rw [Table.mem_upsert]
  constructor
  · rintro (⟨z, hz, rfl⟩ | ⟨rfl, -⟩)
    · split
      · rename_i hk
        exact Or.inl (hupdate z hk)
      · rename_i hk
        exact Or.inr ⟨hz, hk⟩
    · exact Or.inl rfl
  · rintro (rfl | ⟨he, hk⟩)
    · by_cases hheld : ∃ z ∈ l.windows, z.key = e'.key
      · obtain ⟨z, hz, hk⟩ := hheld
        exact Or.inl ⟨z, hz, by rw [if_pos hk, hupdate z hk]⟩
      · push Not at hheld
        exact Or.inr ⟨rfl, hheld⟩
    · exact Or.inl ⟨e', he, by rw [if_neg hk]⟩

theorem length_put_le (e : RateEntry) : (l.put e).windows.length ≤ l.windows.length + 1 := by
  simp only [RateLimiter.put, Table.upsert, Table.updateWhere]
  split <;> simp

/-- The check writes the window of its key and leaves the others. -/
theorem Tracks.put {e : RateEntry} (h : Tracks l history now)
    (htick : tick l.window now (windowAfter l.window none (timesOf e.key history))
      = ⟨e.started, e.count.toNat⟩)
    (hcalled : e.started = now ∨ (e.key, e.started) ∈ history) :
    Tracks (l.put e) (history ++ [(e.key, now)]) now := by
  refine ⟨Table.nodup_upsert (fun _ => rfl) h.nodup, ?_, ?_, ?_⟩
  · intro e' he'
    rcases mem_put.1 he' with rfl | ⟨he', hk⟩
    · rw [timesOf_append_self, windowAfter_append]
      exact congrArg some htick
    · rw [timesOf_append_ne (Ne.symm hk)]
      exact h.same e' he'
  · intro key w hw hno
    by_cases hk : e.key = key
    · exact absurd hk (hno e (mem_put.2 (Or.inl rfl)))
    · rw [timesOf_append_ne hk] at hw
      refine h.gone key w hw fun e' he' hk' => ?_
      exact hno e' (mem_put.2 (Or.inr ⟨he', by rw [hk']; exact Ne.symm hk⟩)) hk'
  · intro e' he'
    rw [List.mem_append, List.mem_singleton]
    rcases mem_put.1 he' with rfl | ⟨he', -⟩
    · rcases hcalled with hnow | hmem
      · exact Or.inr (by rw [hnow])
      · exact Or.inl hmem
    · exact Or.inl (h.called e' he')

/-- The limiters that differ in their map alone. -/
def SameSettings (l l' : RateLimiter) : Prop :=
  l'.window = l.window ∧ l'.maxRequestsPerWindow = l.maxRequestsPerWindow ∧
    l'.sweepThreshold = l.sweepThreshold

theorem count_spec (checks : OverflowChecks) (h : Tracks l history now)
    (hfew : (tick l.window now (windowAfter l.window none (timesOf key history))).seen < 2 ^ 32) :
    ∃ l', l.count checks key now = some (l', decide
        ((tick l.window now (windowAfter l.window none (timesOf key history))).seen
          ≤ l.maxRequestsPerWindow.toNat)) ∧
      Tracks l' (history ++ [(key, now)]) now ∧ SameSettings l l' ∧
      l'.windows.length ≤ l.windows.length + 1 := by
  obtain ⟨hkey, htick, hcalled⟩ := h.entry key
  unfold RateLimiter.count
  dsimp only
  generalize (if l.window < now - (l.entryOrInsert key now).started then ⟨key, now, 0⟩
      else l.entryOrInsert key now) = e at hkey htick hcalled ⊢
  subst hkey
  rw [htick] at hfew
  have hcount : (e.count + 1).toNat = e.count.toNat + 1 := by
    rw [UInt32.toNat_add]
    exact Nat.mod_eq_of_lt hfew
  rw [checks.inc32_of_lt hfew]
  refine ⟨l.put { e with count := e.count + 1 }, ?_, ?_, ⟨rfl, rfl, rfl⟩, length_put_le _⟩
  · rw [htick, ← hcount]
    rfl
  · exact h.put (by rw [htick, hcount]) hcalled

/-- What the sweep leaves is below the threshold, or was checked recently. -/
theorem Tracks.length_sweep (h : Tracks l history last) (now : Nat) :
    (l.sweep now).windows.length ≤ max l.sweepThreshold (recentKeys l.window now history).card := by
  unfold RateLimiter.sweep
  split
  · rename_i hpast
    simp only
    have hnd := h.nodup.sublist
      ((List.filter_sublist (p := fun e => decide (now - e.started ≤ l.window))).map RateEntry.key)
    have hrecent : ((l.windows.filter fun e => now - e.started ≤ l.window).map
        RateEntry.key).toFinset ⊆ recentKeys l.window now history := by
      intro key hkey
      obtain ⟨e, he, rfl⟩ := List.mem_map.1 (List.mem_toFinset.1 hkey)
      obtain ⟨he, hopen⟩ := List.mem_filter.1 he
      exact List.mem_toFinset.2 (List.mem_map.2
        ⟨(e.key, e.started), List.mem_filter.2 ⟨h.called e he, hopen⟩, rfl⟩)
    have hcard := Finset.card_le_card hrecent
    rw [List.toFinset_card_of_nodup hnd, List.length_map] at hcard
    exact hcard.trans (le_max_right _ _)
  · rename_i hsmall
    exact (Nat.not_lt.1 hsmall).trans (le_max_left _ _)

theorem check_spec (checks : OverflowChecks) (h : Tracks l history last) (hnow : last ≤ now)
    (hfew : (tick l.window now (windowAfter l.window none (timesOf key history))).seen < 2 ^ 32) :
    ∃ l', l.check checks key now = some (l', decide
        ((tick l.window now (windowAfter l.window none (timesOf key history))).seen
          ≤ l.maxRequestsPerWindow.toNat)) ∧
      Tracks l' (history ++ [(key, now)]) now ∧ SameSettings l l' ∧
      l'.windows.length ≤ max l.sweepThreshold (recentKeys l.window now history).card + 1 := by
  obtain ⟨hwindow, hmax, hthreshold⟩ := sweep_fields l now
  obtain ⟨l', hl', htracks, ⟨hw, hm, ht⟩, hlen⟩ := count_spec checks (h.sweep hnow)
    (by rwa [hwindow])
  rw [hwindow, hmax] at hl'
  refine ⟨l', hl', htracks, ⟨hw.trans hwindow, hm.trans hmax, ht.trans hthreshold⟩, ?_⟩
  have := h.length_sweep now
  omega

/-! ## Runs -/

/-- A check that answers as exact windows do, sweeping or not. -/
def Exact (step : RateLimiter → String → Nat → Option (RateLimiter × Bool)) : Prop :=
  ∀ {l : RateLimiter} {history : List (String × Nat)} {last now : Nat} {key : String},
    Tracks l history last → last ≤ now →
    (tick l.window now (windowAfter l.window none (timesOf key history))).seen < 2 ^ 32 →
    ∃ l', step l key now = some (l', decide
        ((tick l.window now (windowAfter l.window none (timesOf key history))).seen
          ≤ l.maxRequestsPerWindow.toNat)) ∧
      Tracks l' (history ++ [(key, now)]) now ∧ SameSettings l l'

theorem exact_check (checks : OverflowChecks) : Exact (RateLimiter.check checks) := by
  intro l history last now key h hnow hfew
  obtain ⟨l', hl', htracks, hsame, -⟩ := check_spec checks h hnow hfew
  exact ⟨l', hl', htracks, hsame⟩

theorem exact_count (checks : OverflowChecks) : Exact (RateLimiter.count checks) := by
  intro l history last now key h hnow hfew
  have h' : Tracks l history now := ⟨h.nodup, h.same, fun key w hw hno => by
    have := h.gone key w hw hno
    omega, h.called⟩
  obtain ⟨l', hl', htracks, hsame, -⟩ := count_spec checks h' hfew
  exact ⟨l', hl', htracks, hsame⟩

theorem FewPerWindow.tick_lt {now : Nat} (hfew : FewPerWindow W (history ++ (key, now) :: calls)) :
    (tick W now (windowAfter W none (timesOf key history))).seen < 2 ^ 32 := by
  refine hfew (history ++ [(key, now)]) ⟨calls, by simp⟩ key _ ?_
  rw [timesOf_append_self, windowAfter_append]

theorem run_exact {step : RateLimiter → String → Nat → Option (RateLimiter × Bool)}
    (hstep : Exact step) (h : Tracks l history last) (hfirst : ∀ c ∈ calls, last ≤ c.2)
    (hord : calls.Pairwise fun a b => a.2 ≤ b.2)
    (hfew : FewPerWindow l.window (history ++ calls)) :
    ∃ l', l.run step calls
        = some (l', decisions l.window l.maxRequestsPerWindow.toNat history calls) ∧
      (∃ last', Tracks l' (history ++ calls) last' ∧
        ∀ now, last ≤ now → (∀ c ∈ calls, c.2 ≤ now) → last' ≤ now) ∧ SameSettings l l' := by
  induction calls generalizing l history last with
  | nil =>
    refine ⟨l, rfl, ⟨last, ?_, fun now hnow _ => hnow⟩, rfl, rfl, rfl⟩
    rwa [List.append_nil]
  | cons c calls ih =>
    obtain ⟨key, now⟩ := c
    obtain ⟨hlater, hord⟩ := List.pairwise_cons.1 hord
    obtain ⟨l₁, hl₁, htracks, hw, hm, ht⟩ := hstep h (hfirst _ (List.mem_cons_self ..)) hfew.tick_lt
    obtain ⟨l₂, hl₂, ⟨last', htracks', hlast'⟩, hw', hm', ht'⟩ := ih htracks hlater hord
      (by rw [hw, List.append_assoc]; exact hfew)
    rw [hw, hm] at hl₂
    refine ⟨l₂, ?_, ⟨last', ?_, ?_⟩, hw'.trans hw, hm'.trans hm, ht'.trans ht⟩
    · simp only [RateLimiter.run, hl₁, hl₂, Option.bind_eq_bind, Option.bind_some, decisions]
      rfl
    · rwa [List.append_assoc] at htracks'
    · intro now' hnow' hall
      obtain ⟨hc, hall⟩ := List.forall_mem_cons.1 hall
      exact hlast' now' hc hall

theorem length_decisions (history calls : List (String × Nat)) :
    (decisions W m history calls).length = calls.length := by
  induction calls generalizing history with
  | nil => rfl
  | cons c calls ih => rw [decisions, List.length_cons, List.length_cons, ih]

theorem run_append {step : RateLimiter → String → Nat → Option (RateLimiter × Bool)}
    {l₁ l₂ : RateLimiter} {cs ds : List (String × Nat)} {rs rs' : List Bool}
    (hcs : l.run step cs = some (l₁, rs)) (hds : l₁.run step ds = some (l₂, rs')) :
    l.run step (cs ++ ds) = some (l₂, rs ++ rs') := by
  induction cs generalizing l rs with
  | nil =>
    cases hcs
    exact hds
  | cons c cs ih =>
    simp only [RateLimiter.run, Option.bind_eq_bind, Option.bind_eq_some_iff] at hcs
    obtain ⟨⟨l', r⟩, hstep, ⟨l'', rs''⟩, hrest, heq⟩ := hcs
    cases heq
    simp only [List.cons_append, RateLimiter.run, hstep, ih hrest, Option.bind_eq_bind,
      Option.bind_some]
    rfl

theorem FewPerWindow.of_prefix {earlier : List (String × Nat)} (hfew : FewPerWindow W calls)
    (hpre : earlier <+: calls) : FewPerWindow W earlier :=
  fun first hfirst => hfew first (hfirst.trans hpre)

theorem recentKeys_mono {earlier : List (String × Nat)} (h : earlier ⊆ calls) :
    recentKeys W now earlier ⊆ recentKeys W now calls := by
  intro key hkey
  obtain ⟨c, hc, rfl⟩ := List.mem_map.1 (List.mem_toFinset.1 hkey)
  obtain ⟨hc, hold⟩ := List.mem_filter.1 hc
  exact List.mem_toFinset.2 (List.mem_map.2 ⟨c, List.mem_filter.2 ⟨h hc, hold⟩, rfl⟩)

/-- The size of the map after a check. -/
theorem run_length_le (checks : OverflowChecks) {window threshold : Nat} {limit : UInt32}
    {earlier : List (String × Nat)} (hord : (earlier ++ [c]).Pairwise fun a b => a.2 ≤ b.2)
    (hfew : FewPerWindow window (earlier ++ [c])) :
    ∃ l rs, (RateLimiter.new window limit threshold).run (RateLimiter.check checks) (earlier ++ [c])
        = some (l, rs) ∧
      l.windows.length ≤ max threshold (recentKeys window c.2 (earlier ++ [c])).card + 1 := by
  obtain ⟨hord, -, hle⟩ := List.pairwise_append.1 hord
  obtain ⟨l, hl, ⟨last, htracks, hlast⟩, hw, -, ht⟩ := run_exact (exact_check checks)
    (tracks_new window limit threshold) (fun d _ => Nat.zero_le d.2) hord
    (hfew.of_prefix (List.prefix_append ..))
  have hnow : last ≤ c.2 := hlast c.2 (Nat.zero_le _) fun d hd => hle d hd c (List.mem_singleton_self c)
  rw [List.nil_append] at htracks
  obtain ⟨l', hl', -, -, hlen⟩ := check_spec checks htracks hnow
    (show (tick l.window c.2 (windowAfter l.window none (timesOf c.1 earlier))).seen < 2 ^ 32 by
      rw [hw]
      exact FewPerWindow.tick_lt hfew)
  rw [hw, ht] at hlen
  have hone : ∃ rs, l.run (RateLimiter.check checks) [c] = some (l', rs) := by
    simp only [RateLimiter.run, Option.bind_eq_bind, Option.bind_some, hl']
    exact ⟨_, rfl⟩
  obtain ⟨rs, hone⟩ := hone
  refine ⟨l', _, run_append hl hone, hlen.trans ?_⟩
  · have hmono : recentKeys window c.2 earlier ⊆ recentKeys window c.2 (earlier ++ [c]) :=
      recentKeys_mono (List.subset_append_left earlier [c])
    have hcard := Finset.card_le_card hmono
    simp only [RateLimiter.new]
    omega

/-- **The sweep changes no answer and bounds the map**: a limiter that sweeps
    answers as one that does not, no closed interval of the length of the
    window holds more than twice the limit of one key, and the map holds the
    keys of one window or the threshold, and one more. -/
theorem sweep_changes_no_answer (checks : OverflowChecks) (window : Nat) (limit : UInt32)
    (threshold : Nat) (calls : List (String × Nat))
    (hord : calls.Pairwise fun a b => a.2 ≤ b.2) (hfew : FewPerWindow window calls) :
    ∃ swept unswept results,
      (RateLimiter.new window limit threshold).run (RateLimiter.check checks) calls = some (swept, results) ∧
      (RateLimiter.new window limit threshold).run (RateLimiter.count checks) calls = some (unswept, results) ∧
      results.length = calls.length ∧
      (∀ key a, (calls.zip results).countP
        (fun d => d.1.1 = key ∧ a ≤ d.1.2 ∧ d.1.2 ≤ a + window ∧ d.2) ≤ 2 * limit.toNat) ∧
      ∀ earlier c, earlier ++ [c] <+: calls → ∃ l rs,
        (RateLimiter.new window limit threshold).run (RateLimiter.check checks) (earlier ++ [c])
          = some (l, rs) ∧
        l.windows.length ≤ max threshold (recentKeys window c.2 (earlier ++ [c])).card + 1 := by
  have hfirst : ∀ c ∈ calls, 0 ≤ c.2 := fun c _ => Nat.zero_le c.2
  obtain ⟨swept, hswept, -⟩ := run_exact (exact_check checks)
    (tracks_new window limit threshold) hfirst hord hfew
  obtain ⟨unswept, hunswept, -⟩ := run_exact (exact_count checks)
    (tracks_new window limit threshold) hfirst hord hfew
  refine ⟨swept, unswept, decisions window limit.toNat [] calls, hswept, hunswept,
    length_decisions .., ?_, ?_⟩
  · intro key a
    rw [count_decisions a []]
    exact burst_le_twice a (pairwise_timesOf hord)
  · intro earlier c hpre
    exact run_length_le checks (hord.sublist hpre.sublist) (hfew.of_prefix hpre)

/-- Three checks: the second is past the limit, the third opens a window. -/
theorem sweep_changes_no_answer_witness : ∃ swept unswept results,
    (RateLimiter.new 10 1 0).run (RateLimiter.check .on) [("a", 0), ("a", 5), ("a", 11)]
      = some (swept, results) ∧
    (RateLimiter.new 10 1 0).run (RateLimiter.count .on) [("a", 0), ("a", 5), ("a", 11)]
      = some (unswept, results) :=
  have ⟨swept, unswept, results, hswept, hunswept, _⟩ := sweep_changes_no_answer .on 10 1 0
    [("a", 0), ("a", 5), ("a", 11)] (by decide) (fewPerWindow_of_length (by decide))
  ⟨swept, unswept, results, hswept, hunswept⟩

end OpenAgentGraph
