/-
  Convergence of a network.

  Some peers hold logs that agree with one another, and nobody writes any more.
  They go on pulling from each other, in any order and at any times, and rebuild
  their tables or redact something in between.  Every round with a peer that has
  something new brings something of it (`round_iff`), so the network settles.

  * `NetInv`: what every step of the network keeps.
  * `netAt_gathering`: the logs of the network gather events.
-/
import OpenAgentGraph.Lib.AntiEntropy
import OpenAgentGraph.Proof.Round
import OpenAgentGraph.Sync.Network

namespace OpenAgentGraph

open Lib Repo

variable {H ι : Type} [DecidableEq H] [DecidableEq ι] {P : Prims H}

/-! ## Events and their copies -/

omit [DecidableEq H] in
/-- A copy of an event adds the same keys. -/
theorem addsHash_sent {r r' : EventRow H} (h : r.sent = r'.sent) {k : H} :
    AddsHash P r k ↔ AddsHash P r' k := by
  rw [EventRow.eq_of_sent h]
  rfl

/-- Each event of the log is a copy of one of the network's at the start. -/
def CopiesOf (net₀ : ι → Store H) (s : Store H) : Prop :=
  ∀ r ∈ s.events, ∃ j, ∃ r₀ ∈ (net₀ j).events, r.sent = r₀.sent

omit [DecidableEq H] [DecidableEq ι] in
theorem coherent_of_copies {net₀ : ι → Store H} (hcoh : ∀ i j, Coherent P (net₀ i) (net₀ j))
    {s s' : Store H} (h : CopiesOf net₀ s) (h' : CopiesOf net₀ s') : Coherent P s s' := by
  constructor
  · intro r hr r' hr' horigin hseq
    obtain ⟨i, x, hx, hrx⟩ := h r hr
    obtain ⟨j, y, hy, hry⟩ := h' r' hr'
    rw [EventRow.eq_of_sent hrx, EventRow.eq_of_sent hry] at horigin hseq ⊢
    exact (hcoh i j).noFork x hx y hy horigin hseq
  · intro r hr r' hr' k hk hk'
    obtain ⟨i, x, hx, hrx⟩ := h r hr
    obtain ⟨j, y, hy, hry⟩ := h' r' hr'
    rw [EventRow.eq_of_sent hrx, EventRow.eq_of_sent hry]
    exact (hcoh i j).keysOnce x hx y hy k ((addsHash_sent hrx).1 hk) ((addsHash_sent hry).1 hk')

/-! ## One step -/

/-- The state is one that this code reaches. -/
def Reached (P : Prims H) (s : Store H) : Prop := ∃ ops, P.syncRun Store.empty ops = s

theorem Reached.peerInv (hJ : JsonLaws P) (hinj : Function.Injective P.blake3) {s : Store H}
    (h : Reached P s) : PeerInv P s := by
  obtain ⟨ops, rfl⟩ := h
  exact peerInv_run hJ hinj ops

theorem Reached.syncStep {s : Store H} (h : Reached P s) (op : SyncOp P) :
    Reached P (P.syncStep s op) := by
  obtain ⟨ops, rfl⟩ := h
  refine ⟨ops ++ [op], ?_⟩
  rw [Prims.syncRun, List.foldl_append]
  rfl

theorem Reached.uniqueIds (hJ : JsonLaws P) (hinj : Function.Injective P.blake3) {s : Store H}
    (h : Reached P s) : UniqueIds s := by
  obtain ⟨ops, rfl⟩ := h
  have hboth : LogInv P (P.syncRun Store.empty ops) ∧ UniqueIds (P.syncRun Store.empty ops) := by
    refine syncRun_induction (I := fun s => LogInv P s ∧ UniqueIds s) ops
      ⟨peerInv_empty.log, List.nodup_nil⟩ ?_ ?_
    · rintro s s' ⟨hlog, hu⟩ hp
      refine ⟨hlog.peersOnly hp, ?_⟩
      rw [UniqueIds, hp.events_eq]
      exact hu
    · rintro op s s' ⟨hlog, hu⟩ hexec
      have hstep := exec_logStep hJ hinj hlog.stored hexec
      exact ⟨hstep.logInv hlog, hstep.uniqueIds hu⟩
  exact hboth.2

/-- A round adds copies of the server's events, and forgets no key. -/
theorem round_gains (hJ : JsonLaws P) (hinj : Function.Injective P.blake3) {a b : Store H}
    (ha : PeerInv P a) (hb : PeerInv P b) (svcA svcB : SyncService H) (address : String)
    (now : Int64) :
    (∃ L, (P.syncWithPeer svcA address (P.serve svcB b) now a).1.events = a.events ++ L ∧
      ∀ r ∈ L, ∃ rb ∈ b.events, r.sent = rb.sent) ∧
    ∀ o key, P.knownKey a o = some key →
      P.knownKey (P.syncWithPeer svcA address (P.serve svcB b) now a).1 o = some key := by
  obtain ⟨a₁, hpeers, hpulled⟩ := syncWithPeer_pulled hJ hinj ha.log hb svcA svcB address now
  obtain ⟨L, hL, -, hall⟩ := hpulled.rows
  refine ⟨⟨L, by rw [hL, hpeers.events_eq], fun r hr => ?_⟩, fun o key hkey => ?_⟩
  · obtain ⟨rb, hrb, -, heq⟩ := hall r hr
    exact ⟨rb, hrb, by rw [heq]; rfl⟩
  · rw [Prims.knownKey, hpulled.peers]
    exact hpeers.knownKey ha.lengths hkey

/-- Upkeep leaves the log, the known peers and the heads alone. -/
theorem upkeep_keeps {s : Store H} {op : Op P} (hop : op.IsUpkeep) :
    (P.step s op).events = s.events ∧ (P.step s op).peers = s.peers := by
  rw [Prims.step]
  cases hexec : P.exec s op with
  | none => exact ⟨rfl, rfl⟩
  | some s' =>
    rw [Option.getD_some]
    cases op with
    | commit => exact hop.elim
    | ingest => exact hop.elim
    | rebuild =>
      obtain ⟨⟨s₁, summary⟩, hok, rfl⟩ := Option.map_eq_some_iff.1 hexec
      rw [rebuild_ok (toOption_eq_some.1 hok)]
      exact ⟨rfl, rfl⟩
    | redactEvidence =>
      obtain ⟨-, -, rfl⟩ := redactEvidence_ok (toOption_eq_some.1 hexec)
      exact ⟨rfl, rfl⟩
    | redactActor =>
      obtain ⟨-, -, rfl⟩ := redactActor_ok (toOption_eq_some.1 hexec)
      exact ⟨rfl, rfl⟩

/-! ## The network -/

/-- What every step of the network keeps. -/
structure NetInv (P : Prims H) (net₀ net : ι → Store H) : Prop where
  reached : ∀ i, Reached P (net i)
  copies : ∀ i, CopiesOf net₀ (net i)
  keys : ∀ i o key, P.knownKey (net₀ i) o = some key → P.knownKey (net i) o = some key
  holds : ∀ i id, Holds (net₀ i) id → Holds (net i) id

omit [DecidableEq ι] in
theorem NetInv.refl {net₀ : ι → Store H} (h : ∀ i, Reached P (net₀ i)) : NetInv P net₀ net₀ where
  reached := h
  copies i r hr := ⟨i, r, hr, rfl⟩
  keys _ _ _ hkey := hkey
  holds _ _ hid := hid

/-- A peer's new state is put in. -/
theorem NetInv.update {net₀ net : ι → Store H} (h : NetInv P net₀ net) {i : ι} {s : Store H}
    (hreached : Reached P s) (hcopies : CopiesOf net₀ s)
    (hkeys : ∀ o key, P.knownKey (net i) o = some key → P.knownKey s o = some key)
    (hevents : (net i).events ⊆ s.events) : NetInv P net₀ (Function.update net i s) := by
  refine ⟨?_, ?_, ?_, ?_⟩
  all_goals
    intro k
    by_cases hk : k = i
    · subst hk
      rw [Function.update_self]
      first
        | exact hreached
        | exact hcopies
        | exact fun o key hkey => hkeys o key (h.keys k o key hkey)
        | exact fun id hid => (h.holds k id hid).imp fun r hr => ⟨hevents hr.1, hr.2⟩
    · rw [Function.update_of_ne hk]
      first | exact h.reached k | exact h.copies k | exact h.keys k | exact h.holds k

/-- No step of the network but upkeep and rounds. -/
def NetStep.Calm (step : NetStep P ι) : Prop := ∀ i op, step = .own i op → op.IsUpkeep

theorem NetInv.step (hJ : JsonLaws P) (hinj : Function.Injective P.blake3)
    {svc : ι → SyncService H} {net₀ net : ι → Store H} (h : NetInv P net₀ net) {step : NetStep P ι}
    (hcalm : step.Calm) : NetInv P net₀ (P.netStep svc net step) := by
  cases step with
  | round i j address now =>
    have ha := (h.reached i).peerInv hJ hinj
    have hb := (h.reached j).peerInv hJ hinj
    obtain ⟨⟨L, hL, hall⟩, hkeys⟩ := round_gains hJ hinj ha hb (svc i) (svc j) address now
    refine h.update ((h.reached i).syncStep (.pull (svc i) address (P.serve (svc j) (net j)) now)) ?_
      hkeys (fun r hr => by rw [hL]; exact List.mem_append_left _ hr)
    intro r hr
    rw [hL] at hr
    rcases List.mem_append.1 hr with hr | hr
    · exact h.copies i r hr
    · obtain ⟨rb, hrb, hsent⟩ := hall r hr
      obtain ⟨k, r₀, hr₀, hsent₀⟩ := h.copies j rb hrb
      exact ⟨k, r₀, hr₀, hsent.trans hsent₀⟩
  | own i op =>
    obtain ⟨hevents, hpeers⟩ := upkeep_keeps (s := net i) (hcalm i op rfl)
    refine h.update ((h.reached i).syncStep (.store op)) ?_ ?_ (hevents ▸ List.Subset.refl _)
    · intro r hr
      rw [hevents] at hr
      exact h.copies i r hr
    · intro o key hkey
      rw [Prims.knownKey, hpeers]
      exact hkey

theorem netInv_at (hJ : JsonLaws P) (hinj : Function.Injective P.blake3) {svc : ι → SyncService H}
    {net₀ : ι → Store H} {sched : ℕ → NetStep P ι} (hreached : ∀ i, Reached P (net₀ i))
    (hcalm : ∀ n, (sched n).Calm) (n : ℕ) : NetInv P net₀ (P.netAt svc net₀ sched n) := by
  induction n with
  | zero => exact .refl hreached
  | succ n ih => exact ih.step hJ hinj (hcalm n)

/-! ## Gathering -/

/-- An event that some peer held at the start. -/
abbrev NetEvent (net₀ : ι → Store H) : Type := {id : H // ∃ j, Holds (net₀ j) id}

/-- Those that a peer holds. -/
def heldBy (net₀ : ι → Store H) (s : Store H) : Set (NetEvent net₀) := {id | Holds s id.val}

omit [DecidableEq H] [DecidableEq ι] in
theorem holds_initial {net₀ : ι → Store H} {s : Store H} (h : CopiesOf net₀ s) {id : H}
    (hid : Holds s id) : ∃ j, Holds (net₀ j) id := by
  obtain ⟨r, hr, rfl⟩ := hid
  obtain ⟨j, r₀, hr₀, hsent⟩ := h r hr
  exact ⟨j, r₀, hr₀, by rw [EventRow.eq_of_sent hsent]⟩

instance instFiniteNetEvent [Finite ι] (net₀ : ι → Store H) : Finite (NetEvent net₀) := by
  have hfin : (⋃ j, {id | id ∈ (net₀ j).events.map EventRow.eventId}).Finite :=
    Set.finite_iUnion fun j => List.finite_toSet _
  refine (hfin.subset ?_).to_subtype
  rintro id ⟨j, r, hr, rfl⟩
  exact Set.mem_iUnion.2 ⟨j, List.mem_map_of_mem hr⟩

omit [DecidableEq H] [DecidableEq ι] in
/-- No log grows beyond what the network held at the start. -/
theorem length_le_of_copies [Fintype ι] {net₀ : ι → Store H} {s : Store H} (hu : UniqueIds s)
    (h : CopiesOf net₀ s) : s.events.length ≤ ∑ j, (net₀ j).events.length := by
  have hsub : s.events.map EventRow.eventId
      ⊆ Finset.univ.toList.flatMap fun j => (net₀ j).events.map EventRow.eventId := by
    intro id hid
    obtain ⟨r, hr, rfl⟩ := List.mem_map.1 hid
    obtain ⟨j, r₀, hr₀, hid₀⟩ := holds_initial h ⟨r, hr, rfl⟩
    exact List.mem_flatMap.2 ⟨j, Finset.mem_toList.2 (Finset.mem_univ j), List.mem_map.2 ⟨r₀, hr₀, hid₀⟩⟩
  have hlen := (List.Nodup.subperm hu hsub).length_le
  simpa [List.length_flatMap, Finset.sum_map_toList] using hlen

omit [DecidableEq H] [DecidableEq ι] in
theorem gains_held {net₀ : ι → Store H} {s s' b : Store H} {L : List (EventRow H)}
    (hL : s'.events = s.events ++ L) (hall : ∀ r ∈ L, ∃ rb ∈ b.events, r.sent = rb.sent) :
    heldBy net₀ s ⊆ heldBy net₀ s' ∧ heldBy net₀ s' ⊆ heldBy net₀ s ∪ heldBy net₀ b := by
  constructor
  · rintro id ⟨r, hr, hid⟩
    exact ⟨r, by rw [hL]; exact List.mem_append_left _ hr, hid⟩
  · rintro id ⟨r, hr, hid⟩
    rw [hL] at hr
    rcases List.mem_append.1 hr with hr | hr
    · exact Or.inl ⟨r, hr, hid⟩
    · obtain ⟨rb, hrb, hsent⟩ := hall r hr
      refine Or.inr ⟨rb, hrb, ?_⟩
      rw [← hid, EventRow.eq_of_sent hsent]

/-- Who does not pull keeps its log. -/
theorem netStep_rest {svc : ι → SyncService H} {net : ι → Store H} {step : NetStep P ι}
    (hcalm : step.Calm) {k : ι} (hk : ∀ j, step.pull ≠ some (k, j)) :
    (P.netStep svc net step k).events = (net k).events := by
  cases step with
  | round i j address now =>
    have hki : k ≠ i := by
      rintro rfl
      exact hk j rfl
    rw [Prims.netStep, Function.update_of_ne hki]
  | own i op =>
    rw [Prims.netStep]
    by_cases hki : k = i
    · subst hki
      rw [Function.update_self]
      exact (upkeep_keeps (hcalm k op rfl)).1
    · rw [Function.update_of_ne hki]

/-- A network at rest: the logs agree, the peers know the keys they need and
    federate everything, and every answer is within the client's limit. -/
structure CalmNetwork (P : Prims H) (svc : ι → SyncService H) (net₀ : ι → Store H)
    (sched : ℕ → NetStep P ι) : Prop where
  reached : ∀ i, Reached P (net₀ i)
  coherent : ∀ i j, Coherent P (net₀ i) (net₀ j)
  /-- A peer knows the key of the origin of each event that it lacks. -/
  known : ∀ i j, ∀ r ∈ (net₀ j).events, ¬ Holds (net₀ i) r.eventId →
    ∃ key, P.knownKey (net₀ i) r.originPeerId = some key ∧ P.peerIdOfKey key = r.originPeerId
  identified : ∀ i, ∃ key : P.VerifyingKey, (svc i).Of key
  federates : ∀ i s o now, (svc i).federationAllows s o now = true
  calm : ∀ n, (sched n).Calm
  fits : ∀ n i j address now, sched n = .round i j address now →
    (P.helloBody (svc j) (P.netAt svc net₀ sched n j)).length ≤ maxResponseBytes ∧
      ∀ o, PageFits P (P.netAt svc net₀ sched n j) o (headSequence (P.netAt svc net₀ sched n i) o)

/-- Who pulls from whom, by moment. -/
def pulls (sched : ℕ → NetStep P ι) (n : ℕ) : Option (ι × ι) := (sched n).pull

theorem CalmNetwork.netInv (hJ : JsonLaws P) (hinj : Function.Injective P.blake3)
    {svc : ι → SyncService H} {net₀ : ι → Store H} {sched : ℕ → NetStep P ι}
    (h : CalmNetwork P svc net₀ sched) (n : ℕ) : NetInv P net₀ (P.netAt svc net₀ sched n) :=
  netInv_at hJ hinj h.reached h.calm n

/-- A round that brings nothing finds nothing lacking. -/
theorem round_brings (hJ : JsonLaws P) (hinj : Function.Injective P.blake3)
    (hsign : ∀ identity, SignsCorrectly P identity) [Fintype ι] {svc : ι → SyncService H}
    {net₀ net : ι → Store H} {sched : ℕ → NetStep P ι} (h : CalmNetwork P svc net₀ sched)
    (hroom : 2 * ∑ i, (net₀ i).events.length + 1000 ≤ maxRows) (hinv : NetInv P net₀ net)
    {i j : ι} {address : String} {now : Int64}
    (hfits : (P.helloBody (svc j) (net j)).length ≤ maxResponseBytes ∧
      ∀ o, PageFits P (net j) o (headSequence (net i) o))
    (hsame : heldBy net₀ (P.syncWithPeer (svc i) address (P.serve (svc j) (net j)) now (net i)).1
      = heldBy net₀ (net i)) : heldBy net₀ (net j) ⊆ heldBy net₀ (net i) := by
  by_contra hnot
  obtain ⟨id, ⟨r, hr, hid⟩, hlacks⟩ := Set.not_subset.1 hnot
  have hri : ¬ Holds (net i) r.eventId := hid ▸ hlacks
  obtain ⟨next, hnext⟩ := exists_firstLacking hr hri
  obtain ⟨pre, post, hsplit, -⟩ := hnext.split
  have hmem : next ∈ (net j).events := by rw [hsplit]; simp
  obtain ⟨k, r₀, hr₀, hsent⟩ := hinv.copies j next hmem
  have hid₀ : next.eventId = r₀.eventId := by rw [EventRow.eq_of_sent hsent]
  obtain ⟨key, hknown, hkey⟩ := h.known i k r₀ hr₀ fun hheld =>
    hnext.lacks (hid₀ ▸ hinv.holds i _ hheld)
  obtain ⟨keyB, hself⟩ := h.identified j
  have horigin : next.originPeerId = r₀.originPeerId := by rw [EventRow.eq_of_sent hsent]
  have hlenI := length_le_of_copies ((hinv.reached i).uniqueIds hJ hinj) (hinv.copies i)
  have hlenJ := length_le_of_copies ((hinv.reached j).uniqueIds hJ hinj) (hinv.copies j)
  obtain ⟨ops, hops⟩ := hinv.reached j
  have hholds := (round_iff hJ hinj ((hinv.reached i).peerInv hJ hinj)
    ((hinv.reached j).peerInv hJ hinj) (hops ▸ allSigned_run hJ hinj hsign ops)
    (coherent_of_copies h.coherent (hinv.copies i) (hinv.copies j)) hself hnext
    (hinv.keys i _ key (horigin ▸ hknown)) (hkey.trans horigin.symm)
    (fun s _ => h.federates i s _ now) (by omega) address).2 ⟨hfits.1, hfits.2 _⟩
  -- the round brings `next`, so the puller does not hold the same as before
  have hafter : (⟨next.eventId, holds_initial (hinv.copies j) ⟨next, hmem, rfl⟩⟩ : NetEvent net₀)
      ∈ heldBy net₀ (net i) := by
    rw [← hsame]
    exact hholds
  exact hnext.lacks hafter

/-- **The logs of a calm network gather events.** -/
theorem netAt_gathering (hJ : JsonLaws P) (hinj : Function.Injective P.blake3)
    (hsign : ∀ identity, SignsCorrectly P identity) [Fintype ι] {svc : ι → SyncService H}
    {net₀ : ι → Store H} {sched : ℕ → NetStep P ι} (h : CalmNetwork P svc net₀ sched)
    (hroom : 2 * ∑ i, (net₀ i).events.length + 1000 ≤ maxRows) :
    IsGathering (fun n i => heldBy net₀ (P.netAt svc net₀ sched n i)) (pulls sched) := by
  have hinv := h.netInv hJ hinj
  have hround : ∀ n i j, pulls sched n = some (i, j) → ∃ address now,
      sched n = .round i j address now ∧ P.netAt svc net₀ sched (n + 1) i
        = (P.syncWithPeer (svc i) address (P.serve (svc j) (P.netAt svc net₀ sched n j)) now
          (P.netAt svc net₀ sched n i)).1 := by
    intro n i j hpull
    rw [Prims.netAt]
    unfold pulls at hpull
    cases hstep : sched n with
    | round i' j' address now =>
      rw [hstep] at hpull
      obtain ⟨rfl, rfl⟩ := Prod.mk.inj (Option.some.inj hpull)
      exact ⟨address, now, rfl, Function.update_self ..⟩
    | own i' op =>
      rw [hstep] at hpull
      cases hpull
  constructor
  · intro n k hk
    have hevents : (P.netAt svc net₀ sched (n + 1) k).events = (P.netAt svc net₀ sched n k).events :=
      netStep_rest (h.calm n) hk
    ext id
    simp only [heldBy, Holds, hevents]
  · intro n i j hpull
    obtain ⟨address, now, -, heq⟩ := hround n i j hpull
    obtain ⟨⟨L, hL, hall⟩, -⟩ := round_gains hJ hinj (((hinv n).reached i).peerInv hJ hinj)
      (((hinv n).reached j).peerInv hJ hinj) (svc i) (svc j) address now
    rw [heq]
    exact (gains_held hL hall).1
  · intro n i j hpull
    obtain ⟨address, now, -, heq⟩ := hround n i j hpull
    obtain ⟨⟨L, hL, hall⟩, -⟩ := round_gains hJ hinj (((hinv n).reached i).peerInv hJ hinj)
      (((hinv n).reached j).peerInv hJ hinj) (svc i) (svc j) address now
    rw [heq]
    exact (gains_held hL hall).2
  · intro n i j hpull hsame
    obtain ⟨address, now, hstep, heq⟩ := hround n i j hpull
    rw [heq] at hsame
    exact round_brings hJ hinj hsign h hroom (hinv n) (h.fits n i j address now hstep) hsame

/-! ## Two peers

  One peer has met another, which has declared an actor; they pull from each
  other in turn. -/

section pair

variable {row : EventRow H} {s : Store H}

omit [DecidableEq H] [DecidableEq ι] in
theorem events_of_sent (hu : UniqueIds s) (h : ∀ r ∈ s.events, r.sent = row.sent) :
    s.events = [] ∨ ∃ t, s.events = [{ row with receivedAt := t }] := by
  unfold UniqueIds at hu
  rcases hevents : s.events with _ | ⟨r, _ | ⟨r', rest⟩⟩
  · exact Or.inl rfl
  · refine Or.inr ⟨r.receivedAt, ?_⟩
    rw [← EventRow.eq_of_sent (h r (by rw [hevents]; simp))]
  · -- two rows of one event
    have hr := h r (by rw [hevents]; simp)
    have hr' := h r' (by rw [hevents]; simp)
    rw [hevents, EventRow.eq_of_sent hr, EventRow.eq_of_sent hr'] at hu
    simp at hu

omit [DecidableEq H] [DecidableEq ι] in
theorem mergeSort_filter_singleton {α : Type} (p : α → Bool) (le : α → α → Bool) (x : α) :
    ([x].filter p).mergeSort le = [] ∨ ([x].filter p).mergeSort le = [x] := by
  cases hp : p x <;> simp [hp]

/-- A page of such a log. -/
theorem eventsBody_of_sent (hu : UniqueIds s) (h : ∀ r ∈ s.events, r.sent = row.sent)
    {e : SignedEvent} (hread : P.signedFromSlice row.canonicalPayload = .ok e) {j : Json}
    (hj : SignedEvent.toJson P.toVec e = .ok j) {o : H} {lo hi : UInt64} {body : Bytes}
    (hbody : P.eventsBody s (P.toHex o) lo hi = .ok body) :
    body = P.toVec.write (.obj [("events", .arr [])]) ∨
      body = P.toVec.write (.obj [("events", .arr [j])]) := by
  by_cases hle : hi < lo
  · simp only [Prims.eventsBody, bind_ok, Prims.getEvents, decodeHex32_toHex, hle, if_true] at hbody
    obtain ⟨_, hget, -⟩ := hbody
    cases hget
  · have hrange : listRange s.events o lo.toInt64 (Prims.pageEnd lo.toInt64 hi.toInt64) = [] ∨
        ∃ t, listRange s.events o lo.toInt64 (Prims.pageEnd lo.toInt64 hi.toInt64)
          = [{ row with receivedAt := t }] := by
      unfold listRange
      rcases events_of_sent hu h with hnil | ⟨t, hone⟩
      · rw [hnil]
        exact Or.inl (by simp)
      · rw [hone]
        exact (mergeSort_filter_singleton _ _ _).imp_right fun h => ⟨t, h⟩
    rcases hrange with hnil | ⟨t, hone⟩
    · have hget : P.getEvents s (P.toHex o) lo hi = .ok [] := by
        simp only [Prims.getEvents, decodeHex32_toHex, hle, if_false, hnil, List.mapM_nil]
        rfl
      rw [Prims.eventsBody, hget, ok_bind] at hbody
      exact Or.inl (Except.ok.inj hbody).symm
    · rw [eventsBody_one (decodeHex32_toHex o) hle hone hread hj] at hbody
      exact Or.inr (Except.ok.inj hbody).symm

/-- The heads of such a log. -/
theorem localHeads_of_sent (hinv : PeerInv P s) (h : ∀ r ∈ s.events, r.sent = row.sent)
    (hseq : row.sequence = 1) :
    P.localHeads s = [] ∨ P.localHeads s = [(P.toHex row.originPeerId, 1)] := by
  have hhead : ∀ x ∈ s.eventOrigins, x.originPeerId = row.originPeerId ∧
      x.highestContiguousSequence = 1 := by
    intro x hx
    obtain ⟨r, hr, -, heq⟩ := hinv.log.chain.last_of_head (Table.find_of_nodup hinv.heads hx)
    have hsent := EventRow.eq_of_sent (h r (mem_chainOf.1 hr).1)
    rw [heq, hsent]
    exact ⟨rfl, hseq⟩
  have hu := hinv.heads
  unfold HeadsUnique at hu
  unfold Prims.localHeads
  rcases horigins : s.eventOrigins with _ | ⟨x, _ | ⟨y, rest⟩⟩
  · exact Or.inl rfl
  · obtain ⟨ho, hn⟩ := hhead x (by rw [horigins]; simp)
    refine Or.inr ?_
    rw [List.map_singleton, ho, hn]
    rfl
  · have hx := (hhead x (by rw [horigins]; simp)).1
    have hy := (hhead y (by rw [horigins]; simp)).1
    rw [horigins] at hu
    simp [hx, hy] at hu

end pair

noncomputable def pairNet : Bool → Store Bytes
  | true => metStore idealOpen peerB
  | false => crowd idealOpen peerB "urn:b" 1

noncomputable def pairService : Bool → SyncService Bytes
  | true => openService idealOpen peerA
  | false => openService idealOpen peerB

/-- They pull in turn. -/
noncomputable def pairSched (n : ℕ) : NetStep idealOpen Bool :=
  .round (decide (n % 2 = 0)) (decide (n % 2 = 1)) "http://peer" 7

/-- The one event of the two. -/
noncomputable def pairRow : EventRow Bytes :=
  idealOpen.rowOf (idealOpen.eventOf peerB 1 none 1 (crowdPayload "urn:b")) (peerB.peerId idealOpen)
    none 1

theorem pairNet_events : (pairNet true).events = [] ∧ (pairNet false).events = [pairRow] := by
  refine ⟨rfl, ?_⟩
  rw [pairNet, crowd_one peerB "urn:b" idealOpen_laws idealOpen_injective]
  rfl

theorem pairNet_copies {s : Store Bytes} (h : CopiesOf pairNet s) :
    ∀ r ∈ s.events, r.sent = pairRow.sent := by
  intro r hr
  obtain ⟨j, r₀, hr₀, hsent⟩ := h r hr
  cases j with
  | true =>
    rw [pairNet_events.1] at hr₀
    cases hr₀
  | false =>
    rw [pairNet_events.2] at hr₀
    obtain rfl := List.mem_singleton.1 hr₀
    exact hsent

theorem pairNet_reached (i : Bool) : Reached idealOpen (pairNet i) := by
  cases i with
  | true => exact ⟨[.pull (openService idealOpen peerA) "http://c" (helloOnly idealOpen peerB) 3],
    helloOnly_round peerA⟩
  | false => exact ⟨crowdOps idealOpen peerB "urn:b" 1, rfl⟩

/-- Both peers' answers are small, whatever has been pulled. -/
theorem pairNet_hello (i : Bool) {heads : List (String × UInt64)}
    (hheads : heads = [] ∨ heads = [(idealOpen.toHex (peerB.peerId idealOpen), 1)]) :
    (idealOpen.toVec.write ((⟨syncProtocol, syncVersion,
      idealOpen.peerIdToString (pairService i).selfPeerId, hexEncode (pairService i).selfPublicKey,
      heads⟩ : HelloResponse).toJson (pairService i).mapOrder)).length ≤ maxResponseBytes := by
  rcases hheads with rfl | rfl <;> cases i
  all_goals
    simp only [pairService, openService]
    simp only [idealOpen, ideal_toVec, Prims.peerIdToString, ideal_digestBytes, Prims.toHex,
      Prims.PeerIdentity.peerId, Prims.peerIdOfKey, Prims.PeerIdentity.verifyingKey, ideal_blake3,
      ideal_publicKey, jsonBytes, utf8_ofList]
    decide +kernel

theorem pairNet_fits {s : Store Bytes} (hreached : Reached idealOpen s) (hcopies : CopiesOf pairNet s)
    (i : Bool) : (idealOpen.helloBody (pairService i) s).length ≤ maxResponseBytes ∧
      ∀ o head, PageFits idealOpen s o head := by
  have hsent := pairNet_copies hcopies
  have hu := hreached.uniqueIds idealOpen_laws idealOpen_injective
  have hinv := hreached.peerInv idealOpen_laws idealOpen_injective
  have hrow : pairRow.sequence = 1 := rfl
  refine ⟨pairNet_hello i (localHeads_of_sent hinv hsent hrow), fun o head body hbody => ?_⟩
  have hfin : (crowdPayload "urn:b").Finite := trivial
  have hread : idealOpen.signedFromSlice pairRow.canonicalPayload
      = .ok (idealOpen.eventOf peerB 1 none 1 (crowdPayload "urn:b")) := by
    obtain ⟨read, hread, hsame⟩ := Prims.signedFromSlice_canonical idealOpen_laws
      (canonicalSigned_of_finite idealOpen_laws
        (s := idealOpen.eventOf peerB 1 none 1 (crowdPayload "urn:b")) hfin)
    obtain rfl := hsame.eq_declare rfl
    exact hread
  rcases eventsBody_of_sent hu hsent hread rfl hbody with rfl | rfl
  · rw [idealOpen_write]
    decide +kernel
  · have hone := crowd_one_body (P := idealOpen) peerB "urn:b" idealOpen_laws idealOpen_injective rfl
    have hhead : (headSequence (crowd idealOpen peerB "urn:b" 1) (peerB.peerId idealOpen)).toUInt64
        = 1 := by
      rw [crowd_one peerB "urn:b" idealOpen_laws idealOpen_injective]
      exact congrArg Int64.toUInt64 (headSequence_appendRow _ _ _)
    refine crowd_one_page _ ?_
    rw [hhead]
    exact hone

theorem pairNet_calm : CalmNetwork idealOpen pairService pairNet pairSched := by
  have hcalm : ∀ n, (pairSched n).Calm := by
    intro n i op hop
    cases hop
  have hempty : ∀ id, ¬ Holds (pairNet true) id := by
    rintro id ⟨r, hr, -⟩
    cases hr
  refine ⟨pairNet_reached, ?_, ?_, ?_, ?_, hcalm, ?_⟩
  · intro i j
    cases i with
    | true => exact coherent_of_nil rfl
    | false =>
      cases j with
      | true => 
        constructor
        all_goals
          intro r hr r' hr'
          cases hr'
      | false =>
        constructor
        all_goals
          intro r hr r' hr'
          rw [pairNet_events.2] at hr hr'
          rw [List.mem_singleton.1 hr, List.mem_singleton.1 hr']
        · exact fun _ _ => rfl
        · exact fun _ _ _ => rfl
  · intro i j r hr hlacks
    cases j with
    | true => cases hr
    | false =>
      cases i with
      | false => exact absurd ⟨r, hr, rfl⟩ hlacks
      | true =>
        rw [pairNet_events.2] at hr
        obtain rfl := List.mem_singleton.1 hr
        exact ⟨peerB.verifyingKey idealOpen, knownKey_metStore, rfl⟩
  · intro i
    cases i with
    | true => exact ⟨_, openService_of peerA⟩
    | false => exact ⟨_, openService_of peerB⟩
  · intro i s o now
    cases i with
    | true => exact openService_allows peerA s o now
    | false => exact openService_allows peerB s o now
  · intro n i j address now _
    have hinv : NetInv idealOpen pairNet (idealOpen.netAt pairService pairNet pairSched n) :=
      netInv_at idealOpen_laws idealOpen_injective pairNet_reached hcalm n
    obtain ⟨hhello, hpage⟩ := pairNet_fits (hinv.reached j) (hinv.copies j) j
    exact ⟨hhello, fun o => hpage o _⟩

theorem pairNet_room : 2 * ∑ i, (pairNet i).events.length + 1000 ≤ maxRows := by
  rw [Fintype.sum_bool, pairNet_events.1, pairNet_events.2]
  decide

/-- Each of the two pulls from the other again and again. -/
theorem pairNet_connected (i j : Bool) :
    Relation.ReflTransGen (PullsForever (pulls pairSched)) i j := by
  have hpull : ∀ i, PullsForever (pulls pairSched) i (!i) := by
    intro i
    refine Filter.frequently_atTop.2 fun n => ⟨2 * n + cond i 0 1, by cases i <;> simp <;> omega, ?_⟩
    cases i <;> simp [pulls, pairSched, NetStep.pull]
  cases i <;> cases j
  · exact .refl
  · exact .single (hpull false)
  · exact .single (hpull true)
  · exact .refl

/-! ## Convergence -/

/-- Nothing was redacted. -/
def Unredacted (s : Store H) : Prop := s.redactions = [] ∧ s.actorRedactions = []

omit [DecidableEq ι] in
theorem Unredacted.built {s : Store H} (h : Unredacted s) (hinv : ReplayInv P s) :
    Built P s.events s.proj := by
  obtain ⟨g, hbuilt, -, hproj⟩ := hinv.built
  have hg : Prims.redactAll s g = g := by simp [Prims.redactAll, h.1, h.2]
  rw [hproj, hg]
  exact hbuilt

theorem Pulled.unredacted {b s s' : Store H} {S : H → Prop} (h : Pulled P b S s s')
    (hs : Unredacted s) : Unredacted s' := by
  induction h with
  | refl => exact hs
  | step _ _ _ happ ih => rw [happ.eq]; exact ih

theorem netAt_unredacted (hJ : JsonLaws P) (hinj : Function.Injective P.blake3)
    {svc : ι → SyncService H} {net₀ : ι → Store H} {sched : ℕ → NetStep P ι}
    (hreached : ∀ i, Reached P (net₀ i)) (hrebuild : ∀ n i op, sched n = .own i op → op = .rebuild)
    (hclean : ∀ i, Unredacted (net₀ i)) (n : ℕ) (i : ι) :
    Unredacted (P.netAt svc net₀ sched n i) := by
  have hcalm : ∀ n, (sched n).Calm := by
    intro n i op hop
    rw [hrebuild n i op hop]
    trivial
  induction n generalizing i with
  | zero => exact hclean i
  | succ n ih =>
    have hinv : NetInv P net₀ (P.netAt svc net₀ sched n) := netInv_at hJ hinj hreached hcalm n
    rw [Prims.netAt]
    cases hstep : sched n with
    | round k j address now =>
      rw [Prims.netStep]
      by_cases hik : i = k
      · subst hik
        obtain ⟨a₁, hpeers, hpulled⟩ := syncWithPeer_pulled hJ hinj
          ((hinv.reached i).peerInv hJ hinj).log ((hinv.reached j).peerInv hJ hinj) (svc i) (svc j)
          address now
        rw [Function.update_self]
        refine hpulled.unredacted ?_
        rw [hpeers.eq]
        exact ih i
      · rw [Function.update_of_ne hik]
        exact ih i
    | own k op =>
      obtain rfl := hrebuild n k op hstep
      rw [Prims.netStep]
      by_cases hik : i = k
      · subst hik
        rw [Function.update_self, Prims.step]
        cases hexec : P.exec (P.netAt svc net₀ sched n i) .rebuild with
        | none => exact ih i
        | some s' =>
          obtain ⟨⟨s₁, summary⟩, hok, rfl⟩ := Option.map_eq_some_iff.1 hexec
          rw [rebuild_ok (toOption_eq_some.1 hok)]
          exact ih i
      · rw [Function.update_of_ne hik]
        exact ih i

end OpenAgentGraph
