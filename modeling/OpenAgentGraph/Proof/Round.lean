/-
  What a round brings.

  `progress_iff` takes for granted how the logs stand to each other on one
  origin.  Between two peers whose logs are coherent (`Coherent`) the first
  event, in the order of the server's log, that the puller lacks is such an
  event: it is the next of its origin, what it refers to is there, and its key
  is free.  So a round brings it as soon as the answers fit.
-/
import OpenAgentGraph.Proof.Heads
import OpenAgentGraph.Proof.Paging

namespace OpenAgentGraph

open Lib Repo

variable {H : Type} [DecidableEq H] {P : Prims H}

/-! ## Coherent logs -/

/-- The log has the event. -/
def Holds (s : Store H) (id : H) : Prop := ∃ r ∈ s.events, r.eventId = id

/-- No fork lies between the two logs, and no key hash was added by two events. -/
structure Coherent (P : Prims H) (s s' : Store H) : Prop where
  noFork : ∀ r ∈ s.events, ∀ r' ∈ s'.events, r.originPeerId = r'.originPeerId →
    r.sequence = r'.sequence → r.eventId = r'.eventId
  keysOnce : ∀ r ∈ s.events, ∀ r' ∈ s'.events, ∀ k, AddsHash P r k → AddsHash P r' k →
    r.eventId = r'.eventId

/-- The first event of the server's log that the puller lacks. -/
structure FirstLacking (a b : Store H) (next : EventRow H) : Prop where
  split : ∃ pre post, b.events = pre ++ next :: post ∧ ∀ r ∈ pre, Holds a r.eventId
  lacks : ¬ Holds a next.eventId

omit [DecidableEq H] in
/-- If the puller lacks anything, there is a first event that it lacks. -/
theorem exists_firstLacking {a b : Store H} {r : EventRow H} (hr : r ∈ b.events)
    (hlacks : ¬ Holds a r.eventId) : ∃ next, FirstLacking a b next := by
  classical
  obtain ⟨next, hnext⟩ : ∃ next, b.events.find? (fun r => decide (¬ Holds a r.eventId)) = some next := by
    rw [← Option.isSome_iff_exists, List.find?_isSome]
    exact ⟨r, hr, decide_eq_true hlacks⟩
  obtain ⟨hdec, pre, post, hsplit, hpre⟩ := List.find?_eq_some_iff_append.1 hnext
  refine ⟨next, ⟨pre, post, hsplit, fun r hr => ?_⟩, of_decide_eq_true hdec⟩
  have hheld := hpre r hr
  simpa using hheld

/-! ## The first event that is lacking -/

/-- It is the next of its origin. -/
theorem FirstLacking.behind (hJ : JsonLaws P) (hinj : Function.Injective P.blake3) {a b : Store H}
    {next : EventRow H} (h : FirstLacking a b next) (ha : LogInv P a) (hb : LogInv P b)
    (hfork : ∀ r ∈ a.events, ∀ r' ∈ b.events, r.originPeerId = r'.originPeerId →
      r.sequence = r'.sequence → r.eventId = r'.eventId) : Behind a b next.originPeerId next := by
  obtain ⟨pre, post, hsplit, hpre⟩ := h.split
  let o := next.originPeerId
  have hchainA := ha.chain.chain o
  have hchainB := hb.chain.chain o
  have hchain : chainOf b o = pre.filter (fun r => decide (r.originPeerId = o))
      ++ next :: post.filter fun r => decide (r.originPeerId = o) := by
    rw [chainOf, hsplit, List.filter_append, List.filter_cons_of_pos (by simp [o])]
  generalize hpreO : pre.filter (fun r => decide (r.originPeerId = o)) = preO at hchain
  have hget : (chainOf b o)[preO.length]? = some next := by
    rw [hchain, List.getElem?_append_right le_rfl, Nat.sub_self]
    rfl
  have hagree : ∀ x ∈ chainOf a o, ∀ y ∈ chainOf b o, x.sequence.toInt = y.sequence.toInt →
      x.eventId = y.eventId := by
    intro x hx y hy hseq
    obtain ⟨hx, hxo⟩ := mem_chainOf.1 hx
    obtain ⟨hy, hyo⟩ := mem_chainOf.1 hy
    exact hfork x hx y hy (hxo.trans hyo.symm) (Int64.toInt_inj.1 hseq)
  have hnext : next ∈ chainOf b o := List.mem_of_getElem? hget
  -- the puller's chain is not longer, or it would have the event
  have hle : (chainOf a o).length ≤ preO.length := by
    by_contra hlt
    have hlt := not_le.1 hlt
    have hx := List.getElem_mem hlt
    refine h.lacks ⟨_, (mem_chainOf.1 hx).1, hagree _ hx next hnext ?_⟩
    rw [hchainA.seq_getElem _ hlt, (hchainB.prev_getElem hget).1]
  -- nor shorter, as it has all the events before
  have hge : preO.length ≤ (chainOf a o).length := by
    by_contra hlt
    have hlt := not_le.1 hlt
    have hy : preO[(chainOf a o).length] ∈ pre.filter fun r => decide (r.originPeerId = o) :=
      hpreO ▸ List.getElem_mem hlt
    obtain ⟨hypre, hyo⟩ := List.mem_filter.1 hy
    obtain ⟨r, hr, hid⟩ := hpre _ hypre
    have hyb : preO[(chainOf a o).length] ∈ b.events := by
      rw [hsplit]
      exact List.mem_append_left _ hypre
    have hsent := ha.stored.sent_eq hJ hinj hb.stored hr hyb hid
    have horigin : r.originPeerId = o := by
      rw [EventRow.eq_of_sent hsent]
      exact of_decide_eq_true hyo
    have hbound := (hchainA.seq_bounds (mem_chainOf.2 ⟨hr, horigin⟩)).2
    have hlenB : (chainOf a o).length < (chainOf b o).length := by
      rw [hchain, List.length_append]
      omega
    have hat : (chainOf b o)[(chainOf a o).length] = preO[(chainOf a o).length] := by
      simp only [hchain]
      exact List.getElem_append_left hlt
    have hsequence : r.sequence = preO[(chainOf a o).length].sequence := by
      rw [EventRow.eq_of_sent hsent]
    have hseq := hchainB.seq_getElem _ hlenB
    rw [hat] at hseq
    rw [hsequence] at hbound
    omega
  have hlen := le_antisymm hle hge
  refine ⟨hlen ▸ hget, hchainA.map_take_eq hchainB hagree ?_⟩
  rw [hchain, List.length_append]
  omega

omit [DecidableEq H] in
/-- A held event has the effect that it has in the other log. -/
theorem emits_of_held (hJ : JsonLaws P) (hinj : Function.Injective P.blake3) {a b : Store H}
    (ha : LogStored P a) (hb : LogStored P b) {rows : List (EventRow H)} (hrows : rows ⊆ b.events)
    (hheld : ∀ r ∈ rows, Holds a r.eventId) {e : Effect H} (he : Emits P rows e) :
    Emits P a.events e := by
  obtain ⟨row, hrow, heff⟩ := he
  obtain ⟨row', hrow', hid⟩ := hheld row hrow
  obtain ⟨signed, hst⟩ := hb row (hrows hrow)
  obtain ⟨signed', hst'⟩ := ha row' hrow'
  have heq := hst.eq_of_eventId hJ hinj hst' hid.symm
  refine ⟨row', hrow', ?_⟩
  rw [heq]
  exact heff

/-- What the tables of one log hold, those of a log with its events hold. -/
theorem Effect.References.of_emits (hinj : Function.Injective P.blake3)
    {rows rows' : List (EventRow H)} {g g' : Projection H} (h : Built P rows g)
    (h' : Built P rows' g') (hemit : ∀ e, Emits P rows e → Emits P rows' e) {e : Effect H}
    (href : e.References g) : e.References g' where
  nodes id hid := by
    obtain ⟨y, hy, rfl⟩ := Table.hasKey_iff.1 (href.nodes id hid)
    obtain ⟨e', he', hview⟩ := ((h.nodes_view hinj).2 y.view).1 (List.mem_map_of_mem hy)
    obtain ⟨y', hy', heq⟩ :=
      List.mem_map.1 (((h'.nodes_view hinj).2 y.view).2 ⟨e', hemit e' he', hview⟩)
    exact Table.hasKey_iff.2 ⟨y', hy', congrArg Prod.fst heq⟩
  actors id hid := by
    obtain ⟨y, hy, rfl⟩ := Table.hasKey_iff.1 (href.actors id hid)
    obtain ⟨e', he', hkey⟩ := (h.mem_keys Projection.actors Effect.actors ActorRow.actorId rfl
      (fun _ _ => rfl) y.actorId).1 (List.mem_map_of_mem hy)
    obtain ⟨y', hy', heq⟩ := List.mem_map.1 ((h'.mem_keys Projection.actors Effect.actors
      ActorRow.actorId rfl (fun _ _ => rfl) y.actorId).2 ⟨e', hemit e' he', hkey⟩)
    exact Table.hasKey_iff.2 ⟨y', hy', heq⟩
  assertions id hid := by
    obtain ⟨y, hy, rfl⟩ := Table.hasKey_iff.1 (href.assertions id hid)
    obtain ⟨e', he', hview⟩ := (h.mem_assertions y.view).1 (List.mem_map_of_mem hy)
    obtain ⟨y', hy', heq⟩ := List.mem_map.1 ((h'.mem_assertions y.view).2 ⟨e', hemit e' he', hview⟩)
    have hkey := congrArg AssertionRow.id heq
    exact Table.hasKey_iff.2 ⟨y', hy', hkey⟩

/-- A redaction removes nothing that is referred to. -/
theorem Effect.References.redactAll {e : Effect H} {g : Projection H} (h : e.References g)
    (s : Store H) : e.References (Prims.redactAll s g) := by
  rw [redactAll_eq]
  refine ⟨h.nodes, fun id hid => ?_, h.assertions⟩
  obtain ⟨y, hy, rfl⟩ := Table.hasKey_iff.1 (h.actors id hid)
  have hmem := List.mem_map_of_mem (f := ActorRow.actorId) hy
  rw [← map_clearIds ActorRow.actorId clearActor (fun _ => rfl)
    (s.actorRedactions.map ActorRedactionRow.actorId)] at hmem
  obtain ⟨y', hy', heq⟩ := List.mem_map.1 hmem
  exact Table.hasKey_iff.2 ⟨y', hy', heq⟩

/-- A log is built event by event. -/
theorem Built.of_append {rows rows' : List (EventRow H)} {g : Projection H}
    (h : Built P (rows ++ rows') g) : ∃ g', Built P rows g' := by
  induction rows' using List.reverseRecOn generalizing g with
  | nil => exact ⟨g, by simpa using h⟩
  | append_singleton rows' row ih =>
    generalize hl : rows ++ (rows' ++ [row]) = l at h
    cases h with
    | nil => simp at hl
    | @snoc init g' last e hinit _ _ =>
      rw [← List.append_assoc] at hl
      obtain ⟨rfl, -⟩ := List.append_inj' hl rfl
      exact ih hinit

theorem Built.last {rows : List (EventRow H)} {row : EventRow H} {g : Projection H}
    (h : Built P (rows ++ [row]) g) :
    ∃ g' e, Built P rows g' ∧ P.rowEffect row = some e ∧ e.Admissible g' := by
  generalize hl : rows ++ [row] = l at h
  cases h with
  | nil => simp at hl
  | @snoc init g' last e hinit heff hadm =>
    obtain ⟨rfl, hlast⟩ := List.append_inj' hl rfl
    obtain rfl : row = last := by simpa using hlast
    exact ⟨g', e, hinit, heff, hadm⟩

/-- What it refers to is there: the server had it before. -/
theorem FirstLacking.references (hJ : JsonLaws P) (hinj : Function.Injective P.blake3)
    {a b : Store H} {next : EventRow H} (h : FirstLacking a b next) (ha : PeerInv P a)
    (hb : PeerInv P b) {e : Effect H} (he : P.rowEffect next = some e) : e.References a.proj := by
  obtain ⟨pre, post, hsplit, hpre⟩ := h.split
  obtain ⟨g, hbuilt, -, -⟩ := hb.replay.built
  obtain ⟨ga, hbuiltA, -, hproj⟩ := ha.replay.built
  have hsplit' : b.events = (pre ++ [next]) ++ post := by rw [hsplit, List.append_assoc]; rfl
  rw [hsplit'] at hbuilt
  obtain ⟨g₁, hbuilt₁⟩ := hbuilt.of_append
  obtain ⟨g₀, e', hbuilt₀, he', hadm⟩ := hbuilt₁.last
  obtain rfl : e = e' := Option.some.inj (he.symm.trans he')
  have hsub : pre ⊆ b.events := by
    rw [hsplit]
    exact fun r hr => List.mem_append_left _ hr
  have hrefs : e.References ga :=
    Effect.References.of_emits hinj hbuilt₀ hbuiltA
      (fun _ he => emits_of_held hJ hinj ha.log.stored hb.log.stored hsub hpre he)
      ⟨hadm.needNodes, hadm.needActors, hadm.needAssertions⟩
  rw [hproj]
  exact hrefs.redactAll a

/-- Its key is free, as no other event adds it. -/
theorem FirstLacking.keyFree {a b : Store H} {next : EventRow H} (h : FirstLacking a b next)
    (ha : PeerInv P a) (hkeys : ∀ r ∈ a.events, ∀ r' ∈ b.events, ∀ k, AddsHash P r k →
      AddsHash P r' k → r.eventId = r'.eventId) : KeyFree P a next := by
  intro k hk y hy hyk
  obtain ⟨row, hrow, hrowk⟩ := (ha.replay.hasKeyRow_iff k).1 ⟨y, hy, hyk⟩
  obtain ⟨pre, post, hsplit, -⟩ := h.split
  have hnext : next ∈ b.events := by rw [hsplit]; simp
  exact h.lacks ⟨row, hrow, hkeys row hrow next hnext k hrowk hk⟩

/-! ## The round -/

/-- The next event is stored exactly if the head moves. -/
theorem Behind.holds_iff (hJ : JsonLaws P) (hinj : Function.Injective P.blake3)
    {a b : Store H} {o : H} {next : EventRow H} (h : Behind a b o next) (ha : PeerInv P a)
    (hb : PeerInv P b) (svcA svcB : SyncService H) (address : String) (now : Int64) :
    Holds (P.syncWithPeer svcA address (P.serve svcB b) now a).1 next.eventId ↔
      (headSequence a o).toInt
        < (headSequence (P.syncWithPeer svcA address (P.serve svcB b) now a).1 o).toInt := by
  obtain ⟨a₁, hpeers, hpulled⟩ := syncWithPeer_pulled hJ hinj ha.log hb svcA svcB address now
  have hafter := (syncWithPeer_reach svcA address (P.serve svcB b) now a).peerInv hJ hinj ha
  generalize (P.syncWithPeer svcA address (P.serve svcB b) now a).1 = a' at hpulled hafter
  obtain ⟨hmem, horigin⟩ := h.mem
  obtain ⟨hseq, -⟩ := h.expected ha.log.chain hb.log.chain
  have hchain := hafter.log.chain.chain o
  rw [headSequence_eq ha.log.chain] at hseq
  rw [headSequence_eq ha.log.chain, headSequence_eq hafter.log.chain, Nat.cast_lt]
  constructor
  · rintro ⟨r, hr, hid⟩
    have hsent := hafter.log.stored.sent_eq hJ hinj hb.log.stored hr hmem hid
    have ho : r.originPeerId = o := by
      rw [EventRow.eq_of_sent hsent]
      exact horigin
    have hbound := (hchain.seq_bounds (mem_chainOf.2 ⟨hr, ho⟩)).2
    have hsequence : r.sequence = next.sequence := by rw [EventRow.eq_of_sent hsent]
    rw [hsequence] at hbound
    omega
  · intro hlt
    have hx := List.getElem_mem hlt
    have hxs := hchain.seq_getElem _ hlt
    generalize (chainOf a' o)[(chainOf a o).length] = x at hx hxs
    obtain ⟨hxmem, hxo⟩ := mem_chainOf.1 hx
    obtain ⟨L, hL, -, hall⟩ := hpulled.rows
    rw [hL, hpeers.events_eq] at hxmem
    rcases List.mem_append.1 hxmem with hold | hnew
    · have hbound := ((ha.log.chain.chain o).seq_bounds (mem_chainOf.2 ⟨hold, hxo⟩)).2
      omega
    · -- the new event is a copy of the server's at this number
      obtain ⟨rb, hrb, -, heq⟩ := hall x hnew
      rw [heq] at hxs hxo
      have hsame : rb = next := (hb.log.chain.chain o).eq_of_seq (mem_chainOf.2 ⟨hrb, hxo⟩)
        (mem_chainOf.2 h.mem) (hxs.trans hseq.symm)
      refine ⟨x, by rw [hL]; exact List.mem_append_right _ hnew, ?_⟩
      rw [heq, hsame]

theorem round_iff (hJ : JsonLaws P) (hinj : Function.Injective P.blake3) {a b : Store H}
    (ha : PeerInv P a) (hb : PeerInv P b) (hsigned : AllSigned P b) (hcoh : Coherent P a b)
    {svcA svcB : SyncService H} {keyB : P.VerifyingKey} (hself : svcB.Of keyB) {now : Int64}
    {next : EventRow H} (h : FirstLacking a b next) {key : P.VerifyingKey}
    (hknown : P.knownKey a next.originPeerId = some key)
    (hkey : P.peerIdOfKey key = next.originPeerId)
    (hallows : ∀ s, Reach P a s → svcA.federationAllows s next.originPeerId now = true)
    (hroom : a.events.length + b.events.length + 1000 ≤ maxRows) (address : String) :
    Holds (P.syncWithPeer svcA address (P.serve svcB b) now a).1 next.eventId ↔
      (P.helloBody svcB b).length ≤ maxResponseBytes ∧
        PageFits P b next.originPeerId (headSequence a next.originPeerId) := by
  have hbehind := h.behind hJ hinj ha.log hb.log hcoh.noFork
  rw [hbehind.holds_iff hJ hinj ha hb, progress_iff hJ hinj ha hb hsigned hself hknown hkey hallows
    hbehind (fun e he => h.references hJ hinj ha hb he) hroom, ← and_assoc]
  exact and_iff_left (h.keyFree ha hcoh.keysOnce)

omit [DecidableEq H] in
theorem coherent_of_nil {s s' : Store H} (h : s.events = []) : Coherent P s s' := by
  constructor
  all_goals
    intro r hr
    rw [h] at hr
    cases hr

end OpenAgentGraph
