/-
  The chain invariant: the events of each origin, in the order they arrived,
  are a hash chain, and the origin's head row describes its last entry.

  The two write paths keep it because both read the head first: a commit
  takes the next sequence number from it, an ingestion compares with it.
-/
import OpenAgentGraph.Ideal
import OpenAgentGraph.Lib.Chain
import OpenAgentGraph.Proof.Log

namespace OpenAgentGraph

open Lib Repo

variable {H : Type} {P : Prims H} [DecidableEq H]

/-! ## Sequence numbers -/

/-- The sequence number after `x`, through the casts of the code. -/
theorem toInt64_next (x : Int64) : (x.toUInt64 + 1).toInt64 = x + 1 := by
  rw [UInt64.toInt64_add]
  simp

theorem toInt_next (x : Int64) (h : x.toInt < 2 ^ 63 - 1) :
    (x.toUInt64 + 1).toInt64.toInt = x.toInt + 1 := by
  have hlow := x.le_toInt
  have hone : (1 : Int64).toInt = 1 := by decide
  rw [toInt64_next, Int64.toInt_add, hone, Int.bmod_eq_of_le] <;> omega

/-- The next number is larger by one, or it is negative. -/
theorem toInt_next_cases (x : Int64) :
    (x.toUInt64 + 1).toInt64.toInt = x.toInt + 1 ∨ (x.toUInt64 + 1).toInt64.toInt < 0 := by
  by_cases hlast : x.toInt < 2 ^ 63 - 1
  · exact Or.inl (toInt_next x hlast)
  · have hx : x = Int64.maxValue := by
      have hbound := x.toInt_lt
      exact Int64.toInt_inj.1 (by rw [Int64.toInt_maxValue]; omega)
    subst hx
    exact Or.inr (by decide)

/-! ## Log steps and the tables they leave alone -/

theorem rebuild_ok {s s' : Store H} {summary : RebuildSummary}
    (h : P.rebuildProjection s = .ok (s', summary)) : s' = { s with proj := s'.proj } := by
  simp only [Prims.rebuildProjection, bind_ok, pure_ok] at h
  obtain ⟨cleared, -, g, -, h⟩ := h
  cases h
  rfl

theorem redactEvidence_ok {s s' : Store H} {auth : AuthContext H} {evidenceId : H}
    {reason : Option String} {now : Int64}
    (h : P.redactEvidence s auth evidenceId reason now = .ok s') :
    (∀ r ∈ s.redactions, r.eventId ≠ evidenceId) ∧
      (∃ r ∈ s.proj.evidence, r.id = evidenceId) ∧
      s' = { s with
        proj := (Repo.redactEvidence s.proj evidenceId).1
        redactions := s.redactions ++ [⟨evidenceId, now, reason⟩] } := by
  simp only [Prims.redactEvidence, bind_ok, guard_ok, pure_ok] at h
  obtain ⟨-, -, -, -, hnew, hupd, rows, hrows, -, -, rfl⟩ := h
  have hno := Table.hasKey_eq_false.1 (Bool.eq_false_iff.2 hnew)
  refine ⟨hno, Table.hasKey_iff.1 (by simpa [Repo.redactEvidence] using hupd), ?_⟩
  have hrows' : rows = s.redactions ++ [⟨evidenceId, now, reason⟩] := by
    unfold insertNew at hrows
    cases hins : Table.insertNew RedactionRow.eventId ⟨evidenceId, now, reason⟩ s.redactions with
    | none => rw [hins] at hrows; cases hrows
    | some t =>
      rw [hins] at hrows
      cases hrows
      exact (Table.insertNew_eq_some.1 hins).2
  rw [hrows']

theorem redactActor_ok {s s' : Store H} {auth : AuthContext H} {actorId : H}
    {reason : Option String} {now : Int64}
    (h : P.redactActorIdentityUri s auth actorId reason now = .ok s') :
    (∀ r ∈ s.actorRedactions, r.actorId ≠ actorId) ∧
      (∃ r ∈ s.proj.actors, r.actorId = actorId) ∧
      s' = { s with
        proj := (redactIdentityUri s.proj actorId).1
        actorRedactions := s.actorRedactions ++ [⟨actorId, now, reason⟩] } := by
  simp only [Prims.redactActorIdentityUri, bind_ok, guard_ok, pure_ok] at h
  obtain ⟨-, -, -, -, hnew, hupd, rows, hrows, rfl⟩ := h
  have hno := Table.hasKey_eq_false.1 (Bool.eq_false_iff.2 hnew)
  refine ⟨hno, Table.hasKey_iff.1 (by simpa [redactIdentityUri] using hupd), ?_⟩
  have hrows' : rows = s.actorRedactions ++ [⟨actorId, now, reason⟩] := by
    unfold insertNew at hrows
    cases hins : Table.insertNew ActorRedactionRow.actorId ⟨actorId, now, reason⟩
        s.actorRedactions with
    | none => rw [hins] at hrows; cases hrows
    | some t =>
      rw [hins] at hrows
      cases hrows
      exact (Table.insertNew_eq_some.1 hins).2
  rw [hrows']

/-- A step appends an event or leaves the log and its heads alone. -/
theorem LogStep.log_cases {s s' : Store H} {op : Op P} (h : LogStep P s op s') :
    (∃ row signed, Appended P s s' row signed) ∨
      (s'.events = s.events ∧ s'.eventOrigins = s.eventOrigins) := by
  cases h with
  | commit happ _ _ => exact Or.inl ⟨_, _, happ⟩
  | known => exact Or.inr ⟨rfl, rfl⟩
  | forked _ _ _ _ hfork =>
    obtain ⟨json, rfl⟩ := recordFork_ok hfork
    exact Or.inr ⟨rfl, rfl⟩
  | applied happ _ _ => exact Or.inl ⟨_, _, happ⟩
  | rebuild hr => rw [rebuild_ok hr]; exact Or.inr ⟨rfl, rfl⟩
  | redactEvidence hr =>
    obtain ⟨-, -, rfl⟩ := redactEvidence_ok hr
    exact Or.inr ⟨rfl, rfl⟩
  | redactActor hr =>
    obtain ⟨-, -, rfl⟩ := redactActor_ok hr
    exact Or.inr ⟨rfl, rfl⟩

theorem Appended.events_eq {s s' : Store H} {row : EventRow H} {signed : SignedEvent}
    (h : Appended P s s' row signed) : s'.events = s.events ++ [row] := by rw [h.eq]

theorem Appended.origins_eq {s s' : Store H} {row : EventRow H} {signed : SignedEvent}
    (h : Appended P s s' row signed) : s'.eventOrigins
      = advanceOrigin s.eventOrigins row.originPeerId row.sequence row.eventId := by rw [h.eq]

theorem Appended.logStored {s s' : Store H} {row : EventRow H} {signed : SignedEvent}
    (h : Appended P s s' row signed) (hlog : LogStored P s) : LogStored P s' := by
  intro r hr
  rw [h.events_eq] at hr
  rcases List.mem_append.1 hr with hr | hr
  · exact hlog r hr
  · obtain rfl : r = row := by simpa using hr
    exact ⟨signed, h.stored⟩

/-! ## The invariant -/

/-- The events of an origin, oldest first. -/
def chainOf (s : Store H) (o : H) : List (EventRow H) :=
  s.events.filter fun r => decide (r.originPeerId = o)

/-- The head row that the last event of an origin calls for. -/
def headOf (o : H) (chain : List (EventRow H)) : Option (EventOriginRow H) :=
  chain.getLast?.map fun r => ⟨o, r.sequence, r.sequence, some r.eventId⟩

def IsEventChain (l : List (EventRow H)) : Prop :=
  IsChain EventRow.eventId (fun r => r.sequence.toInt) EventRow.previousEventId l

/-- The log of every origin is a chain that its head row describes. -/
structure ChainInv (s : Store H) : Prop where
  chain : ∀ o, IsEventChain (chainOf s o)
  heads : ∀ o, getOrigin s.eventOrigins o = headOf o (chainOf s o)

theorem chainInv_empty : ChainInv (Store.empty : Store H) := ⟨fun _ => .nil, fun _ => rfl⟩

theorem chainOf_append {s s' : Store H} {row : EventRow H} (h : s'.events = s.events ++ [row])
    (o : H) : chainOf s' o = if row.originPeerId = o then chainOf s o ++ [row] else chainOf s o := by
  unfold chainOf
  rw [h, List.filter_append]
  split
  · rename_i ho; simp [ho]
  · rename_i ho; simp [ho]

theorem getOrigin_advance (origins : List (EventOriginRow H)) (o o' : H) (n : Int64) (id : H) :
    getOrigin (advanceOrigin origins o n id) o'
      = if o = o' then some ⟨o, n, n, some id⟩ else getOrigin origins o' := by
  unfold getOrigin advanceOrigin
  split
  · rename_i ho
    subst ho
    let row : EventOriginRow H := ⟨o, n, n, some id⟩
    change Table.find EventOriginRow.originPeerId row.originPeerId _ = some row
    refine Table.find_upsert_self (fun y => rfl) ?_
    intro y hy
    cases y
    cases hy
    rfl
  · rename_i ho
    exact Table.find_upsert_ne (fun y => rfl) ho

theorem length_chainOf_le (s : Store H) (o : H) : (chainOf s o).length ≤ s.events.length :=
  List.length_filter_le _ _

/-- The appended row continues its origin's chain. -/
theorem Appended.isEventChain {s s' : Store H} {row : EventRow H} {signed : SignedEvent}
    (h : Appended P s s' row signed) (hinv : ChainInv s) :
    IsEventChain (chainOf s row.originPeerId ++ [row]) := by
  have hchain := hinv.chain row.originPeerId
  have hnext := h.next
  rw [hinv.heads, headOf] at hnext
  have hlen := length_chainOf_le s row.originPeerId
  have hroom := h.room
  unfold maxRows at hroom
  cases hlast : (chainOf s row.originPeerId).getLast? with
  | none =>
    rw [hlast] at hnext
    simp only [Option.map_none, Prims.nextOf, Prod.mk.injEq] at hnext
    have hnil : chainOf s row.originPeerId = [] := List.getLast?_eq_none_iff.1 hlast
    refine hchain.snoc ?_ ?_
    · rw [h.stored.sequence, ← hnext.1, hnil]
      change (UInt64.toInt64 1).toInt = 1
      decide
    · rw [hlast, ← hnext.2]
      rfl
  | some r =>
    rw [hlast] at hnext
    simp only [Option.map_some, Prims.nextOf, Prod.mk.injEq] at hnext
    have hr := (hchain.last_seq hlast).2
    refine hchain.snoc ?_ ?_
    · rw [h.stored.sequence, ← hnext.1, toInt_next _ (by omega), hr]
    · rw [hlast, ← hnext.2]
      rfl

theorem Appended.chainInv {s s' : Store H} {row : EventRow H} {signed : SignedEvent}
    (h : Appended P s s' row signed) (hinv : ChainInv s) : ChainInv s' := by
  constructor
  · intro o
    rw [chainOf_append h.events_eq]
    split
    · rename_i ho
      subst ho
      exact h.isEventChain hinv
    · exact hinv.chain o
  · intro o
    rw [chainOf_append h.events_eq, h.origins_eq, getOrigin_advance]
    split
    · rename_i ho
      subst ho
      simp [headOf]
    · exact hinv.heads o

/-- What the log satisfies in every state. -/
structure LogInv (P : Prims H) (s : Store H) : Prop where
  stored : LogStored P s
  chain : ChainInv s

theorem LogStep.logInv {s s' : Store H} {op : Op P} (h : LogStep P s op s') (hinv : LogInv P s) :
    LogInv P s' := by
  rcases h.log_cases with ⟨row, signed, happ⟩ | ⟨hev, hor⟩
  · exact ⟨happ.logStored hinv.stored, happ.chainInv hinv.chain⟩
  · refine ⟨fun r hr => hinv.stored r (hev ▸ hr), ?_, ?_⟩
    · intro o
      simpa [chainOf, hev] using hinv.chain.chain o
    · intro o
      simpa [chainOf, hev, hor] using hinv.chain.heads o

/-- **Every run keeps the log invariant.** -/
theorem logInv_run (hJ : JsonLaws P) (hinj : Function.Injective P.blake3) (ops : List (Op P)) :
    LogInv P (P.run Store.empty ops) := by
  refine P.run_induction ops ⟨fun _ hr => (by cases hr), chainInv_empty⟩ ?_
  intro op _ s s' hinv hexec
  exact (exec_logStep hJ hinj hinv.stored hexec).logInv hinv

/-! ## The chain of one origin -/

/-- The events stored for an origin at a sequence number. -/
def eventsAt (s : Store H) (o : H) (k : ℤ) : List (EventRow H) :=
  s.events.filter fun r => decide (r.originPeerId = o) && decide (r.sequence.toInt = k)

/-- An origin with head `h` at sequence `n`: one event for each number from 1
    to `n` and none outside, each naming the one before it, the last being `h`. -/
structure OriginChain (s : Store H) (o : H) (n : ℤ) (h : Option H) : Prop where
  exactlyOne : ∀ k, 1 ≤ k → k ≤ n → ∃ r, eventsAt s o k = [r]
  noneOutside : ∀ r ∈ s.events, r.originPeerId = o → 1 ≤ r.sequence.toInt ∧ r.sequence.toInt ≤ n
  first : ∀ r ∈ s.events, r.originPeerId = o → r.sequence.toInt = 1 → r.previousEventId = none
  link : ∀ r ∈ s.events, ∀ r' ∈ s.events, r.originPeerId = o → r'.originPeerId = o →
    r'.sequence.toInt = r.sequence.toInt + 1 → r'.previousEventId = some r.eventId
  head : ∃ r ∈ s.events, r.originPeerId = o ∧ r.sequence.toInt = n ∧ h = some r.eventId

theorem mem_chainOf {s : Store H} {o : H} {r : EventRow H} :
    r ∈ chainOf s o ↔ r ∈ s.events ∧ r.originPeerId = o := by
  simp [chainOf]

theorem eventsAt_eq (s : Store H) (o : H) (k : ℤ) :
    eventsAt s o k = (chainOf s o).filter fun r => decide (r.sequence.toInt = k) := by
  unfold eventsAt chainOf
  rw [List.filter_filter]
  congr 1
  funext r
  rw [Bool.and_comm]

theorem ChainInv.originChain {s : Store H} (hinv : ChainInv s) {o : H} {row : EventOriginRow H}
    (h : getOrigin s.eventOrigins o = some row) :
    OriginChain s o row.highestContiguousSequence.toInt row.headEventId := by
  have hchain := hinv.chain o
  rw [hinv.heads, headOf] at h
  obtain ⟨last, hlast, rfl⟩ := Option.map_eq_some_iff.1 h
  obtain ⟨hmem, hseq⟩ := hchain.last_seq hlast
  simp only at hseq ⊢
  constructor
  · intro k h₁ h₂
    rw [eventsAt_eq]
    exact hchain.filter_seq k h₁ (by omega)
  · intro r hr ho
    have := hchain.seq_bounds (mem_chainOf.2 ⟨hr, ho⟩)
    rw [hseq]
    exact this
  · intro r hr ho hs
    exact hchain.prev_first (mem_chainOf.2 ⟨hr, ho⟩) hs
  · intro r hr r' hr' ho ho' hs
    exact hchain.prev_link (mem_chainOf.2 ⟨hr, ho⟩) (mem_chainOf.2 ⟨hr', ho'⟩) hs
  · obtain ⟨hev, ho⟩ := mem_chainOf.1 hmem
    exact ⟨last, hev, ho, rfl, rfl⟩

theorem ChainInv.no_events {s : Store H} (hinv : ChainInv s) {o : H}
    (h : getOrigin s.eventOrigins o = none) : ∀ r ∈ s.events, r.originPeerId ≠ o := by
  intro r hr ho
  rw [hinv.heads, headOf, Option.map_eq_none_iff, List.getLast?_eq_none_iff] at h
  have hmem := mem_chainOf.2 ⟨hr, ho⟩
  rw [h] at hmem
  cases hmem

/-- **Chain invariant.**  After any run from an empty store, an origin with a
    head row has a gapless chain of events that ends at the head, and an
    origin without one has no events. -/
theorem chain_invariant (P : Prims H) (hJ : JsonLaws P) (hinj : Function.Injective P.blake3)
    (ops : List (Op P)) (o : H) :
    (∀ row, getOrigin (P.run Store.empty ops).eventOrigins o = some row →
      OriginChain (P.run Store.empty ops) o row.highestContiguousSequence.toInt row.headEventId) ∧
    (getOrigin (P.run Store.empty ops).eventOrigins o = none →
      ∀ r ∈ (P.run Store.empty ops).events, r.originPeerId ≠ o) := by
  have hinv := (logInv_run hJ hinj ops).chain
  exact ⟨fun row h => hinv.originChain h, fun h => hinv.no_events h⟩

/-- Two declarations of one peer and a rebuild. -/
theorem chain_invariant_two_commits :
    let P := ideal fun _ _ => true
    let me : Prims.PeerIdentity := ⟨[7]⟩
    let declare : EventPayload := .actorDeclare ⟨"human", some "ada", none, none⟩
    let ops : List (Op P) := [.commit me declare 10, .commit me declare 20, .rebuild]
    (∀ row, getOrigin (P.run Store.empty ops).eventOrigins (me.peerId P) = some row →
      OriginChain (P.run Store.empty ops) (me.peerId P) row.highestContiguousSequence.toInt
        row.headEventId) ∧
    (getOrigin (P.run Store.empty ops).eventOrigins (me.peerId P) = none →
      ∀ r ∈ (P.run Store.empty ops).events, r.originPeerId ≠ me.peerId P) := by
  intro P me declare ops
  exact chain_invariant P (idealJsonLaws _) (ideal_blake3_injective _) ops (me.peerId P)

end OpenAgentGraph
