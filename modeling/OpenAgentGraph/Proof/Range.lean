/-
  The range of events that the two handlers return.

  * `pageRows_cases`: the rows of a page, by where its bounds lie;
  * `event_page_exact_iff`: a handler returns exactly the stored events of the
    range, at most a thousand numbers of it, if and only if the bounds stay in
    the range of `i64` or nothing is stored there.
-/
import OpenAgentGraph.Proof.Database
import OpenAgentGraph.Proof.Pull
import OpenAgentGraph.Sync.Range

namespace OpenAgentGraph

open Lib Repo

variable {H : Type}

/-! ## What a page should hold -/

/-- The event belongs to the page of the range, in exact integers. -/
def InPage (o : H) (lo hi : UInt64) (r : EventRow H) : Prop :=
  r.originPeerId = o ∧ (lo.toNat : ℤ) ≤ r.sequence.toInt ∧
    r.sequence.toInt ≤ min (hi.toNat : ℤ) (lo.toNat + 999)

/-- The handler does not panic and returns the events of the page, in
    ascending order. -/
def ExactPage (P : Prims H) (s : Store H) (o : H) (lo hi : UInt64) {ε : Type}
    (answer : Option (Except ε (List SignedEvent))) : Prop :=
  ∃ (rows : List (EventRow H)) (events : List SignedEvent), answer = some (.ok events) ∧
    rows.Pairwise (fun a b => a.sequence.toInt < b.sequence.toInt) ∧
    (∀ r, r ∈ rows ↔ r ∈ s.events ∧ InPage o lo hi r) ∧
    rows.mapM (fun row => P.signedFromSlice row.canonicalPayload) = .ok events

def NothingInPage (s : Store H) (o : H) (lo hi : UInt64) : Prop := ∀ r ∈ s.events, ¬ InPage o lo hi r

/-- The bounds do not leave the range of `i64`, or nothing is stored there.
    With overflow checks it is `from + 1000` that has to fit, even though the
    last number of the page is `from + 999`. -/
def PageInRange (checks : OverflowChecks) (s : Store H) (o : H) (lo hi : UInt64) : Prop :=
  2 ^ 63 ≤ lo.toNat ∨
  match checks with
  | .on => lo.toNat + 1000 < 2 ^ 63 ∧ (hi.toNat < 2 ^ 63 ∨ NothingInPage s o lo hi)
  | .off => (lo.toNat + 1000 ≤ 2 ^ 63 ∧ hi.toNat < 2 ^ 63) ∨ NothingInPage s o lo hi

/-! ## The bounds -/

theorem pageStep (lo : Int64) : lo + maxEventsPerFetch - 1 = lo + 999 := by
  rw [Int64.sub_eq_add_neg, Int64.add_assoc]
  rfl

/-- The end of a page whose bounds fit. -/
theorem toInt_pageEnd {lo hi : Int64} (h : InI64 (lo.toInt + 999)) :
    (Prims.pageEnd lo hi).toInt = min hi.toInt (lo.toInt + 999) := by
  have hadd : (lo + maxEventsPerFetch - 1).toInt = lo.toInt + 999 := by
    rw [pageStep]
    exact toInt_add_exact h
  unfold Prims.pageEnd
  split
  · rename_i hle
    rw [Int64.le_iff_toInt_le, hadd] at hle
    exact (min_eq_left hle).symm
  · rename_i hle
    rw [Int64.le_iff_toInt_le, hadd] at hle
    rw [hadd]
    exact (min_eq_right (not_le.1 hle).le).symm

theorem pageEndIn_on {lo hi : Int64} :
    pageEndIn .on lo hi = if lo.toInt + 1000 < 2 ^ 63 then some (Prims.pageEnd lo hi) else none := by
  have hlo := inI64_toInt lo
  have hmax : maxEventsPerFetch.toInt = 1000 := by decide
  have hone : (1 : Int64).toInt = 1 := by decide
  unfold InI64 at hlo
  simp only [pageEndIn, OverflowChecks.add, OverflowChecks.sub, checkedAdd, checkedSub, hmax, hone]
  by_cases hfits : lo.toInt + 1000 < 2 ^ 63
  · have hadd : InI64 (lo.toInt + 1000) := ⟨by omega, hfits⟩
    have hnext : (lo + maxEventsPerFetch).toInt = lo.toInt + 1000 := by
      rw [toInt_add_exact, hmax]
      rwa [hmax]
    have hsub : InI64 ((lo + maxEventsPerFetch).toInt - 1) := by
      rw [hnext]
      constructor <;> omega
    simp only [if_pos hadd, if_pos hfits, Option.bind_eq_bind, Option.bind_some, if_pos hsub]
    rfl
  · have hadd : ¬ InI64 (lo.toInt + 1000) := fun h => hfits h.2
    simp only [if_neg hadd, if_neg hfits, Option.bind_eq_bind, Option.bind_none]

theorem pageEnd_le (lo hi : Int64) : (Prims.pageEnd lo hi).toInt ≤ hi.toInt ∧
    (Prims.pageEnd lo hi).toInt ≤ (lo + maxEventsPerFetch - 1).toInt := by
  unfold Prims.pageEnd
  split
  · rename_i hle
    exact ⟨le_rfl, Int64.le_iff_toInt_le.1 hle⟩
  · rename_i hle
    rw [Int64.le_iff_toInt_le, not_le] at hle
    exact ⟨hle.le, le_rfl⟩

/-- Bounds that do not fit are cast or wrapped to an end below zero. -/
theorem pageEnd_neg {lo hi : UInt64} (hle : lo ≤ hi)
    (hout : 2 ^ 63 ≤ hi.toNat ∨ 2 ^ 63 < lo.toNat + 1000) :
    (Prims.pageEnd lo.toInt64 hi.toInt64).toInt < 0 := by
  have hhi := hi.toNat_lt
  have hlohi := UInt64.le_iff_toNat_le.1 hle
  obtain ⟨hend, hwrap⟩ := pageEnd_le lo.toInt64 hi.toInt64
  by_cases hbig : 2 ^ 63 ≤ hi.toNat
  · rw [toInt_toInt64 hi, if_neg (by omega)] at hend
    omega
  · have hlo : lo.toInt64.toInt = lo.toNat := by rw [toInt_toInt64, if_pos (by omega)]
    have h999 : (999 : Int64).toInt = 999 := by decide
    rw [pageStep] at hwrap
    rcases toInt_add_cases lo.toInt64 999 with ⟨hin, -⟩ | ⟨-, hadd⟩ | ⟨hunder, -⟩
    · rw [hlo, h999] at hin
      unfold InI64 at hin
      omega
    · rw [hlo, h999] at hadd
      omega
    · rw [hlo, h999] at hunder
      omega

/-- Bounds that fit are those of the page. -/
theorem pageEnd_exact {lo hi : UInt64} (hlo : lo.toNat + 1000 ≤ 2 ^ 63) (hhi : hi.toNat < 2 ^ 63)
    {o : H} {r : EventRow H} (ho : r.originPeerId = o) :
    (lo.toInt64 ≤ r.sequence ∧ r.sequence ≤ Prims.pageEnd lo.toInt64 hi.toInt64) ↔
      InPage o lo hi r := by
  have hlo' : lo.toInt64.toInt = lo.toNat := by rw [toInt_toInt64, if_pos (by omega)]
  have hhi' : hi.toInt64.toInt = hi.toNat := by rw [toInt_toInt64, if_pos hhi]
  have hfits : InI64 (lo.toInt64.toInt + 999) := by
    rw [hlo']
    constructor <;> omega
  rw [Int64.le_iff_toInt_le, Int64.le_iff_toInt_le, toInt_pageEnd hfits, hlo', hhi']
  exact ⟨fun h => ⟨ho, h⟩, And.right⟩

/-! ## The page -/

section page

variable [DecidableEq H] {P : Prims H} {s : Store H} {o : H} {lo hi : UInt64} {ε : Type}
  (g : SerdeError → ε)

/-- What a handler makes of the rows of a page. -/
def pageAnswer (P : Prims H) (rows : List (EventRow H)) : Except ε (List SignedEvent) :=
  (rows.mapM fun row => P.signedFromSlice row.canonicalPayload).mapError g

theorem listRange_nil (hinv : ChainInv s) {lo hi : Int64} (hneg : hi.toInt < 0) :
    listRange s.events o lo hi = [] := by
  refine List.eq_nil_iff_forall_not_mem.2 fun r hr => ?_
  obtain ⟨hmem, -, -, hle⟩ := mem_listRange.1 hr
  have hseq := (seq_le_headSequence hinv hmem).1
  have hle := Int64.le_iff_toInt_le.1 hle
  omega

theorem exactPage_of_mem (hJ : JsonLaws P) (hinv : LogInv P s) {last : Int64}
    (hmem : ∀ r : EventRow H, r.originPeerId = o →
      ((lo.toInt64 ≤ r.sequence ∧ r.sequence ≤ last) ↔ InPage o lo hi r)) :
    ExactPage P s o lo hi (some (pageAnswer g P (listRange s.events o lo.toInt64 last))) := by
  obtain ⟨events, -, -, hevents, -⟩ := page_reads hJ (listRange s.events o lo.toInt64 last)
    fun row hrow => hinv.stored row (mem_listRange.1 hrow).1
  refine ⟨_, events, ?_, listRange_sorted hinv.chain o _ _, ?_, hevents⟩
  · rw [pageAnswer, hevents]
    rfl
  · intro r
    rw [mem_listRange]
    constructor
    · rintro ⟨hr, ho, hbounds⟩
      exact ⟨hr, (hmem r ho).1 hbounds⟩
    · rintro ⟨hr, hpage⟩
      exact ⟨hr, hpage.1, (hmem r hpage.1).2 hpage⟩

omit [DecidableEq H] in
/-- An empty page is right when nothing is stored in the range. -/
theorem exactPage_nil : ExactPage P s o lo hi (some (pageAnswer g P [])) ↔ NothingInPage s o lo hi := by
  constructor
  · rintro ⟨rows, events, hanswer, -, hmem, hread⟩ r hr hpage
    obtain rfl : [] = events := Except.ok.inj (Option.some.inj hanswer)
    have hlen := (of_mapM_ok hread).1
    obtain rfl : rows = [] := List.eq_nil_of_length_eq_zero hlen.symm
    exact absurd ((hmem r).2 ⟨hr, hpage⟩) List.not_mem_nil
  · intro hnothing
    refine ⟨[], [], rfl, List.Pairwise.nil, fun r => ?_, rfl⟩
    constructor
    · intro hr
      cases hr
    · rintro ⟨hr, hpage⟩
      exact absurd hpage (hnothing r hr)

/-- **A page is exact as long as its bounds stay in range.** -/
theorem exactPage_iff (hJ : JsonLaws P) (hinv : LogInv P s) (hle : lo ≤ hi) (checks : OverflowChecks) :
    ExactPage P s o lo hi ((pageRows checks s o lo hi).map (pageAnswer g P)) ↔
      PageInRange checks s o lo hi := by
  have hlohi := UInt64.le_iff_toNat_le.1 hle
  have hoff : pageRows .off s o lo hi
      = some (listRange s.events o lo.toInt64 (Prims.pageEnd lo.toInt64 hi.toInt64)) := rfl
  have hon : pageRows .on s o lo hi = if lo.toInt64.toInt + 1000 < 2 ^ 63 then
      some (listRange s.events o lo.toInt64 (Prims.pageEnd lo.toInt64 hi.toInt64)) else none := by
    rw [pageRows, pageEndIn_on]
    split <;> rfl
  have hnil : 2 ^ 63 ≤ hi.toNat ∨ 2 ^ 63 < lo.toNat + 1000 →
      listRange s.events o lo.toInt64 (Prims.pageEnd lo.toInt64 hi.toInt64) = [] := fun hout =>
    listRange_nil hinv.chain (pageEnd_neg hle hout)
  unfold PageInRange
  by_cases hbig : 2 ^ 63 ≤ lo.toNat
  · -- no event has a number in the range, and both bounds are cast below zero
    have hnothing : NothingInPage s o lo hi := by
      rintro r - ⟨-, hseq, -⟩
      have := r.sequence.toInt_lt
      omega
    have hrows : pageRows checks s o lo hi = some [] := by
      cases checks with
      | on =>
        have hlt := lo.toNat_lt
        have hlo : lo.toInt64.toInt = lo.toNat - 2 ^ 64 := by rw [toInt_toInt64, if_neg (by omega)]
        rw [hon, hlo, if_pos (by omega), hnil (Or.inl (by omega))]
      | off => rw [hoff, hnil (Or.inl (by omega))]
    rw [hrows, Option.map_some, exactPage_nil]
    exact ⟨fun _ => Or.inl hbig, fun _ => hnothing⟩
  · have hlo : lo.toInt64.toInt = lo.toNat := by rw [toInt_toInt64, if_pos (by omega)]
    simp only [hbig, false_or]
    cases checks with
    | on =>
      rw [hon, hlo]
      by_cases hfits : lo.toNat + 1000 < 2 ^ 63
      · rw [if_pos (by omega), Option.map_some]
        by_cases hhi : hi.toNat < 2 ^ 63
        · simp only [hfits, hhi, true_or, and_self, iff_true]
          exact exactPage_of_mem g hJ hinv fun r ho => pageEnd_exact hfits.le hhi ho
        · rw [hnil (Or.inl (by omega)), exactPage_nil]
          simp only [hfits, hhi, false_or, true_and]
      · rw [if_neg (by omega)]
        simp only [hfits, false_and, iff_false]
        rintro ⟨_, _, hanswer, -⟩
        cases hanswer
    | off =>
      rw [hoff, Option.map_some]
      by_cases hfits : lo.toNat + 1000 ≤ 2 ^ 63 ∧ hi.toNat < 2 ^ 63
      · simp only [hfits, and_self, true_or, iff_true]
        exact exactPage_of_mem g hJ hinv fun r ho => pageEnd_exact hfits.1 hfits.2 ho
      · simp only [hfits, false_or]
        rw [hnil (by omega), exactPage_nil]

end page

/-! ## Main result -/

section handlers

variable [DecidableEq H] {P : Prims H} {s : Store H} {originHex : String} {o : H} {lo hi : UInt64}

theorem getEventsIn_eq (hdec : P.decodeHex32 originHex = some o) (hle : lo ≤ hi)
    (checks : OverflowChecks) : P.getEventsIn checks s originHex lo hi
      = (pageRows checks s o lo hi).map (pageAnswer (fun _ => .internalServerError) P) := by
  have hlt : ¬ hi < lo := UInt64.not_lt.2 hle
  simp only [Prims.getEventsIn, hdec, if_neg hlt]
  cases pageRows checks s o lo hi <;> rfl

theorem handleEventsIn_eq (hdec : P.decodeHex32 originHex = some o) (checks : OverflowChecks) :
    P.handleEventsIn checks s originHex lo hi
      = (pageRows checks s o lo hi).map (pageAnswer .badMetadata P) := by
  simp only [Prims.handleEventsIn, hdec]
  cases pageRows checks s o lo hi <;> rfl

end handlers

/-- **The handlers return exactly the events of the range as long as its bounds
    stay in the range of `i64`.** -/
theorem event_page_exact_iff [DecidableEq H] {P : Prims H} (hJ : JsonLaws P)
    (hinj : Function.Injective P.blake3) (ops : List (DbOp P)) {originHex : String} {o : H}
    (hdec : P.decodeHex32 originHex = some o) {lo hi : UInt64} (hle : lo ≤ hi)
    (checks : OverflowChecks) :
    let s := (P.dbRun Database.empty ops).store
    (ExactPage P s o lo hi (P.getEventsIn checks s originHex lo hi) ↔ PageInRange checks s o lo hi) ∧
    (ExactPage P s o lo hi (P.handleEventsIn checks s originHex lo hi) ↔
      PageInRange checks s o lo hi) := by
  have hinv : LogInv P (P.dbRun Database.empty ops).store := (dbRun_dbInv hJ hinj dbInv_empty ops).log
  constructor
  · rw [getEventsIn_eq hdec hle]
    exact exactPage_iff _ hJ hinv hle checks
  · rw [handleEventsIn_eq hdec]
    exact exactPage_iff _ hJ hinv hle checks

section declare

variable [DecidableEq H] (P : Prims H) (me : Prims.PeerIdentity)

/-- A peer declares an actor, as its first event. -/
def declareOps : List (DbOp P) := [.sync (.store (.commit me declarePayload 1))]

variable {P}

theorem declareOps_events (hJ : JsonLaws P) (hinj : Function.Injective P.blake3) :
    (P.dbRun Database.empty (declareOps P me)).store.events
      = [P.rowOf (declareEvent P me) (me.peerId P) none 1] := by
  have hfin : declarePayload.Finite := trivial
  have h := run_commit hJ hinj [] (s := Store.empty) rfl (by simp [Store.empty, maxRows]) hfin rfl rfl
    (declareAt_admissible me 1 none 1 _)
  exact congrArg Store.events h

/-- The one event of the peer belongs to every page from 1. -/
theorem declareOps_inPage (hJ : JsonLaws P) (hinj : Function.Injective P.blake3) {hi : UInt64}
    (hhi : 1 ≤ hi.toNat) :
    ¬ NothingInPage (P.dbRun Database.empty (declareOps P me)).store (me.peerId P) 1 hi := by
  intro hnothing
  refine hnothing (P.rowOf (declareEvent P me) (me.peerId P) none 1) ?_ ⟨rfl, ?_⟩
  · rw [declareOps_events me hJ hinj]
    exact List.mem_singleton_self _
  · have hseq : (P.rowOf (declareEvent P me) (me.peerId P) none 1).sequence.toInt = 1 := by
      simp only [Prims.rowOf, declareEvent, Prims.eventOf]
      decide
    have hone : (1 : UInt64).toNat = 1 := rfl
    rw [hseq, hone]
    exact ⟨le_rfl, le_min (by exact_mod_cast hhi) (by norm_num)⟩

end declare

theorem event_page_exact_declare :
    let s := (idealOpen.dbRun Database.empty (declareOps idealOpen peerA)).store
    (ExactPage idealOpen s (peerA.peerId idealOpen) 1 7
        (idealOpen.getEventsIn .on s (idealOpen.toHex (peerA.peerId idealOpen)) 1 7) ↔
      PageInRange .on s (peerA.peerId idealOpen) 1 7) ∧
    (ExactPage idealOpen s (peerA.peerId idealOpen) 1 7
        (idealOpen.handleEventsIn .on s (idealOpen.toHex (peerA.peerId idealOpen)) 1 7) ↔
      PageInRange .on s (peerA.peerId idealOpen) 1 7) :=
  event_page_exact_iff idealOpen_laws idealOpen_injective (declareOps idealOpen peerA)
    (decodeHex32_toHex _) (by decide) .on

theorem declareOps_open_end {hi : UInt64} (hhi : 2 ^ 63 ≤ hi.toNat) (checks : OverflowChecks) :
    ¬ PageInRange checks (idealOpen.dbRun Database.empty (declareOps idealOpen peerA)).store
      (peerA.peerId idealOpen) 1 hi := by
  have hlo : 1 ≤ hi.toNat := by omega
  have hstored := declareOps_inPage peerA idealOpen_laws idealOpen_injective hlo
  have hone : (1 : UInt64).toNat = 1 := rfl
  cases checks with
  | on =>
    rintro (h | ⟨-, h | h⟩)
    · omega
    · omega
    · exact hstored h
  | off =>
    rintro (h | ⟨-, h⟩ | h)
    · omega
    · omega
    · exact hstored h

/-- Up to `u64::MAX`, which is cast to -1, no event comes back. -/
theorem event_page_open_end :
    let s := (idealOpen.dbRun Database.empty (declareOps idealOpen peerA)).store
    let o := peerA.peerId idealOpen
    let last : UInt64 := 18446744073709551615
    ¬ ExactPage idealOpen s o 1 last (idealOpen.getEventsIn .off s (idealOpen.toHex o) 1 last) ∧
    ¬ ExactPage idealOpen s o 1 last (idealOpen.handleEventsIn .off s (idealOpen.toHex o) 1 last) := by
  intro s o last
  have hinv : LogInv idealOpen s :=
    (dbRun_dbInv idealOpen_laws idealOpen_injective dbInv_empty _).log
  have hlast : last.toNat = 18446744073709551615 := rfl
  have hout : ¬ PageInRange .off s o 1 last := declareOps_open_end (by rw [hlast]; omega) .off
  have hdec : idealOpen.decodeHex32 (idealOpen.toHex o) = some o := decodeHex32_toHex _
  have hle : (1 : UInt64) ≤ last := by decide
  rw [getEventsIn_eq hdec hle, handleEventsIn_eq hdec]
  exact ⟨mt (exactPage_iff _ idealOpen_laws hinv hle .off).1 hout,
    mt (exactPage_iff _ idealOpen_laws hinv hle .off).1 hout⟩

end OpenAgentGraph
