/-
  What a peer that runs this code answers to a pull.

  * `serve_hello`: its hello, if it fits the client's limit, is read as its
    own identity and its own heads.
  * `serve_events`: a page of events, if it fits, is read as events that the
    rows of the page were stored for; the rows are in order of sequence
    (`listRange_sorted`).
-/
import OpenAgentGraph.Proof.Sync

namespace OpenAgentGraph

open Lib Repo

variable {H : Type} [DecidableEq H] {P : Prims H}

/-! ## The state of a peer -/

/-- Every origin has one head row. -/
def HeadsUnique (s : Store H) : Prop := (s.eventOrigins.map EventOriginRow.originPeerId).Nodup

/-- What holds of a peer's store in every state. -/
structure PeerInv (P : Prims H) (s : Store H) : Prop where
  log : LogInv P s
  replay : ReplayInv P s
  lengths : KeyLengths s.peers
  heads : HeadsUnique s

theorem PeerInv.peersOnly {s s' : Store H} (h : PeerInv P s) (hp : PeersOnly s s') :
    PeerInv P s' := by
  refine ⟨h.log.peersOnly hp, h.replay.peersOnly hp, hp.lengths h.lengths, ?_⟩
  rw [hp.eq]
  exact h.heads

theorem PeerInv.exec (hJ : JsonLaws P) (hinj : Function.Injective P.blake3) {s s' : Store H}
    {op : Op P} (h : PeerInv P s) (hexec : P.exec s op = some s') : PeerInv P s' := by
  have hstep := exec_logStep hJ hinj h.log.stored hexec
  refine ⟨hstep.logInv h.log, hstep.replayInv hJ h.replay,
    exec_keyLengths hJ hinj h.log h.lengths hexec, ?_⟩
  rcases hstep.log_cases with ⟨row, signed, happ⟩ | ⟨-, hor⟩
  · rw [HeadsUnique, happ.origins_eq]
    exact Table.nodup_upsert (fun _ => rfl) h.heads
  · rw [HeadsUnique, hor]
    exact h.heads

theorem peerInv_empty : PeerInv P (Store.empty : Store H) :=
  ⟨⟨fun _ hr => (by cases hr), chainInv_empty⟩, replayInv_empty, fun _ hr => (by cases hr),
    List.nodup_nil⟩

theorem peerInv_run (hJ : JsonLaws P) (hinj : Function.Injective P.blake3) (ops : List (SyncOp P)) :
    PeerInv P (P.syncRun Store.empty ops) :=
  syncRun_induction ops peerInv_empty (fun _ _ h hp => h.peersOnly hp)
    fun _ _ _ h hexec => h.exec hJ hinj hexec

/-! ## Hello -/

/-- The field that an entry of a map is written as. -/
def headField (e : String × UInt64) : String × Json := (e.1, .num (.ofUInt64 e.2))

theorem asU64_ofUInt64 (n : UInt64) : Read.asU64 (.num (.ofUInt64 n)) = some n :=
  Number.toUInt64?_ofUInt64 n

theorem head_of_asU64 {k : String} {v : Json} {n : UInt64} (h : Read.asU64 v = some n) :
    Read.head (k, v) = .ok (k, n) := by
  simp only [Read.head, h]

theorem head_headField (e : String × UInt64) : Read.head (headField e) = .ok e :=
  head_of_asU64 (asU64_ofUInt64 e.2)

/-- The entry that a field holds. -/
def headEntry (e : String × Json) : String × UInt64 := (e.1, (Read.asU64 e.2).getD 0)

theorem headEntry_of_asU64 {k : String} {v : Json} {n : UInt64} (h : Read.asU64 v = some n) :
    headEntry (k, v) = (k, n) := by
  simp only [headEntry, h, Option.getD_some]

theorem headEntry_headField (e : String × UInt64) : headEntry (headField e) = e :=
  headEntry_of_asU64 (asU64_ofUInt64 e.2)

theorem perm_canonFields_heads {heads : List (String × UInt64)}
    (hnd : (heads.map Prod.fst).Nodup) :
    (Json.canonFields (heads.map headField)).Perm (heads.map headField) := by
  have hkeys : (heads.map headField).map Prod.fst = heads.map Prod.fst := by
    simp [headField]
  have hcanon : ((heads.map headField).map fun e => (e.1, e.2.canon)) = heads.map headField := by
    simp [headField, Json.canon]
  have hperm := Json.perm_canonFields (hkeys.symm ▸ hnd)
  rwa [hcanon] at hperm

/-- A map of heads reads back, in some order. -/
theorem readHeads_eq {o : MapOrder} {heads : List (String × UInt64)} {j : Json} {k : String}
    (hnd : (heads.map Prod.fst).Nodup) (h : j.get? k = some (headsJson o heads).canon) :
    ∃ hs, Read.heads j k = .ok hs ∧ hs.Perm heads := by
  have hnd' : ((o.order heads).map Prod.fst).Nodup := ((o.perm heads).map Prod.fst).nodup_iff.2 hnd
  have hperm := perm_canonFields_heads hnd'
  have hcanon : (headsJson o heads).canon
      = .obj (Json.canonFields ((o.order heads).map headField)) := by
    rw [headsJson, Json.canon]
    rfl
  generalize Json.canonFields ((o.order heads).map headField) = fields at hperm hcanon
  have hread : ∀ e ∈ fields, Read.head e = .ok (headEntry e) := by
    intro e he
    obtain ⟨x, -, rfl⟩ := List.mem_map.1 (hperm.mem_iff.1 he)
    rw [head_headField, headEntry_headField]
  refine ⟨fields.map headEntry, ?_, ?_⟩
  · rw [Read.heads, h, hcanon]
    exact mapM_ok hread
  · have hmap := hperm.map headEntry
    have hback : headEntry ∘ headField = id := funext headEntry_headField
    rw [List.map_map, hback, List.map_id] at hmap
    exact hmap.trans (o.perm heads)

omit [DecidableEq H] in
theorem nodup_localHeads {s : Store H} (h : HeadsUnique s) :
    ((P.localHeads s).map Prod.fst).Nodup := by
  rw [Prims.localHeads, List.map_map]
  have hmap : s.eventOrigins.map (Prod.fst ∘ fun r : EventOriginRow H =>
      (P.toHex r.originPeerId, r.highestContiguousSequence.toUInt64))
        = (s.eventOrigins.map EventOriginRow.originPeerId).map P.toHex := by
    rw [List.map_map]
    rfl
  rw [hmap]
  exact h.map P.toHex_injective

/-- What a hello says, read by another peer. -/
structure HelloOf (P : Prims H) (svc : SyncService H) (s : Store H) (h : HelloResponse) : Prop where
  peerId : h.peerId = P.peerIdToString svc.selfPeerId
  publicKey : h.publicKey = hexEncode svc.selfPublicKey
  heads : h.heads.Perm (P.localHeads s)

omit [DecidableEq H] in
theorem readHello_eq (hJ : JsonLaws P) (svc : SyncService H) {s : Store H} (hu : HeadsUnique s) :
    ∃ h, (P.fromSlice (P.helloBody svc s) >>= readHello) = .ok h ∧ HelloOf P svc s h := by
  have hreads : Reads ((P.hello svc s).toJson svc.mapOrder).canon
      [("protocol", .str syncProtocol), ("version", .num (.ofUInt16 syncVersion)),
        ("peer_id", .str (P.peerIdToString svc.selfPeerId)),
        ("public_key", .str (hexEncode svc.selfPublicKey)),
        ("heads", headsJson svc.mapOrder (P.localHeads s))] :=
    reads_canon (by simp only [List.map_cons, List.map_nil]; decide)
  simp only [reads_cons, reads_nil, and_true] at hreads
  obtain ⟨h₁, h₂, h₃, h₄, h₅⟩ := hreads
  obtain ⟨hs, hhs, hperm⟩ := readHeads_eq (nodup_localHeads hu) h₅
  refine ⟨⟨syncProtocol, syncVersion, P.peerIdToString svc.selfPeerId, hexEncode svc.selfPublicKey,
    hs⟩, ?_, rfl, rfl, hperm⟩
  rw [Prims.helloBody, hJ.toVec.fromSlice_write, ok_bind, readHello, Read.str_eq h₁,
    Read.num_eq h₂ (Number.toUInt16?_ofUInt16 _), Read.str_eq h₃,
    Read.str_eq h₄, hhs]
  simp only [ok_bind]
  rfl

omit [DecidableEq H] in
theorem cappedJson_small {α : Type} {read : Json → Except SerdeError α} {body : Bytes} {a : α}
    (hsize : body.length ≤ maxResponseBytes) (h : (P.fromSlice body >>= read) = .ok a) :
    P.cappedJson read body = .ok a := by
  rw [Prims.cappedJson, if_neg (by omega), h]

omit [DecidableEq H] in
theorem cappedJson_large {α : Type} {read : Json → Except SerdeError α} {body : Bytes}
    (hsize : maxResponseBytes < body.length) :
    P.cappedJson read body = .error (.responseTooLarge maxResponseBytes) := by
  rw [Prims.cappedJson, if_pos hsize]

theorem serve_hello (hJ : JsonLaws P) (svc : SyncService H) {s : Store H} (hu : HeadsUnique s)
    (hsize : (P.helloBody svc s).length ≤ maxResponseBytes) :
    ∃ h, (P.serve svc s).hello = .ok h ∧ HelloOf P svc s h := by
  obtain ⟨h, hread, hof⟩ := readHello_eq hJ svc hu
  exact ⟨h, cappedJson_small hsize hread, hof⟩

/-! ## Pages of events -/

theorem mem_listRange {events : List (EventRow H)} {o : H} {lo hi : Int64} {r : EventRow H} :
    r ∈ listRange events o lo hi ↔
      r ∈ events ∧ r.originPeerId = o ∧ lo ≤ r.sequence ∧ r.sequence ≤ hi := by
  simp [listRange, List.mem_mergeSort, and_assoc]

/-- A page is in order of sequence, without repetitions. -/
theorem listRange_sorted {s : Store H} (hinv : ChainInv s) (o : H) (lo hi : Int64) :
    (listRange s.events o lo hi).Pairwise fun a b => a.sequence.toInt < b.sequence.toInt := by
  have hfilter : s.events.filter (fun r => decide (r.originPeerId = o) && decide (lo ≤ r.sequence) &&
      decide (r.sequence ≤ hi))
        = (chainOf s o).filter fun r => decide (lo ≤ r.sequence) && decide (r.sequence ≤ hi) := by
    rw [chainOf, List.filter_filter]
    congr 1
    funext r
    cases decide (r.originPeerId = o) <;> simp
  have hsorted := ((hinv.chain o).pairwise).sublist
    (List.filter_sublist (p := fun r => decide (lo ≤ r.sequence) && decide (r.sequence ≤ hi)))
  unfold listRange
  rw [hfilter, List.mergeSort_of_pairwise]
  · exact hsorted
  · refine hsorted.imp fun {a b} hab => ?_
    simp only [decide_eq_true_eq]
    exact Int64.le_iff_toInt_le.2 hab.le

omit [DecidableEq H] in
theorem Stored.finite (hJ : JsonLaws P) {row : EventRow H} {signed : SignedEvent}
    (h : Stored P row signed) : signed.unsigned.payload.Finite := by
  obtain ⟨j, hj, -⟩ := Prims.canonicalSigned_ok h.canonical
  obtain ⟨fs, hfs, -⟩ := Prims.toJson_ok hj
  exact Prims.finite_of_fields hJ hfs

/-- A copy that a client reads of a stored row: the row was stored for it, and
    it is what the row's bytes hold, but for what JSON does not tell apart. -/
structure CopyOf (P : Prims H) (row : EventRow H) (signed : SignedEvent) : Prop where
  stored : Stored P row signed
  same : ∃ original, P.signedFromSlice row.canonicalPayload = .ok original ∧ original.Same signed

omit [DecidableEq H] in
/-- The rows of a page are parsed, written, and read by the client as copies. -/
theorem page_reads (hJ : JsonLaws P) (rows : List (EventRow H))
    (hrows : ∀ row ∈ rows, ∃ signed, Stored P row signed) : ∃ events js events',
    rows.mapM (fun row => P.signedFromSlice row.canonicalPayload) = .ok events ∧
    events.mapM (SignedEvent.toJson P.toVec) = .ok js ∧
    (Json.canonList js).mapM P.readSigned = .ok events' ∧
    List.Forall₂ (CopyOf P) rows events' := by
  induction rows with
  | nil => exact ⟨[], [], [], rfl, rfl, rfl, .nil⟩
  | cons row rows ih =>
    obtain ⟨events, js, events', hevents, hjs, hevents', hall⟩ :=
      ih fun r hr => hrows r (List.mem_cons_of_mem _ hr)
    obtain ⟨signed₀, h₀⟩ := hrows row (List.mem_cons_self ..)
    obtain ⟨signed, hread, -, hst⟩ := h₀.reread hJ
    have hfin := hst.finite hJ
    obtain ⟨fs, hfs⟩ := fields_of_finite hJ.toVec hfin
    obtain ⟨j, hj⟩ : ∃ j, signed.toJson P.toVec = .ok j := by
      rw [SignedEvent.toJson, hfs]
      exact ⟨_, rfl⟩
    obtain ⟨signed', hread', hsame⟩ := Prims.readSigned_eq hJ.toVec hfin hj
    have hcopy : CopyOf P row signed' := ⟨hst.same hJ hsame, signed, hread, hsame⟩
    refine ⟨signed :: events, j :: js, signed' :: events', ?_, ?_, ?_, .cons hcopy hall⟩
    · rw [List.mapM_cons, hread, ok_bind, hevents, ok_bind]
      rfl
    · rw [List.mapM_cons, hj, ok_bind, hjs, ok_bind]
      rfl
    · rw [Json.canonList, List.mapM_cons, hread', ok_bind, hevents', ok_bind]
      rfl

/-- **A page is read as copies of its rows.** -/
theorem eventsBody_reads (hJ : JsonLaws P) {s : Store H} (hlog : LogStored P s) {originHex : String}
    {o : H} {lo hi : UInt64} (hdec : P.decodeHex32 originHex = some o) (hle : ¬ hi < lo) :
    ∃ body events, P.eventsBody s originHex lo hi = .ok body ∧
      (P.fromSlice body >>= P.readEvents) = .ok events ∧
      List.Forall₂ (CopyOf P)
        (listRange s.events o lo.toInt64 (Prims.pageEnd lo.toInt64 hi.toInt64)) events := by
  obtain ⟨events, js, events', hevents, hjs, hread, hall⟩ := page_reads hJ
    (listRange s.events o lo.toInt64 (Prims.pageEnd lo.toInt64 hi.toInt64))
    fun row hrow => hlog row (mem_listRange.1 hrow).1
  have hget : P.getEvents s originHex lo hi = .ok events := by
    simp only [Prims.getEvents, hdec, if_neg hle, hevents]
  have hjson : eventsJson P.toVec events = .ok (.obj [("events", .arr js)]) := by
    rw [eventsJson, hjs, ok_bind]
    rfl
  have hbody : P.eventsBody s originHex lo hi = .ok (P.toVec.write (.obj [("events", .arr js)])) := by
    rw [Prims.eventsBody, hget, ok_bind, hjson]
  have hfield : (Json.obj [("events", .arr js)]).canon.get? "events"
      = some (.arr (Json.canonList js)) := by
    rw [Json.get?_canon _ _ (by simp)]
    simp [List.lookup, Json.canon]
  refine ⟨_, events', hbody, ?_, hall⟩
  rw [hJ.toVec.fromSlice_write, ok_bind, Prims.readEvents, Read.arr, hfield, ok_bind]
  exact hread

/-- A page that fits the client's limit reaches it. -/
theorem serve_events (hJ : JsonLaws P) (svc : SyncService H) {s : Store H} (hlog : LogStored P s)
    {originHex : String} {o : H} {lo hi : UInt64} (hdec : P.decodeHex32 originHex = some o)
    (hle : ¬ hi < lo) : ∃ body, P.eventsBody s originHex lo hi = .ok body ∧
      (body.length ≤ maxResponseBytes → ∃ events,
        (P.serve svc s).fetchEvents originHex lo hi = .ok events ∧
        List.Forall₂ (Stored P)
          (listRange s.events o lo.toInt64 (Prims.pageEnd lo.toInt64 hi.toInt64)) events) := by
  obtain ⟨body, events, hbody, hread, hall⟩ := eventsBody_reads hJ hlog hdec hle
  refine ⟨body, hbody, fun hsize => ⟨events, ?_, hall.imp fun _ _ h => h.stored⟩⟩
  simp only [Prims.serve, hbody, cappedJson_small hsize hread]

end OpenAgentGraph
