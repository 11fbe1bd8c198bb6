/-
  A pull from a peer that runs this code.

  `Pulled`: the pull appends events that the remote peer holds, and nothing
  else happens to the log.  In particular it records no fork: only what lies
  beyond the local head is asked for, so no event is ever offered at a
  sequence number that is taken.
-/
import OpenAgentGraph.Proof.Serve

namespace OpenAgentGraph

open Lib Repo

variable {H : Type} [DecidableEq H] {P : Prims H}

/-! ## The head of an origin -/

/-- The head sequence of an origin, 0 without a head row. -/
def headSequence (s : Store H) (o : H) : Int64 :=
  ((getOrigin s.eventOrigins o).map EventOriginRow.highestContiguousSequence).getD 0

theorem headSequence_eq {s : Store H} (hinv : ChainInv s) (o : H) :
    (headSequence s o).toInt = (chainOf s o).length := by
  rw [headSequence, hinv.heads, headOf]
  cases hlast : (chainOf s o).getLast? with
  | none =>
    rw [List.getLast?_eq_none_iff.1 hlast]
    rfl
  | some last => exact ((hinv.chain o).last_seq hlast).2

theorem seq_le_headSequence {s : Store H} (hinv : ChainInv s) {r : EventRow H} (hr : r ∈ s.events) :
    1 ≤ r.sequence.toInt ∧ r.sequence.toInt ≤ (headSequence s r.originPeerId).toInt := by
  rw [headSequence_eq hinv]
  exact (hinv.chain r.originPeerId).seq_bounds (mem_chainOf.2 ⟨hr, rfl⟩)

theorem lookup_localHeads (s : Store H) (o : H) :
    ((P.localHeads s).lookup (P.toHex o)).getD 0 = (headSequence s o).toUInt64 := by
  unfold Prims.localHeads headSequence getOrigin
  induction s.eventOrigins with
  | nil => rfl
  | cons r origins ih =>
    by_cases ho : r.originPeerId = o
    · subst ho
      simp [Table.find]
    · have hne : P.toHex o ≠ P.toHex r.originPeerId := fun h => ho (P.toHex_injective h).symm
      simp only [Table.find] at ih
      simp only [List.map_cons, List.lookup, beq_eq_false_iff_ne.2 hne, Table.find, List.find?_cons,
        ho, decide_false]
      exact ih

omit [DecidableEq H] in
theorem decodeHex32_toHex (o : H) : P.decodeHex32 (P.toHex o) = some o := by
  rw [Prims.decodeHex32, P.hashFromStr_toHex]
  rfl

/-- A head that another peer claims. -/
def HeadEntry (P : Prims H) (b : Store H) (e : String × UInt64) : Prop :=
  ∃ o, e = (P.toHex o, (headSequence b o).toUInt64) ∧ (getOrigin b.eventOrigins o).isSome

theorem headEntry_of_mem {b : Store H} (hu : HeadsUnique b) {e : String × UInt64}
    (he : e ∈ P.localHeads b) : HeadEntry P b e := by
  obtain ⟨row, hrow, rfl⟩ := List.mem_map.1 he
  have hfind : getOrigin b.eventOrigins row.originPeerId = some row := Table.find_of_nodup hu hrow
  refine ⟨row.originPeerId, ?_, by rw [hfind]; rfl⟩
  rw [headSequence, hfind]
  rfl

theorem toNat_toUInt64 {x : Int64} (hx : 0 ≤ x.toInt) : (x.toUInt64.toNat : ℤ) = x.toInt := by
  have hle : (0 : Int64) ≤ x := Int64.le_iff_toInt_le.2 (by simpa using hx)
  rw [Int64.toNat_toUInt64_of_le hle, Int64.toNatClampNeg, Int.toNat_of_nonneg hx]

/-- Sequence numbers are not negative, so the code's unsigned comparison is
    the signed one, and the number after a smaller one does not wrap. -/
theorem next_of_lt {x y : Int64} (hx : 0 ≤ x.toInt) (hy : 0 ≤ y.toInt)
    (h : x.toUInt64 < y.toUInt64) : x.toInt < y.toInt ∧
      (x.toUInt64 + 1).toInt64.toInt = x.toInt + 1 ∧ ¬ y.toUInt64 < x.toUInt64 + 1 := by
  have hlt : x.toInt < y.toInt := by
    have := UInt64.lt_iff_toNat_lt.1 h
    rw [← toNat_toUInt64 hx, ← toNat_toUInt64 hy]
    omega
  have hmax := y.toInt_lt
  refine ⟨hlt, toInt_next x (by omega), ?_⟩
  intro hc
  have h₁ := toNat_toUInt64 hx
  have h₂ := toNat_toUInt64 hy
  have hc := UInt64.lt_iff_toNat_lt.1 hc
  rw [UInt64.toNat_add] at hc
  have hone : (1 : UInt64).toNat = 1 := rfl
  omega

theorem headSequence_nonneg {s : Store H} (hinv : ChainInv s) (o : H) :
    0 ≤ (headSequence s o).toInt := by
  rw [headSequence_eq hinv]
  omega

theorem headSequence_appendRow (s : Store H) (row : EventRow H) (e : Effect H) :
    headSequence (appendRow s row e) row.originPeerId = row.sequence := by
  simp [headSequence, appendRow, getOrigin_advance]

/-! ## What a pull appends -/

/-- Events of the remote store `b` were appended, of origins in `S` only. -/
inductive Pulled (P : Prims H) (b : Store H) (S : H → Prop) : Store H → Store H → Prop
  | refl (s : Store H) : Pulled P b S s s
  | step {s s₁ s₂ : Store H} {rb : EventRow H} {t : Int64} {signed : SignedEvent} :
      Pulled P b S s s₁ → rb ∈ b.events → S rb.originPeerId →
      Appended P s₁ s₂ { rb with receivedAt := t } signed → Pulled P b S s s₂

theorem Pulled.trans {b s s₁ s₂ : Store H} {S : H → Prop} (h : Pulled P b S s s₁)
    (h' : Pulled P b S s₁ s₂) : Pulled P b S s s₂ := by
  induction h' with
  | refl => exact h
  | step _ hrb ho happ ih => exact ih.step hrb ho happ

theorem Pulled.mono {b s s' : Store H} {S S' : H → Prop} (h : Pulled P b S s s')
    (hS : ∀ o, S o → S' o) : Pulled P b S' s s' := by
  induction h with
  | refl => exact .refl s
  | step _ hrb ho happ ih => exact ih.step hrb (hS _ ho) happ

theorem Pulled.forks {b s s' : Store H} {S : H → Prop} (h : Pulled P b S s s') :
    s'.peerForks = s.peerForks := by
  induction h with
  | refl => rfl
  | step _ _ _ happ ih => rw [happ.eq]; exact ih

theorem Pulled.peers {b s s' : Store H} {S : H → Prop} (h : Pulled P b S s s') :
    s'.peers = s.peers := by
  induction h with
  | refl => rfl
  | step _ _ _ happ ih => rw [happ.eq]; exact ih

theorem Pulled.logInv {b s s' : Store H} {S : H → Prop} (h : Pulled P b S s s') (hinv : LogInv P s) :
    LogInv P s' := by
  induction h with
  | refl => exact hinv
  | step _ _ _ happ ih => exact ⟨happ.logStored ih.stored, happ.chainInv ih.chain⟩

theorem Pulled.mem_events {b s s' : Store H} {S : H → Prop} (h : Pulled P b S s s')
    {r : EventRow H} (hr : r ∈ s'.events) : r ∈ s.events ∨ S r.originPeerId := by
  induction h with
  | refl => exact Or.inl hr
  | step _ _ ho happ ih =>
    rw [happ.events_eq] at hr
    rcases List.mem_append.1 hr with hr | hr
    · exact ih hr
    · obtain rfl : r = _ := by simpa using hr
      exact Or.inr ho

/-! ## A page -/

/-- One event of a page, whose sequence number is free. -/
theorem ingest_page_step (hJ : JsonLaws P) (hinj : Function.Injective P.blake3) {s s' : Store H}
    (hlog : LogStored P s) {key : P.VerifyingKey} {rb : EventRow H} {signed : SignedEvent}
    {now : Int64} {outcome : IngestOutcome H} (hst : Stored P rb signed)
    (hfree : ∀ r ∈ s.events, r.originPeerId = rb.originPeerId → r.sequence ≠ rb.sequence)
    (h : P.ingestRemoteEvent s key signed now = .ok (s', outcome)) :
    (∃ id o, outcome = .applied id o) ∧
      Appended P s s' { rb with receivedAt := now } signed := by
  obtain ⟨eventId, previous, hver, horigin, hprev, hcases⟩ := ingest_ok h
  have ho : P.peerIdOfKey key = rb.originPeerId := Except.ok.inj (horigin.symm.trans hst.origin)
  have hnone : findEventIdAt s.events (P.peerIdOfKey key) signed.unsigned.sequence.toInt64 = none := by
    rw [findEventIdAt_eq_none]
    intro r hr heq
    obtain ⟨hro, hseq⟩ := Prod.mk.inj heq
    exact hfree r hr (hro.trans ho) (hseq.trans hst.sequence.symm)
  rcases hcases with ⟨hfind, -⟩ | ⟨existing, -, hfind, -⟩ | ⟨-, o, happly, rfl⟩
  · rw [hnone] at hfind; cases hfind
  · rw [hnone] at hfind; cases hfind
  · obtain ⟨row, happ, -, -, hat⟩ := apply_appended hJ hinj hlog hver horigin hprev hnone happly
    have hrow := hst.eq_of_payload hJ happ.stored
      (Except.ok.inj (hst.canonical.symm.trans happ.stored.canonical))
    rw [hat] at hrow
    exact ⟨⟨_, _, rfl⟩, hrow ▸ happ⟩

/-- The rest of a page lies above what was appended of it. -/
theorem Appended.below_page {s s' : Store H} {rb : EventRow H} {t : Int64} {signed : SignedEvent}
    (h : Appended P s s' { rb with receivedAt := t } signed) {rows : List (EventRow H)} {o : H}
    (hsorted : ∀ row ∈ rows, rb.sequence.toInt < row.sequence.toInt)
    (habove : ∀ r ∈ s.events, r.originPeerId = o → ∀ row ∈ rb :: rows,
      r.sequence.toInt < row.sequence.toInt) :
    ∀ r ∈ s'.events, r.originPeerId = o → ∀ row ∈ rows,
      r.sequence.toInt < row.sequence.toInt := by
  intro r hr hro row hrow
  rw [h.events_eq] at hr
  rcases List.mem_append.1 hr with hr | hr
  · exact habove r hr hro row (List.mem_cons_of_mem _ hrow)
  · obtain rfl : r = _ := by simpa using hr
    exact hsorted row hrow

/-- **A page of an honest peer** is appended up to the first event that is
    refused. -/
theorem ingestEvents_pulled {ε : Type} (hJ : JsonLaws P) (hinj : Function.Injective P.blake3)
    {b : Store H} {o : H} {key : P.VerifyingKey} {originHex : String} {now : Int64}
    {rows : List (EventRow H)} {events : List SignedEvent} (hall : List.Forall₂ (Stored P) rows events)
    (hrows : ∀ row ∈ rows, row ∈ b.events ∧ row.originPeerId = o)
    (hsorted : rows.Pairwise fun a c => a.sequence.toInt < c.sequence.toInt) {s : Store H}
    (hlog : LogStored P s) (habove : ∀ r ∈ s.events, r.originPeerId = o → ∀ row ∈ rows,
      r.sequence.toInt < row.sequence.toInt) (summary : SyncSummary ε) :
    Pulled P b (· = o) s (P.ingestEvents key originHex now s summary events).1 := by
  induction hall generalizing s summary with
  | nil => exact .refl s
  | @cons rb signed rows events hst hall ih =>
    obtain ⟨hhead, htail⟩ := List.pairwise_cons.1 hsorted
    obtain ⟨hrb, horb⟩ := hrows rb (List.mem_cons_self ..)
    have hfree : ∀ r ∈ s.events, r.originPeerId = rb.originPeerId → r.sequence ≠ rb.sequence := by
      intro r hr hro heq
      have := habove r hr (hro.trans horb) rb (List.mem_cons_self ..)
      rw [heq] at this
      omega
    unfold Prims.ingestEvents
    split
    · rename_i s₁ _ _ hing
      obtain ⟨-, happ⟩ := ingest_page_step hJ hinj hlog hst hfree hing
      have hrest := ih (fun row hrow => hrows row (List.mem_cons_of_mem _ hrow)) htail
        (happ.logStored hlog) (happ.below_page hhead habove)
        { summary with applied := summary.applied + 1 }
      exact ((Pulled.refl s).step hrb horb happ).trans hrest
    · rename_i hing
      obtain ⟨⟨id, oc, hout⟩, -⟩ := ingest_page_step hJ hinj hlog hst hfree hing
      cases hout
    · rename_i hing
      obtain ⟨⟨id, oc, hout⟩, -⟩ := ingest_page_step hJ hinj hlog hst hfree hing
      cases hout
    · exact .refl s

/-! ## The round -/

/-- One origin of a pull from an honest peer.  `s₀` is the store whose heads
    were listed before the loop; the origin's events are still those. -/
theorem pullOrigin_pulled (hJ : JsonLaws P) (hinj : Function.Injective P.blake3) {b s₀ s : Store H}
    (hb : LogInv P b) (h₀ : ChainInv s₀) (hlog : LogStored P s) {svc : SyncService H}
    {allows : Store H → H → Bool} {remoteId : H} {remoteKey : P.VerifyingKey} {now : Int64} {o : H}
    (hsame : ∀ r ∈ s.events, r.originPeerId = o → r ∈ s₀.events)
    (summary : SyncSummary SyncClientError) :
    Pulled P b (· = o) s (P.pullOrigin allows (P.serve svc b) remoteId remoteKey (P.localHeads s₀) now
      s summary (P.toHex o) (headSequence b o).toUInt64).1 := by
  simp only [Prims.pullOrigin, decodeHex32_toHex, lookup_localHeads]
  split
  · exact .refl s
  split
  · exact .refl s
  rename_i hlt
  obtain ⟨-, hlo, hle⟩ := next_of_lt (headSequence_nonneg h₀ o) (headSequence_nonneg hb.chain o)
    (UInt64.not_le.1 hlt)
  split
  · exact .refl s
  · exact .refl s
  split
  · exact .refl s
  rename_i events hfetch
  obtain ⟨body, hbody, hpage⟩ := serve_events hJ svc hb.stored (decodeHex32_toHex o) hle
  have hsize : body.length ≤ maxResponseBytes := by
    by_contra hlarge
    simp only [Prims.serve, hbody, cappedJson_large (not_le.1 hlarge)] at hfetch
    cases hfetch
  obtain ⟨events', hfetch', hall⟩ := hpage hsize
  obtain rfl : events = events' := Except.ok.inj (hfetch.symm.trans hfetch')
  refine ingestEvents_pulled hJ hinj hall ?_ (listRange_sorted hb.chain o _ _) hlog ?_ summary
  · intro row hrow
    obtain ⟨hmem, ho, -⟩ := mem_listRange.1 hrow
    exact ⟨hmem, ho⟩
  · intro r hr ho row hrow
    obtain ⟨-, -, hge, -⟩ := mem_listRange.1 hrow
    have hseq := (seq_le_headSequence h₀ (hsame r hr ho)).2
    have hge := Int64.le_iff_toInt_le.1 hge
    rw [ho] at hseq
    omega

/-- **The pull loop appends events of the remote peer**, of the origins it
    claims heads for. -/
theorem pullLoop_pulled (hJ : JsonLaws P) (hinj : Function.Injective P.blake3) {b s₀ : Store H}
    (hb : LogInv P b) (h₀ : LogInv P s₀) {svc : SyncService H} {allows : Store H → H → Bool}
    {remoteId : H} {remoteKey : P.VerifyingKey} {now : Int64} {claimed : List (String × UInt64)}
    (hentries : ∀ e ∈ claimed, HeadEntry P b e) (hnd : (claimed.map Prod.fst).Nodup) {S : H → Prop}
    {s : Store H} (hs : Pulled P b S s₀ s) (hnew : ∀ o, P.toHex o ∈ claimed.map Prod.fst → ¬ S o)
    (summary : SyncSummary SyncClientError) :
    Pulled P b (fun o => P.toHex o ∈ claimed.map Prod.fst) s
      (P.pullLoop allows (P.serve svc b) remoteId remoteKey (P.localHeads s₀) now s summary
        claimed).1 := by
  induction claimed generalizing S s summary with
  | nil => exact .refl s
  | cons e claimed ih =>
    obtain ⟨hnot, htail⟩ := List.nodup_cons.1 hnd
    obtain ⟨o, rfl, -⟩ := hentries e (List.mem_cons_self ..)
    have hsame : ∀ r ∈ s.events, r.originPeerId = o → r ∈ s₀.events := by
      intro r hr ho
      rcases hs.mem_events hr with hr | hS
      · exact hr
      · exact absurd (ho ▸ hS) (hnew o (List.mem_cons_self ..))
    have hone : Pulled P b (· = o) s (P.pullOrigin allows (P.serve svc b) remoteId remoteKey
        (P.localHeads s₀) now s summary (P.toHex o) (headSequence b o).toUInt64).1 :=
      pullOrigin_pulled hJ hinj hb h₀.chain (hs.logInv h₀).stored hsame summary
    have hfirst : ∀ {s₁ : Store H}, Pulled P b (· = o) s s₁ → Pulled P b
        (fun x => P.toHex x ∈ ((P.toHex o, (headSequence b o).toUInt64) :: claimed).map Prod.fst)
        s s₁ := by
      intro s₁ hp
      refine hp.mono ?_
      rintro x rfl
      exact List.mem_cons_self ..
    unfold Prims.pullLoop
    split
    · rename_i herr
      rw [herr] at hone
      exact hfirst hone
    · rename_i hok
      rw [hok] at hone
      have hafter : Pulled P b (fun x => S x ∨ x = o) s₀ _ :=
        (hs.mono fun _ hx => Or.inl hx).trans (hone.mono fun _ hx => Or.inr hx)
      refine (hfirst hone).trans ((ih (fun e he => hentries e (List.mem_cons_of_mem _ he)) htail
        hafter ?_ _).mono fun x hx => List.mem_cons_of_mem _ hx)
      rintro x hx (hS | rfl)
      · exact hnew x (List.mem_cons_of_mem _ hx) hS
      · exact hnot hx

/-- A round with an honest peer changes the log by appending events of that peer. -/
theorem syncWithPeer_pulled (hJ : JsonLaws P) (hinj : Function.Injective P.blake3) {a b : Store H}
    (ha : LogInv P a) (hb : PeerInv P b) (svc svcB : SyncService H) (address : String)
    (now : Int64) : ∃ a₁, PeersOnly a a₁ ∧ Pulled P b (fun _ => True) a₁
      (P.syncWithPeer svc address (P.serve svcB b) now a).1 := by
  rcases syncWithPeer_cases (P := P) svc address (P.serve svcB b) now a with
    ⟨e, herr⟩ | ⟨hello, key, hhello, -, hround⟩
  · rw [herr]
    exact ⟨a, .refl a, .refl a⟩
  · have hpeers := afterHello_peersOnly (P := P) svc address (P.serve svcB b) now a hello key
    refine ⟨_, hpeers, ?_⟩
    have hperm : (svc.mapOrder.order hello.heads).Perm (P.localHeads b) := by
      obtain ⟨h, hread, hof⟩ := readHello_eq hJ svcB hb.heads
      have hsize : (P.helloBody svcB b).length ≤ maxResponseBytes := by
        by_contra hlarge
        simp only [Prims.serve, cappedJson_large (not_le.1 hlarge)] at hhello
        cases hhello
      have heq := cappedJson_small hsize hread
      obtain rfl : h = hello := Except.ok.inj (heq.symm.trans hhello)
      exact (svc.mapOrder.perm _).trans hof.heads
    have hentries : ∀ e ∈ svc.mapOrder.order hello.heads, HeadEntry P b e :=
      fun e he => headEntry_of_mem hb.heads (hperm.mem_iff.1 he)
    have hnd : ((svc.mapOrder.order hello.heads).map Prod.fst).Nodup :=
      (hperm.map Prod.fst).nodup_iff.2 (nodup_localHeads hb.heads)
    rw [hround, roundOf_fst]
    refine Pulled.mono (pullLoop_pulled hJ hinj hb.log (ha.peersOnly hpeers) hentries hnd
      (S := fun _ => False) (Pulled.refl _) (fun _ _ h => h) {}) fun _ _ => trivial

/-- **A pull detects no fork.**  Whatever two peers that run this code hold,
    and however long the branches of an origin are, a round of the one with
    the other leaves a fork row for the origin exactly when there was one
    before. -/
theorem pull_detects_fork_iff (P : Prims H) (hJ : JsonLaws P) (hinj : Function.Injective P.blake3)
    (opsA opsB : List (SyncOp P)) (svcA svcB : SyncService H) (address : String) (now : Int64)
    (o : H) :
    (∃ f ∈ (P.syncWithPeer svcA address (P.serve svcB (P.syncRun Store.empty opsB)) now
      (P.syncRun Store.empty opsA)).1.peerForks, f.peerId = o) ↔
    ∃ f ∈ (P.syncRun Store.empty opsA).peerForks, f.peerId = o := by
  obtain ⟨a₁, hpeers, hpulled⟩ := syncWithPeer_pulled hJ hinj (peerInv_run hJ hinj opsA).log
    (peerInv_run hJ hinj opsB) svcA svcB address now
  rw [hpulled.forks, hpeers.eq]

/-! ## An origin with two first events -/

/-- The settings of a peer that stores events of every origin. -/
def openService (P : Prims H) (identity : Prims.PeerIdentity) : SyncService H where
  selfPeerId := identity.peerId P
  selfPublicKey := (identity.verifyingKey P).bytes
  federation := .anyOrigin
  trusted := none
  ownCluster := none
  mapOrder := ⟨id, MapOrder.perm_id⟩

omit [DecidableEq H] in
theorem decodeKey32_hexEncode (key : P.VerifyingKey) :
    Prims.decodeKey32 (hexEncode key.bytes) = some key.bytes := by
  rw [Prims.decodeKey32, hexDecode_hexEncode]
  exact if_pos (VerifyingKey_length key)

/-- The identity in an honest hello is accepted. -/
theorem remoteIdentity_eq {h : HelloResponse} (key : P.VerifyingKey)
    (hid : h.peerId = P.peerIdToString (P.peerIdOfKey key)) (hkey : h.publicKey = hexEncode key.bytes) :
    P.remoteIdentity h = .ok (P.peerIdOfKey key, key) := by
  rw [Prims.remoteIdentity, hid, P.peerIdFromStr_peerIdToString, hkey]
  simp [decodeKey32_hexEncode, keyFromBytes_bytes]

/-- The service's settings are those of the key's peer. -/
structure SyncService.Of (svc : SyncService H) (key : P.VerifyingKey) : Prop where
  selfPeerId : svc.selfPeerId = P.peerIdOfKey key
  selfPublicKey : svc.selfPublicKey = key.bytes

/-- The round with an honest peer whose hello fits. -/
theorem syncWithPeer_serve (hJ : JsonLaws P) {b : Store H} (hb : HeadsUnique b)
    {svcB : SyncService H} {key : P.VerifyingKey} (hself : svcB.Of key)
    (hsize : (P.helloBody svcB b).length ≤ maxResponseBytes) (svc : SyncService H)
    (address : String) (now : Int64) (a : Store H) :
    ∃ a₁ claimed, PeersOnly a a₁ ∧ claimed.Perm (P.localHeads b) ∧
      P.syncWithPeer svc address (P.serve svcB b) now a
        = roundOf (P.pullLoop (fun s origin => svc.federationAllows s origin now) (P.serve svcB b)
            (P.peerIdOfKey key) key (P.localHeads a₁) now a₁ {} claimed) := by
  obtain ⟨h, hhello, hof⟩ := serve_hello hJ svcB hb hsize
  have hid : P.remoteIdentity h = .ok (P.peerIdOfKey key, key) :=
    remoteIdentity_eq key (by rw [hof.peerId, hself.selfPeerId])
      (by rw [hof.publicKey, hself.selfPublicKey])
  exact ⟨_, _, afterHello_peersOnly svc address (P.serve svcB b) now a h key,
    (svc.mapOrder.perm _).trans hof.heads, syncWithPeer_loop svc address now a hhello hid⟩

omit [DecidableEq H] in
theorem openService_of (identity : Prims.PeerIdentity) :
    (openService P identity).Of (identity.verifyingKey P) := ⟨rfl, rfl⟩

theorem openService_allows (identity : Prims.PeerIdentity) (s : Store H) (o : H) (now : Int64) :
    (openService P identity).federationAllows s o now = true := by
  simp [SyncService.federationAllows, SyncService.sameCluster, openService, FederationPolicy.allows]

section fork

variable (P : Prims H) (origin : Prims.PeerIdentity)

/-- A remote that says who it is and has nothing. -/
def helloOnly : Remote SyncClientError where
  hello := .ok ⟨syncProtocol, syncVersion, P.peerIdToString (origin.peerId P),
    hexEncode (origin.verifyingKey P).bytes, []⟩
  fetchEvents := fun _ _ _ => .error .http
  fetchPeers := .error .http

/-- The origin's other first event. -/
def otherEvent : SignedEvent := P.eventOf origin 1 none 2 declarePayload

/-- One peer meets the origin and receives its first event; another receives
    the origin's other first event. -/
def firstOps (me : Prims.PeerIdentity) : List (SyncOp P) :=
  [.pull (openService P me) "http://c" (helloOnly P origin) 3,
    .store (.ingest (origin.verifyingKey P) (declareEvent P origin) 5)]

def otherOps : List (SyncOp P) := [.store (.ingest (origin.verifyingKey P) (otherEvent P origin) 5)]

variable {P origin}

/-- The store of a peer that has met the origin and has no event. -/
def metStore (P : Prims H) (origin : Prims.PeerIdentity) : Store H :=
  { Store.empty with
    peers := [⟨origin.peerId P, (origin.verifyingKey P).bytes, none, 3, some 3, false⟩]
    peerAddresses := [⟨origin.peerId P, "http://c"⟩] }

theorem helloOnly_round (me : Prims.PeerIdentity) :
    P.syncStep Store.empty (.pull (openService P me) "http://c" (helloOnly P origin) 3)
      = metStore P origin := by
  have hid : P.remoteIdentity ⟨syncProtocol, syncVersion, P.peerIdToString (origin.peerId P),
      hexEncode (origin.verifyingKey P).bytes, []⟩
        = .ok (P.peerIdOfKey (origin.verifyingKey P), origin.verifyingKey P) :=
    remoteIdentity_eq _ rfl rfl
  simp only [Prims.syncStep, Prims.syncWithPeer, helloOnly, hid]
  simp [recordHello, addAddress, Prims.decodedHeads, openService, Prims.discoverPeers, Prims.pullLoop,
    upsertPeer, Table.upsert, Table.hasKey, Table.insertOrIgnore, requireKey, metStore, Store.empty,
    Prims.PeerIdentity.peerId]

theorem knownKey_metStore :
    P.knownKey (metStore P origin) (origin.peerId P) = some (origin.verifyingKey P) := by
  have hget : getPeer (metStore P origin).peers (origin.peerId P)
      = .ok (some ⟨origin.peerId P, (origin.verifyingKey P).bytes, some 3, false⟩) := by
    simp [getPeer, metStore, Table.find, rowToInfo, VerifyingKey_length]
  rw [Prims.knownKey, hget]
  exact keyFromBytes_bytes _

theorem logInv_metStore : LogInv P (metStore P origin) :=
  ⟨fun _ hr => (by cases hr), ⟨fun _ => .nil, fun _ => rfl⟩⟩

/-- A first event of the origin is stored. -/
theorem ingest_first (hJ : JsonLaws P) (hinj : Function.Injective P.blake3)
    (hsign : SignsCorrectly P origin) {s : Store H} (hinv : LogInv P s) (hevents : s.events = [])
    (hheads : s.eventOrigins = []) (t : Int64) :
    P.step s (.ingest (origin.verifyingKey P) (P.eventOf origin 1 none t declarePayload) 5)
      = appendRow s (P.rowOf (P.eventOf origin 1 none t declarePayload) (origin.peerId P) none 5)
          (P.effect (P.eventOf origin 1 none t declarePayload)) := by
  have hadm : (P.effect (P.eventOf origin 1 none t declarePayload)).Admissible s.proj :=
    declareAt_admissible origin 1 none t s.proj
  have hnext : Prims.nextOf (getOrigin s.eventOrigins (P.peerIdOfKey (origin.verifyingKey P)))
      = (1, none) := by rw [hheads]; rfl
  have hfin : declarePayload.Finite := trivial
  have hver : Verified P (origin.verifyingKey P) (P.eventOf origin 1 none t declarePayload)
      (P.idOf (P.eventOf origin 1 none t declarePayload)) := eventOf_verified hJ hfin hsign
  obtain ⟨o, h⟩ := ingest_apply hJ hinj hinv (by rw [hevents]; simp [maxRows]) 5 hver
    (P.peerIdFromStr_peerIdToString _) (parsePreviousEvent_toHex none) hnext
    (effectOf_eq_effect rfl) hadm
  exact P.step_ingest h

theorem run_firstOps (hJ : JsonLaws P) (hinj : Function.Injective P.blake3)
    (hsign : SignsCorrectly P origin) (me : Prims.PeerIdentity) :
    P.syncRun Store.empty (firstOps P origin me)
      = appendRow (metStore P origin) (P.rowOf (declareEvent P origin) (origin.peerId P) none 5)
          (P.effect (declareEvent P origin)) := by
  simp only [Prims.syncRun, firstOps, List.foldl_cons, List.foldl_nil, helloOnly_round]
  exact ingest_first hJ hinj hsign logInv_metStore rfl rfl 1

theorem run_otherOps (hJ : JsonLaws P) (hinj : Function.Injective P.blake3)
    (hsign : SignsCorrectly P origin) :
    P.syncRun Store.empty (otherOps P origin)
      = appendRow Store.empty (P.rowOf (otherEvent P origin) (origin.peerId P) none 5)
          (P.effect (otherEvent P origin)) := by
  simp only [Prims.syncRun, otherOps, List.foldl_cons, List.foldl_nil]
  exact ingest_first hJ hinj hsign peerInv_empty.log rfl rfl 2

/-- With equal heads there is nothing to ask for. -/
theorem pullLoop_equal_heads {a b : Store H} {o : H} (allows : Store H → H → Bool)
    (remote : Remote SyncClientError) (remoteId : H) (remoteKey : P.VerifyingKey) (now : Int64)
    (summary : SyncSummary SyncClientError) (hheads : headSequence a o = headSequence b o) :
    P.pullLoop allows remote remoteId remoteKey (P.localHeads a) now a summary
      [(P.toHex o, (headSequence b o).toUInt64)] = (a, .ok summary) := by
  simp only [Prims.pullLoop, Prims.pullOrigin, decodeHex32_toHex, lookup_localHeads, hheads]
  split
  · rename_i h
    split at h <;> simp_all
  · rename_i h
    split at h <;> simp_all

/-- **A fork that the pull does not see**: both peers hold one event of the
    origin, not the same one, and the round finds nothing to do. -/
theorem round_sees_no_fork (hJ : JsonLaws P) (hinj : Function.Injective P.blake3)
    (hsign : SignsCorrectly P origin) (me other : Prims.PeerIdentity)
    (hsize : (P.helloBody (openService P other) (P.syncRun Store.empty (otherOps P origin))).length
      ≤ maxResponseBytes) (now : Int64) :
    ∃ s, P.syncWithPeer (openService P me) "http://b" (P.serve (openService P other)
        (P.syncRun Store.empty (otherOps P origin))) now
        (P.syncRun Store.empty (firstOps P origin me)) = (s, .ok {}) ∧ s.peerForks = [] := by
  have hb := (peerInv_run hJ hinj (otherOps P origin)).heads
  obtain ⟨a₁, claimed, hpeers, hperm, hround⟩ := syncWithPeer_serve hJ hb (openService_of other)
    hsize (openService P me) "http://b" now (P.syncRun Store.empty (firstOps P origin me))
  rw [run_otherOps hJ hinj hsign] at hperm hround
  rw [run_firstOps hJ hinj hsign me] at hpeers hround
  have hheads : P.localHeads (appendRow Store.empty
      (P.rowOf (otherEvent P origin) (origin.peerId P) none 5) (P.effect (otherEvent P origin)))
      = [(P.toHex (origin.peerId P), (headSequence (appendRow Store.empty
        (P.rowOf (otherEvent P origin) (origin.peerId P) none 5) (P.effect (otherEvent P origin)))
        (origin.peerId P)).toUInt64)] := by
    have hrow := headSequence_appendRow Store.empty
      (P.rowOf (otherEvent P origin) (origin.peerId P) none 5) (P.effect (otherEvent P origin))
    simp only [Prims.rowOf] at hrow
    rw [Prims.rowOf, hrow]
    rfl
  rw [hheads, List.perm_singleton] at hperm
  have hsame : headSequence a₁ (origin.peerId P) = headSequence (appendRow Store.empty
      (P.rowOf (otherEvent P origin) (origin.peerId P) none 5) (P.effect (otherEvent P origin)))
      (origin.peerId P) := by
    rw [hpeers.eq]
    have h₁ := headSequence_appendRow (metStore P origin)
      (P.rowOf (declareEvent P origin) (origin.peerId P) none 5) (P.effect (declareEvent P origin))
    have h₂ := headSequence_appendRow Store.empty
      (P.rowOf (otherEvent P origin) (origin.peerId P) none 5) (P.effect (otherEvent P origin))
    exact h₁.trans h₂.symm
  rw [hperm, pullLoop_equal_heads _ _ _ _ _ _ hsame] at hround
  rw [run_otherOps hJ hinj hsign, run_firstOps hJ hinj hsign me]
  refine ⟨a₁, hround, ?_⟩
  rw [hpeers.eq]
  rfl

theorem first_ne_other (hJ : JsonLaws P) (hinj : Function.Injective P.blake3)
    (hsign : SignsCorrectly P origin) (me : Prims.PeerIdentity) :
    P.idOf (declareEvent P origin) ≠ P.idOf (otherEvent P origin) := by
  intro heq
  have hfirst := (peerInv_run hJ hinj (firstOps P origin me)).log.stored
  have hother := (peerInv_run hJ hinj (otherOps P origin)).log.stored
  rw [run_firstOps hJ hinj hsign me] at hfirst
  rw [run_otherOps hJ hinj hsign] at hother
  obtain ⟨e, he⟩ := hfirst (P.rowOf (declareEvent P origin) (origin.peerId P) none 5)
    (List.mem_append_right _ (List.mem_singleton.2 rfl))
  obtain ⟨e', he'⟩ := hother (P.rowOf (otherEvent P origin) (origin.peerId P) none 5)
    (List.mem_append_right _ (List.mem_singleton.2 rfl))
  have hrow := he.eq_of_eventId hJ hinj he' heq
  have hat : (2 : Int64) = 1 := congrArg EventRow.createdAt hrow
  exact absurd hat (by decide)

end fork

/-- The store of a peer that holds the origin's first event, and of one that
    holds its other first event. -/
noncomputable def firstState : Store Bytes :=
  idealOpen.syncRun Store.empty (firstOps idealOpen peerC peerA)

noncomputable def otherState : Store Bytes := idealOpen.syncRun Store.empty (otherOps idealOpen peerC)

theorem pull_detects_fork_iff_two_first :
    (∃ f ∈ (idealOpen.syncWithPeer (openService idealOpen peerA) "http://b"
      (idealOpen.serve (openService idealOpen peerB) otherState) 7 firstState).1.peerForks,
      f.peerId = peerC.peerId idealOpen) ↔
    ∃ f ∈ firstState.peerForks, f.peerId = peerC.peerId idealOpen :=
  pull_detects_fork_iff idealOpen idealOpen_laws idealOpen_injective _ _ _ _ _ _ _

theorem otherState_heads :
    idealOpen.localHeads otherState = [(idealOpen.toHex (peerC.peerId idealOpen), 1)] := by
  rw [otherState, run_otherOps idealOpen_laws idealOpen_injective (idealOpen_signsCorrectly peerC)]
  rfl

theorem otherState_hello :
    (idealOpen.helloBody (openService idealOpen peerB) otherState).length ≤ maxResponseBytes := by
  simp only [Prims.helloBody, Prims.hello, otherState_heads, openService]
  simp only [idealOpen, ideal_toVec, Prims.peerIdToString, ideal_digestBytes, Prims.toHex,
    Prims.PeerIdentity.peerId, Prims.peerIdOfKey, Prims.PeerIdentity.verifyingKey, ideal_blake3,
    ideal_publicKey]
  decide +kernel

/-- Two peers hold different first events of one origin, both signed with its
    key; a round of the one with the other finds nothing to do. -/
theorem fork_not_detected :
    (∃ r ∈ firstState.events, ∃ r' ∈ otherState.events, r.originPeerId = peerC.peerId idealOpen ∧
      r'.originPeerId = peerC.peerId idealOpen ∧ r.sequence = r'.sequence ∧ r.eventId ≠ r'.eventId ∧
      idealOpen.verifyAndDeriveId (declareEvent idealOpen peerC) (peerC.verifyingKey idealOpen)
        = .ok r.eventId ∧
      idealOpen.verifyAndDeriveId (otherEvent idealOpen peerC) (peerC.verifyingKey idealOpen)
        = .ok r'.eventId ∧ r.sequence ≤ headSequence otherState (peerC.peerId idealOpen)) ∧
    (∀ s, (openService idealOpen peerA).federationAllows s (peerC.peerId idealOpen) 7 = true) ∧
    idealOpen.knownKey firstState (peerC.peerId idealOpen) = some (peerC.verifyingKey idealOpen) ∧
    ∃ s, idealOpen.syncWithPeer (openService idealOpen peerA) "http://b"
      (idealOpen.serve (openService idealOpen peerB) otherState) 7 firstState = (s, .ok {}) ∧
      s.peerForks = [] := by
  have hsign := idealOpen_signsCorrectly peerC
  have hfirst := run_firstOps idealOpen_laws idealOpen_injective hsign peerA
  have hother := run_otherOps idealOpen_laws idealOpen_injective hsign
  have hfin : declarePayload.Finite := trivial
  refine ⟨⟨idealOpen.rowOf (declareEvent idealOpen peerC) (peerC.peerId idealOpen) none 5, ?_,
    idealOpen.rowOf (otherEvent idealOpen peerC) (peerC.peerId idealOpen) none 5, ?_, rfl, rfl, rfl,
    first_ne_other idealOpen_laws idealOpen_injective hsign peerA,
    verify_ok.2 (eventOf_verified idealOpen_laws hfin hsign),
    verify_ok.2 (eventOf_verified idealOpen_laws hfin hsign), ?_⟩,
    fun s => openService_allows peerA s _ 7, ?_,
    round_sees_no_fork idealOpen_laws idealOpen_injective hsign peerA peerB otherState_hello 7⟩
  · rw [firstState, hfirst]
    exact List.mem_append_right _ (List.mem_singleton.2 rfl)
  · rw [otherState, hother]
    exact List.mem_append_right _ (List.mem_singleton.2 rfl)
  · have hhead := headSequence_appendRow Store.empty
      (idealOpen.rowOf (otherEvent idealOpen peerC) (peerC.peerId idealOpen) none 5)
      (idealOpen.effect (otherEvent idealOpen peerC))
    rw [otherState, hother]
    exact Int64.le_of_eq hhead.symm
  · rw [firstState, hfirst]
    exact knownKey_metStore

end OpenAgentGraph
