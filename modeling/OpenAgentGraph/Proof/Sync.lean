/-
  Synchronization as a sequence of ingestions.

  A push and a pull act on the store in two ways only (`Reach`): they record
  other peers, and they offer events to `ingestRemoteEvent`.  So whatever
  these two keep, every run keeps (`syncRun_induction`): the log invariant,
  and the authenticity of every stored event.
-/
import OpenAgentGraph.Proof.Forward
import OpenAgentGraph.Sync.Run

namespace OpenAgentGraph

open Lib Repo

variable {H : Type} [DecidableEq H] {P : Prims H}

/-! ## What is known about peers -/

/-- Every stored key has the length of a key. -/
def KeyLengths (peers : List (PeerRow H)) : Prop := ∀ r ∈ peers, r.publicKey.length = 32

/-- The key stored for a peer stays. -/
def KeepsKeys (peers peers' : List (PeerRow H)) : Prop :=
  ∀ o row, Table.find PeerRow.peerId o peers = some row →
    ∃ row', Table.find PeerRow.peerId o peers' = some row' ∧ row'.publicKey = row.publicKey

/-- Only what is known about other peers changed, and no stored key. -/
structure PeersOnly (s s' : Store H) : Prop where
  eq : s' = { s with
    peers := s'.peers, peerAddresses := s'.peerAddresses, peerKnownHeads := s'.peerKnownHeads }
  lengths : KeyLengths s.peers → KeyLengths s'.peers
  keeps : KeepsKeys s.peers s'.peers

theorem KeepsKeys.refl (peers : List (PeerRow H)) : KeepsKeys peers peers :=
  fun _ row h => ⟨row, h, rfl⟩

theorem KeepsKeys.trans {t t₁ t₂ : List (PeerRow H)} (h : KeepsKeys t t₁) (h' : KeepsKeys t₁ t₂) :
    KeepsKeys t t₂ := by
  intro o row hrow
  obtain ⟨row₁, hrow₁, hkey₁⟩ := h o row hrow
  obtain ⟨row₂, hrow₂, hkey₂⟩ := h' o row₁ hrow₁
  exact ⟨row₂, hrow₂, hkey₂.trans hkey₁⟩

theorem PeersOnly.refl (s : Store H) : PeersOnly s s := ⟨rfl, id, .refl _⟩

theorem PeersOnly.trans {s s₁ s₂ : Store H} (h : PeersOnly s s₁) (h' : PeersOnly s₁ s₂) :
    PeersOnly s s₂ := by
  refine ⟨?_, fun hl => h'.lengths (h.lengths hl), h.keeps.trans h'.keeps⟩
  rw [h'.eq, h.eq]

theorem keyLengths_upsertPeer {peers : List (PeerRow H)} (h : KeyLengths peers) {id : H} {pk : Bytes}
    (hpk : pk.length = 32) (name : Option String) (now : Int64) :
    KeyLengths (upsertPeer peers id pk name now) := by
  intro r hr
  rcases Table.mem_upsert.1 hr with ⟨z, hz, rfl⟩ | ⟨rfl, -⟩
  · split
    · exact h z hz
    · exact h z hz
  · exact hpk

theorem keepsKeys_upsertPeer (peers : List (PeerRow H)) (id : H) (pk : Bytes) (name : Option String)
    (now : Int64) : KeepsKeys peers (upsertPeer peers id pk name now) :=
  fun _ _ hrow => Table.find_upsert_keeps (fun _ => rfl) (fun _ => rfl) hrow

theorem keyLengths_markForked {peers : List (PeerRow H)} (h : KeyLengths peers) (id : H) :
    KeyLengths (markForked peers id) := by
  intro r hr
  obtain ⟨z, hz, rfl⟩ := Table.mem_updateWhere.1 hr
  split
  · exact h z hz
  · exact h z hz

theorem upsertPeer_peersOnly (s : Store H) (id : H) {pk : Bytes} (hpk : pk.length = 32)
    (now : Int64) : PeersOnly s { s with peers := upsertPeer s.peers id pk none now } :=
  ⟨rfl, fun h => keyLengths_upsertPeer h hpk none now, keepsKeys_upsertPeer _ _ _ _ _⟩

theorem addresses_peersOnly (s : Store H) (t : List (PeerAddressRow H)) :
    PeersOnly s { s with peerAddresses := t } := ⟨rfl, id, .refl _⟩

theorem recordHello_peersOnly (s : Store H) (id : H) {pk : Bytes} (hpk : pk.length = 32)
    (address : String) (heads : List (H × UInt64)) (now : Int64) :
    PeersOnly s (recordHello s id pk address heads now).1 := by
  have hup := upsertPeer_peersOnly s id hpk now
  unfold recordHello
  simp only
  split
  · exact hup
  · exact hup.trans ⟨rfl, fun h => h, .refl _⟩

/-- Right after the upsert the peer has a row: no foreign key is broken. -/
theorem recordHello_ok (s : Store H) (id : H) (pk : Bytes) (address : String)
    (heads : List (H × UInt64)) (now : Int64) :
    (recordHello s id pk address heads now).2 = .ok () := by
  have hrow : Table.hasKey PeerRow.peerId id (upsertPeer s.peers id pk none now) = true := by
    refine Table.hasKey_iff.2 ?_
    by_cases h : ∃ z ∈ s.peers, z.peerId = id
    · obtain ⟨z, hz, hzid⟩ := h
      refine ⟨_, Table.mem_upsert.2 (Or.inl ⟨z, hz, rfl⟩), ?_⟩
      rw [if_pos hzid]
      exact hzid
    · push Not at h
      exact ⟨_, Table.mem_upsert.2 (Or.inr ⟨rfl, h⟩), rfl⟩
  simp only [recordHello, addAddress, hrow, requireKey, Bool.or_true, if_true]
  rfl

theorem learnPeer_peersOnly (s : Store H) (id : H) {pk : Bytes} (hpk : pk.length = 32)
    (addresses : List String) (now : Int64) : PeersOnly s (learnPeer s id pk addresses now) := by
  rw [learnPeer]
  refine List.foldlRecOn _ _ (motive := PeersOnly s) (upsertPeer_peersOnly s id hpk now) ?_
  intro t ht a _
  refine ht.trans ?_
  split
  · exact addresses_peersOnly t _
  · exact .refl t

omit [DecidableEq H] in
theorem decodeKey32_length {text : String} {b : Bytes} (h : Prims.decodeKey32 text = some b) :
    b.length = 32 := by
  unfold Prims.decodeKey32 at h
  split at h
  · split at h
    · rename_i hlen
      cases h
      exact hlen
    · cases h
  · cases h

theorem discoverPeer_peersOnly (svc : SyncService H) (now : Int64) (s : Store H) (r : PeerRecord) :
    PeersOnly s (P.discoverPeer svc now s r) := by
  unfold Prims.discoverPeer
  split
  · rename_i hpk
    split
    · exact .refl s
    · split
      · exact .refl s
      · split
        · exact .refl s
        · exact learnPeer_peersOnly s _ (decodeKey32_length hpk) _ _
  · exact .refl s

theorem reticulum_discoverPeer_peersOnly (now : Int64) (s : Store H) (r : PeerRecord) :
    PeersOnly s (Prims.Reticulum.discoverPeer P now s r) := by
  unfold Prims.Reticulum.discoverPeer
  split
  · rename_i hpk
    exact learnPeer_peersOnly s _ (decodeKey32_length hpk) _ _
  · exact .refl s

theorem foldl_peersOnly {f : Store H → PeerRecord → Store H} (hf : ∀ s r, PeersOnly s (f s r))
    (l : List PeerRecord) (s : Store H) : PeersOnly s (l.foldl f s) := by
  induction l generalizing s with
  | nil => exact .refl s
  | cons r l ih => exact (hf s r).trans (ih _)

theorem discoverPeers_peersOnly {ε : Type} (svc : SyncService H) (remote : Remote ε) (now : Int64)
    (s : Store H) : PeersOnly s (P.discoverPeers svc remote now s) := by
  unfold Prims.discoverPeers
  split
  · exact .refl s
  · split
    · exact .refl s
    · exact foldl_peersOnly (discoverPeer_peersOnly svc now) _ s

theorem reticulum_discoverPeers_peersOnly (remote : Remote ReticulumError) (now : Int64)
    (s : Store H) : PeersOnly s (Prims.Reticulum.discoverPeers P remote now s) := by
  unfold Prims.Reticulum.discoverPeers
  split
  · exact .refl s
  · exact foldl_peersOnly (reticulum_discoverPeer_peersOnly now) _ s

/-! ## Pushes and pulls -/

/-- **What synchronization does**: it records peers and offers events. -/
inductive Reach (P : Prims H) : Store H → Store H → Prop
  | refl (s : Store H) : Reach P s s
  | peers {s s₁ s₂ : Store H} : Reach P s s₁ → PeersOnly s₁ s₂ → Reach P s s₂
  | ingest {s s₁ s₂ : Store H} {key : P.VerifyingKey} {signed : SignedEvent} {now : Int64}
      {outcome : IngestOutcome H} : Reach P s s₁ →
      P.ingestRemoteEvent s₁ key signed now = .ok (s₂, outcome) → Reach P s s₂

theorem Reach.trans {s s₁ s₂ : Store H} (h : Reach P s s₁) (h' : Reach P s₁ s₂) : Reach P s s₂ := by
  induction h' with
  | refl => exact h
  | peers _ hp ih => exact ih.peers hp
  | ingest _ hi ih => exact ih.ingest hi

theorem PeersOnly.reach {s s' : Store H} (h : PeersOnly s s') : Reach P s s' := (Reach.refl s).peers h

/-- Events were offered, each under a key of the set. -/
inductive Offered (P : Prims H) (K : P.VerifyingKey → Prop) : Store H → Store H → Prop
  | refl (s : Store H) : Offered P K s s
  | step {s s₁ s₂ : Store H} {key : P.VerifyingKey} {signed : SignedEvent} {now : Int64}
      {outcome : IngestOutcome H} : Offered P K s s₁ → K key →
      P.ingestRemoteEvent s₁ key signed now = .ok (s₂, outcome) → Offered P K s s₂

theorem Offered.trans {K : P.VerifyingKey → Prop} {s s₁ s₂ : Store H} (h : Offered P K s s₁)
    (h' : Offered P K s₁ s₂) : Offered P K s s₂ := by
  induction h' with
  | refl => exact h
  | step _ hkey hi ih => exact ih.step hkey hi

theorem Offered.mono {K K' : P.VerifyingKey → Prop} {s s' : Store H} (h : Offered P K s s')
    (hK : ∀ key, K key → K' key) : Offered P K' s s' := by
  induction h with
  | refl => exact .refl s
  | step _ hkey hi ih => exact ih.step (hK _ hkey) hi

theorem Offered.any {K : P.VerifyingKey → Prop} {s s' : Store H} (h : Offered P K s s') :
    Offered P (fun _ => True) s s' :=
  h.mono fun _ _ => trivial

theorem Offered.reach {K : P.VerifyingKey → Prop} {s s' : Store H} (h : Offered P K s s') :
    Reach P s s' := by
  induction h with
  | refl => exact .refl s
  | step _ _ hi ih => exact ih.ingest hi

theorem ingestEvents_offered {ε : Type} (key : P.VerifyingKey) (originHex : String) (now : Int64)
    (events : List SignedEvent) (s : Store H) (summary : SyncSummary ε) :
    Offered P (· = key) s (P.ingestEvents key originHex now s summary events).1 := by
  induction events generalizing s summary with
  | nil => exact .refl s
  | cons signed rest ih =>
    unfold Prims.ingestEvents
    split
    · rename_i h
      refine Offered.trans ?_ (ih _ _)
      exact (Offered.refl s).step rfl h
    · rename_i h
      refine Offered.trans ?_ (ih _ _)
      exact (Offered.refl s).step rfl h
    · rename_i h
      exact (Offered.refl s).step rfl h
    · exact .refl s

/-- The key is the one taken for an origin that is allowed. -/
def KeyOfHead (P : Prims H) (allows : Store H → H → Bool) (remoteId : H)
    (remoteKey : P.VerifyingKey) (s : Store H) (originHex : String) (key : P.VerifyingKey) : Prop :=
  ∃ o, P.decodeHex32 originHex = some o ∧ allows s o = true ∧
    P.originKey s remoteId remoteKey o = .ok (some key)

theorem pullOrigin_offered {ε : Type} (allows : Store H → H → Bool) (remote : Remote ε) (remoteId : H)
    (remoteKey : P.VerifyingKey) (heads : List (String × UInt64)) (now : Int64) (s : Store H)
    (summary : SyncSummary ε) (originHex : String) (remoteSeq : UInt64) :
    Offered P (KeyOfHead P allows remoteId remoteKey s originHex) s
      (P.pullOrigin allows remote remoteId remoteKey heads now s summary originHex remoteSeq).1 := by
  unfold Prims.pullOrigin
  split
  · exact .refl s
  · rename_i o hdec
    split
    · exact .refl s
    · rename_i hallows
      simp only
      split
      · exact .refl s
      · split
        · exact .refl s
        · exact .refl s
        · rename_i hkey
          split
          · exact .refl s
          · refine (ingestEvents_offered _ _ _ _ _ _).mono ?_
            rintro key rfl
            exact ⟨o, hdec, by simpa using hallows, hkey⟩

/-- **What a pull offers**: events under the key of some claimed head, taken at
    a state of the loop that allowed its origin. -/
theorem pullLoop_offered {ε : Type} (allows : Store H → H → Bool) (remote : Remote ε) (remoteId : H)
    (remoteKey : P.VerifyingKey) (heads : List (String × UInt64)) (now : Int64)
    (claimed : List (String × UInt64)) (s : Store H) (summary : SyncSummary ε) {s' : Store H}
    (hs' : (P.pullLoop allows remote remoteId remoteKey heads now s summary claimed).1 = s') :
    Offered P (fun key => ∃ e ∈ claimed, ∃ s₁, Offered P (fun _ => True) s s₁ ∧
      Offered P (fun _ => True) s₁ s' ∧ KeyOfHead P allows remoteId remoteKey s₁ e.1 key) s s' := by
  induction claimed generalizing s summary with
  | nil =>
    cases hs'
    exact .refl s
  | cons head rest ih =>
    obtain ⟨originHex, remoteSeq⟩ := head
    have horigin := pullOrigin_offered allows remote remoteId remoteKey heads now s summary originHex
      remoteSeq
    unfold Prims.pullLoop at hs'
    split at hs'
    · rename_i h
      rw [h] at horigin
      cases hs'
      exact horigin.mono fun key hkey => ⟨_, List.mem_cons_self .., s, .refl s, horigin.any, hkey⟩
    · rename_i s₁ _ h
      rw [h] at horigin
      have hrest := ih s₁ _ hs'
      refine (horigin.mono ?_).trans (hrest.mono ?_)
      · intro key hkey
        exact ⟨_, List.mem_cons_self .., s, .refl s, horigin.any.trans hrest.any, hkey⟩
      · rintro key ⟨e, he, s₂, h₁, h₂, hkey⟩
        exact ⟨e, List.mem_cons_of_mem _ he, s₂, horigin.any.trans h₁, h₂, hkey⟩

theorem pullLoop_reach {ε : Type} (allows : Store H → H → Bool) (remote : Remote ε) (remoteId : H)
    (remoteKey : P.VerifyingKey) (heads : List (String × UInt64)) (now : Int64)
    (claimed : List (String × UInt64)) (s : Store H) (summary : SyncSummary ε) :
    Reach P s (P.pullLoop allows remote remoteId remoteKey heads now s summary claimed).1 :=
  (pullLoop_offered allows remote remoteId remoteKey heads now claimed s summary rfl).reach

omit [DecidableEq H] in
theorem VerifyingKey_length (key : P.VerifyingKey) : key.bytes.length = 32 :=
  P.length_of_validKey _ key.valid

theorem remoteIdentity_ok {hello : HelloResponse} {remoteId : H} {key : P.VerifyingKey}
    (h : P.remoteIdentity hello = .ok (remoteId, key)) : remoteId = P.peerIdOfKey key := by
  unfold Prims.remoteIdentity at h
  split at h
  · cases h
  · split at h
    · cases h
    · split at h
      · cases h
      · rename_i hid
        cases h
        simpa using hid

/-- The store when the loop starts: who answered is recorded, and whom it knows. -/
def Prims.afterHello (P : Prims H) (svc : SyncService H) (address : String)
    (remote : Remote SyncClientError) (now : Int64) (s : Store H) (hello : HelloResponse)
    (key : P.VerifyingKey) : Store H :=
  P.discoverPeers svc remote now (recordHello s (P.peerIdOfKey key) key.bytes address
    (P.decodedHeads (svc.mapOrder.order hello.heads)) now).1

theorem afterHello_peersOnly (svc : SyncService H) (address : String)
    (remote : Remote SyncClientError) (now : Int64) (s : Store H) (hello : HelloResponse)
    (key : P.VerifyingKey) : PeersOnly s (P.afterHello svc address remote now s hello key) :=
  (recordHello_peersOnly s _ (VerifyingKey_length key) address _ now).trans
    (discoverPeers_peersOnly svc remote now _)

/-- What a round returns, given how its loop ended. -/
def roundOf (r : Store H × Except StorageError (SyncSummary SyncClientError)) :
    Store H × Except SyncError (SyncSummary SyncClientError) :=
  match r with
  | (s, .error e) => (s, .error (.storage e))
  | (s, .ok summary) => (s, .ok summary)

omit [DecidableEq H] in
theorem roundOf_fst (r : Store H × Except StorageError (SyncSummary SyncClientError)) :
    (roundOf r).1 = r.1 := by
  unfold roundOf
  split <;> rfl

/-- A hello from an identity that checks out leads to the loop. -/
theorem syncWithPeer_loop (svc : SyncService H) (address : String) {remote : Remote SyncClientError}
    (now : Int64) (s : Store H) {hello : HelloResponse} {key : P.VerifyingKey}
    (hhello : remote.hello = .ok hello)
    (hid : P.remoteIdentity hello = .ok (P.peerIdOfKey key, key)) :
    P.syncWithPeer svc address remote now s
      = roundOf (P.pullLoop (fun s origin => svc.federationAllows s origin now) remote
          (P.peerIdOfKey key) key (P.localHeads (P.afterHello svc address remote now s hello key)) now
          (P.afterHello svc address remote now s hello key) {} (svc.mapOrder.order hello.heads)) := by
  have hok := recordHello_ok s (P.peerIdOfKey key) key.bytes address
    (P.decodedHeads (svc.mapOrder.order hello.heads)) now
  unfold Prims.afterHello
  cases hrec : recordHello s (P.peerIdOfKey key) key.bytes address
      (P.decodedHeads (svc.mapOrder.order hello.heads)) now with
  | mk s₁ res =>
    rw [hrec] at hok
    simp only at hok
    subst hok
    simp only [Prims.syncWithPeer, hhello, hid, hrec]
    rfl

/-- How a round runs: it fails before anything is written, or it records peers
    and runs the loop. -/
theorem syncWithPeer_cases (svc : SyncService H) (address : String) (remote : Remote SyncClientError)
    (now : Int64) (s : Store H) :
    (∃ e, P.syncWithPeer svc address remote now s = (s, .error e)) ∨
    ∃ hello key, remote.hello = .ok hello ∧
      P.remoteIdentity hello = .ok (P.peerIdOfKey key, key) ∧
      P.syncWithPeer svc address remote now s
        = roundOf (P.pullLoop (fun s origin => svc.federationAllows s origin now) remote
            (P.peerIdOfKey key) key (P.localHeads (P.afterHello svc address remote now s hello key))
            now (P.afterHello svc address remote now s hello key) {}
            (svc.mapOrder.order hello.heads)) := by
  cases hhello : remote.hello with
  | error e => exact Or.inl ⟨.client e, by simp only [Prims.syncWithPeer, hhello]⟩
  | ok hello =>
    cases hid : P.remoteIdentity hello with
    | error e => exact Or.inl ⟨e, by simp only [Prims.syncWithPeer, hhello, hid]⟩
    | ok pair =>
      obtain ⟨remoteId, key⟩ := pair
      obtain rfl := remoteIdentity_ok hid
      exact Or.inr ⟨hello, key, rfl, hid, syncWithPeer_loop svc address now s hhello hid⟩

theorem syncWithPeer_reach (svc : SyncService H) (address : String) (remote : Remote SyncClientError)
    (now : Int64) (s : Store H) : Reach P s (P.syncWithPeer svc address remote now s).1 := by
  rcases syncWithPeer_cases (P := P) svc address remote now s with ⟨e, herr⟩ | ⟨hello, key, -, -, hround⟩
  · rw [herr]
    exact .refl s
  · rw [hround, roundOf_fst]
    exact (afterHello_peersOnly svc address remote now s hello key).reach.trans
      (pullLoop_reach _ _ _ _ _ _ _ _ _)

/-- The same over a Reticulum link. -/
def Prims.Reticulum.afterHello (P : Prims H) (order : MapOrder) (target : String)
    (remote : Remote ReticulumError) (now : Int64) (s : Store H) (hello : HelloResponse)
    (key : P.VerifyingKey) : Store H :=
  Prims.Reticulum.discoverPeers P remote now (recordHello s (P.peerIdOfKey key) key.bytes
    ("reticulum:" ++ target) (P.decodedHeads (order.order hello.heads)) now).1

theorem reticulum_afterHello_peersOnly (order : MapOrder) (target : String)
    (remote : Remote ReticulumError) (now : Int64) (s : Store H) (hello : HelloResponse)
    (key : P.VerifyingKey) :
    PeersOnly s (Prims.Reticulum.afterHello P order target remote now s hello key) :=
  (recordHello_peersOnly s _ (VerifyingKey_length key) _ _ now).trans
    (reticulum_discoverPeers_peersOnly remote now _)

theorem reticulum_syncWithPeer_loop (order : MapOrder) (target : String)
    {remote : Remote ReticulumError} (now : Int64) (s : Store H) {hello : HelloResponse}
    {key : P.VerifyingKey} (hhello : remote.hello = .ok hello)
    (hid : P.remoteIdentity hello = .ok (P.peerIdOfKey key, key)) :
    (Prims.Reticulum.syncWithPeer P order target remote now s).1
      = (P.pullLoop (fun _ _ => true) remote (P.peerIdOfKey key) key
          (P.localHeads (Prims.Reticulum.afterHello P order target remote now s hello key)) now
          (Prims.Reticulum.afterHello P order target remote now s hello key) {}
          (order.order hello.heads)).1 := by
  have hok := recordHello_ok s (P.peerIdOfKey key) key.bytes ("reticulum:" ++ target)
    (P.decodedHeads (order.order hello.heads)) now
  unfold Prims.Reticulum.afterHello
  cases hrec : recordHello s (P.peerIdOfKey key) key.bytes ("reticulum:" ++ target)
      (P.decodedHeads (order.order hello.heads)) now with
  | mk s₁ res =>
    rw [hrec] at hok
    simp only at hok
    subst hok
    simp only [Prims.Reticulum.syncWithPeer, hhello, hid, hrec]
    split
    · rename_i h
      rw [h]
    · rename_i h
      rw [h]

theorem reticulum_syncWithPeer_cases (order : MapOrder) (target : String)
    (remote : Remote ReticulumError) (now : Int64) (s : Store H) :
    (Prims.Reticulum.syncWithPeer P order target remote now s).1 = s ∨
    ∃ hello key, remote.hello = .ok hello ∧
      P.remoteIdentity hello = .ok (P.peerIdOfKey key, key) ∧
      (Prims.Reticulum.syncWithPeer P order target remote now s).1
        = (P.pullLoop (fun _ _ => true) remote (P.peerIdOfKey key) key
            (P.localHeads (Prims.Reticulum.afterHello P order target remote now s hello key)) now
            (Prims.Reticulum.afterHello P order target remote now s hello key) {}
            (order.order hello.heads)).1 := by
  cases hhello : remote.hello with
  | error e => exact Or.inl (by simp only [Prims.Reticulum.syncWithPeer, hhello])
  | ok hello =>
    cases hid : P.remoteIdentity hello with
    | error e => exact Or.inl (by simp only [Prims.Reticulum.syncWithPeer, hhello, hid])
    | ok pair =>
      obtain ⟨remoteId, key⟩ := pair
      obtain rfl := remoteIdentity_ok hid
      exact Or.inr ⟨hello, key, rfl, hid, reticulum_syncWithPeer_loop order target now s hhello hid⟩

theorem reticulum_syncWithPeer_reach (order : MapOrder) (target : String)
    (remote : Remote ReticulumError) (now : Int64) (s : Store H) :
    Reach P s (Prims.Reticulum.syncWithPeer P order target remote now s).1 := by
  rcases reticulum_syncWithPeer_cases (P := P) order target remote now s with
    heq | ⟨hello, key, -, -, hround⟩
  · rw [heq]
    exact .refl s
  · rw [hround]
    exact (reticulum_afterHello_peersOnly order target remote now s hello key).reach.trans
      (pullLoop_reach _ _ _ _ _ _ _ _ _)

theorem pushEvent_offered (svc : SyncService H) (now : Int64) (s : Store H) (signed : SignedEvent) :
    Offered P (fun _ => True) s (P.pushEvent svc now s signed).1 := by
  unfold Prims.pushEvent
  split
  · exact .refl s
  · split
    · exact .refl s
    · split
      · exact .refl s
      · split
        · rename_i h
          exact (Offered.refl s).step trivial h
        · rename_i h
          exact (Offered.refl s).step trivial h
        · exact .refl s

theorem pushEvents_offered (svc : SyncService H) (now : Int64) (events : List SignedEvent)
    (s : Store H) (counts : ℕ × ℕ) :
    Offered P (fun _ => True) s (P.pushEvents svc now s events counts).1 := by
  induction events generalizing s counts with
  | nil => exact .refl s
  | cons signed rest ih =>
    have hone := pushEvent_offered (P := P) svc now s signed
    unfold Prims.pushEvents
    split
    · rename_i h
      rw [h] at hone
      exact hone.trans (ih _ _)
    · rename_i h
      rw [h] at hone
      exact hone.trans (ih _ _)

theorem postEvents_offered (svc : SyncService H) (s : Store H) (events : List SignedEvent)
    (now : Int64) : Offered P (fun _ => True) s (P.postEvents svc s events now).1 := by
  unfold Prims.postEvents
  split
  · exact .refl s
  · exact pushEvents_offered svc now events s (0, 0)

/-! ## Invariants of runs -/

/-- What an operation of a peer does: a transaction of its own, or nothing but
    recording peers and offering events. -/
theorem syncStep_cases (s : Store H) (op : SyncOp P) :
    (∃ o, P.syncStep s op = P.step s o) ∨ Reach P s (P.syncStep s op) := by
  cases op with
  | store op => exact Or.inl ⟨op, rfl⟩
  | push svc events now => exact Or.inr (postEvents_offered svc s events now).reach
  | pull svc address remote now => exact Or.inr (syncWithPeer_reach svc address remote now s)
  | reticulumPull order target remote now =>
    exact Or.inr (reticulum_syncWithPeer_reach order target remote now s)

theorem Reach.keeps {I : Store H → Prop} {s s' : Store H} (h : Reach P s s') (hs : I s)
    (hpeers : ∀ s s', I s → PeersOnly s s' → I s')
    (hexec : ∀ op s s', I s → P.exec s op = some s' → I s') : I s' := by
  induction h with
  | refl => exact hs
  | peers _ hp ih => exact hpeers _ _ ih hp
  | @ingest s₁ s₂ key signed now outcome _ hi ih =>
    refine hexec (.ingest key signed now) _ _ ih ?_
    rw [Prims.exec, hi]
    rfl

theorem syncStep_keeps {I : Store H → Prop} {s : Store H} (op : SyncOp P) (hs : I s)
    (hpeers : ∀ s s', I s → PeersOnly s s' → I s')
    (hexec : ∀ op s s', I s → P.exec s op = some s' → I s') : I (P.syncStep s op) := by
  rcases syncStep_cases s op with ⟨o, ho⟩ | hreach
  · rw [ho, Prims.step]
    cases h : P.exec s o with
    | none => exact hs
    | some s' => exact hexec o s s' hs h
  · exact hreach.keeps hs hpeers hexec

/-- **Invariant rule.**  What recording peers and every operation on the store
    keep holds after every run. -/
theorem syncRun_induction {I : Store H → Prop} {s : Store H} (ops : List (SyncOp P)) (hs : I s)
    (hpeers : ∀ s s', I s → PeersOnly s s' → I s')
    (hexec : ∀ op s s', I s → P.exec s op = some s' → I s') : I (P.syncRun s ops) := by
  unfold Prims.syncRun
  induction ops generalizing s with
  | nil => exact hs
  | cons op ops ih =>
    rw [List.foldl_cons]
    exact ih (syncStep_keeps op hs hpeers hexec)

theorem LogInv.peersOnly {s s' : Store H} (h : LogInv P s) (hp : PeersOnly s s') : LogInv P s' := by
  rw [hp.eq]
  exact ⟨h.stored, h.chain.chain, h.chain.heads⟩

theorem ReplayInv.peersOnly {s s' : Store H} (h : ReplayInv P s) (hp : PeersOnly s s') :
    ReplayInv P s' := by
  obtain ⟨g, hbuilt, hrows, hproj⟩ := h.built
  rw [hp.eq]
  exact ⟨g, hbuilt, ⟨hrows.evidence, hrows.actors⟩, hproj⟩

theorem exec_keyLengths (hJ : JsonLaws P) (hinj : Function.Injective P.blake3) {s s' : Store H}
    {op : Op P} (hlog : LogInv P s) (h : KeyLengths s.peers) (hexec : P.exec s op = some s') :
    KeyLengths s'.peers := by
  cases exec_logStep hJ hinj hlog.stored hexec with
  | commit happ _ _ => rw [happ.eq]; exact h
  | known => exact h
  | @forked key signed receivedAt _ _ _ _ _ _ _ hfork =>
    obtain ⟨json, rfl⟩ := recordFork_ok hfork
    exact keyLengths_markForked (keyLengths_upsertPeer h (VerifyingKey_length key) _ _) _
  | applied happ _ _ => rw [happ.eq]; exact h
  | rebuild hr => rw [rebuild_ok hr]; exact h
  | redactEvidence hr =>
    obtain ⟨-, -, rfl⟩ := redactEvidence_ok hr
    exact h
  | redactActor hr =>
    obtain ⟨-, -, rfl⟩ := redactActor_ok hr
    exact h

/-! ## Authenticity -/

/-- The row's signature was made with the key, its origin is the peer of that
    key, and its id comes from its envelope; what is read back from the row
    passes the same verification. -/
structure SignedBy (P : Prims H) (key : P.VerifyingKey) (row : EventRow H) : Prop where
  origin : P.peerIdOfKey key = row.originPeerId
  signature : ∃ signed u, P.canonicalSigned signed = .ok row.canonicalPayload ∧
    P.canonicalUnsigned signed.unsigned = .ok u ∧ row.signature.length = 64 ∧
    P.verifyWithDomain key Prims.eventIdPrefix u row.signature = true
  derived : row.eventId = P.eventIdOf row.canonicalPayload
  reread : ∃ signed, P.signedFromSlice row.canonicalPayload = .ok signed ∧
    P.verifyAndDeriveId signed key = .ok row.eventId

/-- Every stored event is authentic. -/
def AllSigned (P : Prims H) (s : Store H) : Prop := ∀ row ∈ s.events, ∃ key, SignedBy P key row

omit [DecidableEq H] in
theorem Stored.signedBy (hJ : JsonLaws P) {row : EventRow H} {signed : SignedEvent}
    {key : P.VerifyingKey} (h : Stored P row signed) (hver : Verified P key signed row.eventId)
    (horigin : row.originPeerId = P.peerIdOfKey key) : SignedBy P key row := by
  obtain ⟨u, sig, hu, hsig, hlen, hok⟩ := hver.signature
  obtain rfl : sig = row.signature := Except.ok.inj (hsig.symm.trans h.signature)
  obtain ⟨signed', hread, hsame, -⟩ := h.reread hJ
  exact ⟨horigin.symm, ⟨signed, u, h.canonical, hu, hlen, hok⟩, h.eventId, signed', hread,
    verify_ok.2 (hsame.verified hJ hver)⟩

theorem Appended.allSigned {s s' : Store H} {row : EventRow H} {signed : SignedEvent}
    (h : Appended P s s' row signed) (hall : AllSigned P s) {key : P.VerifyingKey}
    (hrow : SignedBy P key row) : AllSigned P s' := by
  intro r hr
  rw [h.events_eq] at hr
  rcases List.mem_append.1 hr with hr | hr
  · exact hall r hr
  · obtain rfl : r = row := by simpa using hr
    exact ⟨key, hrow⟩

/-- A committed event verifies under the peer's own key. -/
theorem commit_verified {s s' : Store H} {identity : Prims.PeerIdentity}
    (hsign : SignsCorrectly P identity) {payload : EventPayload} {createdAt : Int64} {eventId : H}
    {outcome : ProjectionOutcome H}
    (h : P.commitLocalEvent s identity payload createdAt = .ok (s', eventId, outcome)) :
    ∃ row signed, Appended P s s' row signed ∧ row.originPeerId = identity.peerId P ∧
      row.eventId = eventId ∧
      (signed.unsigned.payload = payload ∧ signed.unsigned.createdAt = createdAt) ∧
      Verified P (identity.verifyingKey P) signed row.eventId := by
  obtain ⟨row, signed, happ, horigin, hid, hpay, u, hu, hsig⟩ := commit_appended h
  have hdec : hexDecode signed.signature
      = .ok (P.signWithDomain identity Prims.eventIdPrefix u) := by
    rw [hsig]
    exact hexDecode_hexEncode _
  exact ⟨row, signed, happ, horigin, hid, hpay, ⟨u, _, hu, hdec, P.length_sign _ _, hsign _⟩, _,
    happ.stored.canonical, happ.stored.eventId⟩

/-- An operation keeps the log authentic: an event of this peer is signed when
    it is built, one of another peer is verified before it is stored. -/
theorem exec_allSigned (hJ : JsonLaws P) (hinj : Function.Injective P.blake3)
    (hsign : ∀ identity, SignsCorrectly P identity) {s s' : Store H} {op : Op P}
    (hlog : LogStored P s) (hall : AllSigned P s) (hexec : P.exec s op = some s') :
    AllSigned P s' := by
  have hstep := exec_logStep hJ hinj hlog hexec
  cases op with
  | commit identity payload createdAt =>
    obtain ⟨⟨s₁, id, o⟩, hok, rfl⟩ := Option.map_eq_some_iff.1 hexec
    obtain ⟨row, signed, happ, horigin, -, -, hver⟩ :=
      commit_verified (hsign identity) (toOption_eq_some.1 hok)
    exact happ.allSigned hall (happ.stored.signedBy hJ hver horigin)
  | ingest key signed receivedAt =>
    cases hstep with
    | known => exact hall
    | forked _ _ _ _ hfork =>
      obtain ⟨json, rfl⟩ := recordFork_ok hfork
      exact hall
    | applied happ hver horigin =>
      exact happ.allSigned hall (happ.stored.signedBy hJ hver horigin)
  | rebuild =>
    cases hstep with
    | rebuild hr => rw [rebuild_ok hr]; exact hall
  | redactEvidence auth evidenceId reason now =>
    cases hstep with
    | redactEvidence hr =>
      obtain ⟨-, -, rfl⟩ := redactEvidence_ok hr
      exact hall
  | redactActor auth actorId reason now =>
    cases hstep with
    | redactActor hr =>
      obtain ⟨-, -, rfl⟩ := redactActor_ok hr
      exact hall

theorem exec_logStored (hJ : JsonLaws P) (hinj : Function.Injective P.blake3) {s s' : Store H}
    {op : Op P} (hlog : LogStored P s) (hexec : P.exec s op = some s') : LogStored P s' := by
  rcases (exec_logStep hJ hinj hlog hexec).log_cases with ⟨row, signed, happ⟩ | ⟨hev, -⟩
  · exact happ.logStored hlog
  · exact fun r hr => hlog r (hev ▸ hr)

theorem syncStep_allSigned (hJ : JsonLaws P) (hinj : Function.Injective P.blake3)
    (hsign : ∀ identity, SignsCorrectly P identity) {s : Store H} (op : SyncOp P)
    (h : LogStored P s ∧ AllSigned P s) :
    LogStored P (P.syncStep s op) ∧ AllSigned P (P.syncStep s op) := by
  refine syncStep_keeps (I := fun s => LogStored P s ∧ AllSigned P s) op h ?_ ?_
  · intro s s' h hp
    rw [hp.eq]
    exact h
  · intro op s s' h hexec
    exact ⟨exec_logStored hJ hinj h.1 hexec, exec_allSigned hJ hinj hsign h.1 h.2 hexec⟩

/-- **The store is authentic.**  Start without events and make any calls:
    pushes, pulls over either transport with any answers, events offered
    directly, and the peer's own operations, with the peers table holding
    anything at each call.  Every stored event carries a signature under a key
    of its origin, over its own unsigned body, has the id of its envelope, and
    passes the same verification when it is read back. -/
theorem store_authentic (P : Prims H) (hJ : JsonLaws P) (hinj : Function.Injective P.blake3)
    (hsign : ∀ identity, SignsCorrectly P identity) (s : Store H) (hempty : s.events = [])
    (calls : List (List (PeerRow H) × SyncOp P)) :
    ∀ row ∈ (calls.foldl (fun s call => P.syncStep { s with peers := call.1 } call.2) s).events,
      ∃ key, SignedBy P key row := by
  have hall : ∀ (calls : List (List (PeerRow H) × SyncOp P)) (s : Store H),
      LogStored P s ∧ AllSigned P s → AllSigned P
        (calls.foldl (fun s call => P.syncStep { s with peers := call.1 } call.2) s) := by
    intro calls
    induction calls with
    | nil => exact fun s h => h.2
    | cons call calls ih => exact fun s h => ih _ (syncStep_allSigned hJ hinj hsign call.2 h)
  refine hall calls s ⟨?_, ?_⟩
  · intro row hrow
    rw [hempty] at hrow
    cases hrow
  · intro row hrow
    rw [hempty] at hrow
    cases hrow

/-- One declared actor, offered directly. -/
theorem store_authentic_declared :
    let calls : List (List (PeerRow Bytes) × SyncOp idealOpen) :=
      [([], .store (.ingest (peerA.verifyingKey idealOpen) (declareEvent idealOpen peerA) 5))]
    ∃ row ∈ (calls.foldl (fun s call => idealOpen.syncStep { s with peers := call.1 } call.2)
      Store.empty).events, ∃ key, SignedBy idealOpen key row := by
  intro calls
  have hrun := run_declare idealOpen_laws idealOpen_injective (idealOpen_signsCorrectly peerA) 5
  have hrow : idealOpen.rowOf (declareEvent idealOpen peerA) (peerA.peerId idealOpen) none 5
      ∈ (calls.foldl (fun s call => idealOpen.syncStep { s with peers := call.1 } call.2)
        Store.empty).events := by
    have hcalls : calls.foldl
        (fun s call => idealOpen.syncStep { s with peers := call.1 } call.2) Store.empty
          = idealOpen.run Store.empty
            [.ingest (peerA.verifyingKey idealOpen) (declareEvent idealOpen peerA) 5] := rfl
    rw [hcalls, hrun]
    exact List.mem_append_right _ (List.mem_singleton_self _)
  exact ⟨_, hrow, store_authentic idealOpen idealOpen_laws idealOpen_injective
    idealOpen_signsCorrectly Store.empty rfl calls _ hrow⟩

end OpenAgentGraph
