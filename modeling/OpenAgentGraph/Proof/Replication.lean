/-
  What the replication status is worth.

  The heads that a peer has noted of others are what they claimed when they were
  last heard of.  Between peers that run this code such a claim was true, and it
  stays true: no peer loses events (`KnownHeadsSound`).  So each peer that is
  counted as caught up has the events that it is counted for.
-/
import OpenAgentGraph.Proof.Binding
import OpenAgentGraph.Proof.Spread
import OpenAgentGraph.Sync.Replication

namespace OpenAgentGraph

open Lib Repo

variable {H ι : Type} [DecidableEq H] [DecidableEq ι] {P : Prims H}

/-! ## One row for each peer -/

/-- The column `peer_id` is a key. -/
def PeersUnique (s : Store H) : Prop := (s.peers.map PeerRow.peerId).Nodup

theorem PeersUnique.upsertPeer {peers : List (PeerRow H)} (h : (peers.map PeerRow.peerId).Nodup)
    (id : H) (pk : Bytes) (now : Int64) :
    ((Repo.upsertPeer peers id pk none now).map PeerRow.peerId).Nodup :=
  Table.nodup_upsert (fun _ => rfl) h

theorem map_peerId_markForked (peers : List (PeerRow H)) (id : H) :
    (markForked peers id).map PeerRow.peerId = peers.map PeerRow.peerId :=
  Table.map_updateWhere fun _ _ => rfl

/-- What an operation does to the peers and to the heads noted of them. -/
theorem exec_peers (hJ : JsonLaws P) (hinj : Function.Injective P.blake3) {s s' : Store H}
    {op : Op P} (hlog : LogStored P s) (hu : PeersUnique s) (hexec : P.exec s op = some s') :
    PeersUnique s' ∧ s'.peerKnownHeads = s.peerKnownHeads := by
  cases exec_logStep hJ hinj hlog hexec with
  | commit happ _ _ => rw [happ.eq]; exact ⟨hu, rfl⟩
  | known => exact ⟨hu, rfl⟩
  | forked _ _ _ _ hfork =>
    obtain ⟨json, rfl⟩ := recordFork_ok hfork
    refine ⟨?_, rfl⟩
    simp only [PeersUnique, map_peerId_markForked]
    exact PeersUnique.upsertPeer hu _ _ _
  | applied happ _ _ => rw [happ.eq]; exact ⟨hu, rfl⟩
  | rebuild hr => rw [rebuild_ok hr]; exact ⟨hu, rfl⟩
  | redactEvidence hr =>
    obtain ⟨-, -, rfl⟩ := redactEvidence_ok hr
    exact ⟨hu, rfl⟩
  | redactActor hr =>
    obtain ⟨-, -, rfl⟩ := redactActor_ok hr
    exact ⟨hu, rfl⟩

/-- Events that are offered add no peer twice and note no head. -/
theorem Offered.peers (hJ : JsonLaws P) (hinj : Function.Injective P.blake3)
    {K : P.VerifyingKey → Prop} {s s' : Store H} (h : Offered P K s s') (hlog : LogStored P s)
    (hu : PeersUnique s) :
    LogStored P s' ∧ PeersUnique s' ∧ s'.peerKnownHeads = s.peerKnownHeads := by
  induction h with
  | refl => exact ⟨hlog, hu, rfl⟩
  | @step s₁ s₂ key signed now outcome _ _ hi ih =>
    obtain ⟨hlog₁, hu₁, hheads₁⟩ := ih
    have hexec : P.exec s₁ (.ingest key signed now) = some s₂ := by
      rw [Prims.exec, hi]
      rfl
    obtain ⟨hu₂, hheads₂⟩ := exec_peers hJ hinj hlog₁ hu₁ hexec
    exact ⟨exec_logStored hJ hinj hlog₁ hexec, hu₂, hheads₂.trans hheads₁⟩

theorem learnPeer_knownHeads (s : Store H) (id : H) (pk : Bytes) (addresses : List String)
    (now : Int64) : (learnPeer s id pk addresses now).peerKnownHeads = s.peerKnownHeads := by
  rw [learnPeer]
  refine List.foldlRecOn _ _ (motive := fun t : Store H => t.peerKnownHeads = s.peerKnownHeads)
    rfl ?_
  intro t ht a _
  rw [← ht]
  split <;> rfl

theorem discoverPeer_knownHeads (svc : SyncService H) (now : Int64) (s : Store H) (r : PeerRecord) :
    (P.discoverPeer svc now s r).peerKnownHeads = s.peerKnownHeads := by
  unfold Prims.discoverPeer
  split
  · split
    · rfl
    · split
      · rfl
      · split
        · rfl
        · exact learnPeer_knownHeads _ _ _ _ _
  · rfl

theorem discoverPeers_peers {ε : Type} (svc : SyncService H) (remote : Remote ε) (now : Int64)
    {s : Store H} (hu : PeersUnique s) : PeersUnique (P.discoverPeers svc remote now s) ∧
      (P.discoverPeers svc remote now s).peerKnownHeads = s.peerKnownHeads := by
  unfold Prims.discoverPeers
  split
  · exact ⟨hu, rfl⟩
  · split
    · exact ⟨hu, rfl⟩
    · refine List.foldlRecOn (motive := fun t : Store H => PeersUnique t ∧
        t.peerKnownHeads = s.peerKnownHeads) _ _ ⟨hu, rfl⟩ fun t ht r _ => ⟨?_, ?_⟩
      · rcases discoverPeer_peers (P := P) svc now t r with heq | ⟨pid, pk, key, -, -, heq⟩
        · rw [PeersUnique, heq]
          exact ht.1
        · rw [PeersUnique, heq]
          exact PeersUnique.upsertPeer ht.1 _ _ _
      · exact (discoverPeer_knownHeads svc now t r).trans ht.2

/-! ## The heads that are noted -/

/-- The noted heads are those claimed in the hello, and older ones. -/
theorem recordHello_knownHeads (s : Store H) (id : H) (pk : Bytes) (address : String)
    (heads : List (H × UInt64)) (now : Int64) :
    ∀ row ∈ (recordHello s id pk address heads now).1.peerKnownHeads, row ∈ s.peerKnownHeads ∨
      ∃ e ∈ heads, row.peerId = id ∧ row.originPeerId = e.1 ∧ row.sequence = e.2.toInt64 := by
  have hfold : ∀ (heads : List (H × UInt64)) (t : List (PeerKnownHeadRow H)),
      ∀ row ∈ heads.foldl (fun t e => upsertKnownHead t id e.1 e.2.toInt64 now) t, row ∈ t ∨
        ∃ e ∈ heads, row.peerId = id ∧ row.originPeerId = e.1 ∧ row.sequence = e.2.toInt64 := by
    intro heads
    induction heads with
    | nil => exact fun t row hrow => Or.inl hrow
    | cons e heads ih =>
      intro t row hrow
      rcases ih _ row hrow with hrow | ⟨e', he', hrow⟩
      · rcases Table.mem_upsert.1 hrow with ⟨z, hz, rfl⟩ | ⟨rfl, -⟩
        · split
          · rename_i hkey
            obtain ⟨hid, ho⟩ := Prod.mk.inj hkey
            exact Or.inr ⟨e, List.mem_cons_self .., hid, ho, rfl⟩
          · exact Or.inl hz
        · exact Or.inr ⟨e, List.mem_cons_self .., rfl, rfl, rfl⟩
      · exact Or.inr ⟨e', List.mem_cons_of_mem _ he', hrow⟩
  unfold recordHello
  simp only
  split
  · exact fun row hrow => Or.inl hrow
  · exact hfold heads s.peerKnownHeads

/-- A peer of the network had the head that is noted of it. -/
def KnownHeadsSound (svc : ι → SyncService H) (net : ι → Store H) (s : Store H) : Prop :=
  ∀ row ∈ s.peerKnownHeads, 0 ≤ row.sequence.toInt ∧ ∃ j, (svc j).selfPeerId = row.peerId ∧
    row.sequence.toInt ≤ (headSequence (net j) row.originPeerId).toInt

omit [DecidableEq H] in
theorem peerId_of_remoteIdentity {hello : HelloResponse} {id : H} {key : P.VerifyingKey}
    [DecidableEq H] (h : P.remoteIdentity hello = .ok (id, key)) :
    P.peerIdFromStr hello.peerId = .ok id := by
  unfold Prims.remoteIdentity at h
  split at h
  · cases h
  · rename_i remoteId hid
    split at h
    · cases h
    · split at h
      · cases h
      · cases h
        exact hid

/-- What a round with a peer that runs this code notes: heads that the peer has. -/
theorem round_knownHeads (hJ : JsonLaws P) (hinj : Function.Injective P.blake3) {a b : Store H}
    (ha : LogStored P a) (hb : PeerInv P b) (hu : PeersUnique a) (svcA svcB : SyncService H)
    (address : String) (now : Int64) :
    PeersUnique (P.syncWithPeer svcA address (P.serve svcB b) now a).1 ∧
    ∀ row ∈ (P.syncWithPeer svcA address (P.serve svcB b) now a).1.peerKnownHeads,
      row ∈ a.peerKnownHeads ∨ (svcB.selfPeerId = row.peerId ∧
        row.sequence = headSequence b row.originPeerId) := by
  rcases syncWithPeer_cases (P := P) svcA address (P.serve svcB b) now a with
    ⟨e, herr⟩ | ⟨hello, key, hhello, hid, hround⟩
  · rw [herr]
    exact ⟨hu, fun row hrow => Or.inl hrow⟩
  · have hsize : (P.helloBody svcB b).length ≤ maxResponseBytes := by
      by_contra hlarge
      simp only [Prims.serve, cappedJson_large (not_le.1 hlarge)] at hhello
      cases hhello
    obtain ⟨hello', hhello', hof⟩ := serve_hello hJ svcB hb.heads hsize
    obtain rfl : hello = hello' := Except.ok.inj (hhello.symm.trans hhello')
    have hself : svcB.selfPeerId = P.peerIdOfKey key := by
      have hparse := peerId_of_remoteIdentity hid
      rw [hof.peerId, P.peerIdFromStr_peerIdToString] at hparse
      exact Except.ok.inj hparse
    have hrec : PeersUnique (recordHello a (P.peerIdOfKey key) key.bytes address
        (P.decodedHeads (svcA.mapOrder.order hello.heads)) now).1 := by
      rw [PeersUnique, recordHello_peers]
      exact PeersUnique.upsertPeer hu _ _ _
    obtain ⟨huAfter, hheadsAfter⟩ := discoverPeers_peers (P := P) svcA (P.serve svcB b) now hrec
    have hpeers := afterHello_peersOnly (P := P) svcA address (P.serve svcB b) now a hello key
    have hlog : LogStored P (P.afterHello svcA address (P.serve svcB b) now a hello key) := by
      rw [hpeers.eq]
      exact ha
    obtain ⟨-, hu', hheads'⟩ := (pullLoop_offered (fun s origin => svcA.federationAllows s origin now)
      (P.serve svcB b) (P.peerIdOfKey key) key _ now (svcA.mapOrder.order hello.heads) _ {} rfl).peers
      hJ hinj hlog huAfter
    rw [hround, roundOf_fst]
    refine ⟨hu', fun row hrow => ?_⟩
    rw [hheads', Prims.afterHello, hheadsAfter] at hrow
    rcases recordHello_knownHeads _ _ _ _ _ _ row hrow with hrow | ⟨e, he, hpeer, horigin, hseq⟩
    · exact Or.inl hrow
    · -- a claimed head is the head of its origin
      obtain ⟨claimed, hclaimed, hdec⟩ := List.mem_filterMap.1 he
      have hmem := hof.heads.mem_iff.1 ((svcA.mapOrder.perm _).mem_iff.1 hclaimed)
      obtain ⟨o, rfl, -⟩ := headEntry_of_mem hb.heads hmem
      rw [decodeHex32_toHex] at hdec
      obtain rfl := Option.some.inj hdec
      refine Or.inr ⟨hself.trans hpeer.symm, ?_⟩
      rw [hseq, horigin]
      exact Int64.toInt64_toUInt64 _

/-- No operation makes a head smaller. -/
theorem head_le_syncStep (hJ : JsonLaws P) (hinj : Function.Injective P.blake3) {s : Store H}
    (hs : PeerInv P s) (op : SyncOp P) (o : H) :
    (headSequence s o).toInt ≤ (headSequence (P.syncStep s op) o).toInt := by
  have hgrow : PeerInv P (P.syncStep s op) ∧
      (chainOf s o).length ≤ (chainOf (P.syncStep s op) o).length := by
    refine syncStep_keeps (I := fun t => PeerInv P t ∧ (chainOf s o).length ≤ (chainOf t o).length)
      op ⟨hs, le_rfl⟩ ?_ ?_
    · rintro t t' ⟨ht, hle⟩ hp
      exact ⟨ht.peersOnly hp, by rw [hp.chainOf_eq]; exact hle⟩
    · rintro op t t' ⟨ht, hle⟩ hexec
      refine ⟨ht.exec hJ hinj hexec, hle.trans ?_⟩
      rcases (exec_logStep hJ hinj ht.log.stored hexec).log_cases with ⟨row, signed, happ⟩ | ⟨hev, -⟩
      · rw [chainOf_append happ.events_eq]
        split
        · rw [List.length_append]
          exact Nat.le_add_right _ _
        · exact le_rfl
      · rw [chainOf, chainOf, hev]
  rw [headSequence_eq hs.log.chain, headSequence_eq hgrow.1.log.chain]
  exact_mod_cast hgrow.2

/-! ## The network -/

/-- What every step of a network of peers that run this code keeps. -/
structure ReplicationInv (P : Prims H) (svc : ι → SyncService H) (net : ι → Store H) : Prop where
  reached : ∀ i, Reached P (net i)
  unique : ∀ i, PeersUnique (net i)
  heads : ∀ i, KnownHeadsSound svc net (net i)

/-- One peer takes a step: no head gets smaller, and its notes are old or true. -/
theorem ReplicationInv.update (hJ : JsonLaws P) (hinj : Function.Injective P.blake3)
    {svc : ι → SyncService H} {net : ι → Store H} (h : ReplicationInv P svc net) {i : ι}
    (op : SyncOp P) (hu : PeersUnique (P.syncStep (net i) op))
    (hnotes : ∀ row ∈ (P.syncStep (net i) op).peerKnownHeads, row ∈ (net i).peerKnownHeads ∨
      ∃ j, (svc j).selfPeerId = row.peerId ∧ row.sequence = headSequence (net j) row.originPeerId) :
    ReplicationInv P svc (Function.update net i (P.syncStep (net i) op)) := by
  have hgrow : ∀ j o, (headSequence (net j) o).toInt
      ≤ (headSequence (Function.update net i (P.syncStep (net i) op) j) o).toInt := by
    intro j o
    by_cases hj : j = i
    · subst hj
      rw [Function.update_self]
      exact head_le_syncStep hJ hinj ((h.reached j).peerInv hJ hinj) op o
    · rw [Function.update_of_ne hj]
  refine ⟨fun k => ?_, fun k => ?_, fun k row hrow => ?_⟩
  · by_cases hk : k = i
    · subst hk
      rw [Function.update_self]
      exact (h.reached k).syncStep op
    · rw [Function.update_of_ne hk]
      exact h.reached k
  · by_cases hk : k = i
    · subst hk
      rw [Function.update_self]
      exact hu
    · rw [Function.update_of_ne hk]
      exact h.unique k
  · have hold : ∀ k, row ∈ (net k).peerKnownHeads → 0 ≤ row.sequence.toInt ∧
        ∃ j, (svc j).selfPeerId = row.peerId ∧ row.sequence.toInt
          ≤ (headSequence (Function.update net i (P.syncStep (net i) op) j) row.originPeerId).toInt := by
      intro k hrow
      obtain ⟨hpos, j, hj, hle⟩ := h.heads k row hrow
      exact ⟨hpos, j, hj, hle.trans (hgrow j _)⟩
    by_cases hk : k = i
    · subst hk
      rw [Function.update_self] at hrow
      rcases hnotes row hrow with hrow | ⟨j, hj, heq⟩
      · exact hold k hrow
      · rw [heq]
        exact ⟨headSequence_nonneg ((h.reached j).peerInv hJ hinj).log.chain _, j, hj, hgrow j _⟩
    · rw [Function.update_of_ne hk] at hrow
      exact hold k hrow

theorem ReplicationInv.step (hJ : JsonLaws P) (hinj : Function.Injective P.blake3)
    {svc : ι → SyncService H} {net : ι → Store H} (h : ReplicationInv P svc net)
    (step : NetStep P ι) : ReplicationInv P svc (P.netStep svc net step) := by
  cases step with
  | round i j address now =>
    have ha := ((h.reached i).peerInv hJ hinj).log.stored
    have hb := (h.reached j).peerInv hJ hinj
    obtain ⟨hu, hnotes⟩ := round_knownHeads hJ hinj ha hb (h.unique i) (svc i) (svc j) address now
    exact h.update hJ hinj (.pull (svc i) address (P.serve (svc j) (net j)) now) hu
      fun row hrow => (hnotes row hrow).imp_right fun hnew => ⟨j, hnew⟩
  | own i op =>
    have hstep : PeersUnique (P.step (net i) op) ∧
        (P.step (net i) op).peerKnownHeads = (net i).peerKnownHeads := by
      rw [Prims.step]
      cases hexec : P.exec (net i) op with
      | none => exact ⟨h.unique i, rfl⟩
      | some s' =>
        exact exec_peers hJ hinj ((h.reached i).peerInv hJ hinj).log.stored (h.unique i) hexec
    exact h.update hJ hinj (.store op) hstep.1 fun row hrow => Or.inl (hstep.2 ▸ hrow)

theorem replicationInv_at (hJ : JsonLaws P) (hinj : Function.Injective P.blake3)
    (svc : ι → SyncService H) (sched : ℕ → NetStep P ι) (n : ℕ) :
    ReplicationInv P svc (P.netAt svc (fun _ => Store.empty) sched n) := by
  induction n with
  | zero =>
    refine ⟨fun _ => ⟨[], rfl⟩, fun _ => List.nodup_nil, fun _ row hrow => ?_⟩
    cases hrow
  | succ n ih => exact ih.step hJ hinj (sched n)

/-! ## The status -/

/-- The peer has claimed a head that is not below ours. -/
def caughtUp (heads : List (PeerKnownHeadRow H)) (current : UInt64) (peer : PeerInfo H) : Bool :=
  match knownHeadOf heads peer.peerId with
  | some sequence => decide (current ≤ sequence)
  | none => false

/-- Each known peer is counted once, as caught up or as lagging. -/
theorem foldl_countPeer (heads : List (PeerKnownHeadRow H)) (current : UInt64)
    (peers : List (PeerInfo H)) (counts : ℕ × List LaggingPeer) :
    (peers.foldl (P.countPeer heads current) counts).1
        = counts.1 + (peers.filter (caughtUp heads current)).length ∧
      (peers.foldl (P.countPeer heads current) counts).2.map LaggingPeer.peerId
        = counts.2.map LaggingPeer.peerId
          ++ (peers.filter fun p => !caughtUp heads current p).map fun p => P.peerIdToString p.peerId := by
  induction peers generalizing counts with
  | nil => simp
  | cons peer peers ih =>
    obtain ⟨h₁, h₂⟩ := ih (P.countPeer heads current counts peer)
    rw [List.foldl_cons, h₁, h₂]
    cases hknown : knownHeadOf heads peer.peerId with
    | none => simp [Prims.countPeer, caughtUp, hknown]
    | some sequence =>
      by_cases hle : current ≤ sequence
      · simp [Prims.countPeer, caughtUp, hknown, hle]
        omega
      · simp [Prims.countPeer, caughtUp, hknown, hle]

omit [DecidableEq H] in
/-- The peers that are listed are those of the table. -/
theorem listPeers_ids {peers : List (PeerRow H)} {infos : List (PeerInfo H)}
    (h : listPeers peers = .ok infos) :
    (infos.map PeerInfo.peerId).Perm (peers.map PeerRow.peerId) := by
  have hmap : ∀ (rows : List (PeerRow H)) (infos : List (PeerInfo H)), rows.mapM rowToInfo = .ok infos →
      infos.map PeerInfo.peerId = rows.map PeerRow.peerId := by
    intro rows
    induction rows with
    | nil =>
      intro infos h
      obtain rfl := Except.ok.inj h
      rfl
    | cons r rows ih =>
      intro infos h
      simp only [List.mapM_cons, bind_ok, pure_ok] at h
      obtain ⟨info, hinfo, rest, hrest, rfl⟩ := h
      have hid : info.peerId = r.peerId := by
        unfold rowToInfo at hinfo
        split at hinfo
        · cases hinfo
          rfl
        · cases hinfo
      rw [List.map_cons, List.map_cons, ih rest hrest, hid]
  rw [hmap _ infos h]
  exact (List.mergeSort_perm _ _).map _

theorem mem_of_knownHeadOf {heads : List (PeerKnownHeadRow H)} {origin id : H} {sequence : UInt64}
    (h : knownHeadOf (listKnownHeadsForOrigin heads origin) id = some sequence) :
    ∃ row ∈ heads, row.originPeerId = origin ∧ row.peerId = id ∧
      sequence = row.sequence.toUInt64 := by
  obtain ⟨row, hrow, rfl⟩ := Option.map_eq_some_iff.1 h
  have hid := List.find?_some hrow
  have hmem := List.mem_reverse.1 (List.mem_of_find?_eq_some hrow)
  obtain ⟨hmem, horigin⟩ := List.mem_filter.1 hmem
  exact ⟨row, hmem, of_decide_eq_true horigin, of_decide_eq_true hid, rfl⟩

/-- The peer's node has all events of the origin that `s` has, unless the
    origin signed two events for one number. -/
structure HoldsAll (s b : Store H) (origin : H) : Prop where
  head : (headSequence s origin).toInt ≤ (headSequence b origin).toInt
  events : (∀ r ∈ s.events, ∀ r' ∈ b.events, r.originPeerId = origin → r'.originPeerId = origin →
    r.sequence = r'.sequence → r.eventId = r'.eventId) →
      ∀ r ∈ s.events, r.originPeerId = origin → Holds b r.eventId

theorem holdsAll_of_head {s b : Store H} (hs : ChainInv s) (hb : ChainInv b) {origin : H}
    (hle : (headSequence s origin).toInt ≤ (headSequence b origin).toInt) : HoldsAll s b origin := by
  refine ⟨hle, fun hfork r hr ho => ?_⟩
  rw [headSequence_eq hs, headSequence_eq hb, Nat.cast_le] at hle
  have hids := (hs.chain origin).map_take_eq (hb.chain origin) (fun x hx y hy hseq => by
    obtain ⟨hx, hxo⟩ := mem_chainOf.1 hx
    obtain ⟨hy, hyo⟩ := mem_chainOf.1 hy
    exact hfork x hx y hy hxo hyo (Int64.toInt_inj.1 hseq)) hle
  have hmem : r.eventId ∈ (chainOf s origin).map EventRow.eventId :=
    List.mem_map_of_mem (mem_chainOf.2 ⟨hr, ho⟩)
  rw [hids] at hmem
  obtain ⟨r', hr', hid⟩ := List.mem_map.1 hmem
  exact ⟨r', (mem_chainOf.1 (List.mem_of_mem_take hr')).1, hid⟩

omit [DecidableEq ι] in
/-- A peer that is counted as caught up has what it is counted for. -/
theorem ReplicationInv.caughtUp (hJ : JsonLaws P) (hinj : Function.Injective P.blake3)
    {svc : ι → SyncService H} {net : ι → Store H} (h : ReplicationInv P svc net) (i : ι) {origin : H}
    {peer : PeerInfo H}
    (hcount : OpenAgentGraph.caughtUp (listKnownHeadsForOrigin (net i).peerKnownHeads origin)
      (headSequence (net i) origin).toUInt64 peer = true) :
    ∃ j, (svc j).selfPeerId = peer.peerId ∧ HoldsAll (net i) (net j) origin := by
  have hi := (h.reached i).peerInv hJ hinj
  unfold OpenAgentGraph.caughtUp at hcount
  split at hcount
  · rename_i sequence hknown
    obtain ⟨row, hrow, rfl, hid, rfl⟩ := mem_of_knownHeadOf hknown
    obtain ⟨hpos, j, hj, hle⟩ := h.heads i row hrow
    have hnat := UInt64.le_iff_toNat_le.1 (of_decide_eq_true hcount)
    have hcurrent := toNat_toUInt64 (headSequence_nonneg hi.log.chain row.originPeerId)
    have hclaimed := toNat_toUInt64 hpos
    refine ⟨j, hj.trans hid, holdsAll_of_head hi.log.chain
      ((h.reached j).peerInv hJ hinj).log.chain ?_⟩
    omega
  · cases hcount

omit [DecidableEq H] [DecidableEq ι] in
theorem listPeers_ok {peers : List (PeerRow H)} (hlen : KeyLengths peers) :
    ∃ infos, listPeers peers = .ok infos := by
  have hmap : ∀ rows : List (PeerRow H), rows ⊆ peers → ∃ infos, rows.mapM rowToInfo = .ok infos := by
    intro rows hsub
    induction rows with
    | nil => exact ⟨[], rfl⟩
    | cons r rows ih =>
      obtain ⟨hr, hrows⟩ := List.cons_subset.1 hsub
      obtain ⟨infos, hinfos⟩ := ih hrows
      have hinfo : rowToInfo r = .ok ⟨r.peerId, r.publicKey, r.lastSeen, r.forked⟩ := if_pos (hlen r hr)
      exact ⟨_ :: infos, by simp only [List.mapM_cons, hinfo, hinfos, ok_bind]; rfl⟩
  exact hmap _ fun r hr => List.mem_mergeSort.1 hr

omit [DecidableEq ι] in
theorem replicationStatus_eq {s : Store H} {self : H} {infos : List (PeerInfo H)}
    (hlist : listPeers s.peers = .ok infos) : P.replicationStatus s self
      = .ok ⟨infos.length, targetReplicationFactor infos.length, (headSequence s self).toUInt64,
        (infos.foldl (P.countPeer (listKnownHeadsForOrigin s.peerKnownHeads self)
          (headSequence s self).toUInt64) (0, [])).1,
        decide (targetReplicationFactor infos.length
          ≤ (infos.foldl (P.countPeer (listKnownHeadsForOrigin s.peerKnownHeads self)
            (headSequence s self).toUInt64) (0, [])).1),
        (infos.foldl (P.countPeer (listKnownHeadsForOrigin s.peerKnownHeads self)
          (headSequence s self).toUInt64) (0, [])).2⟩ := by
  have hcurrent : ((getOrigin s.eventOrigins self).map fun r =>
      r.highestContiguousSequence.toUInt64).getD 0 = (headSequence s self).toUInt64 := by
    unfold headSequence
    cases getOrigin s.eventOrigins self <;> rfl
  simp only [Prims.replicationStatus, hlist, ok_bind, hcurrent]
  rfl

/-- **The replication status is sound.**  Peers that run this code start empty,
    write, redact, receive events and pull from one another, in any order.  At
    every moment the status of each peer is there and counts every peer that it
    knows exactly once, and the peers that it counts as caught up are so many
    different ones, each with a node that has as long a chain of this peer's
    events as this peer itself: the same events, unless the peer signed two for
    one number. -/
theorem replication_status_sound (P : Prims H) (hJ : JsonLaws P)
    (hinj : Function.Injective P.blake3) (svc : ι → SyncService H) (sched : ℕ → NetStep P ι) (n : ℕ)
    (i : ι) :
    ∃ status, P.replicationStatus (P.netAt svc (fun _ => Store.empty) sched n i) (svc i).selfPeerId
        = .ok status ∧
      status.knownPeerCount = (P.netAt svc (fun _ => Store.empty) sched n i).peers.length ∧
      status.peersFullyCaughtUp + status.laggingPeers.length = status.knownPeerCount ∧
      ∃ holders : List H, holders.Nodup ∧ holders.length = status.peersFullyCaughtUp ∧
        ∀ p ∈ holders, ∃ j, (svc j).selfPeerId = p ∧
          HoldsAll (P.netAt svc (fun _ => Store.empty) sched n i)
            (P.netAt svc (fun _ => Store.empty) sched n j) (svc i).selfPeerId := by
  have hinv := replicationInv_at hJ hinj svc sched n
  generalize P.netAt svc (fun _ => Store.empty) sched n = net at hinv ⊢
  obtain ⟨infos, hlist⟩ := listPeers_ok ((hinv.reached i).peerInv hJ hinj).lengths
  have hids := listPeers_ids hlist
  obtain ⟨hcount, hlag⟩ := foldl_countPeer (P := P)
    (listKnownHeadsForOrigin (net i).peerKnownHeads (svc i).selfPeerId)
    (headSequence (net i) (svc i).selfPeerId).toUInt64 infos (0, [])
  rw [Nat.zero_add] at hcount
  have hlagging := congrArg List.length hlag
  rw [List.length_map, List.map_nil, List.nil_append, List.length_map] at hlagging
  refine ⟨_, replicationStatus_eq hlist, ?_, ?_, (infos.filter (caughtUp
    (listKnownHeadsForOrigin (net i).peerKnownHeads (svc i).selfPeerId)
    (headSequence (net i) (svc i).selfPeerId).toUInt64)).map PeerInfo.peerId, ?_, ?_, ?_⟩
  · have hlen := hids.length_eq
    rwa [List.length_map, List.length_map] at hlen
  · simp only [hcount, hlagging]
    exact (List.length_eq_length_filter_add _).symm
  · have hnodup := hids.nodup_iff.2 (hinv.unique i)
    exact hnodup.sublist (List.filter_sublist.map _)
  · rw [List.length_map, hcount]
  · intro p hp
    obtain ⟨peer, hpeer, rfl⟩ := List.mem_map.1 hp
    exact hinv.caughtUp hJ hinj i (List.mem_filter.1 hpeer).2

/-- A peer writes, another pulls from it, and it hears from that one in turn. -/
noncomputable def noteSched : ℕ → NetStep idealOpen Bool
  | 0 => .own false (.commit peerB (crowdPayload "urn:b") 1)
  | n + 1 => .round (decide (n % 2 = 0)) (decide (n % 2 = 1)) "http://peer" 7

theorem replication_status_sound_pair : ∃ status,
    idealOpen.replicationStatus (idealOpen.netAt pairService (fun _ => Store.empty) noteSched 3 false)
      (peerB.peerId idealOpen) = .ok status ∧
    ∃ holders : List Bytes, holders.Nodup ∧ holders.length = status.peersFullyCaughtUp ∧
      ∀ p ∈ holders, ∃ j, (pairService j).selfPeerId = p ∧
        HoldsAll (idealOpen.netAt pairService (fun _ => Store.empty) noteSched 3 false)
          (idealOpen.netAt pairService (fun _ => Store.empty) noteSched 3 j)
          (peerB.peerId idealOpen) := by
  obtain ⟨status, hstatus, -, -, holders⟩ := replication_status_sound idealOpen idealOpen_laws
    idealOpen_injective pairService noteSched 3 false
  exact ⟨status, hstatus, holders⟩

end OpenAgentGraph
