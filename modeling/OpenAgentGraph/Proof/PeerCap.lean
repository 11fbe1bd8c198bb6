/-
  The cap on the peers table.

  A round over HTTP counts the rows once and then admits one response, so it
  ends below the cap and a response.  A round over Reticulum does not count:
  it keeps the bound where it starts below the cap, or reports only peers
  that have a row.
-/
import OpenAgentGraph.Sync.Gossip
import OpenAgentGraph.Proof.Binding

namespace OpenAgentGraph

open Lib Repo
open scoped List

variable {H : Type} [DecidableEq H] {P : Prims H}

/-- Room for one response past the last count that passes. -/
def BelowCap (s : Store H) : Prop := s.peers.length < maxTotalKnownPeers + maxPeersPerResponse

/-! ## One record, one response -/

theorem length_upsertPeer_le (peers : List (PeerRow H)) (id : H) (pk : Bytes) (name : Option String)
    (now : Int64) : (upsertPeer peers id pk name now).length ≤ peers.length + 1 :=
  Table.length_upsert_le fun _ => rfl

theorem length_upsertPeer_of_known {peers : List (PeerRow H)} {id : H} (h : KnownPeer peers id)
    (pk : Bytes) (name : Option String) (now : Int64) :
    (upsertPeer peers id pk name now).length = peers.length := by
  have hkeys : (upsertPeer peers id pk name now).map PeerRow.peerId = peers.map PeerRow.peerId :=
    Table.map_key_upsert_of_mem (fun _ => rfl) (List.mem_map.2 h)
  simpa using congrArg List.length hkeys

theorem length_discoverPeer_le (svc : SyncService H) (now : Int64) (s : Store H) (r : PeerRecord) :
    (P.discoverPeer svc now s r).peers.length ≤ s.peers.length + 1 := by
  rcases discoverPeer_peers (P := P) svc now s r with heq | ⟨pid, pk, key, -, -, heq⟩
  · rw [heq]
    exact Nat.le_succ _
  · rw [heq]
    exact length_upsertPeer_le _ _ _ _ _

theorem length_reticulum_discoverPeer_le (now : Int64) (s : Store H) (r : PeerRecord) :
    (Prims.Reticulum.discoverPeer P now s r).peers.length ≤ s.peers.length + 1 := by
  rcases reticulum_discoverPeer_peers (P := P) now s r with heq | ⟨pid, pk, -, -, heq⟩
  · rw [heq]
    exact Nat.le_succ _
  · rw [heq]
    exact length_upsertPeer_le _ _ _ _ _

omit [DecidableEq H] in
/-- Records that add a row at most each, as many as a response may have. -/
theorem length_response_le {step : Store H → PeerRecord → Store H}
    (hstep : ∀ s r, (step s r).peers.length ≤ s.peers.length + 1) (s : Store H)
    (peers : List PeerRecord) :
    ((peers.take maxPeersPerResponse).foldl step s).peers.length
      ≤ s.peers.length + maxPeersPerResponse := by
  have hfold : ∀ (l : List PeerRecord) (t : Store H),
      (l.foldl step t).peers.length ≤ t.peers.length + l.length := by
    intro l
    induction l with
    | nil => intro t; simp
    | cons r l ih =>
      intro t
      have hr := hstep t r
      have hl := ih (step t r)
      simp only [List.foldl_cons, List.length_cons]
      omega
  have htake : (peers.take maxPeersPerResponse).length ≤ maxPeersPerResponse := by
    simp
  exact (hfold _ s).trans (by omega)

/-! ## One round -/

/-- The record cannot be read, or names a peer that has a row. -/
def PeerRecord.Known (P : Prims H) (peers : List (PeerRow H)) (r : PeerRecord) : Prop :=
  ∀ pid pk, P.peerIdFromStr r.peerId = .ok pid → Prims.decodeKey32 r.publicKey = some pk →
    KnownPeer peers pid

/-- A round over Reticulum that starts below the cap, or reports known peers
    only. -/
def GossipRound.WithinCap (P : Prims H) (s : Store H) : GossipRound H → Prop
  | .http _ _ _ => True
  | .reticulum remote _ => s.peers.length < maxTotalKnownPeers ∨
    ∀ peers, remote.fetchPeers = .ok peers → ∀ r ∈ peers.take maxPeersPerResponse, r.Known P s.peers

theorem discoverPeers_belowCap (svc : SyncService H) (remote : Remote SyncClientError) (now : Int64)
    {s : Store H} (h : BelowCap s) : BelowCap (P.discoverPeers svc remote now s) := by
  unfold Prims.discoverPeers
  split
  · exact h
  · rename_i peers hpeers
    split
    · exact h
    · rename_i hcount
      have hle := length_response_le (length_discoverPeer_le (P := P) svc now) s peers
      unfold BelowCap
      omega

/-- Known peers get no second row. -/
theorem length_reticulum_discoverPeers_of_known (remote : Remote ReticulumError) (now : Int64)
    {s : Store H} (h : ∀ peers, remote.fetchPeers = .ok peers →
      ∀ r ∈ peers.take maxPeersPerResponse, r.Known P s.peers) :
    (Prims.Reticulum.discoverPeers P remote now s).peers.length = s.peers.length := by
  unfold Prims.Reticulum.discoverPeers
  split
  · rfl
  · rename_i peers hpeers
    have hfold := List.foldlRecOn (motive := fun t : Store H => t.peers.length = s.peers.length ∧
        ∀ o, KnownPeer s.peers o → KnownPeer t.peers o) (peers.take maxPeersPerResponse)
      (Prims.Reticulum.discoverPeer P now) ⟨rfl, fun _ ho => ho⟩ fun t ht r hr => by
        refine ⟨?_, fun o ho => reticulum_discoverPeer_known now (ht.2 o ho) r⟩
        rcases reticulum_discoverPeer_peers (P := P) now t r with heq | ⟨pid, pk, hpid, hpk, heq⟩
        · rw [heq]
          exact ht.1
        · rw [heq, length_upsertPeer_of_known (ht.2 pid (h peers hpeers r hr pid pk hpid hpk))]
          exact ht.1
    exact hfold.1

theorem reticulum_discoverPeers_belowCap (remote : Remote ReticulumError) (now : Int64)
    {s : Store H} (h : BelowCap s)
    (hround : (GossipRound.reticulum remote now : GossipRound H).WithinCap P s) :
    BelowCap (Prims.Reticulum.discoverPeers P remote now s) := by
  rcases hround with hroom | hknown
  · unfold Prims.Reticulum.discoverPeers
    split
    · exact h
    · rename_i peers hpeers
      have hle := length_response_le (length_reticulum_discoverPeer_le (P := P) now) s peers
      unfold BelowCap
      omega
  · unfold BelowCap
    rw [length_reticulum_discoverPeers_of_known remote now hknown]
    exact h

theorem gossipRound_belowCap {s : Store H} (h : BelowCap s) {round : GossipRound H}
    (hround : round.WithinCap P s) : BelowCap (P.gossipRound s round) := by
  cases round with
  | http svc remote now => exact discoverPeers_belowCap svc remote now h
  | reticulum remote now => exact reticulum_discoverPeers_belowCap remote now h hround

/-! ## Every run -/

/-- **Gossip is bounded.**  In a run from a table within the cap, whose rounds
    over Reticulum start below the cap or report known peers only, the table
    stays below the cap and one response, in every state that is reached. -/
theorem gossip_stays_below_cap (P : Prims H) (s : Store H) (rounds : List (GossipRound H))
    (hcap : s.peers.length ≤ maxTotalKnownPeers)
    (hrounds : ∀ before round, before ++ [round] <+: rounds →
      round.WithinCap P (P.gossipRun s before)) :
    ∀ reached, reached <+: rounds →
      (P.gossipRun s reached).peers.length < maxTotalKnownPeers + maxPeersPerResponse := by
  intro reached hpre
  induction reached using List.reverseRecOn with
  | nil => exact Nat.lt_of_le_of_lt hcap (Nat.lt_add_of_pos_right (by decide))
  | append_singleton before round ih =>
    have hbefore : BelowCap (P.gossipRun s before) :=
      ih ((List.prefix_append before [round]).trans hpre)
    rw [Prims.gossipRun, List.foldl_append]
    exact gossipRound_belowCap hbefore (hrounds before round hpre)

/-! ## A full table -/

section full

/-- A remote that reports peers under the ids that it is given. -/
def inventing (P : Prims H) (key : P.VerifyingKey) (ids : List H) : Remote ReticulumError where
  hello := .error .responseTimeout
  fetchEvents := fun _ _ _ => .error .responseTimeout
  fetchPeers := .ok (ids.map fun id => ⟨P.peerIdToString id, hexEncode key.bytes, [], none⟩)

/-- Invented peers get a row each. -/
theorem inventing_peers (key : P.VerifyingKey) (ids : List H) (hlen : ids.length ≤ maxPeersPerResponse)
    (now : Int64) (s : Store H) (hnew : (s.peers.map PeerRow.peerId ++ ids).Nodup) :
    (P.gossipRound s (.reticulum (inventing P key ids) now)).peers.map PeerRow.peerId
      = s.peers.map PeerRow.peerId ++ ids := by
  have hfold : ∀ (ids : List H) (t : Store H), (t.peers.map PeerRow.peerId ++ ids).Nodup →
      ((ids.map fun id => (⟨P.peerIdToString id, hexEncode key.bytes, [], none⟩ : PeerRecord)).foldl
        (Prims.Reticulum.discoverPeer P now) t).peers.map PeerRow.peerId
        = t.peers.map PeerRow.peerId ++ ids := by
    intro ids
    induction ids with
    | nil => intro t _; simp
    | cons id ids ih =>
      intro t hnd
      have hfree : id ∉ t.peers.map PeerRow.peerId := by
        intro hmem
        exact List.disjoint_of_nodup_append hnd hmem (by simp)
      have hone : (Prims.Reticulum.discoverPeer P now t
          ⟨P.peerIdToString id, hexEncode key.bytes, [], none⟩).peers.map PeerRow.peerId
          = t.peers.map PeerRow.peerId ++ [id] := by
        simp only [Prims.Reticulum.discoverPeer, P.peerIdFromStr_peerIdToString,
          decodeKey32_hexEncode, learnPeer_peers]
        exact Table.map_key_upsert_of_not_mem hfree
      rw [List.map_cons, List.foldl_cons, ih _ (by rw [hone]; simpa using hnd), hone]
      simp
  have htake : (ids.map fun id => (⟨P.peerIdToString id, hexEncode key.bytes, [], none⟩ : PeerRecord)).take
      maxPeersPerResponse = ids.map fun id => ⟨P.peerIdToString id, hexEncode key.bytes, [], none⟩ :=
    List.take_of_length_le (by simpa using hlen)
  simp only [Prims.gossipRound, Prims.Reticulum.discoverPeers, inventing, htake]
  exact hfold ids s hnew

/-- `n` ids, from the `k`th on. -/
def madeIds (k n : ℕ) : List Bytes := (List.range' k n).map fun i => List.replicate i 0

theorem madeIds_nodup (k n : ℕ) : (madeIds k n).Nodup := by
  refine List.Nodup.map ?_ List.nodup_range'
  intro i j hij
  simpa using congrArg List.length hij

theorem madeIds_append (k m n : ℕ) : madeIds k m ++ madeIds (k + m) n = madeIds k (m + n) := by
  have hrange : List.range' k m ++ List.range' (k + m) n = List.range' k (m + n) := by
    simp [← List.range'_append_1]
  rw [madeIds, madeIds, ← List.map_append, hrange]
  rfl

/-- A table that holds as many peers as the cap allows. -/
def fullStore : Store Bytes :=
  { Store.empty with
    peers := (madeIds 0 maxTotalKnownPeers).map fun id => ⟨id, [], none, 0, none, false⟩ }

theorem fullStore_ids : fullStore.peers.map PeerRow.peerId = madeIds 0 maxTotalKnownPeers := by
  simp [fullStore, Function.comp_def]

theorem fullStore_length : fullStore.peers.length = maxTotalKnownPeers := by
  simp [fullStore, madeIds]

end full

/-- A full table learns two hundred more peers from one response. -/
theorem gossip_grows_past_cap :
    fullStore.peers.length ≤ maxTotalKnownPeers ∧
    ¬ ((idealOpen.gossipRun fullStore [.reticulum (inventing idealOpen (peerB.verifyingKey idealOpen)
        (madeIds maxTotalKnownPeers maxPeersPerResponse)) 0]).peers.length
      < maxTotalKnownPeers + maxPeersPerResponse) := by
  refine ⟨fullStore_length.le, ?_⟩
  have hids : madeIds 0 maxTotalKnownPeers ++ madeIds maxTotalKnownPeers maxPeersPerResponse
      = madeIds 0 (maxTotalKnownPeers + maxPeersPerResponse) := by
    simpa using madeIds_append 0 maxTotalKnownPeers maxPeersPerResponse
  have hpeers := inventing_peers (peerB.verifyingKey idealOpen)
    (madeIds maxTotalKnownPeers maxPeersPerResponse) (by simp [madeIds]) 0 fullStore
    (by rw [fullStore_ids, hids]; exact madeIds_nodup _ _)
  have hlen := congrArg List.length hpeers
  rw [fullStore_ids, hids, List.length_map] at hlen
  rw [Prims.gossipRun, List.foldl_cons, List.foldl_nil, hlen]
  simp [madeIds]

/-- Below the cap, one round of invented peers is admitted. -/
theorem gossip_stays_below_cap_invented :
    (idealOpen.gossipRun Store.empty [.reticulum (inventing idealOpen (peerB.verifyingKey idealOpen)
        (madeIds 0 maxPeersPerResponse)) 0]).peers.length
      < maxTotalKnownPeers + maxPeersPerResponse := by
  refine gossip_stays_below_cap idealOpen Store.empty _ (Nat.zero_le _) ?_ _ List.prefix_rfl
  intro before round hpre
  have hlen := hpre.length_le
  obtain rfl : before = [] := List.eq_nil_of_length_eq_zero (by simpa using hlen)
  obtain rfl : round = _ := List.mem_singleton.1 (hpre.subset (by simp))
  exact Or.inl (by decide)

end OpenAgentGraph
