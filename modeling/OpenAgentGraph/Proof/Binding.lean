/-
  The keys stored for peers.

  A peer's id is derived from its key, and events of an origin are verified
  under the key stored for it, which is never overwritten.  A hello, the
  gossip over HTTP and the record of a fork write only rows whose id is that
  of their key (`PeerRow.Bound`); the gossip over Reticulum writes what the
  remote says.
-/
import OpenAgentGraph.Proof.Pull

namespace OpenAgentGraph

open Lib Repo

variable {H : Type} [DecidableEq H] {P : Prims H}

/-! ## Rows that are bound -/

/-- The row's id is that of its key. -/
def PeerRow.Bound (P : Prims H) (r : PeerRow H) : Prop :=
  ∃ key, P.keyFromBytes r.publicKey = some key ∧ r.peerId = P.peerIdOfKey key

def PeersBound (P : Prims H) (peers : List (PeerRow H)) : Prop := ∀ r ∈ peers, r.Bound P

/-- The peer has a row. -/
def KnownPeer (peers : List (PeerRow H)) (peerId : H) : Prop := ∃ r ∈ peers, r.peerId = peerId

/-- A row is added only for a peer that has none, so a peer that has one may be
    reported with any key. -/
theorem peersBound_upsertPeer {peers : List (PeerRow H)} (h : PeersBound P peers) {id : H} {pk : Bytes}
    (hnew : KnownPeer peers id ∨ ∃ key, P.keyFromBytes pk = some key ∧ id = P.peerIdOfKey key)
    (name : Option String) (now : Int64) : PeersBound P (upsertPeer peers id pk name now) := by
  intro r hr
  rcases Table.mem_upsert.1 hr with ⟨z, hz, rfl⟩ | ⟨rfl, hno⟩
  · split
    · exact h z hz
    · exact h z hz
  · rcases hnew with ⟨z, hz, hzid⟩ | hbinds
    · exact absurd hzid (hno z hz)
    · exact hbinds

theorem peersBound_markForked {peers : List (PeerRow H)} (h : PeersBound P peers) (id : H) :
    PeersBound P (markForked peers id) := by
  intro r hr
  obtain ⟨z, hz, rfl⟩ := Table.mem_updateWhere.1 hr
  split
  · exact h z hz
  · exact h z hz

theorem KnownPeer.upsertPeer {peers : List (PeerRow H)} {o : H} (h : KnownPeer peers o) (id : H)
    (pk : Bytes) (name : Option String) (now : Int64) :
    KnownPeer (Repo.upsertPeer peers id pk name now) o := by
  obtain ⟨z, hz, rfl⟩ := h
  refine ⟨_, Table.mem_upsert.2 (Or.inl ⟨z, hz, rfl⟩), ?_⟩
  split <;> rfl

theorem recordHello_peers (s : Store H) (id : H) (pk : Bytes) (address : String)
    (heads : List (H × UInt64)) (now : Int64) :
    (recordHello s id pk address heads now).1.peers = upsertPeer s.peers id pk none now := by
  unfold recordHello
  simp only
  split <;> rfl

theorem learnPeer_peers (s : Store H) (id : H) (pk : Bytes) (addresses : List String) (now : Int64) :
    (learnPeer s id pk addresses now).peers = upsertPeer s.peers id pk none now := by
  rw [learnPeer]
  refine List.foldlRecOn _ _ (motive := fun t : Store H => t.peers = upsertPeer s.peers id pk none now)
    rfl ?_
  intro t ht a _
  rw [← ht]
  split <;> rfl

/-! ## The writers -/

theorem recordHello_bound {s : Store H} (h : PeersBound P s.peers) (key : P.VerifyingKey)
    (address : String) (heads : List (H × UInt64)) (now : Int64) :
    PeersBound P (recordHello s (P.peerIdOfKey key) key.bytes address heads now).1.peers := by
  rw [recordHello_peers]
  exact peersBound_upsertPeer h (Or.inr ⟨key, keyFromBytes_bytes key, rfl⟩) none now

/-- A record over HTTP is dropped, or its peer is written under the key it is
    derived from. -/
theorem discoverPeer_peers (svc : SyncService H) (now : Int64) (s : Store H) (r : PeerRecord) :
    (P.discoverPeer svc now s r).peers = s.peers ∨
    ∃ pid pk key, P.keyFromBytes pk = some key ∧ pid = P.peerIdOfKey key ∧
      (P.discoverPeer svc now s r).peers = upsertPeer s.peers pid pk none now := by
  unfold Prims.discoverPeer
  split
  · split
    · exact Or.inl rfl
    · split
      · exact Or.inl rfl
      · rename_i key hkey
        split
        · exact Or.inl rfl
        · rename_i hid
          exact Or.inr ⟨_, _, key, hkey, by simpa using hid, learnPeer_peers _ _ _ _ _⟩
  · exact Or.inl rfl

theorem discoverPeer_bound (svc : SyncService H) (now : Int64) {s : Store H}
    (h : PeersBound P s.peers) (r : PeerRecord) : PeersBound P (P.discoverPeer svc now s r).peers := by
  rcases discoverPeer_peers (P := P) svc now s r with heq | ⟨pid, pk, key, hkey, hid, heq⟩
  · rw [heq]
    exact h
  · rw [heq]
    exact peersBound_upsertPeer h (Or.inr ⟨key, hkey, hid⟩) none now

theorem discoverPeers_bound {ε : Type} (svc : SyncService H) (remote : Remote ε) (now : Int64)
    {s : Store H} (h : PeersBound P s.peers) :
    PeersBound P (P.discoverPeers svc remote now s).peers := by
  unfold Prims.discoverPeers
  split
  · exact h
  · split
    · exact h
    · exact List.foldlRecOn (motive := fun t : Store H => PeersBound P t.peers) _ _ h
        fun t ht r _ => discoverPeer_bound svc now ht r

/-- A record that can be read names a peer that has a row, or one whose id is
    that of the key. -/
def PeerRecord.Binds (P : Prims H) (peers : List (PeerRow H)) (r : PeerRecord) : Prop :=
  ∀ pid pk, P.peerIdFromStr r.peerId = .ok pid → Prims.decodeKey32 r.publicKey = some pk →
    KnownPeer peers pid ∨ ∃ key, P.keyFromBytes pk = some key ∧ pid = P.peerIdOfKey key

theorem reticulum_discoverPeer_peers (now : Int64) (s : Store H) (r : PeerRecord) :
    (Prims.Reticulum.discoverPeer P now s r).peers = s.peers ∨
    ∃ pid pk, P.peerIdFromStr r.peerId = .ok pid ∧ Prims.decodeKey32 r.publicKey = some pk ∧
      (Prims.Reticulum.discoverPeer P now s r).peers = upsertPeer s.peers pid pk none now := by
  unfold Prims.Reticulum.discoverPeer
  split
  · rename_i hpid hpk
    exact Or.inr ⟨_, _, hpid, hpk, learnPeer_peers _ _ _ _ _⟩
  · exact Or.inl rfl

theorem reticulum_discoverPeer_known (now : Int64) {s : Store H} {o : H} (h : KnownPeer s.peers o)
    (r : PeerRecord) : KnownPeer (Prims.Reticulum.discoverPeer P now s r).peers o := by
  rcases reticulum_discoverPeer_peers (P := P) now s r with heq | ⟨pid, pk, -, -, heq⟩
  · rw [heq]
    exact h
  · rw [heq]
    exact h.upsertPeer pid pk none now

theorem reticulum_discoverPeer_bound (now : Int64) {s : Store H} (h : PeersBound P s.peers)
    {r : PeerRecord} (hr : r.Binds P s.peers) :
    PeersBound P (Prims.Reticulum.discoverPeer P now s r).peers := by
  rcases reticulum_discoverPeer_peers (P := P) now s r with heq | ⟨pid, pk, hpid, hpk, heq⟩
  · rw [heq]
    exact h
  · rw [heq]
    exact peersBound_upsertPeer h (hr pid pk hpid hpk) none now

theorem reticulum_discoverPeers_bound (remote : Remote ReticulumError) (now : Int64) {s : Store H}
    (h : PeersBound P s.peers)
    (hrecords : ∀ peers, remote.fetchPeers = .ok peers → ∀ r ∈ peers.take maxPeersPerResponse,
      r.Binds P s.peers) :
    PeersBound P (Prims.Reticulum.discoverPeers P remote now s).peers := by
  unfold Prims.Reticulum.discoverPeers
  split
  · exact h
  · rename_i peers hpeers
    -- a peer that has a row keeps it, whatever the records before say
    have hfold := List.foldlRecOn (motive := fun t : Store H => PeersBound P t.peers ∧
        ∀ o, KnownPeer s.peers o → KnownPeer t.peers o) (peers.take maxPeersPerResponse)
      (Prims.Reticulum.discoverPeer P now) ⟨h, fun _ ho => ho⟩ fun t ht r hr => by
        refine ⟨reticulum_discoverPeer_bound now ht.1 ?_, ?_⟩
        · intro pid pk hpid hpk
          rcases hrecords peers hpeers r hr pid pk hpid hpk with hknown | hbinds
          · exact Or.inl (ht.2 pid hknown)
          · exact Or.inr hbinds
        · intro o ho
          exact reticulum_discoverPeer_known now (ht.2 o ho) r
    exact hfold.1

theorem ingest_bound {s s' : Store H} {key : P.VerifyingKey} {signed : SignedEvent} {now : Int64}
    {outcome : IngestOutcome H} (hi : P.ingestRemoteEvent s key signed now = .ok (s', outcome))
    (h : PeersBound P s.peers) : PeersBound P s'.peers := by
  obtain ⟨eventId, previous, -, -, -, hcases⟩ := ingest_ok hi
  rcases hcases with ⟨-, rfl, -⟩ | ⟨existing, -, -, hfork, -⟩ | ⟨-, o, happ, -⟩
  · exact h
  · obtain ⟨json, rfl⟩ := recordFork_ok hfork
    exact peersBound_markForked
      (peersBound_upsertPeer h (Or.inr ⟨key, keyFromBytes_bytes key, rfl⟩) none now) _
  · simp only [Prims.applyRemoteEvent, bind_ok, pure_ok, Prod.mk.injEq] at happ
    obtain ⟨-, -, -, -, -, -, -, -, -, -, rfl, -⟩ := happ
    exact h

theorem Offered.bound {K : P.VerifyingKey → Prop} {s s' : Store H} (ho : Offered P K s s')
    (h : PeersBound P s.peers) : PeersBound P s'.peers := by
  induction ho with
  | refl => exact h
  | step _ _ hi ih => exact ingest_bound hi ih

/-! ## Every operation -/

theorem exec_bound {s s' : Store H} {op : Op P} (hexec : P.exec s op = some s')
    (h : PeersBound P s.peers) : PeersBound P s'.peers := by
  cases op with
  | commit identity payload createdAt =>
    simp only [Prims.exec, Option.map_eq_some_iff, toOption_eq_some] at hexec
    obtain ⟨⟨s₁, r⟩, hcommit, rfl⟩ := hexec
    obtain ⟨row, signed, happ, -⟩ := commit_appended hcommit
    rw [happ.eq]
    exact h
  | ingest key signed receivedAt =>
    simp only [Prims.exec, Option.map_eq_some_iff, toOption_eq_some] at hexec
    obtain ⟨⟨s₁, outcome⟩, hi, rfl⟩ := hexec
    exact ingest_bound hi h
  | rebuild =>
    simp only [Prims.exec, Option.map_eq_some_iff, toOption_eq_some] at hexec
    obtain ⟨⟨s₁, summary⟩, hr, rfl⟩ := hexec
    rw [rebuild_ok hr]
    exact h
  | redactEvidence auth evidenceId reason now =>
    obtain ⟨-, -, rfl⟩ := redactEvidence_ok (toOption_eq_some.1 hexec)
    exact h
  | redactActor auth actorId reason now =>
    obtain ⟨-, -, rfl⟩ := redactActor_ok (toOption_eq_some.1 hexec)
    exact h

/-- The records that a remote reports over Reticulum are bound, but for peers
    that have a row. -/
def SyncOp.BindsPeers (s : Store H) : SyncOp P → Prop
  | .reticulumPull _ _ remote _ => ∀ peers, remote.fetchPeers = .ok peers →
    ∀ r ∈ peers.take maxPeersPerResponse, r.Binds P s.peers
  | _ => True

theorem afterHello_bound (svc : SyncService H) (address : String) (remote : Remote SyncClientError)
    (now : Int64) {s : Store H} (h : PeersBound P s.peers) (hello : HelloResponse)
    (key : P.VerifyingKey) :
    PeersBound P (P.afterHello svc address remote now s hello key).peers :=
  discoverPeers_bound svc remote now (recordHello_bound h key _ _ _)

theorem reticulum_afterHello_bound (order : MapOrder) (target : String)
    (remote : Remote ReticulumError) (now : Int64) {s : Store H} (h : PeersBound P s.peers)
    (hello : HelloResponse) (key : P.VerifyingKey)
    (hrecords : ∀ peers, remote.fetchPeers = .ok peers → ∀ r ∈ peers.take maxPeersPerResponse,
      r.Binds P s.peers) :
    PeersBound P (Prims.Reticulum.afterHello P order target remote now s hello key).peers := by
  refine reticulum_discoverPeers_bound remote now (recordHello_bound h key _ _ _) ?_
  intro peers hpeers r hr pid pk hpid hpk
  rcases hrecords peers hpeers r hr pid pk hpid hpk with hknown | hbinds
  · rw [recordHello_peers]
    exact Or.inl (hknown.upsertPeer _ _ _ _)
  · exact Or.inr hbinds

theorem syncStep_bound {s : Store H} (h : PeersBound P s.peers) {op : SyncOp P}
    (hop : op.BindsPeers s) : PeersBound P (P.syncStep s op).peers := by
  cases op with
  | store op =>
    rw [Prims.syncStep, Prims.step]
    cases hexec : P.exec s op with
    | none => exact h
    | some s' => exact exec_bound hexec h
  | push svc events now => exact (postEvents_offered svc s events now).bound h
  | pull svc address remote now =>
    rw [Prims.syncStep]
    rcases syncWithPeer_cases (P := P) svc address remote now s with
      ⟨e, herr⟩ | ⟨hello, key, -, -, hround⟩
    · rw [herr]
      exact h
    · rw [hround, roundOf_fst]
      exact (pullLoop_offered _ _ _ _ _ _ _ _ _ rfl).bound
        (afterHello_bound svc address remote now h hello key)
  | reticulumPull order target remote now =>
    rw [Prims.syncStep]
    rcases reticulum_syncWithPeer_cases (P := P) order target remote now s with
      heq | ⟨hello, key, -, -, hround⟩
    · rw [heq]
      exact h
    · rw [hround]
      exact (pullLoop_offered _ _ _ _ _ _ _ _ _ rfl).bound
        (reticulum_afterHello_bound order target remote now h hello key hop)

/-- **Peers are bound to their keys.**  In every run whose Reticulum remotes
    report bound records, every row of the peers table is bound, in every state
    that is reached. -/
theorem peers_bound_to_keys (P : Prims H) (ops : List (SyncOp P))
    (hbinds : ∀ before op, before ++ [op] <+: ops → op.BindsPeers (P.syncRun Store.empty before)) :
    ∀ reached, reached <+: ops → PeersBound P (P.syncRun Store.empty reached).peers := by
  intro reached hpre
  induction reached using List.reverseRecOn with
  | nil => intro r hr; cases hr
  | append_singleton before op ih =>
    have hbefore := ih ((List.prefix_append before [op]).trans hpre)
    rw [Prims.syncRun, List.foldl_append]
    exact syncStep_bound hbefore (hbinds before op hpre)

/-! ## Gossip about a third peer -/

section gossip

variable (P : Prims H) (bob carol : Prims.PeerIdentity) (key : P.VerifyingKey)

/-- Bob's peer on Reticulum: it has no events, and reports Carol's with a key. -/
def gossipRemote : Remote ReticulumError where
  hello := .ok ⟨syncProtocol, syncVersion, P.peerIdToString (bob.peerId P),
    hexEncode (bob.verifyingKey P).bytes, []⟩
  fetchEvents := fun _ _ _ => .error .responseTimeout
  fetchPeers := .ok [⟨P.peerIdToString (carol.peerId P), hexEncode key.bytes, [], none⟩]

def gossipOps : List (SyncOp P) :=
  [.reticulumPull ⟨id, MapOrder.perm_id⟩ "0b" (gossipRemote P bob carol key) 3]

variable {P bob carol key}

theorem gossip_peers : (P.syncRun Store.empty (gossipOps P bob carol key)).peers
    = upsertPeer (upsertPeer [] (bob.peerId P) (bob.verifyingKey P).bytes none 3) (carol.peerId P)
        key.bytes none 3 := by
  have hid : P.remoteIdentity ⟨syncProtocol, syncVersion, P.peerIdToString (bob.peerId P),
      hexEncode (bob.verifyingKey P).bytes, []⟩ = .ok (bob.peerId P, bob.verifyingKey P) :=
    remoteIdentity_eq (bob.verifyingKey P) rfl rfl
  change (Prims.Reticulum.syncWithPeer P _ _ (gossipRemote P bob carol key) 3 Store.empty).1.peers = _
  rw [reticulum_syncWithPeer_loop _ _ _ _ rfl hid]
  simp only [id, Prims.pullLoop, Prims.Reticulum.afterHello, Prims.Reticulum.discoverPeers, gossipRemote,
    maxPeersPerResponse, List.take, List.foldl, Prims.Reticulum.discoverPeer,
    P.peerIdFromStr_peerIdToString, decodeKey32_hexEncode, learnPeer_peers, recordHello_peers]
  rfl

theorem gossip_binds (hkey : P.peerIdOfKey key = carol.peerId P) (before : List (SyncOp P))
    (op : SyncOp P) (hpre : before ++ [op] <+: gossipOps P bob carol key) :
    op.BindsPeers (P.syncRun Store.empty before) := by
  have hop : op ∈ gossipOps P bob carol key := hpre.subset (by simp)
  obtain rfl : op = _ := List.mem_singleton.1 hop
  intro peers hpeers r hr pid pk hpid hpk
  cases hpeers
  obtain rfl : r = _ := List.mem_singleton.1 (List.mem_of_mem_take hr)
  rw [P.peerIdFromStr_peerIdToString] at hpid
  rw [decodeKey32_hexEncode] at hpk
  cases hpid
  cases hpk
  exact Or.inr ⟨key, keyFromBytes_bytes key, hkey.symm⟩

theorem gossip_unbound (hne : bob.peerId P ≠ carol.peerId P) :
    ¬ PeersBound P (P.syncRun Store.empty (gossipOps P bob carol (bob.verifyingKey P))).peers := by
  intro h
  rw [gossip_peers] at h
  have hrow : ∀ z ∈ upsertPeer [] (bob.peerId P) (bob.verifyingKey P).bytes none 3,
      z.peerId ≠ carol.peerId P := by
    intro z hz
    rcases Table.mem_upsert.1 hz with ⟨y, hy, -⟩ | ⟨rfl, -⟩
    · cases hy
    · exact hne
  obtain ⟨key, hkey, hid⟩ := h _ (Table.mem_upsert.2 (Or.inr ⟨rfl, hrow⟩))
  rw [keyFromBytes_bytes] at hkey
  cases hkey
  exact hne hid.symm

end gossip

/-- Bob reports Carol with her own key. -/
theorem peers_bound_to_keys_gossip : PeersBound idealOpen
    (idealOpen.syncRun Store.empty (gossipOps idealOpen peerB peerC (peerC.verifyingKey idealOpen))).peers :=
  peers_bound_to_keys idealOpen _ (gossip_binds rfl) _ List.prefix_rfl

/-- Bob reports Carol with Bob's key, and the row is written as he says. -/
theorem gossip_misbinds : ¬ PeersBound idealOpen
    (idealOpen.syncRun Store.empty (gossipOps idealOpen peerB peerC (peerB.verifyingKey idealOpen))).peers :=
  gossip_unbound peerB_ne_peerC

end OpenAgentGraph
