/-
  Which origins a pull stores events of.

  Over HTTP the policy is asked for every head that the remote claims.  The
  pull over Reticulum repeats the loop and does not ask, so it stores what the
  policy denies (`lone_stores`).  On either way the policy speaks about the
  origin of the head, and the events are verified under the key stored for it:
  that the two are one peer is the binding of the peers table.
-/
import OpenAgentGraph.Proof.Binding

namespace OpenAgentGraph

open Lib Repo

variable {H : Type} [DecidableEq H] {P : Prims H}

/-! ## What is stored, and what is denied -/

/-- Between the two states an event of the origin was stored. -/
def StoredNew (s s' : Store H) (o : H) : Prop :=
  ∃ row ∈ s'.events, row ∉ s.events ∧ row.originPeerId = o

/-- The origin was allowed in some state of the pull. -/
def SyncService.AllowedDuring (P : Prims H) (svc : SyncService H) (now : Int64) (s s' : Store H)
    (o : H) : Prop :=
  ∃ s₁, Reach P s s₁ ∧ Reach P s₁ s' ∧ svc.federationAllows s₁ o now = true

/-- The origin is denied, whatever is recorded and stored meanwhile. -/
def SyncService.Denies (P : Prims H) (svc : SyncService H) (now : Int64) (s : Store H) (o : H) :
    Prop :=
  ∀ s₁, Reach P s s₁ → svc.federationAllows s₁ o now = false

/-- An event is stored as one of the origin whose key verified it. -/
theorem ingest_origin {s s' : Store H} {key : P.VerifyingKey} {signed : SignedEvent} {now : Int64}
    {outcome : IngestOutcome H} (h : P.ingestRemoteEvent s key signed now = .ok (s', outcome))
    {row : EventRow H} (hrow : row ∈ s'.events) :
    row ∈ s.events ∨ row.originPeerId = P.peerIdOfKey key := by
  obtain ⟨eventId, previous, -, -, -, hcases⟩ := ingest_ok h
  rcases hcases with ⟨-, rfl, -⟩ | ⟨existing, -, -, hfork, -⟩ | ⟨-, o, happ, -⟩
  · exact Or.inl hrow
  · obtain ⟨json, rfl⟩ := recordFork_ok hfork
    exact Or.inl hrow
  · simp only [Prims.applyRemoteEvent, bind_ok, pure_ok, Prod.mk.injEq, orElse_ok] at happ
    obtain ⟨_, -, canonical, -, bytes, -, ⟨events, b⟩, hins, _, -, rfl, -⟩ := happ
    rcases insertEvent_ok hins with ⟨-, rfl, -⟩ | ⟨-, rfl, -⟩
    · exact Or.inl hrow
    · rcases List.mem_append.1 hrow with hrow | hrow
      · exact Or.inl hrow
      · obtain rfl := List.mem_singleton.1 hrow
        exact Or.inr rfl

theorem Offered.origin {K : P.VerifyingKey → Prop} {s s' : Store H} (h : Offered P K s s')
    {row : EventRow H} (hrow : row ∈ s'.events) :
    row ∈ s.events ∨ ∃ key, K key ∧ row.originPeerId = P.peerIdOfKey key := by
  induction h with
  | refl => exact Or.inl hrow
  | step _ hkey hi ih =>
    rcases ingest_origin hi hrow with hrow | horigin
    · exact ih hrow
    · exact Or.inr ⟨_, hkey, horigin⟩

/-- With bound peers the key of a head is that of its origin. -/
theorem originKey_bound {s : Store H} (hbound : PeersBound P s.peers) {remoteKey key : P.VerifyingKey}
    {o : H} (h : P.originKey s (P.peerIdOfKey remoteKey) remoteKey o = .ok (some key)) :
    P.peerIdOfKey key = o := by
  unfold Prims.originKey at h
  split at h
  · rename_i ho
    cases h
    exact ho.symm
  · split at h
    · cases h
    · cases h
    · rename_i info hget
      unfold getPeer at hget
      split at hget
      · cases hget
      · rename_i r hfind
        obtain ⟨hr, rfl⟩ := Table.find_eq_some hfind
        obtain ⟨i, hinfo, hi⟩ := map_ok.1 hget
        cases hi
        unfold rowToInfo at hinfo
        split at hinfo
        · cases hinfo
          obtain ⟨key', hkey', hid⟩ := hbound r hr
          have hsome : some key' = some key := hkey'.symm.trans (Except.ok.inj h)
          cases hsome
          exact hid.symm
        · cases hinfo

/-- **What a loop stores**: events of origins whose head is claimed, each
    allowed when its turn came. -/
theorem pullLoop_origin {ε : Type} (allows : Store H → H → Bool) (remote : Remote ε)
    (remoteKey : P.VerifyingKey) (heads : List (String × UInt64)) (now : Int64)
    (claimed : List (String × UInt64)) (s : Store H) (summary : SyncSummary ε)
    (hbound : PeersBound P s.peers) {row : EventRow H}
    (hrow : row ∈ (P.pullLoop allows remote (P.peerIdOfKey remoteKey) remoteKey heads now s summary
      claimed).1.events) (hnew : row ∉ s.events) :
    ∃ e ∈ claimed, P.decodeHex32 e.1 = some row.originPeerId ∧ ∃ s₁, Reach P s s₁ ∧
      Reach P s₁ (P.pullLoop allows remote (P.peerIdOfKey remoteKey) remoteKey heads now s summary
        claimed).1 ∧ allows s₁ row.originPeerId = true := by
  have hoff := pullLoop_offered allows remote (P.peerIdOfKey remoteKey) remoteKey heads now claimed s
    summary rfl
  obtain ⟨key, ⟨e, he, s₁, h₁, h₂, o, hdec, hallows, hkey⟩, horigin⟩ :=
    (hoff.origin hrow).resolve_left hnew
  obtain rfl : row.originPeerId = o := horigin.trans (originKey_bound (h₁.bound hbound) hkey)
  exact ⟨e, he, hdec, s₁, h₁.reach, h₂.reach, hallows⟩

/-! ## Over HTTP -/

/-- **A pull over HTTP stores only what the policy allows**, whatever the remote
    answers. -/
theorem http_stores_allowed (svc : SyncService H) (address : String) (remote : Remote SyncClientError)
    (now : Int64) {s : Store H} (hbound : PeersBound P s.peers) {o : H}
    (h : StoredNew s (P.syncWithPeer svc address remote now s).1 o) :
    svc.AllowedDuring P now s (P.syncWithPeer svc address remote now s).1 o := by
  obtain ⟨row, hrow, hnew, rfl⟩ := h
  rcases syncWithPeer_cases (P := P) svc address remote now s with
    ⟨e, herr⟩ | ⟨hello, key, -, -, hround⟩
  · rw [herr] at hrow
    exact absurd hrow hnew
  · have hpeers := afterHello_peersOnly (P := P) svc address remote now s hello key
    have hevents : (P.afterHello svc address remote now s hello key).events = s.events := by
      rw [hpeers.eq]
    rw [hround, roundOf_fst] at hrow ⊢
    obtain ⟨-, -, -, s₁, h₁, h₂, hallows⟩ := pullLoop_origin _ _ _ _ _ _ _ _
      (afterHello_bound svc address remote now hbound hello key) hrow (by rwa [hevents])
    exact ⟨s₁, hpeers.reach.trans h₁, h₂, hallows⟩

/-! ## Over Reticulum -/

/-- Every head that the remote claims is of an origin of the set. -/
def Remote.ClaimsOnly {ε : Type} (P : Prims H) (remote : Remote ε) (O : Set H) : Prop :=
  ∀ hello, remote.hello = .ok hello → ∀ e ∈ hello.heads, ∀ o, P.decodeHex32 e.1 = some o → o ∈ O

/-- The records that the remote reports are bound, but for peers that have a row. -/
def Remote.RecordsBind {ε : Type} (P : Prims H) (remote : Remote ε) (s : Store H) : Prop :=
  ∀ peers, remote.fetchPeers = .ok peers → ∀ r ∈ peers.take maxPeersPerResponse, r.Binds P s.peers

theorem reticulum_stores_claimed (order : MapOrder) (target : String) (remote : Remote ReticulumError)
    (now : Int64) {s : Store H} (hbound : PeersBound P s.peers) (hrecords : remote.RecordsBind P s)
    {O : Set H} (hclaims : remote.ClaimsOnly P O) {o : H}
    (h : StoredNew s (Prims.Reticulum.syncWithPeer P order target remote now s).1 o) : o ∈ O := by
  obtain ⟨row, hrow, hnew, rfl⟩ := h
  rcases reticulum_syncWithPeer_cases (P := P) order target remote now s with
    heq | ⟨hello, key, hhello, -, hround⟩
  · rw [heq] at hrow
    exact absurd hrow hnew
  · have hpeers := reticulum_afterHello_peersOnly (P := P) order target remote now s hello key
    have hevents : (Prims.Reticulum.afterHello P order target remote now s hello key).events
        = s.events := by
      rw [hpeers.eq]
    rw [hround] at hrow
    obtain ⟨e, he, hdec, -⟩ := pullLoop_origin _ _ _ _ _ _ _ _
      (reticulum_afterHello_bound order target remote now hbound hello key hrecords) hrow
      (by rwa [hevents])
    exact hclaims hello hhello e ((order.perm _).mem_iff.1 he) _ hdec

/-- The next event of a peer, a declaration of an actor. -/
def nextDeclare (P : Prims H) (identity : Prims.PeerIdentity) (s : Store H) (now : Int64) :
    SignedEvent :=
  P.eventOf identity (Prims.nextOf (getOrigin s.eventOrigins (identity.peerId P))).1
    (Prims.nextOf (getOrigin s.eventOrigins (identity.peerId P))).2 now declarePayload

/-- A peer that claims one event more than is stored of it, and serves that. -/
def loneRemote {ε : Type} (P : Prims H) (identity : Prims.PeerIdentity) (s : Store H) (now : Int64)
    (e : ε) : Remote ε where
  hello := .ok ⟨syncProtocol, syncVersion, P.peerIdToString (identity.peerId P),
    hexEncode (identity.verifyingKey P).bytes,
    [(P.toHex (identity.peerId P), (headSequence s (identity.peerId P)).toUInt64 + 1)]⟩
  fetchEvents := fun _ _ _ => .ok [nextDeclare P identity s now]
  fetchPeers := .error e

theorem lone_claims {ε : Type} {identity : Prims.PeerIdentity} {s : Store H} {now : Int64} {e : ε}
    {O : Set H} (hO : identity.peerId P ∈ O) : (loneRemote P identity s now e).ClaimsOnly P O := by
  intro hello hhello entry hentry o hdec
  cases hhello
  obtain rfl := List.mem_singleton.1 hentry
  rw [decodeHex32_toHex] at hdec
  cases hdec
  exact hO

/-- **No policy is asked**: any peer that signs gets an event stored. -/
theorem lone_stores (hJ : JsonLaws P) (hinj : Function.Injective P.blake3) {s : Store H}
    (hinv : LogInv P s) (hroom : s.events.length < maxRows) {identity : Prims.PeerIdentity}
    (hsign : SignsCorrectly P identity) (order : MapOrder) (target : String) (now : Int64) :
    StoredNew s (Prims.Reticulum.syncWithPeer P order target
      (loneRemote P identity s now .responseTimeout) now s).1 (identity.peerId P) := by
  have hid : P.remoteIdentity ⟨syncProtocol, syncVersion, P.peerIdToString (identity.peerId P),
      hexEncode (identity.verifyingKey P).bytes,
      [(P.toHex (identity.peerId P), (headSequence s (identity.peerId P)).toUInt64 + 1)]⟩
        = .ok (identity.peerId P, identity.verifyingKey P) :=
    remoteIdentity_eq (identity.verifyingKey P) rfl rfl
  rw [reticulum_syncWithPeer_loop _ _ _ _ rfl hid, List.perm_singleton.1 (order.perm _)]
  generalize hs₁ : Prims.Reticulum.afterHello P order target _ now s _ (identity.verifyingKey P) = s₁
  have hpeers : PeersOnly s s₁ := hs₁ ▸ reticulum_afterHello_peersOnly _ _ _ _ _ _ _
  have hevents : s₁.events = s.events := by rw [hpeers.eq]
  have horigins : s₁.eventOrigins = s.eventOrigins := by rw [hpeers.eq]
  have hhead : headSequence s₁ (identity.peerId P) = headSequence s (identity.peerId P) := by
    rw [headSequence, headSequence, horigins]
  -- the claimed head is one above ours, and does not wrap
  have hlt : ¬ (headSequence s (identity.peerId P)).toUInt64 + 1
      ≤ (headSequence s (identity.peerId P)).toUInt64 := by
    have hnat := toNat_toUInt64 (headSequence_nonneg hinv.chain (identity.peerId P))
    have hbound := (headSequence s (identity.peerId P)).toInt_lt
    rw [UInt64.le_iff_toNat_le, UInt64.toNat_add]
    have hone : (1 : UInt64).toNat = 1 := rfl
    omega
  have hver : Verified P (identity.verifyingKey P) (nextDeclare P identity s now)
      (P.idOf (nextDeclare P identity s now)) := eventOf_verified hJ trivial hsign
  obtain ⟨outcome, hingest⟩ := ingest_apply hJ hinj (hinv.peersOnly hpeers) (hevents ▸ hroom) now hver
    (P.peerIdFromStr_peerIdToString _) (parsePreviousEvent_toHex _) (by rw [horigins]; rfl)
    (effectOf_eq_effect rfl) (declareAt_admissible identity _ _ now s₁.proj)
  have hkey : P.originKey s₁ (P.peerIdOfKey (identity.verifyingKey P)) (identity.verifyingKey P)
      (identity.peerId P) = .ok (some (identity.verifyingKey P)) := if_pos rfl
  refine ⟨P.rowOf (nextDeclare P identity s now) (identity.peerId P)
    (Prims.nextOf (getOrigin s.eventOrigins (identity.peerId P))).2 now, ?_, ?_, rfl⟩
  · simp only [Prims.pullLoop, Prims.pullOrigin, decodeHex32_toHex, Bool.not_true, Bool.false_eq_true,
      if_false, lookup_localHeads, hhead, hlt, hkey, loneRemote, Prims.ingestEvents,
      hingest]
    exact List.mem_append_right _ (List.mem_singleton.2 rfl)
  · intro hrow
    exact hinv.next_free rfl _ hrow rfl

/-! ## The two pulls and the policy -/

/-- **The pulls and the federation policy**, in a reachable state whose peers
    are bound.  Over HTTP nothing is stored of an origin that was not allowed.
    Over Reticulum, with bound records, the same holds of all remotes that
    claim heads of a set of signing peers exactly if the policy denies none of
    the set. -/
theorem pulls_contained_iff (P : Prims H) (hJ : JsonLaws P) (hinj : Function.Injective P.blake3)
    (ops : List (SyncOp P)) (svc : SyncService H) (now : Int64)
    (hbound : PeersBound P (P.syncRun Store.empty ops).peers)
    (hroom : (P.syncRun Store.empty ops).events.length < maxRows) (O : Set H)
    (hO : ∀ o ∈ O, ∃ identity, SignsCorrectly P identity ∧ identity.peerId P = o) :
    (∀ address remote o,
      StoredNew (P.syncRun Store.empty ops)
        (P.syncWithPeer svc address remote now (P.syncRun Store.empty ops)).1 o →
      svc.AllowedDuring P now (P.syncRun Store.empty ops)
        (P.syncWithPeer svc address remote now (P.syncRun Store.empty ops)).1 o) ∧
    ((∀ order target (remote : Remote ReticulumError), remote.ClaimsOnly P O →
        remote.RecordsBind P (P.syncRun Store.empty ops) → ∀ o,
        StoredNew (P.syncRun Store.empty ops)
          (Prims.Reticulum.syncWithPeer P order target remote now (P.syncRun Store.empty ops)).1 o →
        ¬ svc.Denies P now (P.syncRun Store.empty ops) o) ↔
      ∀ o ∈ O, ¬ svc.Denies P now (P.syncRun Store.empty ops) o) := by
  have hinv := (peerInv_run hJ hinj ops).log
  refine ⟨fun address remote o h => http_stores_allowed svc address remote now hbound h, ?_, ?_⟩
  · intro hall o ho
    obtain ⟨identity, hsign, rfl⟩ := hO o ho
    refine hall ⟨id, fun _ => .refl _⟩ "" (loneRemote P identity _ now .responseTimeout)
      (lone_claims ho) ?_ _ (lone_stores hJ hinj hinv hroom hsign _ _ now)
    intro peers hpeers
    cases hpeers
  · intro hnone order target remote hclaims hrecords o h
    exact hnone o (reticulum_stores_claimed order target remote now hbound hrecords hclaims h)

/-- A service that federates with nobody. -/
def closedService (P : Prims H) (identity : Prims.PeerIdentity) : SyncService H :=
  { openService P identity with federation := .allowlist [] }

/-- An empty store, a closed service, and remotes that claim events of Bob. -/
theorem pulls_contained_iff_closed :
    (∀ address remote o,
      StoredNew (idealOpen.syncRun Store.empty [])
        (idealOpen.syncWithPeer (closedService idealOpen peerA) address remote 7
          (idealOpen.syncRun Store.empty [])).1 o →
      (closedService idealOpen peerA).AllowedDuring idealOpen 7 (idealOpen.syncRun Store.empty [])
        (idealOpen.syncWithPeer (closedService idealOpen peerA) address remote 7
          (idealOpen.syncRun Store.empty [])).1 o) ∧
    ((∀ order target (remote : Remote ReticulumError),
        remote.ClaimsOnly idealOpen {peerB.peerId idealOpen} →
        remote.RecordsBind idealOpen (idealOpen.syncRun Store.empty []) → ∀ o,
        StoredNew (idealOpen.syncRun Store.empty [])
          (Prims.Reticulum.syncWithPeer idealOpen order target remote 7
            (idealOpen.syncRun Store.empty [])).1 o →
        ¬ (closedService idealOpen peerA).Denies idealOpen 7 (idealOpen.syncRun Store.empty []) o) ↔
      ∀ o ∈ ({peerB.peerId idealOpen} : Set Bytes),
        ¬ (closedService idealOpen peerA).Denies idealOpen 7 (idealOpen.syncRun Store.empty []) o) :=
  pulls_contained_iff idealOpen idealOpen_laws idealOpen_injective [] (closedService idealOpen peerA) 7
    (fun r hr => by cases hr) (by simp [Prims.syncRun, Store.empty, maxRows]) {peerB.peerId idealOpen}
    (fun o ho => ⟨peerB, idealOpen_signsCorrectly peerB, ho.symm⟩)

/-- Peer A federates with nobody; over Reticulum it stores Bob's event all the
    same, and over HTTP, from the same answers, nothing. -/
theorem reticulum_stores_denied :
    (∀ s o, (closedService idealOpen peerA).federationAllows s o 7 = false) ∧
    StoredNew Store.empty (Prims.Reticulum.syncWithPeer idealOpen ⟨id, fun _ => .refl _⟩ "0b"
      (loneRemote idealOpen peerB Store.empty 7 .responseTimeout) 7 Store.empty).1
      (peerB.peerId idealOpen) ∧
    ∀ o, ¬ StoredNew Store.empty (idealOpen.syncWithPeer (closedService idealOpen peerA) "http://b"
      (loneRemote idealOpen peerB Store.empty 7 .http) 7 Store.empty).1 o := by
  refine ⟨fun s o => rfl, ?_, ?_⟩
  · have hinv : LogInv idealOpen (Store.empty : Store Bytes) := peerInv_empty.log
    exact lone_stores idealOpen_laws idealOpen_injective hinv (by simp [Store.empty, maxRows])
      (idealOpen_signsCorrectly peerB) _ _ _
  · intro o h
    have hbound : PeersBound idealOpen (Store.empty : Store Bytes).peers := fun r hr => by cases hr
    obtain ⟨s₁, -, -, hallows⟩ := http_stores_allowed _ _ _ _ hbound h
    cases hallows

end OpenAgentGraph
