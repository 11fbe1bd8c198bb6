/-
  Whose events a peer stores.

  Pushes, and pulls over HTTP, ask the federation policy for every origin, and
  the policy lets members of the peer's own cluster pass.  Membership is what a
  peer has declared of itself.  So an event of another origin is stored only
  after the policy allows the origin, or after its own latest declaration names
  the cluster (`stored_admitted`).
-/
import OpenAgentGraph.Lib.Runs
import OpenAgentGraph.Proof.Federation
import OpenAgentGraph.Proof.Presence
import OpenAgentGraph.Proof.Pull

namespace OpenAgentGraph

open Lib Repo

variable {H : Type} [DecidableEq H] {P : Prims H}

/-! ## Runs of a peer -/

/-- The peer commits as itself, takes part in replication as the service says,
    and neither ingests events directly nor pulls over Reticulum. -/
def ObserverOp.Through (svc : SyncService H) (me : Prims.PeerIdentity) : ObserverOp P → Prop
  | .db (.sync (.store (.commit identity _ _))) => identity = me
  | .db (.sync (.store (.ingest _ _ _))) => False
  | .db (.sync (.push svc' _ _)) => svc' = svc
  | .db (.sync (.pull svc' _ _ _)) => svc' = svc
  | .db (.sync (.reticulumPull _ _ _ _)) => False
  | _ => True

/-- The origin is the peer's own, or the policy allows it, or the latest
    declaration that was accepted from it names the peer's cluster. -/
def Admitted (P : Prims H) (svc : SyncService H) (me : Prims.PeerIdentity)
    (ops : List (ObserverOp P)) (o : H) : Prop :=
  o = me.peerId P ∨ svc.federation.allows o = true ∨
    ∃ d, (declarationsFrom P o ops).getLast? = some d ∧ svc.ownCluster = some d.1.cluster

/-! ## The policy -/

theorem federationAllows_cases {svc : SyncService H} {s : Store H} {o : H} {now : Int64}
    (h : svc.federationAllows s o now = true) : svc.federation.allows o = true ∨
      ∃ claim, getClusterClaim s.peerClusterClaims o = some claim ∧
        svc.ownCluster = some claim.cluster := by
  rw [SyncService.federationAllows] at h
  split at h
  · next hcluster =>
    rw [SyncService.sameCluster] at hcluster
    split at hcluster
    · cases hcluster
    · next mine hmine =>
      split at hcluster
      · next claim hclaim =>
        refine .inr ⟨claim, hclaim, ?_⟩
        rw [hmine, of_decide_eq_true hcluster]
      · cases hcluster
  · split at h
    · cases h
    · next hallows => exact .inl (by simpa using hallows)

/-- Replication leaves the claims alone. -/
theorem Reach.claims (hJ : JsonLaws P) (hinj : Function.Injective P.blake3) {s s' : Store H}
    (h : Reach P s s') (hs : LogInv P s) : s'.peerClusterClaims = s.peerClusterClaims := by
  refine (h.keeps (I := fun t => LogInv P t ∧ t.peerClusterClaims = s.peerClusterClaims)
    ⟨hs, rfl⟩ ?_ ?_).2
  · rintro t t' ⟨ht, hc⟩ hp
    exact ⟨ht.peersOnly hp, hp.claims.trans hc⟩
  · rintro op t t' ⟨ht, hc⟩ hexec
    have hstep := exec_logStep hJ hinj ht.stored hexec
    exact ⟨hstep.logInv ht, hstep.claims.trans hc⟩

/-- With bound peers the key that is known for an origin is its own. -/
theorem knownKey_bound {s : Store H} (hbound : PeersBound P s.peers) {key : P.VerifyingKey} {o : H}
    (h : P.knownKey s o = some key) : P.peerIdOfKey key = o := by
  rw [Prims.knownKey] at h
  split at h
  · next info hget =>
    rw [getPeer] at hget
    split at hget
    · cases hget
    · next r hfind =>
      obtain ⟨hr, rfl⟩ := Table.find_eq_some hfind
      obtain ⟨i, hinfo, hi⟩ := map_ok.1 hget
      cases hi
      rw [rowToInfo] at hinfo
      split at hinfo
      · cases hinfo
        obtain ⟨key', hkey', hid⟩ := hbound r hr
        have hsome : some key' = some key := hkey'.symm.trans h
        rw [hid, Option.some.inj hsome]
      · cases hinfo
  · cases h

/-! ## Pushes -/

/-- What one event of a push stores was allowed. -/
theorem pushEvent_allowed (svc : SyncService H) (now : Int64) {s : Store H}
    (hbound : PeersBound P s.peers) (signed : SignedEvent) {row : EventRow H}
    (hrow : row ∈ (P.pushEvent svc now s signed).1.events) :
    row ∈ s.events ∨ svc.federationAllows s row.originPeerId now = true := by
  unfold Prims.pushEvent at hrow
  split at hrow
  · exact .inl hrow
  next origin horigin =>
  split at hrow
  · exact .inl hrow
  next hallows =>
  split at hrow
  · exact .inl hrow
  next key hkey =>
  have hingested : ∀ {s' : Store H} {outcome : IngestOutcome H},
      P.ingestRemoteEvent s key signed now = .ok (s', outcome) → row ∈ s'.events →
        row ∈ s.events ∨ svc.federationAllows s row.originPeerId now = true := by
    intro s' outcome hi hrow
    rcases ingest_origin hi hrow with hrow | hrow
    · exact .inl hrow
    · rw [hrow, knownKey_bound hbound hkey]
      exact .inr (by simpa using hallows)
  split at hrow
  · next hi => exact hingested hi hrow
  · next hi => exact hingested hi hrow
  · exact .inl hrow

theorem pushEvents_allowed (svc : SyncService H) (now : Int64) (events : List SignedEvent)
    {s : Store H} (hbound : PeersBound P s.peers) (counts : ℕ × ℕ) {row : EventRow H}
    (hrow : row ∈ (P.pushEvents svc now s events counts).1.events) :
    row ∈ s.events ∨ ∃ s₁, Reach P s s₁ ∧ svc.federationAllows s₁ row.originPeerId now = true := by
  induction events generalizing s counts with
  | nil => exact .inl hrow
  | cons signed rest ih =>
    have hone := pushEvent_offered (P := P) svc now s signed
    have hrest : ∃ counts', row ∈ (P.pushEvents svc now (P.pushEvent svc now s signed).1 rest
        counts').1.events := by
      unfold Prims.pushEvents at hrow
      split at hrow
      · next h => rw [h]; exact ⟨_, hrow⟩
      · next h => rw [h]; exact ⟨_, hrow⟩
    obtain ⟨counts', hrest⟩ := hrest
    rcases ih (hone.bound hbound) counts' hrest with hrow | ⟨s₁, hreach, hallows⟩
    · rcases pushEvent_allowed svc now hbound signed hrow with hrow | hallows
      · exact .inl hrow
      · exact .inr ⟨s, .refl s, hallows⟩
    · exact .inr ⟨s₁, hone.reach.trans hreach, hallows⟩

theorem pushEvents_singleton (svc : SyncService H) (now : Int64) (s : Store H) (signed : SignedEvent)
    (counts : ℕ × ℕ) : (P.pushEvents svc now s [signed] counts).1 = (P.pushEvent svc now s signed).1 := by
  unfold Prims.pushEvents
  split
  all_goals
    next h =>
    rw [h]
    rfl

/-! ## One operation -/

/-- What an operation of replication stores is the peer's own, or it was
    allowed in some state of the operation. -/
theorem syncStep_allowed (hJ : JsonLaws P) (hinj : Function.Injective P.blake3)
    {svc : SyncService H} {me : Prims.PeerIdentity} {s : Store H} (hlog : LogStored P s)
    (hbound : PeersBound P s.peers) {op : SyncOp P} (hop : (ObserverOp.db (.sync op)).Through svc me)
    {row : EventRow H} (hrow : row ∈ (P.syncStep s op).events) (hnew : row ∉ s.events) :
    row.originPeerId = me.peerId P ∨
      ∃ s₁ now, Reach P s s₁ ∧ svc.federationAllows s₁ row.originPeerId now = true := by
  cases op with
  | store op =>
    rw [Prims.syncStep, Prims.step] at hrow
    cases hexec : P.exec s op with
    | none =>
      rw [hexec] at hrow
      exact absurd hrow hnew
    | some s' =>
      rw [hexec, Option.getD_some] at hrow
      cases exec_logStep hJ hinj hlog hexec with
      | commit happ horigin _ =>
        rw [happ.events_eq] at hrow
        obtain rfl := List.mem_singleton.1 ((List.mem_append.1 hrow).resolve_left hnew)
        obtain rfl : _ = me := hop
        exact .inl horigin
      | known => exact absurd hrow hnew
      | forked => exact hop.elim
      | applied => exact hop.elim
      | rebuild hr =>
        rw [rebuild_ok hr] at hrow
        exact absurd hrow hnew
      | redactEvidence hr =>
        obtain ⟨-, -, rfl⟩ := redactEvidence_ok hr
        exact absurd hrow hnew
      | redactActor hr =>
        obtain ⟨-, -, rfl⟩ := redactActor_ok hr
        exact absurd hrow hnew
  | push svc' events now =>
    obtain rfl : svc' = svc := hop
    rw [Prims.syncStep, Prims.postEvents] at hrow
    split at hrow
    · exact absurd hrow hnew
    · obtain ⟨s₁, hreach, hallows⟩ := (pushEvents_allowed svc' now events hbound _ hrow).resolve_left hnew
      exact .inr ⟨s₁, now, hreach, hallows⟩
  | pull svc' address remote now =>
    obtain rfl : svc' = svc := hop
    obtain ⟨s₁, hreach, -, hallows⟩ :=
      http_stores_allowed svc' address remote now hbound ⟨row, hrow, hnew, rfl⟩
    exact .inr ⟨s₁, now, hreach, hallows⟩
  | reticulumPull order target remote now => exact hop.elim

theorem dbStep_bound {svc : SyncService H} {me : Prims.PeerIdentity} {db : Database H}
    (h : PeersBound P db.store.peers) {op : DbOp P} (hop : (ObserverOp.db op).Through svc me) :
    PeersBound P (P.dbStep db op).store.peers := by
  rcases dbStep_cases db op with ⟨o, rfl, ho⟩ | hforgets
  · rw [ho]
    refine syncStep_bound h ?_
    cases o with
    | reticulumPull order target remote now => exact hop.elim
    | _ => trivial
  · exact fun r hr => h r (hforgets.peers r hr)

theorem observerStep_bound {svc : SyncService H} {me : Prims.PeerIdentity} {o : Observer H}
    (h : PeersBound P o.db.store.peers) {op : ObserverOp P} (hop : op.Through svc me) :
    PeersBound P (P.observerStep o op).db.store.peers := by
  cases op with
  | presence heartbeat now =>
    rw [Prims.observerStep]
    split <;> exact h
  | cluster declaration now =>
    rw [Prims.observerStep, Prims.postCluster]
    split
    · next hpost =>
      split at hpost
      · cases hpost
      · cases hpost
        exact h
    · exact h
  | db op => exact dbStep_bound h hop

/-- What a step stores, and the claims it is judged by. -/
theorem observerStep_allowed (hJ : JsonLaws P) (hinj : Function.Injective P.blake3)
    {svc : SyncService H} {me : Prims.PeerIdentity} {o : Observer H} (hlog : LogInv P o.db.store)
    (hbound : PeersBound P o.db.store.peers) {op : ObserverOp P} (hop : op.Through svc me)
    {row : EventRow H} (hrow : row ∈ (P.observerStep o op).db.store.events)
    (hnew : row ∉ o.db.store.events) : row.originPeerId = me.peerId P ∨
      svc.federation.allows row.originPeerId = true ∨
        ∃ claim, getClusterClaim o.db.store.peerClusterClaims row.originPeerId = some claim ∧
          svc.ownCluster = some claim.cluster := by
  cases op with
  | presence heartbeat now =>
    rw [Prims.observerStep] at hrow
    split at hrow <;> exact absurd hrow hnew
  | cluster declaration now =>
    rw [Prims.observerStep, Prims.postCluster] at hrow
    split at hrow
    · next hpost =>
      split at hpost
      · cases hpost
      · cases hpost
        exact absurd hrow hnew
    · exact absurd hrow hnew
  | db op =>
    rw [Prims.observerStep] at hrow
    rcases dbStep_cases o.db op with ⟨op, rfl, hop'⟩ | hforgets
    · rw [hop'] at hrow
      rcases syncStep_allowed hJ hinj hlog.stored hbound hop hrow hnew with
        hown | ⟨s₁, now, hreach, hallows⟩
      · exact .inl hown
      · have hcases := federationAllows_cases hallows
        rw [hreach.claims hJ hinj hlog] at hcases
        exact .inr hcases
    · rw [hforgets.eq] at hrow
      exact absurd hrow hnew

/-! ## Main result -/

theorem observerRun_bound {svc : SyncService H} {me : Prims.PeerIdentity} (ops : List (ObserverOp P))
    (hops : ∀ op ∈ ops, op.Through svc me) : PeersBound P (P.observerRun ops).db.store.peers := by
  refine List.foldlRecOn ops P.observerStep (motive := fun o => PeersBound P o.db.store.peers) ?_ ?_
  · intro r hr
    cases hr
  · intro o h op hop
    exact observerStep_bound h (hops op hop)

/-- **Whose events are stored.**  When an event was stored, its origin was
    admitted. -/
theorem stored_admitted (P : Prims H) (hJ : JsonLaws P) (hinj : Function.Injective P.blake3)
    (svc : SyncService H) (me : Prims.PeerIdentity) (ops : List (ObserverOp P))
    (hops : ∀ op ∈ ops, op.Through svc me) (row : EventRow H)
    (hrow : row ∈ (P.observerRun ops).db.store.events) :
    ∃ before op, before ++ [op] <+: ops ∧ row ∉ (P.observerRun before).db.store.events ∧
      row ∈ (P.observerRun (before ++ [op])).db.store.events ∧
      Admitted P svc me before row.originPeerId := by
  obtain ⟨before, op, hbefore, hnot, hthen⟩ := exists_moment (f := P.observerStep)
    (p := fun o => row ∈ o.db.store.events) List.not_mem_nil hrow
  have hmem : ∀ o ∈ before ++ [op], o.Through svc me := fun o ho => hops o (hbefore.subset ho)
  have hinv := observerRun_inv hJ hinj before
  have hbound := observerRun_bound before fun o ho => hmem o (List.mem_append_left _ ho)
  refine ⟨before, op, hbefore, hnot, ?_, ?_⟩
  · rw [Prims.observerRun, List.foldl_append]
    exact hthen
  · have hthrough := hmem op (List.mem_append_right _ (List.mem_singleton_self _))
    rcases observerStep_allowed hJ hinj hinv.db.log hbound hthrough hthen hnot with
      hown | hallows | ⟨claim, hclaim, hcluster⟩
    · exact .inl hown
    · exact .inr (.inl hallows)
    · rw [hinv.clusters] at hclaim
      obtain ⟨d, hd, rfl⟩ := Option.map_eq_some_iff.1 hclaim
      exact .inr (.inr ⟨d, hd, hcluster⟩)

/-! ## A member of the cluster -/

section member

variable (P) (origin me : Prims.PeerIdentity)

/-- A peer that federates nobody but its own cluster. -/
def clusterService : SyncService H :=
  { openService P me with
    federation := .allowlist []
    ownCluster := some "c" }

/-- The origin declares the cluster, is met, and pushes its first event. -/
def memberOps : List (ObserverOp P) :=
  [.cluster (P.buildAndSignCluster origin "c" 1) 1,
    .db (.sync (.pull (clusterService P me) "http://c" (helloOnly P origin) 3)),
    .db (.sync (.push (clusterService P me) [declareEvent P origin] 5))]

/-- What the peer holds before the push. -/
def memberStore : Store H :=
  { metStore P origin with peerClusterClaims := [⟨origin.peerId P, "c", 1⟩] }

variable {P}

theorem verifyCluster_build (hsign : SignsCorrectly P origin) (cluster : String) {timestamp now : Int64}
    (hskew : absDiff timestamp now ≤ maxClockSkewSeconds) :
    P.verifyCluster (P.buildAndSignCluster origin cluster timestamp) now = .ok (origin.peerId P) :=
  verifyStatement_eq_ok.2 ⟨signedBy_sign hsign _ _, hskew⟩

/-- The hello alone is recorded, whatever the claims. -/
theorem helloOnly_claims (claims : List (PeerClusterClaimRow H)) :
    P.syncStep { Store.empty with peerClusterClaims := claims }
        (.pull (clusterService P me) "http://c" (helloOnly P origin) 3)
      = { metStore P origin with peerClusterClaims := claims } := by
  have hid : P.remoteIdentity ⟨syncProtocol, syncVersion, P.peerIdToString (origin.peerId P),
      hexEncode (origin.verifyingKey P).bytes, []⟩
        = .ok (P.peerIdOfKey (origin.verifyingKey P), origin.verifyingKey P) :=
    remoteIdentity_eq _ rfl rfl
  simp only [Prims.syncStep, Prims.syncWithPeer, helloOnly, hid]
  simp [recordHello, addAddress, Prims.decodedHeads, clusterService, openService, Prims.discoverPeers,
    Prims.pullLoop, upsertPeer, Table.upsert, Table.hasKey, Table.insertOrIgnore, requireKey, metStore,
    Store.empty, Prims.PeerIdentity.peerId]

/-- The pushed event is stored, because the origin is a member. -/
theorem memberStore_push (hJ : JsonLaws P) (hinj : Function.Injective P.blake3)
    (hsign : SignsCorrectly P origin) :
    (P.pushEvent (clusterService P me) 5 (memberStore P origin) (declareEvent P origin)).1.events
      = [P.rowOf (declareEvent P origin) (origin.peerId P) none 5] := by
  have hparse : P.peerIdFromStr (declareEvent P origin).unsigned.originPeer = .ok (origin.peerId P) :=
    P.peerIdFromStr_peerIdToString _
  have hallows : (clusterService P me).federationAllows (memberStore P origin) (origin.peerId P) 5
      = true := by
    simp [SyncService.federationAllows, SyncService.sameCluster, clusterService, memberStore,
      getClusterClaim, Table.find]
  have hknown : P.knownKey (memberStore P origin) (origin.peerId P) = some (origin.verifyingKey P) :=
    knownKey_metStore
  have hinv : LogInv P (memberStore P origin) :=
    ⟨fun _ hr => (by cases hr), ⟨fun _ => .nil, fun _ => rfl⟩⟩
  have hfirst := ingest_first hJ hinj hsign hinv rfl rfl 1
  unfold Prims.pushEvent
  simp only [hparse, hallows, hknown, Bool.not_true, Bool.false_eq_true, if_false]
  cases hi : P.ingestRemoteEvent (memberStore P origin) (origin.verifyingKey P)
      (declareEvent P origin) 5 with
  | error e =>
    rw [Prims.step, Prims.exec] at hfirst
    have hnone : (P.ingestRemoteEvent (memberStore P origin) (origin.verifyingKey P)
        (P.eventOf origin 1 none 1 declarePayload) 5) = .error e := hi
    rw [hnone] at hfirst
    have hlen := congrArg (fun s : Store H => s.events.length) hfirst
    simp [Except.toOption, memberStore, metStore, Store.empty, appendRow] at hlen
  | ok result =>
    obtain ⟨s', outcome⟩ := result
    have hs' : s' = _ := (P.step_ingest hi).symm.trans hfirst
    cases outcome <;> rw [hs'] <;> rfl

theorem memberOps_events (hJ : JsonLaws P) (hinj : Function.Injective P.blake3)
    (hsign : SignsCorrectly P origin) : (P.observerRun (memberOps P origin me)).db.store.events
      = [P.rowOf (declareEvent P origin) (origin.peerId P) none 5] := by
  have hver : P.verifyCluster (P.buildAndSignCluster origin "c" 1) 1 = .ok (origin.peerId P) :=
    verifyCluster_build origin hsign "c" (by decide)
  have hdeclared : (P.observerStep Observer.empty (.cluster (P.buildAndSignCluster origin "c" 1) 1)).db.store
      = { Store.empty with peerClusterClaims := [⟨origin.peerId P, "c", 1⟩] } := by
    simp only [Prims.observerStep, Prims.postCluster, hver]
    rfl
  have hrun : (P.observerRun (memberOps P origin me)).db.store
      = P.syncStep (P.syncStep
          (P.observerStep Observer.empty (.cluster (P.buildAndSignCluster origin "c" 1) 1)).db.store
          (.pull (clusterService P me) "http://c" (helloOnly P origin) 3))
        (.push (clusterService P me) [declareEvent P origin] 5) := rfl
  have hmet : P.syncStep { Store.empty with peerClusterClaims := [⟨origin.peerId P, "c", 1⟩] }
      (.pull (clusterService P me) "http://c" (helloOnly P origin) 3) = memberStore P origin :=
    helloOnly_claims origin me _
  have hfew : ¬ maxEventsPerPush < [declareEvent P origin].length := by
    simp [maxEventsPerPush]
  rw [hrun, hdeclared, hmet, Prims.syncStep, Prims.postEvents, if_neg hfew]
  exact (congrArg Store.events (pushEvents_singleton _ _ _ _ _)).trans
    (memberStore_push origin me hJ hinj hsign)

omit [DecidableEq H] in
theorem memberOps_through (op : ObserverOp P) (hop : op ∈ memberOps P origin me) :
    op.Through (clusterService P me) me := by
  simp only [memberOps, List.mem_cons, List.not_mem_nil, or_false] at hop
  rcases hop with rfl | rfl | rfl
  · trivial
  · exact rfl
  · exact rfl

end member

/-- The event of a member of the cluster was stored when its declaration was
    there. -/
theorem stored_admitted_member : ∃ before op,
    before ++ [op] <+: memberOps idealOpen peerB peerA ∧
    idealOpen.rowOf (declareEvent idealOpen peerB) (peerB.peerId idealOpen) none 5
      ∉ (idealOpen.observerRun before).db.store.events ∧
    idealOpen.rowOf (declareEvent idealOpen peerB) (peerB.peerId idealOpen) none 5
      ∈ (idealOpen.observerRun (before ++ [op])).db.store.events ∧
    Admitted idealOpen (clusterService idealOpen peerA) peerA before (peerB.peerId idealOpen) :=
  stored_admitted idealOpen idealOpen_laws idealOpen_injective (clusterService idealOpen peerA) peerA
    (memberOps idealOpen peerB peerA) (memberOps_through peerB peerA)
    (idealOpen.rowOf (declareEvent idealOpen peerB) (peerB.peerId idealOpen) none 5)
    (by
      rw [memberOps_events peerB peerA idealOpen_laws idealOpen_injective
        (idealOpen_signsCorrectly peerB)]
      exact List.mem_singleton_self _)

end OpenAgentGraph
