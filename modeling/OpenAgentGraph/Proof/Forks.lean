/-
  Fork evidence and the flag that trust reads.

  A fork is written down twice: as a row of `peer_forks`, which nothing ever
  deletes, and as `forked` of the peer's row, which goes with that row when
  the peer is removed.  The two agree as long as no pull learns such a peer
  anew, and no longer: the row that it inserts says that there was no fork
  (`forks_marked_iff`).
-/
import OpenAgentGraph.Proof.Binding
import OpenAgentGraph.Proof.Database
import OpenAgentGraph.Sync.Trust

namespace OpenAgentGraph

open Lib Repo

variable {H : Type}

/-! ## The two tables -/

def HasFork (s : Store H) (o : H) : Prop := ∃ f ∈ s.peerForks, f.peerId = o

/-- A peer with fork evidence is flagged. -/
def ForksMarked (s : Store H) : Prop :=
  ∀ r ∈ s.peers, HasFork s r.peerId → r.forked = true

variable [DecidableEq H] {P : Prims H}

/-- A flagged peer has no trust. -/
theorem computeTrust_forked {F : Type} (f : F32Ops F) {s : Store H} (hlen : KeyLengths s.peers)
    {o : H} (hknown : KnownPeer s.peers o) (hmarked : ∀ r ∈ s.peers, r.peerId = o → r.forked = true)
    (presence : Presence H) (now : Int64) (cfg : TrustConfig) :
    computeTrust f s presence o now cfg = .ok f.zero := by
  obtain ⟨r, hfind⟩ := Option.isSome_iff_exists.1 (Table.find_isSome.2 hknown)
  obtain ⟨hr, hid⟩ := Table.find_eq_some hfind
  have hget : getPeer s.peers o = .ok (some ⟨r.peerId, r.publicKey, r.lastSeen, r.forked⟩) := by
    rw [getPeer, hfind]
    simp only [rowToInfo, if_pos (hlen r hr)]
    rfl
  simp only [computeTrust, hget, ok_bind, hmarked r hr hid, Option.map_some, Option.getD_some,
    trustScore, if_true]
  rfl

/-! ## Writers that keep the flags -/

omit [DecidableEq H] in
theorem ForksMarked.forgets {s s' : Store H} (h : ForksMarked s) (hf : Forgets s s') :
    ForksMarked s' := by
  intro r hr hfork
  have hforks : s'.peerForks = s.peerForks := by rw [hf.eq]
  refine h r (hf.peers r hr) ?_
  rw [HasFork, ← hforks]
  exact hfork

/-- A recorded fork is flagged, whoever had a row before. -/
theorem ForksMarked.recordFork {s s' : Store H} (h : ForksMarked s) {key : P.VerifyingKey}
    {signed : SignedEvent} {origin existing eventId : H} {receivedAt : Int64}
    (hfork : P.recordForkOf s key signed origin existing eventId receivedAt = .ok s') :
    ForksMarked s' := by
  obtain ⟨json, rfl⟩ := recordFork_ok hfork
  rintro r hr ⟨f, hf, hfid⟩
  obtain ⟨z, hz, rfl⟩ := Table.mem_updateWhere.1 hr
  by_cases ho : z.peerId = origin
  · simp [ho]
  · simp only [ho, decide_false, Bool.false_eq_true, if_false] at hfid ⊢
    -- the rows of other peers are as they were
    have hold : z ∈ s.peers := by
      rcases Table.mem_upsert.1 hz with ⟨y, hy, rfl⟩ | ⟨rfl, -⟩
      · split
        · next hyo =>
          rw [if_pos hyo] at ho
          exact absurd hyo ho
        · exact hy
      · exact absurd rfl ho
    rcases Table.mem_insertOrIgnore.1 hf with hf | ⟨rfl, -⟩
    · exact h z hold ⟨f, hf, hfid⟩
    · exact absurd hfid.symm ho

theorem exec_forksMarked (hJ : JsonLaws P) (hinj : Function.Injective P.blake3) {s s' : Store H}
    {op : Op P} (hinv : DbInv P s) (h : ForksMarked s) (hexec : P.exec s op = some s') :
    ForksMarked s' := by
  cases exec_logStep hJ hinj hinv.log.stored hexec with
  | commit happ _ _ =>
    rw [happ.eq]
    exact h
  | known => exact h
  | forked _ _ _ _ hfork => exact h.recordFork hfork
  | applied happ _ _ =>
    rw [happ.eq]
    exact h
  | rebuild hr =>
    rw [rebuild_ok hr]
    exact h
  | redactEvidence hr =>
    obtain ⟨-, -, rfl⟩ := redactEvidence_ok hr
    exact h
  | redactActor hr =>
    obtain ⟨-, -, rfl⟩ := redactActor_ok hr
    exact h

theorem Offered.forksMarked (hJ : JsonLaws P) (hinj : Function.Injective P.blake3)
    {K : P.VerifyingKey → Prop} {s s' : Store H} (ho : Offered P K s s') (hinv : DbInv P s)
    (h : ForksMarked s) : DbInv P s' ∧ ForksMarked s' := by
  induction ho with
  | refl => exact ⟨hinv, h⟩
  | @step s₁ s₂ key signed now outcome _ _ hi ih =>
    obtain ⟨hinv₁, h₁⟩ := ih
    have hexec : P.exec s₁ (.ingest key signed now) = some s₂ := by
      rw [Prims.exec, hi]
      rfl
    exact ⟨exec_dbInv hJ hinj hinv₁ hexec, exec_forksMarked hJ hinj hinv₁ h₁ hexec⟩

/-! ## Learning peers -/

/-- Peers were upserted: a row keeps its flag, and a new row has none. -/
structure Learns (peers peers' : List (PeerRow H)) : Prop where
  rows : ∀ r' ∈ peers', (∃ r ∈ peers, r.peerId = r'.peerId ∧ r.forked = r'.forked) ∨
    (r'.forked = false ∧ ¬ KnownPeer peers r'.peerId)
  keeps : ∀ o, KnownPeer peers o → KnownPeer peers' o

omit [DecidableEq H] in
theorem Learns.refl (peers : List (PeerRow H)) : Learns peers peers :=
  ⟨fun r' hr' => .inl ⟨r', hr', rfl, rfl⟩, fun _ h => h⟩

omit [DecidableEq H] in
theorem Learns.trans {t t₁ t₂ : List (PeerRow H)} (h : Learns t t₁) (h' : Learns t₁ t₂) :
    Learns t t₂ := by
  refine ⟨?_, fun o ho => h'.keeps o (h.keeps o ho)⟩
  intro r₂ hr₂
  rcases h'.rows r₂ hr₂ with ⟨r₁, hr₁, hid, hflag⟩ | ⟨hflag, hnew⟩
  · rw [← hid, ← hflag]
    exact h.rows r₁ hr₁
  · exact .inr ⟨hflag, fun hknown => hnew (h.keeps _ hknown)⟩

theorem upsertPeer_learns (peers : List (PeerRow H)) (o : H) (pk : Bytes) (now : Int64) :
    Learns peers (upsertPeer peers o pk none now) := by
  refine ⟨?_, fun o' ho' => ho'.upsertPeer o pk none now⟩
  intro r' hr'
  rcases Table.mem_upsert.1 hr' with ⟨z, hz, rfl⟩ | ⟨rfl, hno⟩
  · refine .inl ⟨z, hz, ?_, ?_⟩
    · split <;> rfl
    · split <;> rfl
  · refine .inr ⟨rfl, ?_⟩
    rintro ⟨r, hr, hid⟩
    exact hno r hr hid

theorem discoverPeer_learns (svc : SyncService H) (now : Int64) (s : Store H) (r : PeerRecord) :
    Learns s.peers (P.discoverPeer svc now s r).peers := by
  unfold Prims.discoverPeer
  split
  · split
    · exact .refl _
    · split
      · exact .refl _
      · split
        · exact .refl _
        · rw [learnPeer_peers]
          exact upsertPeer_learns _ _ _ _
  · exact .refl _

theorem reticulum_discoverPeer_learns (now : Int64) (s : Store H) (r : PeerRecord) :
    Learns s.peers (Prims.Reticulum.discoverPeer P now s r).peers := by
  rcases reticulum_discoverPeer_peers (P := P) now s r with heq | ⟨pid, pk, -, -, heq⟩
  · rw [heq]
    exact .refl _
  · rw [heq]
    exact upsertPeer_learns _ _ _ _

omit [DecidableEq H] in
theorem foldl_learns {f : Store H → PeerRecord → Store H} (hf : ∀ s r, Learns s.peers (f s r).peers)
    (l : List PeerRecord) (s : Store H) : Learns s.peers (l.foldl f s).peers := by
  induction l generalizing s with
  | nil => exact .refl _
  | cons r l ih =>
    rw [List.foldl_cons]
    exact (hf s r).trans (ih _)

theorem recordHello_learns (s : Store H) (o : H) (pk : Bytes) (address : String)
    (heads : List (H × UInt64)) (now : Int64) :
    Learns s.peers (recordHello s o pk address heads now).1.peers := by
  rw [recordHello_peers]
  exact upsertPeer_learns _ _ _ _

theorem discoverPeers_learns {ε : Type} (svc : SyncService H) (remote : Remote ε) (now : Int64)
    (s : Store H) : Learns s.peers (P.discoverPeers svc remote now s).peers := by
  unfold Prims.discoverPeers
  split
  · exact .refl _
  · split
    · exact .refl _
    · exact foldl_learns (discoverPeer_learns svc now) _ _

theorem reticulum_discoverPeers_learns (remote : Remote ReticulumError) (now : Int64) (s : Store H) :
    Learns s.peers (Prims.Reticulum.discoverPeers P remote now s).peers := by
  unfold Prims.Reticulum.discoverPeers
  split
  · exact .refl _
  · exact foldl_learns (reticulum_discoverPeer_learns now) _ _

/-- The store after the hello and the gossip of a pull. -/
def Prims.greeted (P : Prims H) (s : Store H) : SyncOp P → Store H
  | .pull svc address remote now =>
    match remote.hello with
    | .error _ => s
    | .ok hello =>
      match P.remoteIdentity hello with
      | .error _ => s
      | .ok (_, key) => P.afterHello svc address remote now s hello key
  | .reticulumPull order target remote now =>
    match remote.hello with
    | .error _ => s
    | .ok hello =>
      match P.remoteIdentity hello with
      | .error _ => s
      | .ok (_, key) => Reticulum.afterHello P order target remote now s hello key
  | _ => s

theorem greeted_peersOnly (s : Store H) (op : SyncOp P) : PeersOnly s (P.greeted s op) := by
  cases op with
  | store op => exact .refl s
  | push svc events now => exact .refl s
  | pull svc address remote now =>
    simp only [Prims.greeted]
    split
    · exact .refl s
    · split
      · exact .refl s
      · exact afterHello_peersOnly _ _ _ _ _ _ _
  | reticulumPull order target remote now =>
    simp only [Prims.greeted]
    split
    · exact .refl s
    · split
      · exact .refl s
      · exact reticulum_afterHello_peersOnly _ _ _ _ _ _ _

theorem greeted_learns (s : Store H) (op : SyncOp P) : Learns s.peers (P.greeted s op).peers := by
  cases op with
  | store op => exact .refl _
  | push svc events now => exact .refl _
  | pull svc address remote now =>
    simp only [Prims.greeted]
    split
    · exact .refl _
    · split
      · exact .refl _
      · exact (recordHello_learns _ _ _ _ _ _).trans (discoverPeers_learns _ _ _ _)
  | reticulumPull order target remote now =>
    simp only [Prims.greeted]
    split
    · exact .refl _
    · split
      · exact .refl _
      · exact (recordHello_learns _ _ _ _ _ _).trans (reticulum_discoverPeers_learns _ _ _)

/-- After the hello and the gossip, a step is an operation of the store or
    offers of events. -/
theorem syncStep_greeted (s : Store H) (op : SyncOp P) :
    (∃ o, P.greeted s op = s ∧ P.syncStep s op = P.step s o) ∨
      Offered P (fun _ => True) (P.greeted s op) (P.syncStep s op) := by
  cases op with
  | store op => exact .inl ⟨op, rfl, rfl⟩
  | push svc events now => exact .inr (postEvents_offered svc s events now)
  | pull svc address remote now =>
    refine .inr ?_
    simp only [Prims.greeted, Prims.syncStep]
    cases hhello : remote.hello with
    | error e =>
      simp only [Prims.syncWithPeer, hhello]
      exact .refl s
    | ok hello =>
      cases hid : P.remoteIdentity hello with
      | error e =>
        simp only [Prims.syncWithPeer, hhello, hid]
        exact .refl s
      | ok pair =>
        obtain ⟨remoteId, key⟩ := pair
        obtain rfl := remoteIdentity_ok hid
        rw [syncWithPeer_loop svc address now s hhello hid, roundOf_fst]
        simp only [hid]
        exact (pullLoop_offered _ _ _ _ _ _ _ _ _ rfl).any
  | reticulumPull order target remote now =>
    refine .inr ?_
    simp only [Prims.greeted, Prims.syncStep]
    cases hhello : remote.hello with
    | error e =>
      simp only [Prims.Reticulum.syncWithPeer, hhello]
      exact .refl s
    | ok hello =>
      cases hid : P.remoteIdentity hello with
      | error e =>
        simp only [Prims.Reticulum.syncWithPeer, hhello, hid]
        exact .refl s
      | ok pair =>
        obtain ⟨remoteId, key⟩ := pair
        obtain rfl := remoteIdentity_ok hid
        rw [reticulum_syncWithPeer_loop order target now s hhello hid]
        simp only [hid]
        exact (pullLoop_offered _ _ _ _ _ _ _ _ _ rfl).any

/-! ## When the tables agree -/

/-- A pull inserts the row of a peer that has fork evidence. -/
def Relearns (s : Store H) (op : SyncOp P) : Prop :=
  ∃ o, HasFork s o ∧ ¬ KnownPeer s.peers o ∧ KnownPeer (P.greeted s op).peers o

theorem greeted_hasFork {s : Store H} {op : SyncOp P} {o : H} :
    HasFork (P.greeted s op) o ↔ HasFork s o := by
  have hforks : (P.greeted s op).peerForks = s.peerForks := by rw [(greeted_peersOnly s op).eq]
  rw [HasFork, HasFork, hforks]

/-- The inserted row is the one that breaks the agreement. -/
theorem greeted_forksMarked_iff {s : Store H} (h : ForksMarked s) (op : SyncOp P) :
    ForksMarked (P.greeted s op) ↔ ¬ Relearns s op := by
  constructor
  · rintro hmarked ⟨o, hfork, hnew, r', hr', rfl⟩
    have htrue := hmarked r' hr' (greeted_hasFork.2 hfork)
    rcases (greeted_learns s op).rows r' hr' with ⟨r, hr, hid, -⟩ | ⟨hfalse, -⟩
    · exact hnew ⟨r, hr, hid⟩
    · rw [htrue] at hfalse
      cases hfalse
  · intro hno r' hr' hfork
    have hfork := greeted_hasFork.1 hfork
    rcases (greeted_learns s op).rows r' hr' with ⟨r, hr, hid, hflag⟩ | ⟨-, hnew⟩
    · rw [← hflag]
      exact h r hr (hid ▸ hfork)
    · exact absurd ⟨r'.peerId, hfork, hnew, r', hr', rfl⟩ hno

theorem syncStep_forksMarked (hJ : JsonLaws P) (hinj : Function.Injective P.blake3) {s : Store H}
    (hinv : DbInv P s) (h : ForksMarked s) {op : SyncOp P} (hno : ¬ Relearns s op) :
    ForksMarked (P.syncStep s op) := by
  rcases syncStep_greeted s op with ⟨o, -, hstep⟩ | hoffered
  · rw [hstep, Prims.step]
    cases hexec : P.exec s o with
    | none => exact h
    | some s' => exact exec_forksMarked hJ hinj hinv h hexec
  · have hgreeted := (greeted_forksMarked_iff h op).2 hno
    exact (hoffered.forksMarked hJ hinj (hinv.peersOnly (greeted_peersOnly s op)) hgreeted).2

/-! ## Runs -/

/-- The stores that a run goes through: after each operation, and after the
    hello and the gossip of each pull. -/
inductive Visited (P : Prims H) (ops : List (DbOp P)) : Store H → Prop
  | reached (before after : List (DbOp P)) : ops = before ++ after →
      Visited P ops (P.dbRun Database.empty before).store
  | greeted (before : List (DbOp P)) (op : SyncOp P) (after : List (DbOp P)) :
      ops = before ++ .sync op :: after →
      Visited P ops (P.greeted (P.dbRun Database.empty before).store op)

theorem dbRun_append (db : Database H) (ops : List (DbOp P)) (op : DbOp P) :
    P.dbRun db (ops ++ [op]) = P.dbStep (P.dbRun db ops) op := by
  simp [Prims.dbRun]

theorem dbRun_forksMarked (hJ : JsonLaws P) (hinj : Function.Injective P.blake3)
    (ops : List (DbOp P)) (hno : ∀ before op after, ops = before ++ .sync op :: after →
      ¬ Relearns (P.dbRun Database.empty before).store op) :
    ForksMarked (P.dbRun Database.empty ops).store := by
  induction ops using List.reverseRecOn with
  | nil =>
    intro r hr
    cases hr
  | append_singleton ops op ih =>
    have hops := ih fun before op' after heq => hno before op' (after ++ [op]) (by simp [heq])
    rw [dbRun_append]
    rcases dbStep_cases (P.dbRun Database.empty ops) op with ⟨o, rfl, hstep⟩ | hf
    · rw [hstep]
      exact syncStep_forksMarked hJ hinj (dbRun_dbInv hJ hinj dbInv_empty ops) hops
        (hno ops o [] rfl)
    · exact hops.forgets hf

/-- What fork evidence is for: the peer is flagged, and has no trust. -/
def ForksDistrusted (s : Store H) : Prop :=
  ∀ o, HasFork s o → KnownPeer s.peers o →
    (∀ r ∈ s.peers, r.peerId = o → r.forked = true) ∧
    ∀ (F : Type) (f : F32Ops F) (presence : Presence H) (now : Int64) (cfg : TrustConfig),
      computeTrust f s presence o now cfg = .ok f.zero

theorem forksDistrusted_iff {s : Store H} (hlen : KeyLengths s.peers) :
    ForksDistrusted s ↔ ForksMarked s := by
  constructor
  · intro h r hr hfork
    exact (h r.peerId hfork ⟨r, hr, rfl⟩).1 r hr rfl
  · intro h o hfork hknown
    have hmarked : ∀ r ∈ s.peers, r.peerId = o → r.forked = true := by
      rintro r hr rfl
      exact h r hr hfork
    exact ⟨hmarked, fun F f presence now cfg =>
      computeTrust_forked f hlen hknown hmarked presence now cfg⟩

/-- **When fork evidence is remembered.**  A run keeps every forked peer
    flagged, and without trust, just when none of its pulls inserts the row of
    a peer that has fork evidence. -/
theorem forks_remembered_iff (P : Prims H) (hJ : JsonLaws P) (hinj : Function.Injective P.blake3)
    (ops : List (DbOp P)) :
    (∀ s, Visited P ops s → ForksDistrusted s) ↔
      ∀ before op after, ops = before ++ .sync op :: after →
        ¬ Relearns (P.dbRun Database.empty before).store op := by
  have hinv : ∀ before : List (DbOp P), DbInv P (P.dbRun Database.empty before).store :=
    fun before => dbRun_dbInv hJ hinj dbInv_empty before
  have hgreeted : ∀ (before : List (DbOp P)) (op : SyncOp P),
      DbInv P (P.greeted (P.dbRun Database.empty before).store op) :=
    fun before op => (hinv before).peersOnly (greeted_peersOnly _ op)
  constructor
  · intro h before op after hops
    have hbefore := (forksDistrusted_iff (hinv before).lengths).1 (h _ (.reached before _ hops))
    have hafter := (forksDistrusted_iff (hgreeted before op).lengths).1
      (h _ (.greeted before op after hops))
    exact (greeted_forksMarked_iff hbefore op).1 hafter
  · intro hno s hs
    have hmarked : ∀ before after, ops = before ++ after →
        ForksMarked (P.dbRun Database.empty before).store := by
      rintro before after rfl
      refine dbRun_forksMarked hJ hinj before fun before' op after' heq => ?_
      exact hno before' op (after' ++ after) (by simp [heq])
    cases hs with
    | reached before after hops =>
      exact (forksDistrusted_iff (hinv before).lengths).2 (hmarked before after hops)
    | greeted before op after hops =>
      refine (forksDistrusted_iff (hgreeted before op).lengths).2 ?_
      exact (greeted_forksMarked_iff (hmarked before _ hops) op).2 (hno before op after hops)

/-! ## A peer that forks, is removed, and is learnt again -/

theorem removePeer_unknown (s : Store H) (o : H) : ¬ KnownPeer (removePeer s o).1.peers o := by
  have hgone : Table.hasKey PeerAddressRow.peerId o (deleteAddresses s.peerAddresses o) = false := by
    refine Table.hasKey_eq_false.2 fun r hr => ?_
    simpa using List.of_mem_filter hr
  have hdelete : deletePeer s.peers (deleteAddresses s.peerAddresses o) o
      = .ok (s.peers.filter fun r => decide (r.peerId ≠ o)) := by
    simp only [deletePeer, hgone, Bool.and_false, Bool.not_false, requireKey, if_true, ok_bind]
    rfl
  simp only [removePeer, hdelete]
  rintro ⟨r, hr, hid⟩
  exact absurd hid (by simpa using List.of_mem_filter hr)

section relearnt

variable (P) (me : Prims.PeerIdentity)

/-- Two events of one peer with the sequence number 1. -/
def conflictOps : List (DbOp P) :=
  [.sync (.store (.ingest (me.verifyingKey P) (declareEvent P me) 5)),
    .sync (.store (.ingest (me.verifyingKey P) (P.eventOf me 1 none 2 declarePayload) 6))]

/-- The peer says hello, and nothing more. -/
def quietRemote : Remote SyncClientError where
  hello := .ok ⟨syncProtocol, syncVersion, P.peerIdToString (me.peerId P),
    hexEncode (me.verifyingKey P).bytes, []⟩
  fetchEvents := fun _ _ _ => .error .http
  fetchPeers := .error .http

def relearnOps (svc : SyncService H) : List (DbOp P) :=
  conflictOps P me ++ [.removePeer (me.peerId P), .sync (.pull svc "addr" (quietRemote P me) 7)]

variable {P me}

theorem conflict_forks (hJ : JsonLaws P) (hinj : Function.Injective P.blake3)
    (hsign : SignsCorrectly P me) :
    HasFork (P.dbRun Database.empty (conflictOps P me)).store (me.peerId P) ∧
      KnownPeer (P.dbRun Database.empty (conflictOps P me)).store.peers (me.peerId P) := by
  let second := P.eventOf me 1 none 2 declarePayload
  have hver₁ : Verified P (me.verifyingKey P) (declareEvent P me) (P.idOf (declareEvent P me)) :=
    eventOf_verified hJ trivial hsign
  have hver₂ : Verified P (me.verifyingKey P) second (P.idOf second) :=
    eventOf_verified hJ trivial hsign
  have hfin₁ : (declareEvent P me).unsigned.payload.Finite := trivial
  have hfin₂ : second.unsigned.payload.Finite := trivial
  have horigin : P.peerIdFromStr (P.peerIdToString (me.peerId P))
      = .ok (P.peerIdOfKey (me.verifyingKey P)) := P.peerIdFromStr_peerIdToString _
  obtain ⟨o, h₁⟩ := ingest_apply hJ hinj dbInv_empty.log (by simp [Store.empty, maxRows]) 5 hver₁
    horigin rfl rfl rfl (declare_admissible me _)
  have hne : P.idOf (declareEvent P me) ≠ P.idOf second := by
    intro heq
    obtain ⟨r, hsame, hsame'⟩ := same_of_idOf_eq hJ hinj hfin₁ hfin₂ heq
    have htime : (1 : Int64) = 2 := hsame.unsigned.createdAt.trans hsame'.unsigned.createdAt.symm
    exact absurd htime (by decide)
  have hfind : findEventIdAt (appendRow Store.empty (P.rowOf (declareEvent P me)
      (P.peerIdOfKey (me.verifyingKey P)) none 5) (P.effect (declareEvent P me))).events
      (P.peerIdOfKey (me.verifyingKey P)) second.unsigned.sequence.toInt64
        = some (P.idOf (declareEvent P me)) := by
    simp [findEventIdAt, Table.find, appendRow, Store.empty, Prims.rowOf, declareEvent, second,
      Prims.eventOf]
  obtain ⟨json, h₂⟩ := ingest_fork hJ 6 hfin₂ hver₂ horigin rfl hfind hne
  have hs : (P.dbRun Database.empty (conflictOps P me)).store = _ :=
    (congrArg (fun s => P.step s _) (P.step_ingest h₁)).trans (P.step_ingest h₂)
  rw [hs]
  constructor
  · exact ⟨_, List.mem_singleton_self _, rfl⟩
  · exact ⟨⟨me.peerId P, (me.verifyingKey P).bytes, none, 6, some 6, true⟩,
      by simp [appendRow, Store.empty, markForked, upsertPeer, Table.upsert, Table.updateWhere,
        Table.hasKey, Prims.PeerIdentity.peerId], rfl⟩

/-- A peer that is not known and says hello gets a row without the flag. -/
theorem pull_inserts (svc : SyncService H) {s : Store H} (hnew : ¬ KnownPeer s.peers (me.peerId P)) :
    (∃ r ∈ (P.syncStep s (.pull svc "addr" (quietRemote P me) 7)).peers,
      r.peerId = me.peerId P ∧ r.forked = false) ∧
    (P.syncStep s (.pull svc "addr" (quietRemote P me) 7)).peerForks = s.peerForks := by
  have hid : P.remoteIdentity ⟨syncProtocol, syncVersion, P.peerIdToString (me.peerId P),
      hexEncode (me.verifyingKey P).bytes, []⟩ = .ok (me.peerId P, me.verifyingKey P) :=
    remoteIdentity_eq (me.verifyingKey P) rfl rfl
  have hheads : svc.mapOrder.order [] = [] := List.perm_nil.1 (svc.mapOrder.perm [])
  rw [Prims.syncStep, syncWithPeer_loop svc _ _ _ rfl hid, roundOf_fst]
  simp only [hheads, Prims.pullLoop]
  constructor
  · refine ⟨⟨me.peerId P, (me.verifyingKey P).bytes, none, 7, some 7, false⟩, ?_, rfl, rfl⟩
    simp only [Prims.afterHello, Prims.discoverPeers, quietRemote, recordHello_peers]
    refine Table.mem_upsert.2 (.inr ⟨rfl, fun r hr heq => hnew ⟨r, hr, heq⟩⟩)
  · rw [(afterHello_peersOnly svc "addr" (quietRemote P me) 7 s _ (me.verifyingKey P)).eq]

theorem relearn_forgets (hJ : JsonLaws P) (hinj : Function.Injective P.blake3)
    (hsign : SignsCorrectly P me) (svc : SyncService H) :
    ∃ r ∈ (P.dbRun Database.empty (relearnOps P me svc)).store.peers,
      HasFork (P.dbRun Database.empty (relearnOps P me svc)).store r.peerId ∧ r.forked = false := by
  obtain ⟨⟨f, hf, hfid⟩, -⟩ := conflict_forks hJ hinj hsign
  let s := (removePeer (P.dbRun Database.empty (conflictOps P me)).store (me.peerId P)).1
  have hforks : s.peerForks = (P.dbRun Database.empty (conflictOps P me)).store.peerForks := by
    change (removePeer _ _).1.peerForks = _
    rw [(removePeer_forgets _ (me.peerId P)).eq]
  have hs : (P.dbRun Database.empty (relearnOps P me svc)).store
      = P.syncStep s (.pull svc "addr" (quietRemote P me) 7) := rfl
  obtain ⟨⟨r, hr, hid, hflag⟩, hsame⟩ := pull_inserts svc (removePeer_unknown _ (me.peerId P))
  rw [hs]
  refine ⟨r, hr, ⟨f, ?_, hfid.trans hid.symm⟩, hflag⟩
  rw [hsame]
  exact hforks ▸ hf

end relearnt

/-- Peer A forks and is flagged. -/
theorem forks_remembered_iff_conflict :
    let s := (idealOpen.dbRun Database.empty (conflictOps idealOpen peerA)).store
    HasFork s (peerA.peerId idealOpen) ∧ KnownPeer s.peers (peerA.peerId idealOpen) ∧
      ForksDistrusted s := by
  obtain ⟨hfork, hknown⟩ := conflict_forks idealOpen_laws idealOpen_injective
    (idealOpen_signsCorrectly peerA)
  refine ⟨hfork, hknown, (forks_remembered_iff idealOpen idealOpen_laws idealOpen_injective
    (conflictOps idealOpen peerA)).2 ?_ _ (.reached _ [] (by simp))⟩
  -- neither operation is a pull
  rintro before op after hops ⟨o, -, hnew, hlearnt⟩
  have hop : .sync op ∈ conflictOps idealOpen peerA := hops ▸ by simp
  simp only [conflictOps, List.mem_cons, DbOp.sync.injEq, List.not_mem_nil, or_false] at hop
  rcases hop with rfl | rfl
  · exact hnew hlearnt
  · exact hnew hlearnt

/-- Peer A forks, is removed, says hello again, and is a peer without a fork. -/
theorem fork_forgotten :
    let s := (idealOpen.dbRun Database.empty
      (relearnOps idealOpen peerA (openService idealOpen peerB))).store
    ∃ r ∈ s.peers, HasFork s r.peerId ∧ r.forked = false :=
  relearn_forgets idealOpen_laws idealOpen_injective (idealOpen_signsCorrectly peerA) _

end OpenAgentGraph
