/-
  What an observer stores of the statements of a peer.

  * `presenceOf_run`, `clusterOf_run`: the rows of a peer after any run, by the
    statements that were accepted from it, in the order they arrived;
  * `latest_statement_wins_iff`: they are those of the statement with the
    greatest timestamp if and only if that one arrived last, or says the same.
-/
import OpenAgentGraph.Proof.Database
import OpenAgentGraph.Proof.Freshness
import OpenAgentGraph.Sync.Observer

namespace OpenAgentGraph

open Lib Repo

variable {H : Type} [DecidableEq H] {P : Prims H}

/-! ## The database leaves the claims alone -/

omit [DecidableEq H] in
theorem Forgets.claims {s s' : Store H} (h : Forgets s s') :
    s'.peerClusterClaims = s.peerClusterClaims := by rw [h.eq]

theorem PeersOnly.claims {s s' : Store H} (h : PeersOnly s s') :
    s'.peerClusterClaims = s.peerClusterClaims := by rw [h.eq]

theorem LogStep.claims {s s' : Store H} {op : Op P} (h : LogStep P s op s') :
    s'.peerClusterClaims = s.peerClusterClaims := by
  cases h with
  | commit happ _ _ => rw [happ.eq]
  | known => rfl
  | forked _ _ _ _ hfork =>
    obtain ⟨json, rfl⟩ := recordFork_ok hfork
    rfl
  | applied happ _ _ => rw [happ.eq]
  | rebuild hr => rw [rebuild_ok hr]
  | redactEvidence hr =>
    obtain ⟨-, -, rfl⟩ := redactEvidence_ok hr
    rfl
  | redactActor hr =>
    obtain ⟨-, -, rfl⟩ := redactActor_ok hr
    rfl

/-- One operation on the database, from a state of a run. -/
theorem dbStep_claims (hJ : JsonLaws P) (hinj : Function.Injective P.blake3) {db : Database H}
    (hinv : DbInv P db.store) (op : DbOp P) :
    DbInv P (P.dbStep db op).store ∧
      (P.dbStep db op).store.peerClusterClaims = db.store.peerClusterClaims := by
  refine dbStep_keeps (I := fun s => DbInv P s ∧ s.peerClusterClaims = db.store.peerClusterClaims) op
    ⟨hinv, rfl⟩ ?_ ?_ ?_
  · rintro s s' ⟨h, hc⟩ hf
    exact ⟨h.forgets hf, hf.claims.trans hc⟩
  · rintro s s' ⟨h, hc⟩ hp
    exact ⟨h.peersOnly hp, hp.claims.trans hc⟩
  · rintro op s s' ⟨h, hc⟩ hexec
    exact ⟨exec_dbInv hJ hinj h hexec, (exec_logStep hJ hinj h.log.stored hexec).claims.trans hc⟩

theorem DbInv.claims {s : Store H} (h : DbInv P s) (t : List (PeerClusterClaimRow H)) :
    DbInv P { s with peerClusterClaims := t } := by
  obtain ⟨g, hbuilt, hrows, hproj⟩ := h.replay.built
  exact ⟨⟨h.log.stored, h.log.chain.chain, h.log.chain.heads⟩,
    ⟨g, hbuilt, ⟨hrows.evidence, hrows.actors⟩, hproj⟩, h.lengths⟩

/-! ## The statements of a peer -/

variable (P) in
/-- The heartbeats that were accepted from the peer, in the order they arrived,
    each with the time it was accepted. -/
def heartbeatsFrom (p : H) (ops : List (ObserverOp P)) : List (UnsignedPresenceHeartbeat × Int64) :=
  ops.filterMap fun
    | .presence heartbeat now =>
      if (P.verifyPresence heartbeat now).toOption = some p then some (heartbeat.unsigned, now) else none
    | _ => none

variable (P) in
/-- The cluster declarations that were accepted from the peer. -/
def declarationsFrom (p : H) (ops : List (ObserverOp P)) : List (UnsignedClusterDeclaration × Int64) :=
  ops.filterMap fun
    | .cluster declaration now =>
      if (P.verifyCluster declaration now).toOption = some p then some (declaration.unsigned, now) else none
    | _ => none

theorem heartbeatsFrom_cons {p : H} {heartbeat : PresenceHeartbeat} {now : Int64}
    (h : P.verifyPresence heartbeat now = .ok p) (ops : List (ObserverOp P)) :
    heartbeatsFrom P p (.presence heartbeat now :: ops)
      = (heartbeat.unsigned, now) :: heartbeatsFrom P p ops := by
  have hto : (P.verifyPresence heartbeat now).toOption = some p := by
    rw [h]
    rfl
  simp only [heartbeatsFrom, List.filterMap_cons, hto, if_true]

/-- An accepted heartbeat is close in time. -/
theorem near_of_mem_heartbeatsFrom {p : H} {ops : List (ObserverOp P)}
    {h : UnsignedPresenceHeartbeat × Int64} (hh : h ∈ heartbeatsFrom P p ops) :
    absDiff h.1.timestamp h.2 ≤ maxClockSkewSeconds := by
  obtain ⟨op, -, hop⟩ := List.mem_filterMap.1 hh
  cases op with
  | presence heartbeat now =>
    simp only [Option.ite_none_right_eq_some, Option.some.injEq] at hop
    obtain ⟨hver, rfl⟩ := hop
    exact (verifyStatement_eq_ok.1 (toOption_eq_some.1 hver)).2
  | cluster => cases hop
  | db => cases hop

/-- The presence row that a list of accepted heartbeats leaves. -/
def presenceRow (p : H) (heartbeats : List (UnsignedPresenceHeartbeat × Int64)) :
    Option (PeerPresenceRow H) :=
  match heartbeats.head?, heartbeats.getLast? with
  | some first, some last =>
    some ⟨p, first.1.sessionStartedAt, last.1.timestamp, last.1.status.asStr⟩
  | _, _ => none

omit [DecidableEq H] in
theorem presenceRow_append (p : H) (heartbeats : List (UnsignedPresenceHeartbeat × Int64))
    (next : UnsignedPresenceHeartbeat × Int64) : presenceRow p (heartbeats ++ [next])
      = some (match presenceRow p heartbeats with
        | some row => { row with lastHeartbeatAt := next.1.timestamp, status := next.1.status.asStr }
        | none => ⟨p, next.1.sessionStartedAt, next.1.timestamp, next.1.status.asStr⟩) := by
  cases heartbeats with
  | nil => rfl
  | cons first rest =>
    rw [presenceRow, List.getLast?_concat]
    obtain ⟨last, hlast⟩ := Option.ne_none_iff_exists'.1
      (mt List.getLast?_eq_none_iff.1 (List.cons_ne_nil first rest))
    simp only [presenceRow, List.cons_append, List.head?_cons, hlast]

/-! ## The rows after a run -/

theorem find_recordHeartbeat (t : List (PeerPresenceRow H)) (p q : H) (started heartbeatAt : Int64)
    (status : String) :
    Table.find PeerPresenceRow.peerId q (recordHeartbeat t p started heartbeatAt status)
      = if p = q then some (match Table.find PeerPresenceRow.peerId p t with
          | some row => { row with lastHeartbeatAt := heartbeatAt, status := status }
          | none => ⟨p, started, heartbeatAt, status⟩)
        else Table.find PeerPresenceRow.peerId q t := by
  unfold recordHeartbeat
  by_cases hpq : p = q
  · subst hpq
    have hfind := @Table.find_upsert _ _ _ PeerPresenceRow.peerId ⟨p, started, heartbeatAt, status⟩ t
      (fun r => { r with lastHeartbeatAt := heartbeatAt, status := status }) fun _ => rfl
    rw [if_pos rfl]
    refine hfind.trans ?_
    cases Table.find PeerPresenceRow.peerId p t <;> rfl
  · rw [if_neg hpq]
    exact Table.find_upsert_ne (fun _ => rfl) hpq

theorem getClusterClaim_upsert (t : List (PeerClusterClaimRow H)) (p q : H) (cluster : String)
    (declaredAt : Int64) : getClusterClaim (upsertCluster t p cluster declaredAt) q
      = if p = q then some ⟨p, cluster, declaredAt⟩ else getClusterClaim t q := by
  unfold upsertCluster getClusterClaim
  by_cases hpq : p = q
  · subst hpq
    rw [if_pos rfl]
    refine @Table.find_upsert_self _ _ _ PeerClusterClaimRow.peerId ⟨p, cluster, declaredAt⟩ t _
      (fun _ => rfl) ?_
    rintro ⟨q, c, d⟩ rfl
    rfl
  · rw [if_neg hpq]
    exact Table.find_upsert_ne (fun _ => rfl) hpq

/-- What holds of an observer after a list of operations. -/
structure ObserverInv (ops : List (ObserverOp P)) (o : Observer H) : Prop where
  db : DbInv P o.db.store
  presence : ∀ p, Table.find PeerPresenceRow.peerId p o.presence.peerPresence
    = presenceRow p (heartbeatsFrom P p ops)
  clusters : ∀ p, getClusterClaim o.db.store.peerClusterClaims p
    = (declarationsFrom P p ops).getLast?.map fun d => ⟨p, d.1.cluster, d.2⟩

/-- An accepted heartbeat, or one that is refused. -/
theorem postPresence_inv {ops : List (ObserverOp P)} {o : Observer H} (h : ObserverInv ops o)
    (heartbeat : PresenceHeartbeat) (now : Int64) :
    ObserverInv (ops ++ [.presence heartbeat now])
      (P.observerStep o (.presence heartbeat now)) := by
  have hdecl : ∀ p, declarationsFrom P p (ops ++ [.presence heartbeat now]) = declarationsFrom P p ops := by
    intro p
    simp [declarationsFrom]
  simp only [Prims.observerStep, Prims.postPresence]
  cases hver : P.verifyPresence heartbeat now with
  | error e =>
    refine ⟨h.db, fun p => ?_, fun p => by rw [hdecl]; exact h.clusters p⟩
    have hsame : heartbeatsFrom P p (ops ++ [.presence heartbeat now]) = heartbeatsFrom P p ops := by
      simp [heartbeatsFrom, hver, Except.toOption]
    rw [hsame]
    exact h.presence p
  | ok sender =>
    refine ⟨h.db, fun p => ?_, fun p => by rw [hdecl]; exact h.clusters p⟩
    rw [find_recordHeartbeat]
    by_cases hp : sender = p
    · subst hp
      have hnext : heartbeatsFrom P sender (ops ++ [.presence heartbeat now])
          = heartbeatsFrom P sender ops ++ [(heartbeat.unsigned, now)] := by
        simp [heartbeatsFrom, hver, Except.toOption]
      rw [if_pos rfl, hnext, presenceRow_append, h.presence sender]
    · have hsame : heartbeatsFrom P p (ops ++ [.presence heartbeat now]) = heartbeatsFrom P p ops := by
        simp [heartbeatsFrom, hver, Except.toOption, hp]
      rw [if_neg hp, hsame]
      exact h.presence p

/-- An accepted declaration, or one that is refused. -/
theorem postCluster_inv {ops : List (ObserverOp P)} {o : Observer H} (h : ObserverInv ops o)
    (declaration : ClusterDeclaration) (now : Int64) :
    ObserverInv (ops ++ [.cluster declaration now])
      (P.observerStep o (.cluster declaration now)) := by
  have hbeats : ∀ p, heartbeatsFrom P p (ops ++ [.cluster declaration now]) = heartbeatsFrom P p ops := by
    intro p
    simp [heartbeatsFrom]
  simp only [Prims.observerStep, Prims.postCluster]
  cases hver : P.verifyCluster declaration now with
  | error e =>
    refine ⟨h.db, fun p => by rw [hbeats]; exact h.presence p, fun p => ?_⟩
    have hsame : declarationsFrom P p (ops ++ [.cluster declaration now]) = declarationsFrom P p ops := by
      simp [declarationsFrom, hver, Except.toOption]
    rw [hsame]
    exact h.clusters p
  | ok sender =>
    refine ⟨h.db.claims _, fun p => by rw [hbeats]; exact h.presence p, fun p => ?_⟩
    rw [getClusterClaim_upsert]
    by_cases hp : sender = p
    · subst hp
      have hnext : declarationsFrom P sender (ops ++ [.cluster declaration now])
          = declarationsFrom P sender ops ++ [(declaration.unsigned, now)] := by
        simp [declarationsFrom, hver, Except.toOption]
      rw [if_pos rfl, hnext, List.getLast?_concat]
      rfl
    · have hsame : declarationsFrom P p (ops ++ [.cluster declaration now]) = declarationsFrom P p ops := by
        simp [declarationsFrom, hver, Except.toOption, hp]
      rw [if_neg hp, hsame]
      exact h.clusters p

/-- **The rows of a peer after any run.** -/
theorem observerRun_inv (hJ : JsonLaws P) (hinj : Function.Injective P.blake3)
    (ops : List (ObserverOp P)) : ObserverInv ops (P.observerRun ops) := by
  induction ops using List.reverseRecOn with
  | nil => exact ⟨dbInv_empty, fun _ => rfl, fun _ => rfl⟩
  | append_singleton ops op ih =>
    have hrun : P.observerRun (ops ++ [op]) = P.observerStep (P.observerRun ops) op := by
      simp only [Prims.observerRun, List.foldl_append, List.foldl_cons, List.foldl_nil]
    rw [hrun]
    cases op with
    | presence heartbeat now => exact postPresence_inv ih heartbeat now
    | cluster declaration now => exact postCluster_inv ih declaration now
    | db op =>
      obtain ⟨hdb, hclaims⟩ := dbStep_claims hJ hinj ih.db op
      refine ⟨hdb, fun p => ?_, fun p => ?_⟩
      · have hsame : heartbeatsFrom P p (ops ++ [.db op]) = heartbeatsFrom P p ops := by
          simp [heartbeatsFrom]
        rw [hsame]
        exact ih.presence p
      · have hsame : declarationsFrom P p (ops ++ [.db op]) = declarationsFrom P p ops := by
          simp [declarationsFrom]
        rw [hsame, ← ih.clusters p]
        exact congrArg (getClusterClaim · p) hclaims

/-! ## The latest statement -/

/-- The stored heartbeat of the peer is the one with the greatest timestamp. -/
def LatestHeartbeat (P : Prims H) (p : H) (ops : List (ObserverOp P)) : Prop :=
  ∀ h ∈ heartbeatsFrom P p ops,
    (∀ h' ∈ heartbeatsFrom P p ops, h'.1.timestamp ≤ h.1.timestamp) →
    ∃ row, Table.find PeerPresenceRow.peerId p (P.observerRun ops).presence.peerPresence = some row ∧
      row.lastHeartbeatAt = h.1.timestamp ∧ row.status = h.1.status.asStr

/-- The stored cluster of the peer is that of the declaration with the greatest timestamp. -/
def LatestCluster (P : Prims H) (p : H) (ops : List (ObserverOp P)) : Prop :=
  ∀ d ∈ declarationsFrom P p ops,
    (∀ d' ∈ declarationsFrom P p ops, d'.1.timestamp ≤ d.1.timestamp) →
    ∃ row, getClusterClaim (P.observerRun ops).db.store.peerClusterClaims p = some row ∧
      row.cluster = d.1.cluster

/-- A list that is not empty has an element with the greatest timestamp. -/
theorem exists_greatest {α : Type} (time : α → Int64) {l : List α} (hne : l ≠ []) :
    ∃ x ∈ l, ∀ y ∈ l, time y ≤ time x := by
  induction l with
  | nil => exact absurd rfl hne
  | cons x l ih =>
    by_cases hl : l = []
    · refine ⟨x, List.mem_cons_self .., ?_⟩
      rintro y hy
      obtain rfl : y = x := by simpa [hl] using hy
      exact Int64.le_refl _
    · obtain ⟨z, hz, hmax⟩ := ih hl
      rcases Int64.le_total (time x) (time z) with hxz | hzx
      · refine ⟨z, List.mem_cons_of_mem _ hz, fun y hy => ?_⟩
        rcases List.mem_cons.1 hy with rfl | hy
        · exact hxz
        · exact hmax y hy
      · refine ⟨x, List.mem_cons_self .., fun y hy => ?_⟩
        rcases List.mem_cons.1 hy with rfl | hy
        · exact Int64.le_refl _
        · exact Int64.le_trans (hmax y hy) hzx

/-- The stored heartbeat, in terms of those that were accepted. -/
theorem latestHeartbeat_iff (hJ : JsonLaws P) (hinj : Function.Injective P.blake3)
    (ops : List (ObserverOp P)) (p : H)
    (hbeats : ∀ h ∈ heartbeatsFrom P p ops, ∀ h' ∈ heartbeatsFrom P p ops,
      h.1.timestamp = h'.1.timestamp → h.1 = h'.1) :
    LatestHeartbeat P p ops ↔ ∀ last ∈ (heartbeatsFrom P p ops).getLast?,
      ∀ h ∈ heartbeatsFrom P p ops, h.1.timestamp ≤ last.1.timestamp := by
  unfold LatestHeartbeat
  simp only [(observerRun_inv hJ hinj ops).presence p]
  generalize heartbeatsFrom P p ops = l at hbeats ⊢
  constructor
  · intro hlatest last hlast h hh
    have hlast' : l.getLast? = some last := hlast
    obtain ⟨x, hx, hmax⟩ := exists_greatest (fun h => h.1.timestamp) (List.ne_nil_of_mem hh)
    obtain ⟨row, hrow, htime, -⟩ := hlatest x hx hmax
    obtain ⟨first, hfirst⟩ : ∃ first, l.head? = some first :=
      Option.ne_none_iff_exists'.1 (mt List.head?_eq_none_iff.1 (List.ne_nil_of_mem hh))
    simp only [presenceRow, hfirst, hlast', Option.some.injEq] at hrow
    have heq : last.1.timestamp = x.1.timestamp := by
      rw [← htime, ← hrow]
    rw [heq]
    exact hmax h hh
  · intro hcond h hh hmax
    obtain ⟨last, hlast⟩ := Option.ne_none_iff_exists'.1
      (mt List.getLast?_eq_none_iff.1 (List.ne_nil_of_mem hh))
    obtain ⟨first, hfirst⟩ := Option.ne_none_iff_exists'.1
      (mt List.head?_eq_none_iff.1 (List.ne_nil_of_mem hh))
    have hmem := List.mem_of_getLast? hlast
    have heq : last.1 = h.1 := hbeats last hmem h hh
      (Int64.le_antisymm (hmax last hmem) (hcond last hlast h hh))
    refine ⟨⟨p, first.1.sessionStartedAt, last.1.timestamp, last.1.status.asStr⟩,
      by simp only [presenceRow, hfirst, hlast], ?_, ?_⟩
    · rw [heq]
    · rw [heq]

/-- The stored cluster, in terms of the declarations that were accepted. -/
theorem latestCluster_iff (hJ : JsonLaws P) (hinj : Function.Injective P.blake3)
    (ops : List (ObserverOp P)) (p : H) :
    LatestCluster P p ops ↔ ∀ last ∈ (declarationsFrom P p ops).getLast?,
      ∀ d ∈ declarationsFrom P p ops,
        (∀ d' ∈ declarationsFrom P p ops, d'.1.timestamp ≤ d.1.timestamp) →
        d.1.cluster = last.1.cluster := by
  unfold LatestCluster
  simp only [(observerRun_inv hJ hinj ops).clusters p]
  generalize declarationsFrom P p ops = l
  constructor
  · intro hlatest last hlast d hd hmax
    have hlast' : l.getLast? = some last := hlast
    obtain ⟨row, hrow, hcluster⟩ := hlatest d hd hmax
    simp only [hlast', Option.map_some, Option.some.injEq] at hrow
    rw [← hcluster, ← hrow]
  · intro hcond d hd hmax
    obtain ⟨last, hlast⟩ := Option.ne_none_iff_exists'.1
      (mt List.getLast?_eq_none_iff.1 (List.ne_nil_of_mem hd))
    exact ⟨_, by rw [hlast]; rfl, (hcond last hlast d hd hmax).symm⟩

/-- **The latest statement wins if and only if it arrives last.** -/
theorem latest_statement_wins_iff (hJ : JsonLaws P) (hinj : Function.Injective P.blake3)
    (ops : List (ObserverOp P)) (p : H)
    (hbeats : ∀ h ∈ heartbeatsFrom P p ops, ∀ h' ∈ heartbeatsFrom P p ops,
      h.1.timestamp = h'.1.timestamp → h.1 = h'.1) :
    (LatestHeartbeat P p ops ↔ ∀ last ∈ (heartbeatsFrom P p ops).getLast?,
      ∀ h ∈ heartbeatsFrom P p ops, h.1.timestamp ≤ last.1.timestamp) ∧
    (LatestCluster P p ops ↔ ∀ last ∈ (declarationsFrom P p ops).getLast?,
      ∀ d ∈ declarationsFrom P p ops,
        (∀ d' ∈ declarationsFrom P p ops, d'.1.timestamp ≤ d.1.timestamp) →
        d.1.cluster = last.1.cluster) :=
  ⟨latestHeartbeat_iff hJ hinj ops p hbeats, latestCluster_iff hJ hinj ops p⟩

/-! ## Two heartbeats -/

theorem verifyPresence_build {identity : Prims.PeerIdentity} (hsign : SignsCorrectly P identity)
    (status : PresenceStatus) (sessionStartedAt : Int64) {timestamp now : Int64}
    (hskew : absDiff timestamp now ≤ maxClockSkewSeconds) :
    P.verifyPresence (P.buildAndSignPresence identity status sessionStartedAt timestamp) now
      = .ok (identity.peerId P) :=
  verifyStatement_eq_ok.2 ⟨signedBy_sign hsign _ _, hskew⟩

/-- Peer A is online, and goes offline half a minute later. -/
noncomputable def onlineBeat : PresenceHeartbeat := idealOpen.buildAndSignPresence peerA .online 900 1000
noncomputable def offlineBeat : PresenceHeartbeat :=
  idealOpen.buildAndSignPresence peerA .goingOffline 900 1030

/-- Both heartbeats, the later one first or last. -/
noncomputable def laterLast : List (ObserverOp idealOpen) :=
  [.presence onlineBeat 1001, .presence offlineBeat 1031]
noncomputable def laterFirst : List (ObserverOp idealOpen) :=
  [.presence offlineBeat 1031, .presence onlineBeat 1040]

theorem heartbeatsFrom_laterLast : heartbeatsFrom idealOpen (peerA.peerId idealOpen) laterLast
    = [(onlineBeat.unsigned, 1001), (offlineBeat.unsigned, 1031)] := by
  have h₁ : idealOpen.verifyPresence onlineBeat 1001 = .ok (peerA.peerId idealOpen) :=
    verifyPresence_build (idealOpen_signsCorrectly peerA) _ _ (by decide)
  have h₂ : idealOpen.verifyPresence offlineBeat 1031 = .ok (peerA.peerId idealOpen) :=
    verifyPresence_build (idealOpen_signsCorrectly peerA) _ _ (by decide)
  rw [laterLast, heartbeatsFrom_cons h₁, heartbeatsFrom_cons h₂]
  rfl

theorem heartbeatsFrom_laterFirst : heartbeatsFrom idealOpen (peerA.peerId idealOpen) laterFirst
    = [(offlineBeat.unsigned, 1031), (onlineBeat.unsigned, 1040)] := by
  have h₁ : idealOpen.verifyPresence offlineBeat 1031 = .ok (peerA.peerId idealOpen) :=
    verifyPresence_build (idealOpen_signsCorrectly peerA) _ _ (by decide)
  have h₂ : idealOpen.verifyPresence onlineBeat 1040 = .ok (peerA.peerId idealOpen) :=
    verifyPresence_build (idealOpen_signsCorrectly peerA) _ _ (by decide)
  rw [laterFirst, heartbeatsFrom_cons h₁, heartbeatsFrom_cons h₂]
  rfl

theorem latest_statement_wins_laterLast :
    LatestHeartbeat idealOpen (peerA.peerId idealOpen) laterLast := by
  have hne : ¬ (1000 : Int64) = 1030 := by decide
  refine (latest_statement_wins_iff idealOpen_laws idealOpen_injective laterLast
    (peerA.peerId idealOpen) ?_).1.2 ?_
  · rw [heartbeatsFrom_laterLast]
    intro h hh h' hh' heq
    rcases List.mem_pair.1 hh with rfl | rfl <;> rcases List.mem_pair.1 hh' with rfl | rfl
    · rfl
    · exact absurd heq hne
    · exact absurd heq.symm hne
    · rfl
  · rw [heartbeatsFrom_laterLast]
    intro last hlast h hh
    obtain rfl : (offlineBeat.unsigned, 1031) = last := Option.some.inj hlast
    have hle : (1000 : Int64) ≤ 1030 := by decide
    rcases List.mem_pair.1 hh with rfl | rfl
    · exact hle
    · exact Int64.le_refl _

/-- The earlier heartbeat overwrites the later one. -/
theorem earlier_heartbeat_wins :
    heartbeatsFrom idealOpen (peerA.peerId idealOpen) laterFirst
        = [(offlineBeat.unsigned, 1031), (onlineBeat.unsigned, 1040)] ∧
      onlineBeat.unsigned.timestamp < offlineBeat.unsigned.timestamp ∧
      ¬ LatestHeartbeat idealOpen (peerA.peerId idealOpen) laterFirst := by
  have hlt : (1000 : Int64) < 1030 := by decide
  refine ⟨heartbeatsFrom_laterFirst, hlt, fun hlatest => ?_⟩
  have hinv := observerRun_inv idealOpen_laws idealOpen_injective laterFirst
  have hmax : ∀ h' ∈ heartbeatsFrom idealOpen (peerA.peerId idealOpen) laterFirst,
      h'.1.timestamp ≤ offlineBeat.unsigned.timestamp := by
    rw [heartbeatsFrom_laterFirst]
    intro h' hh'
    rcases List.mem_pair.1 hh' with rfl | rfl
    · exact Int64.le_refl _
    · exact Int64.le_of_lt hlt
  obtain ⟨row, hrow, htime, -⟩ := hlatest (offlineBeat.unsigned, 1031)
    (by rw [heartbeatsFrom_laterFirst]; exact List.mem_cons_self ..) hmax
  rw [hinv.presence, heartbeatsFrom_laterFirst] at hrow
  obtain rfl := Option.some.inj hrow
  exact absurd htime (by decide)

end OpenAgentGraph
