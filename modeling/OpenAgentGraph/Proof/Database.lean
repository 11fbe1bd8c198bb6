/-
  Runs of the database.

  Besides a synchronization step, an operation on the database can only drop
  rows about peers and change their addresses (`Forgets`), so that the
  invariants of synchronization hold along these runs too.  The log only
  grows: what is stored once is stored for good.
-/
import OpenAgentGraph.Database
import OpenAgentGraph.Proof.Sync

namespace OpenAgentGraph

open Lib Repo
open scoped List

variable {H : Type}

/-! ## What an operation may do to the tables -/

/-- Addresses changed, and rows of `peers` may be gone. -/
structure Forgets (s s' : Store H) : Prop where
  eq : s' = { s with peers := s'.peers, peerAddresses := s'.peerAddresses }
  peers : ∀ r ∈ s'.peers, r ∈ s.peers

theorem Forgets.addresses (s : Store H) (t : List (PeerAddressRow H)) :
    Forgets s { s with peerAddresses := t } := ⟨rfl, fun _ hr => hr⟩

/-- From `s` on nothing is taken back: the log and the redactions grow. -/
structure Extends (s s' : Store H) : Prop where
  events : s.events <+: s'.events
  redactions : s.redactions <+: s'.redactions
  actorRedactions : s.actorRedactions <+: s'.actorRedactions

theorem Extends.refl (s : Store H) : Extends s s :=
  ⟨List.prefix_rfl, List.prefix_rfl, List.prefix_rfl⟩

theorem Extends.trans {s s₁ s₂ : Store H} (h : Extends s s₁) (h' : Extends s₁ s₂) :
    Extends s s₂ :=
  ⟨h.events.trans h'.events, h.redactions.trans h'.redactions,
    h.actorRedactions.trans h'.actorRedactions⟩

variable [DecidableEq H] {P : Prims H}

/-! ## Steps -/

theorem removePeer_forgets (s : Store H) (peerId : H) : Forgets s (removePeer s peerId).1 := by
  simp only [removePeer]
  split
  · next peers hpeers =>
    obtain ⟨-, -, h⟩ := bind_ok.1 hpeers
    obtain rfl := pure_ok.1 h
    exact ⟨rfl, fun _ hr => List.mem_of_mem_filter hr⟩
  · exact .addresses s _

omit [DecidableEq H] in
theorem GraphError.lift_ok {ε α : Type} {f : ε → GraphError H} {x : Except ε α} {a : α} :
    GraphError.lift f x = .ok a ↔ x = .ok a := by
  cases x <;> simp [GraphError.lift]

theorem migrate_store {db db' : Database H} {auth : AuthContext H} {kind : Artifact} {id : H}
    {o : MigrationOutcome} (h : migrate db auth kind id = .ok (db', o)) : db'.store = db.store := by
  obtain ⟨_, -, h⟩ := bind_ok.1 h
  have h := GraphError.lift_ok.1 h
  simp only [migrateToCurrent] at h
  split at h
  · cases h
  · split at h
    · cases h
      rfl
    · cases h
      rfl

theorem dbStep_cases (db : Database H) (op : DbOp P) :
    (∃ o, op = .sync o ∧ (P.dbStep db op).store = P.syncStep db.store o) ∨
      Forgets db.store (P.dbStep db op).store := by
  cases op with
  | sync o => exact .inl ⟨o, rfl, rfl⟩
  | addAddress peerId address =>
    refine .inr ?_
    simp only [Prims.dbStep]
    split
    · exact .addresses _ _
    · exact ⟨rfl, fun _ hr => hr⟩
  | removePeer peerId => exact .inr (removePeer_forgets _ _)
  | deleteAddresses peerId => exact .inr (.addresses _ _)
  | migrate auth kind id =>
    refine .inr ?_
    simp only [Prims.dbStep]
    split
    · next h =>
      rw [migrate_store h]
      exact ⟨rfl, fun _ hr => hr⟩
    · exact ⟨rfl, fun _ hr => hr⟩

theorem dbStep_keeps {I : Store H → Prop} {db : Database H} (op : DbOp P) (hs : I db.store)
    (hforgets : ∀ s s', I s → Forgets s s' → I s')
    (hpeers : ∀ s s', I s → PeersOnly s s' → I s')
    (hexec : ∀ op s s', I s → P.exec s op = some s' → I s') : I (P.dbStep db op).store := by
  rcases dbStep_cases db op with ⟨o, -, ho⟩ | h
  · rw [ho]
    exact syncStep_keeps o hs hpeers hexec
  · exact hforgets _ _ hs h

/-- **Invariant rule.** -/
theorem dbRun_induction {I : Store H → Prop} {db : Database H} (ops : List (DbOp P))
    (hs : I db.store) (hforgets : ∀ s s', I s → Forgets s s' → I s')
    (hpeers : ∀ s s', I s → PeersOnly s s' → I s')
    (hexec : ∀ op s s', I s → P.exec s op = some s' → I s') : I (P.dbRun db ops).store := by
  unfold Prims.dbRun
  induction ops generalizing db with
  | nil => exact hs
  | cons op ops ih =>
    rw [List.foldl_cons]
    exact ih (dbStep_keeps op hs hforgets hpeers hexec)

/-! ## Invariants -/

theorem LogInv.forgets {s s' : Store H} (h : LogInv P s) (hf : Forgets s s') : LogInv P s' := by
  rw [hf.eq]
  exact ⟨h.stored, h.chain.chain, h.chain.heads⟩

theorem ReplayInv.forgets {s s' : Store H} (h : ReplayInv P s) (hf : Forgets s s') :
    ReplayInv P s' := by
  obtain ⟨g, hbuilt, hrows, hproj⟩ := h.built
  rw [hf.eq]
  exact ⟨g, hbuilt, ⟨hrows.evidence, hrows.actors⟩, hproj⟩

/-- What holds of the store in every run of the database. -/
structure DbInv (P : Prims H) (s : Store H) : Prop where
  log : LogInv P s
  replay : ReplayInv P s
  lengths : KeyLengths s.peers

theorem dbInv_empty : DbInv P (Store.empty : Store H) :=
  ⟨⟨fun _ hr => absurd hr List.not_mem_nil, chainInv_empty⟩, replayInv_empty, fun _ hr => absurd hr List.not_mem_nil⟩

theorem exec_dbInv (hJ : JsonLaws P) (hinj : Function.Injective P.blake3) {s s' : Store H}
    {op : Op P} (h : DbInv P s) (hexec : P.exec s op = some s') : DbInv P s' := by
  have hstep := exec_logStep hJ hinj h.log.stored hexec
  exact ⟨hstep.logInv h.log, hstep.replayInv hJ h.replay,
    exec_keyLengths hJ hinj h.log h.lengths hexec⟩

theorem DbInv.peersOnly {s s' : Store H} (h : DbInv P s) (hp : PeersOnly s s') : DbInv P s' :=
  ⟨h.log.peersOnly hp, h.replay.peersOnly hp, hp.lengths h.lengths⟩

theorem DbInv.forgets {s s' : Store H} (h : DbInv P s) (hf : Forgets s s') : DbInv P s' :=
  ⟨h.log.forgets hf, h.replay.forgets hf, fun r hr => h.lengths r (hf.peers r hr)⟩

theorem dbRun_dbInv (hJ : JsonLaws P) (hinj : Function.Injective P.blake3) {db : Database H}
    (h : DbInv P db.store) (ops : List (DbOp P)) : DbInv P (P.dbRun db ops).store :=
  dbRun_induction ops h (fun _ _ h hf => h.forgets hf) (fun _ _ h hp => h.peersOnly hp)
    fun _ _ _ h hexec => exec_dbInv hJ hinj h hexec

/-! ## What a run keeps -/

theorem LogStep.extends {s s' : Store H} {op : Op P} (h : LogStep P s op s') : Extends s s' := by
  cases h with
  | commit happ _ _ =>
    rw [happ.eq]
    exact ⟨List.prefix_append _ _, List.prefix_rfl, List.prefix_rfl⟩
  | known => exact .refl s
  | forked _ _ _ _ hfork =>
    obtain ⟨json, rfl⟩ := recordFork_ok hfork
    exact ⟨List.prefix_rfl, List.prefix_rfl, List.prefix_rfl⟩
  | applied happ _ _ =>
    rw [happ.eq]
    exact ⟨List.prefix_append _ _, List.prefix_rfl, List.prefix_rfl⟩
  | rebuild hr =>
    rw [rebuild_ok hr]
    exact ⟨List.prefix_rfl, List.prefix_rfl, List.prefix_rfl⟩
  | redactEvidence hr =>
    obtain ⟨-, -, rfl⟩ := redactEvidence_ok hr
    exact ⟨List.prefix_rfl, List.prefix_append _ _, List.prefix_rfl⟩
  | redactActor hr =>
    obtain ⟨-, -, rfl⟩ := redactActor_ok hr
    exact ⟨List.prefix_rfl, List.prefix_rfl, List.prefix_append _ _⟩

/-- What a step does to the projection: it applies the effect of the event it
    stores, or it redacts one row, or nothing. -/
theorem LogStep.proj_cases (hJ : JsonLaws P) {s s' : Store H} {op : Op P} (h : LogStep P s op s')
    (hinv : ReplayInv P s) :
    (∃ row signed e, Appended P s s' row signed ∧
      P.effectOf row.eventId row.createdAt signed.unsigned.payload = some e ∧
      s'.proj = e.apply s.proj) ∨
    (∃ id, s'.proj = (Repo.redactEvidence s.proj id).1) ∨
    (∃ id, s'.proj = (redactIdentityUri s.proj id).1) ∨ s'.proj = s.proj := by
  cases h with
  | @commit identity payload createdAt s' row signed happ _ _ =>
    obtain ⟨e, heff, -, -, hproj⟩ := happ.effect hJ
    exact .inl ⟨row, signed, e, happ, heff, hproj⟩
  | known => exact .inr (.inr (.inr rfl))
  | forked _ _ _ _ hfork =>
    obtain ⟨json, rfl⟩ := recordFork_ok hfork
    exact .inr (.inr (.inr rfl))
  | @applied key signed receivedAt s' row happ _ _ =>
    obtain ⟨e, heff, -, -, hproj⟩ := happ.effect hJ
    exact .inl ⟨row, signed, e, happ, heff, hproj⟩
  | rebuild hrebuild =>
    rw [hinv.rebuild] at hrebuild
    cases hrebuild
    exact .inr (.inr (.inr rfl))
  | @redactEvidence auth id reason now s' hredact =>
    obtain ⟨-, -, rfl⟩ := redactEvidence_ok hredact
    exact .inr (.inl ⟨id, rfl⟩)
  | @redactActor auth id reason now s' hredact =>
    obtain ⟨-, -, rfl⟩ := redactActor_ok hredact
    exact .inr (.inr (.inl ⟨id, rfl⟩))

/-- A run takes nothing back. -/
theorem dbRun_extends (hJ : JsonLaws P) (hinj : Function.Injective P.blake3) {db : Database H}
    (h : DbInv P db.store) (ops : List (DbOp P)) :
    Extends db.store (P.dbRun db ops).store := by
  have hboth : DbInv P (P.dbRun db ops).store ∧ Extends db.store (P.dbRun db ops).store := by
    refine dbRun_induction (I := fun s => DbInv P s ∧ Extends db.store s) ops ⟨h, .refl _⟩ ?_ ?_ ?_
    · rintro s s' ⟨hinv, hext⟩ hf
      refine ⟨hinv.forgets hf, ?_⟩
      rw [hf.eq]
      exact ⟨hext.events, hext.redactions, hext.actorRedactions⟩
    · rintro s s' ⟨hinv, hext⟩ hp
      refine ⟨hinv.peersOnly hp, ?_⟩
      rw [hp.eq]
      exact ⟨hext.events, hext.redactions, hext.actorRedactions⟩
    · rintro op s s' ⟨hinv, hext⟩ hexec
      exact ⟨exec_dbInv hJ hinj hinv hexec,
        hext.trans (exec_logStep hJ hinj hinv.log.stored hexec).extends⟩
  exact hboth.2

/-! ## Schema versions -/

/-- Every version is the default one, so that a migration finds nothing to do. -/
theorem migrate_default {db db' : Database H} (h : ∀ kind id, db.schemaVersion kind id = 1)
    {auth : AuthContext H} {kind : Artifact} {id : H} {o : MigrationOutcome}
    (hm : migrate db auth kind id = .ok (db', o)) : db' = db := by
  obtain ⟨_, -, hm⟩ := bind_ok.1 hm
  have hm := GraphError.lift_ok.1 hm
  simp only [migrateToCurrent, h, artifactVersion] at hm
  split at hm
  · cases hm
  · simp only [Int64.le_refl, if_true] at hm
    cases hm
    rfl

theorem dbRun_schemaVersion {db : Database H} (h : ∀ kind id, db.schemaVersion kind id = 1)
    (ops : List (DbOp P)) (kind : Artifact) (id : H) :
    (P.dbRun db ops).schemaVersion kind id = 1 := by
  unfold Prims.dbRun
  induction ops generalizing db with
  | nil => exact h kind id
  | cons op ops ih =>
    rw [List.foldl_cons]
    refine ih ?_
    intro kind id
    cases op with
    | sync o =>
      simp only [Prims.dbStep, Prims.schemaVersionAfter]
      split
      · cases P.exec db.store Op.rebuild with
        | none => exact h kind id
        | some s' => rfl
      · exact h kind id
    | addAddress peerId address =>
      simp only [Prims.dbStep]
      split
      · exact h kind id
      · exact h kind id
    | removePeer peerId => exact h kind id
    | deleteAddresses peerId => exact h kind id
    | migrate auth kind' id' =>
      simp only [Prims.dbStep]
      split
      · next hm =>
        rw [migrate_default h hm]
        exact h kind id
      · exact h kind id

end OpenAgentGraph
