/-
  A redaction is durable.

  The row that a redaction leaves is in the table of every later store: an
  append adds rows after it, a later redaction clears what is clear already,
  and a rebuild restores the tables as they are (`ReplayInv.rebuild`).  With
  one row for an id, it is all that the table ever says about it.
-/
import OpenAgentGraph.Graph.Transaction
import OpenAgentGraph.Proof.Correspond
import OpenAgentGraph.Proof.Database

namespace OpenAgentGraph

open Lib Repo

variable {H : Type}

/-! ## The transactions -/

/-- What a transaction without a result leaves. -/
def noResult (r : Except (GraphError H) (Store H)) : Except (GraphError H) (Unit × Store H) :=
  r >>= fun s => pure ((), s)

theorem noResult_bind {α : Type} (x : Except (GraphError H) α)
    (f : α → Except (GraphError H) (Store H)) :
    noResult (x >>= f) = x >>= fun a => noResult (f a) := bind_assoc x f _

/-- A transaction that reports success has done what the function does. -/
theorem noResult_run {m : Tx (Store H) (GraphError H) Unit} {s s' : Store H}
    {r : Except (GraphError H) (Store H)} (h : Commits m s (noResult r))
    {fates : List (Fate (Store H) (GraphError H))} (hrun : m.run s fates = (s', .ok ())) :
    r = .ok s' := by
  rcases h.run fates with ⟨e, he, -⟩ | ⟨⟨⟩, s'', hs'', hr⟩
  · rw [hrun] at he
    cases he
  · rw [hrun] at hs''
    cases hs''
    obtain ⟨s₁, hs₁, hpure⟩ := bind_ok.1 hr
    cases pure_ok.1 hpure
    exact hs₁

variable [DecidableEq H] {P : Prims H}

theorem redactEvidence_commits (s : Store H) (auth : AuthContext H) (evidenceId : H)
    (reason : Option String) (now : Int64) :
    Commits (P.redactEvidenceTransaction auth evidenceId reason now) s
      (noResult (P.redactEvidence s auth evidenceId reason now)) := by
  simp only [Prims.redactEvidenceTransaction, Prims.redactEvidence, noResult_bind]
  refine .lift fun _ _ => ?_
  refine .lift fun _ _ => ?_
  refine .begin ?_
  refine .query ?_
  by_cases hdone : Table.hasKey RedactionRow.eventId evidenceId s.redactions = true
  · rw [if_pos hdone, if_pos hdone]
    exact .throw _
  · rw [if_neg hdone, if_neg hdone]
    refine .execute ?_
    by_cases hupdated : (!(Repo.redactEvidence s.proj evidenceId).2) = true
    · rw [if_pos hupdated, if_pos hupdated]
      exact .throw _
    · rw [if_neg hupdated, if_neg hupdated]
      simp only [noResult_bind]
      exact .last _

theorem redactActor_commits (s : Store H) (auth : AuthContext H) (actorId : H)
    (reason : Option String) (now : Int64) :
    Commits (P.redactActorTransaction auth actorId reason now) s
      (noResult (P.redactActorIdentityUri s auth actorId reason now)) := by
  simp only [Prims.redactActorTransaction, Prims.redactActorIdentityUri, noResult_bind]
  refine .lift fun _ _ => ?_
  refine .lift fun _ _ => ?_
  refine .begin ?_
  refine .query ?_
  by_cases hdone : Table.hasKey ActorRedactionRow.actorId actorId s.actorRedactions = true
  · rw [if_pos hdone, if_pos hdone]
    exact .throw _
  · rw [if_neg hdone, if_neg hdone]
    refine .execute ?_
    by_cases hupdated : (!(redactIdentityUri s.proj actorId).2) = true
    · rw [if_pos hupdated, if_pos hupdated]
      exact .throw _
    · rw [if_neg hupdated, if_neg hupdated]
      simp only [noResult_bind]
      exact .last _

/-! ## One row for an id -/

/-- No two rows of a table that redactions rewrite have the same id. -/
structure UniqueRows (g : Projection H) : Prop where
  evidence : (g.evidence.map EvidenceRow.id).Nodup
  actors : (g.actors.map ActorRow.actorId).Nodup

omit [DecidableEq H] in
/-- An event adds one evidence row at most. -/
theorem effectOf_evidence {eventId : H} {createdAt : Int64} {p : EventPayload} {e : Effect H}
    (h : P.effectOf eventId createdAt p = some e) : e.evidence = [] ∨ ∃ r, e.evidence = [r] := by
  obtain ⟨-, ⟨hadd, hother⟩, -⟩ := effectOf_rows h
  by_cases htype : p.typeStr = "ADD_EVIDENCE"
  · obtain ⟨r, hr, -⟩ := hadd htype
    exact .inr ⟨r, hr⟩
  · exact .inl (hother htype)

theorem Built.uniqueRows {rows : List (EventRow H)} {g : Projection H} (h : Built P rows g) :
    UniqueRows g := by
  induction h with
  | nil => exact ⟨List.nodup_nil, List.nodup_nil⟩
  | @snoc rows g row e _ heff hadm ih =>
    obtain ⟨p, -, heff⟩ := rowEffect_some heff
    refine ⟨?_, nodup_addAll e.actors ih.actors⟩
    change ((g.evidence ++ e.evidence).map EvidenceRow.id).Nodup
    rw [List.map_append, List.nodup_append]
    refine ⟨ih.evidence, ?_, ?_⟩
    · rcases effectOf_evidence heff with hr | ⟨r, hr⟩
      · rw [hr]
        exact List.nodup_nil
      · rw [hr]
        exact List.nodup_singleton _
    · intro k hk k' hk' heq
      obtain ⟨y, hy, rfl⟩ := List.mem_map.1 hk
      obtain ⟨r, hr, rfl⟩ := List.mem_map.1 hk'
      exact hadm.evidence r hr y hy heq

theorem ReplayInv.uniqueRows {s : Store H} (h : ReplayInv P s) : UniqueRows s.proj := by
  obtain ⟨g, hbuilt, -, hproj⟩ := h.built
  rw [hproj, redactAll_eq]
  constructor
  · have hmap := map_clearIds EvidenceRow.id clearEvidence (fun _ => rfl)
      (s.redactions.map RedactionRow.eventId) g.evidence
    exact hmap ▸ hbuilt.uniqueRows.evidence
  · have hmap := map_clearIds ActorRow.actorId clearActor (fun _ => rfl)
      (s.actorRedactions.map ActorRedactionRow.actorId) g.actors
    exact hmap ▸ hbuilt.uniqueRows.actors

/-! ## The redacted row stays -/

theorem LogStep.cleared_evidence (hJ : JsonLaws P) {s s' : Store H} {op : Op P} {r : EvidenceRow H}
    (h : LogStep P s op s') (hinv : ReplayInv P s) (hr : clearEvidence r ∈ s.proj.evidence) :
    clearEvidence r ∈ s'.proj.evidence := by
  rcases h.proj_cases hJ hinv with ⟨_, _, e, -, -, hproj⟩ | ⟨id, hproj⟩ | ⟨id, hproj⟩ | hproj
  · rw [hproj]
    exact List.mem_append_left _ hr
  · rw [hproj]
    -- clearing a clear row again changes nothing
    refine Table.mem_updateWhere.2 ⟨_, hr, ?_⟩
    split <;> rfl
  · rw [hproj]
    exact hr
  · rw [hproj]
    exact hr

theorem LogStep.cleared_actor (hJ : JsonLaws P) {s s' : Store H} {op : Op P} {r : ActorRow H}
    (h : LogStep P s op s') (hinv : ReplayInv P s) (hr : clearActor r ∈ s.proj.actors) :
    clearActor r ∈ s'.proj.actors := by
  rcases h.proj_cases hJ hinv with ⟨_, _, e, -, -, hproj⟩ | ⟨id, hproj⟩ | ⟨id, hproj⟩ | hproj
  · rw [hproj]
    exact mem_addAll hr
  · rw [hproj]
    exact hr
  · rw [hproj]
    refine Table.mem_updateWhere.2 ⟨_, hr, ?_⟩
    split <;> rfl
  · rw [hproj]
    exact hr

/-- What every step keeps of the projection stays along a run. -/
theorem dbRun_keeps_proj (hJ : JsonLaws P) (hinj : Function.Injective P.blake3)
    {I : Projection H → Prop}
    (hstep : ∀ s s' op, LogStep P s op s' → ReplayInv P s → I s.proj → I s'.proj)
    {db : Database H} (hinv : DbInv P db.store) (h : I db.store.proj) (ops : List (DbOp P)) :
    DbInv P (P.dbRun db ops).store ∧ I (P.dbRun db ops).store.proj := by
  have hkeep : ∀ {s s' : Store H}, s'.proj = s.proj → I s.proj → I s'.proj := by
    intro s s' heq hs
    rw [heq]
    exact hs
  refine dbRun_induction (I := fun s => DbInv P s ∧ I s.proj) ops ⟨hinv, h⟩ ?_ ?_ ?_
  · rintro s s' ⟨hs, hI⟩ hf
    exact ⟨hs.forgets hf, hkeep (congrArg Store.proj hf.eq) hI⟩
  · rintro s s' ⟨hs, hI⟩ hp
    exact ⟨hs.peersOnly hp, hkeep (congrArg Store.proj hp.eq) hI⟩
  · rintro op s s' ⟨hs, hI⟩ hexec
    exact ⟨exec_dbInv hJ hinj hs hexec,
      hstep s s' op (exec_logStep hJ hinj hs.log.stored hexec) hs.replay hI⟩

/-! ## Durability -/

/-- The rows with an id. -/
def evidenceRows (db : Database H) (id : H) : List (EvidenceRow H) :=
  db.store.proj.evidence.filter fun r => decide (r.id = id)

def actorRows (db : Database H) (id : H) : List (ActorRow H) :=
  db.store.proj.actors.filter fun r => decide (r.actorId = id)

theorem redactEvidence_durable (hJ : JsonLaws P) (hinj : Function.Injective P.blake3)
    {db : Database H} (hinv : DbInv P db.store) {auth : AuthContext H} {evidenceId : H}
    {reason : Option String} {now : Int64} {s' : Store H}
    (h : P.redactEvidence db.store auth evidenceId reason now = .ok s') :
    ∃ row, evidenceRows db evidenceId = [row] ∧ ∀ version (later : List (DbOp P)),
      evidenceRows (P.dbRun ⟨s', version⟩ later) evidenceId
        = [{ row with title := none, excerpt := none }] := by
  have hexec : P.exec db.store (.redactEvidence auth evidenceId reason now) = some s' := by
    rw [Prims.exec, h]
    rfl
  obtain ⟨-, ⟨row, hrow, hid⟩, hs'⟩ := redactEvidence_ok h
  refine ⟨row, ?_, ?_⟩
  · rw [evidenceRows, ← hid]
    exact Table.filter_of_nodup hinv.replay.uniqueRows.evidence hrow
  · intro version later
    have hcleared : clearEvidence row ∈ (Database.store ⟨s', version⟩).proj.evidence := by
      rw [hs']
      exact Table.mem_updateWhere.2 ⟨row, hrow, by simp [hid, clearEvidence]⟩
    have hinv' : DbInv P (Database.store ⟨s', version⟩) := exec_dbInv hJ hinj hinv hexec
    obtain ⟨hdb, hmem⟩ := dbRun_keeps_proj (I := fun g => clearEvidence row ∈ g.evidence) hJ hinj
      (fun _ _ _ hstep hreplay => hstep.cleared_evidence hJ hreplay) hinv' hcleared later
    rw [evidenceRows, ← hid]
    exact Table.filter_of_nodup hdb.replay.uniqueRows.evidence hmem

theorem redactActor_durable (hJ : JsonLaws P) (hinj : Function.Injective P.blake3)
    {db : Database H} (hinv : DbInv P db.store) {auth : AuthContext H} {actorId : H}
    {reason : Option String} {now : Int64} {s' : Store H}
    (h : P.redactActorIdentityUri db.store auth actorId reason now = .ok s') :
    ∃ row, actorRows db actorId = [row] ∧ ∀ version (later : List (DbOp P)),
      actorRows (P.dbRun ⟨s', version⟩ later) actorId = [{ row with identityUri := none }] := by
  have hexec : P.exec db.store (.redactActor auth actorId reason now) = some s' := by
    rw [Prims.exec, h]
    rfl
  obtain ⟨-, ⟨row, hrow, hid⟩, hs'⟩ := redactActor_ok h
  refine ⟨row, ?_, ?_⟩
  · rw [actorRows, ← hid]
    exact Table.filter_of_nodup hinv.replay.uniqueRows.actors hrow
  · intro version later
    have hcleared : clearActor row ∈ (Database.store ⟨s', version⟩).proj.actors := by
      rw [hs']
      exact Table.mem_updateWhere.2 ⟨row, hrow, by simp [hid, clearActor]⟩
    have hinv' : DbInv P (Database.store ⟨s', version⟩) := exec_dbInv hJ hinj hinv hexec
    obtain ⟨hdb, hmem⟩ := dbRun_keeps_proj (I := fun g => clearActor row ∈ g.actors) hJ hinj
      (fun _ _ _ hstep hreplay => hstep.cleared_actor hJ hreplay) hinv' hcleared later
    rw [actorRows, ← hid]
    exact Table.filter_of_nodup hdb.replay.uniqueRows.actors hmem

/-- **A redaction is durable.**  Once one has returned, whatever statements
    failed on the way, the row it names is in every later database with the
    text gone and every other column as it was. -/
theorem redaction_durable (P : Prims H) (hJ : JsonLaws P) (hinj : Function.Injective P.blake3)
    (ops : List (DbOp P)) (auth : AuthContext H) (reason : Option String) (now : Int64)
    (fates : List (Fate (Store H) (GraphError H))) (s' : Store H) :
    let db := P.dbRun Database.empty ops
    (∀ evidenceId, (P.redactEvidenceTransaction auth evidenceId reason now).run db.store fates
        = (s', .ok ()) →
      ∃ row, evidenceRows db evidenceId = [row] ∧ ∀ later : List (DbOp P),
        let db' := P.dbRun ⟨s', db.schemaVersion⟩ later
        evidenceRows db' evidenceId = [{ row with title := none, excerpt := none }] ∧
          db'.schemaVersion .evidence evidenceId = db.schemaVersion .evidence evidenceId) ∧
    (∀ actorId, (P.redactActorTransaction auth actorId reason now).run db.store fates
        = (s', .ok ()) →
      ∃ row, actorRows db actorId = [row] ∧ ∀ later : List (DbOp P),
        let db' := P.dbRun ⟨s', db.schemaVersion⟩ later
        actorRows db' actorId = [{ row with identityUri := none }] ∧
          db'.schemaVersion .actor actorId = db.schemaVersion .actor actorId) := by
  intro db
  have hinv : DbInv P db.store := dbRun_dbInv hJ hinj dbInv_empty ops
  have hdefault : ∀ kind id, db.schemaVersion kind id = 1 := dbRun_schemaVersion (fun _ _ => rfl) ops
  have hversion : ∀ (later : List (DbOp P)) kind id,
      (P.dbRun ⟨s', db.schemaVersion⟩ later).schemaVersion kind id = db.schemaVersion kind id := by
    intro later kind id
    have hstart : ∀ kind id, Database.schemaVersion ⟨s', db.schemaVersion⟩ kind id = 1 := hdefault
    rw [dbRun_schemaVersion hstart, hdefault]
  constructor
  · intro evidenceId hrun
    obtain ⟨row, hrow, hlater⟩ := redactEvidence_durable hJ hinj hinv
      (noResult_run (redactEvidence_commits _ _ _ _ _) hrun)
    exact ⟨row, hrow, fun later => ⟨hlater _ later, hversion later _ _⟩⟩
  · intro actorId hrun
    obtain ⟨row, hrow, hlater⟩ := redactActor_durable hJ hinj hinv
      (noResult_run (redactActor_commits _ _ _ _ _) hrun)
    exact ⟨row, hrow, fun later => ⟨hlater _ later, hversion later _ _⟩⟩

/-! ## A redaction that succeeds -/

theorem redactActor_succeeds {s : Store H} {auth : AuthContext H} {actorId : H}
    (hadmin : .admin ∈ auth.permissions) (hnew : ∀ r ∈ s.actorRedactions, r.actorId ≠ actorId)
    (hrow : ∃ r ∈ s.proj.actors, r.actorId = actorId) (now : Int64) :
    ∃ s', (P.redactActorTransaction auth actorId none now).run s [] = (s', .ok ()) := by
  have hok : P.redactActorIdentityUri s auth actorId none now = .ok { s with
      proj := (redactIdentityUri s.proj actorId).1
      actorRedactions := s.actorRedactions ++ [⟨actorId, now, none⟩] } := by
    have hauth : auth.require .admin = .ok () := by simp [AuthContext.require, hadmin]
    have hfree : Table.hasKey ActorRedactionRow.actorId actorId s.actorRedactions = false :=
      Table.hasKey_eq_false.2 hnew
    have hfound : (redactIdentityUri s.proj actorId).2 = true := Table.hasKey_iff.2 hrow
    have hinsert : insertNew ActorRedactionRow.actorId ⟨actorId, now, none⟩ s.actorRedactions
        = .ok (s.actorRedactions ++ [⟨actorId, now, none⟩]) := insertNew_ok.2 ⟨hnew, rfl⟩
    simp only [Prims.redactActorIdentityUri, hauth, checkOptLen, ok_bind, hfree, hfound, hinsert,
      GraphError.lift, Bool.not_true, Bool.false_eq_true, if_false]
    rfl
  rcases (redactActor_commits s auth actorId none now).run [] with ⟨e, -, he⟩ | ⟨⟨⟩, s', hs', -⟩
  · rw [hok] at he
    cases he rfl
  · exact ⟨s', hs'⟩

/-- Peer A declares an actor with an identity URI, and redacts it. -/
theorem redaction_durable_declared :
    let P := idealOpen
    let declare : EventPayload := .actorDeclare ⟨"human", none, none, some "did:me"⟩
    let event := P.eventOf peerA 1 none 1 declare
    let actorId := P.actorIdOf (P.idOf event) none
    let db := P.dbRun Database.empty [.sync (.store (.commit peerA declare 1))]
    ∃ s' row, (P.redactActorTransaction ⟨actorId, [.admin]⟩ actorId none 2).run db.store []
        = (s', .ok ()) ∧ row.identityUri = some "did:me" ∧ actorRows db actorId = [row] ∧
      actorRows (P.dbRun ⟨s', db.schemaVersion⟩ [.sync (.store .rebuild)]) actorId
        = [{ row with identityUri := none }] := by
  intro P declare event actorId db
  have hadm : (P.effect event).Admissible (Store.empty : Store Bytes).proj := by
    have heffect : P.effect event = { actors := [⟨actorId, .human, none, none, some "did:me",
      .emptyObj, 1⟩] } := rfl
    rw [heffect]
    constructor <;> simp
  have hfin : declare.Finite := trivial
  have hnext : Prims.nextOf (getOrigin (Store.empty : Store Bytes).eventOrigins (peerA.peerId P))
      = (1, none) := rfl
  obtain ⟨o, hcommit⟩ := commit_apply idealOpen_laws idealOpen_injective dbInv_empty.log
    (by simp [Store.empty, maxRows]) hfin hnext (effectOf_eq_effect rfl) hadm
  have hdb : db.store = appendRow Store.empty (P.rowOf event (peerA.peerId P) none 1)
      (P.effect event) := by
    change P.step Store.empty (.commit peerA declare 1) = _
    rw [Prims.step, Prims.exec, hcommit]
    rfl
  have hactors : db.store.proj.actors
      = [⟨actorId, .human, none, none, some "did:me", .emptyObj, 1⟩] := by
    rw [hdb]
    rfl
  have hredactions : db.store.actorRedactions = [] := by
    rw [hdb]
    rfl
  let auth : AuthContext Bytes := ⟨actorId, [.admin]⟩
  have hadmin : .admin ∈ auth.permissions := List.mem_singleton_self _
  have hnew : ∀ r ∈ db.store.actorRedactions, r.actorId ≠ actorId := by simp [hredactions]
  have hrow : ∃ r ∈ db.store.proj.actors, r.actorId = actorId := by simp [hactors]
  obtain ⟨s', hs'⟩ := redactActor_succeeds (P := P) hadmin hnew hrow 2
  obtain ⟨-, hactor⟩ := redaction_durable P idealOpen_laws idealOpen_injective
    [.sync (.store (.commit peerA declare 1))] auth none 2 [] s'
  obtain ⟨row, hrow, hlater⟩ := hactor actorId hs'
  refine ⟨s', row, hs', ?_, hrow, (hlater _).1⟩
  rw [actorRows, hactors] at hrow
  simp at hrow
  rw [← hrow]

end OpenAgentGraph
