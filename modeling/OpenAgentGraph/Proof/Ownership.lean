/-
  Who retracts an assertion.

  The service asks whose assertion it is before it commits a retraction; the
  projector, which remote events reach directly, does not.  So the rule holds
  along the runs in which every retraction that is let in keeps it
  (`ServiceOp.RetractsOwn`), and one event of another origin breaks it.
-/
import OpenAgentGraph.Graph.Run
import OpenAgentGraph.Proof.Keys
import OpenAgentGraph.Proof.Converge

namespace OpenAgentGraph

open Lib Repo

variable {H : Type} {P : Prims H} [DecidableEq H]

/-! ## Calls as operations -/

/-- What a successful retraction has checked. -/
theorem retractAssertion_ok {s s' : Store H} {me : Prims.PeerIdentity} {auth : AuthContext H}
    {assertionId : H} {reason : Option String} {now : Int64}
    (h : P.retractAssertion s me auth assertionId reason now = .ok s') :
    (∃ r ∈ s.proj.assertions, r.id = assertionId ∧
      (r.actorId = auth.actorId ∨ .admin ∈ auth.permissions)) ∧
    P.exec s (.commit me (.retractAssertion ⟨P.toHex assertionId, P.toHex auth.actorId, reason⟩) now)
      = some s' := by
  simp only [Prims.retractAssertion, bind_ok] at h
  obtain ⟨-, -, -, -, h⟩ := h
  cases hget : getAssertion s.proj assertionId with
  | none =>
    rw [hget] at h
    cases h
  | some r =>
    rw [hget] at h
    obtain ⟨hr, hra⟩ := Table.find_eq_some hget
    simp only [guard_ok, bind_ok, pure_ok] at h
    obtain ⟨hown, ⟨s'', eventId, outcome⟩, hcommit, rfl⟩ := h
    refine ⟨⟨r, hr, hra, ?_⟩, ?_⟩
    · by_cases hactor : r.actorId = auth.actorId
      · exact Or.inl hactor
      · exact Or.inr (by simpa [hactor] using hown)
    · cases hc : P.commitLocalEvent s me
        (.retractAssertion ⟨P.toHex assertionId, P.toHex auth.actorId, reason⟩) now with
      | error e =>
        rw [hc] at hcommit
        cases hcommit
      | ok x =>
        rw [hc] at hcommit
        cases hcommit
        rw [Prims.exec, hc]
        rfl

/-- The event that a call offers to the store. -/
def ServiceOp.toOp (me : Prims.PeerIdentity) : ServiceOp P → Op P
  | .call payload _ now => .commit me payload now
  | .retract auth assertionId reason now =>
    .commit me (.retractAssertion ⟨P.toHex assertionId, P.toHex auth.actorId, reason⟩) now
  | .ingest key signed receivedAt => .ingest key signed receivedAt
  | .rebuild => .rebuild
  | .redactEvidence auth evidenceId reason now => .redactEvidence auth evidenceId reason now
  | .redactActor auth actorId reason now => .redactActor auth actorId reason now

theorem serviceExec_exec {me : Prims.PeerIdentity} {s s' : Store H} {op : ServiceOp P}
    (h : P.serviceExec me s op = some s') : P.exec s (op.toOp me) = some s' := by
  cases op with
  | retract auth assertionId reason now => exact (retractAssertion_ok (toOption_eq_some.1 h)).2
  | _ => exact h

/-- **A run of calls is a run of the store.** -/
theorem serviceRun_run (me : Prims.PeerIdentity) (ops : List (ServiceOp P)) :
    ∃ ops', P.run Store.empty ops' = P.serviceRun me Store.empty ops := by
  induction ops using List.reverseRecOn with
  | nil => exact ⟨[], rfl⟩
  | append_singleton ops op ih =>
    obtain ⟨ops', hrun⟩ := ih
    rw [Prims.serviceRun_append, Prims.serviceStep]
    cases hexec : P.serviceExec me (P.serviceRun me Store.empty ops) op with
    | none => exact ⟨ops', hrun⟩
    | some s' =>
      refine ⟨ops' ++ [op.toOp me], ?_⟩
      rw [Prims.run_append, Prims.step, hrun, serviceExec_exec hexec]

/-! ## What makes an assertion retracted -/

/-- An assertion is retracted exactly if the last event that changed its status
    was a retraction. -/
theorem ReplayInv.retracted_iff {s : Store H} (hinv : ReplayInv P s) (a : H) :
    statusOf s.proj a = some .retracted ↔ P.lastChange s.events a = some .retracted := by
  obtain ⟨g, hbuilt, -, hproj⟩ := hinv.built
  have hstatus := statusInv_built hbuilt
  have heq : statusOf s.proj a = statusOf g a := by
    rw [hproj, redactAll_eq]
    rfl
  rw [heq, hstatus.statusOf_eq]
  constructor
  · intro h
    split at h
    · cases hl : P.lastChange s.events a with
      | none => rw [hl] at h; cases h
      | some status => rw [hl] at h; exact h
    · cases h
  · intro h
    have hhas : hasAssertion g a = true := Table.hasKey_iff.2 (hstatus.named a _ h).1
    rw [hhas, h]
    rfl

omit [DecidableEq H] in
/-- A payload that retracts is a retraction. -/
theorem payloadStatus_retracted {p : EventPayload} {a : H}
    (h : P.payloadStatus p = some (a, .retracted)) :
    ∃ q, p = .retractAssertion q ∧ P.parseId q.retractedAssertionId = .ok a := by
  cases p <;> simp only [Prims.payloadStatus, Option.map_eq_some_iff, Prod.mk.injEq, reduceCtorEq,
    and_false, exists_false, and_true, exists_eq_right] at h
  case retractAssertion q => exact ⟨q, rfl, toOption_eq_some.1 h⟩

/-- The log gains a retraction of the assertion. -/
def Retracts (P : Prims H) (s s' : Store H) (a : H) (row : EventRow H)
    (q : RetractAssertionPayload) : Prop :=
  s'.events = s.events ++ [row] ∧ P.rowPayload row = some (.retractAssertion q) ∧
    P.parseId q.retractedAssertionId = .ok a

/-- A step after which an assertion is retracted, and before which it was not,
    stores a retraction of it. -/
theorem LogStep.retracts (hJ : JsonLaws P) {s s' : Store H} {op : Op P} (hinv : ReplayInv P s)
    (h : LogStep P s op s') {a : H} (hbefore : statusOf s.proj a ≠ some .retracted)
    (hafter : statusOf s'.proj a = some .retracted) :
    ∃ row q signed, Retracts P s s' a row q ∧ op.Offers row signed ∧
      signed.unsigned.payload = .retractAssertion q ∧ hasAssertion s.proj a = true := by
  rw [(h.replayInv hJ hinv).retracted_iff] at hafter
  rw [Ne, hinv.retracted_iff] at hbefore
  rcases h.offer_cases hinv with ⟨row, signed, happ, hoffer⟩ | ⟨hev, -⟩
  · obtain ⟨p, hp, hsame⟩ := happ.stored.rowPayload hJ
    rw [happ.events_eq, lastChange_snoc, Prims.statusChange, hp, Option.bind_some] at hafter
    cases hc : P.payloadStatus p with
    | none =>
      rw [hc] at hafter
      exact absurd hafter hbefore
    | some c =>
      obtain ⟨b, status⟩ := c
      rw [hc] at hafter
      by_cases hb : b = a
      · subst hb
        obtain rfl : status = .retracted := by simpa using hafter
        obtain ⟨q, rfl, hq⟩ := payloadStatus_retracted hc
        have hpayload : signed.unsigned.payload = .retractAssertion q := by
          cases hsp : signed.unsigned.payload with
          | retractAssertion q' => rw [hsp] at hsame; cases hsame; rfl
          | _ => rw [hsp] at hsame; cases hsame
        refine ⟨row, q, signed, ⟨happ.events_eq, hp, hq⟩, hoffer, hpayload, ?_⟩
        obtain ⟨e, heff, -, hadm, -⟩ := happ.effect hJ
        have hspec := effectOf_spec heff
        refine hadm.needAssertions b (hspec.named (b, .retracted) ?_)
        rw [hspec.statuses, hpayload, hc]
        simp
      · exact absurd (by simpa [hb] using hafter) hbefore
  · rw [hev] at hafter
    exact absurd hafter hbefore

/-! ## The rule -/

/-- The assertion is of the actor, and of an event of the origin. -/
def AssertedBy (s : Store H) (a actor origin : H) : Prop :=
  (∃ r ∈ s.proj.assertions, r.id = a ∧ r.actorId = actor) ∧
    ∃ row ∈ s.events, row.eventId = a ∧ row.originPeerId = origin

/-- The log gains a retraction of the assertion by the actor who asserted it
    and from the peer that originated it. -/
def RetractedByOwner (P : Prims H) (s s' : Store H) (a : H) : Prop :=
  ∃ row q actor, Retracts P s s' a row q ∧ P.parseId q.actorId = .ok actor ∧
    AssertedBy s a actor row.originPeerId

/-- A local administrator retracts the assertion. -/
def ServiceOp.ByAdmin (a : H) : ServiceOp P → Prop
  | .retract auth assertionId _ _ => assertionId = a ∧ .admin ∈ auth.permissions
  | _ => False

/-- A retraction that would take effect is one by the assertion's owner: an
    event that is let in has its actor and its origin, and a caller without
    administrator's rights meets an assertion of this peer. -/
def ServiceOp.RetractsOwn (me : Prims.PeerIdentity) (s : Store H) : ServiceOp P → Prop
  | .ingest key signed _ => ∀ q a, signed.unsigned.payload = .retractAssertion q →
    P.parseId q.retractedAssertionId = .ok a → hasAssertion s.proj a = true →
    statusOf s.proj a ≠ some .retracted →
    ∃ actor, P.parseId q.actorId = .ok actor ∧ AssertedBy s a actor (P.peerIdOfKey key)
  | .retract auth a _ _ => hasAssertion s.proj a = true → statusOf s.proj a ≠ some .retracted →
    .admin ∈ auth.permissions ∨ ∃ row ∈ s.events, row.eventId = a ∧ row.originPeerId = me.peerId P
  | _ => True

/-- Every retraction of the run is one by the assertion's owner, or by a local
    administrator. -/
def RetractionOwnership (P : Prims H) (me : Prims.PeerIdentity) (ops : List (ServiceOp P)) : Prop :=
  ∀ before op, before ++ [op] <+: ops → ∀ a,
    statusOf (P.serviceRun me Store.empty before).proj a ≠ some .retracted →
    statusOf (P.serviceRun me Store.empty (before ++ [op])).proj a = some .retracted →
    RetractedByOwner P (P.serviceRun me Store.empty before)
      (P.serviceRun me Store.empty (before ++ [op])) a ∨ op.ByAdmin a

/-- One operation that meets the condition keeps the rule. -/
theorem serviceExec_owner (hJ : JsonLaws P) (hinj : Function.Injective P.blake3)
    {me : Prims.PeerIdentity} {s s' : Store H} {op : ServiceOp P} (hlog : LogStored P s)
    (hinv : ReplayInv P s) (hexec : P.serviceExec me s op = some s') (hown : op.RetractsOwn me s)
    {a : H} (hbefore : statusOf s.proj a ≠ some .retracted)
    (hafter : statusOf s'.proj a = some .retracted) :
    RetractedByOwner P s s' a ∨ op.ByAdmin a := by
  have hstep := exec_logStep hJ hinj hlog (serviceExec_exec hexec)
  obtain ⟨row, q, signed, hret, hoffer, hpayload, hhas⟩ := hstep.retracts hJ hinv hbefore hafter
  cases op with
  | call payload other now =>
    exact absurd (hoffer.2.symm.trans hpayload) (other q)
  | retract auth assertionId reason now =>
    obtain ⟨ho, hp⟩ := hoffer
    obtain rfl : ⟨P.toHex assertionId, P.toHex auth.actorId, reason⟩ = q := by
      simpa using hp.symm.trans hpayload
    obtain rfl : assertionId = a := by
      simpa [parseId_toHex] using hret.2.2
    by_cases hadmin : .admin ∈ auth.permissions
    · exact Or.inr ⟨rfl, hadmin⟩
    · obtain ⟨⟨r, hr, hra, hactor⟩, -⟩ := retractAssertion_ok (toOption_eq_some.1 hexec)
      have hrow := (hown hhas hbefore).resolve_left hadmin
      refine Or.inl ⟨row, _, auth.actorId, hret, parseId_toHex _, ?_, ?_⟩
      · exact ⟨r, hr, hra, hactor.resolve_right hadmin⟩
      · rw [ho]
        exact hrow
  | ingest key e receivedAt =>
    obtain ⟨rfl, ho⟩ := hoffer
    obtain ⟨actor, hactor, hby⟩ := hown q a hpayload hret.2.2 hhas hbefore
    exact Or.inl ⟨row, q, actor, hret, hactor, ho.symm ▸ hby⟩
  | rebuild => exact hoffer.elim
  | redactEvidence => exact hoffer.elim
  | redactActor => exact hoffer.elim

/-- **Ownership of retractions.**  In every run of a peer's calls and of remote
    events whose retractions are the owners', an assertion becomes retracted
    only by its own actor and from its own peer, or by a local administrator. -/
theorem retraction_ownership (P : Prims H) (hJ : JsonLaws P) (hinj : Function.Injective P.blake3)
    (me : Prims.PeerIdentity) (ops : List (ServiceOp P))
    (hown : ∀ before op, before ++ [op] <+: ops →
      op.RetractsOwn me (P.serviceRun me Store.empty before)) :
    RetractionOwnership P me ops := by
  intro before op hpre a hbefore hafter
  obtain ⟨ops', hrun⟩ := serviceRun_run me before
  have hlog := (logInv_run hJ hinj ops').stored
  have hinv := replayInv_run hJ hinj ops'
  rw [hrun] at hlog hinv
  rw [Prims.serviceRun_append, Prims.serviceStep] at hafter ⊢
  cases hexec : P.serviceExec me (P.serviceRun me Store.empty before) op with
  | none =>
    rw [hexec] at hafter
    exact absurd hafter hbefore
  | some s' =>
    rw [hexec] at hafter
    exact serviceExec_owner hJ hinj hlog hinv hexec (hown before op hpre) hbefore hafter

/-! ## A retraction by its owner, and one by another peer -/

section related

variable (P : Prims H) (ada bob : Prims.PeerIdentity)

/-- Ada's peer declares an actor and asserts a relation. -/
def relatedCalls : List (ServiceOp P) :=
  [.call declarePayload (by intro p h; cases h) 1, .call (relatePayload P ada) (by intro p h; cases h) 2]

/-- The actor retracts the assertion. -/
def ownRetraction : ServiceOp P :=
  .retract ⟨declaredActor P ada, [.graphRetractOwn]⟩ (P.idOf (relateEvent P ada)) none 4

/-- Bob's peer does, with an event of its own that names Ada's actor. -/
def foreignRetraction : ServiceOp P :=
  .ingest (bob.verifyingKey P) (retractEvent P ada bob) 5

variable {P ada bob}

theorem serviceRun_related (hJ : JsonLaws P) (hinj : Function.Injective P.blake3) :
    P.serviceRun ada Store.empty (relatedCalls P ada) = relatedStore P ada 1 2 :=
  run_related hJ hinj

theorem relatedStore_events {row : EventRow H} (h : row ∈ (relatedStore P ada 1 2).events) :
    row.originPeerId = ada.peerId P := by
  simp only [relatedStore, appendRow, Store.empty, List.nil_append, List.cons_append, List.mem_cons,
    List.not_mem_nil, or_false] at h
  rcases h with rfl | rfl <;> rfl

theorem own_retractsOwn (hJ : JsonLaws P) (hinj : Function.Injective P.blake3)
    (before : List (ServiceOp P)) (op : ServiceOp P)
    (h : before ++ [op] <+: relatedCalls P ada ++ [ownRetraction P ada]) :
    op.RetractsOwn ada (P.serviceRun ada Store.empty before) := by
  rcases List.prefix_concat_iff.1 h with heq | hpre
  · obtain ⟨rfl, hop⟩ := List.append_inj' heq rfl
    obtain rfl : op = ownRetraction P ada := by simpa using hop
    rw [serviceRun_related hJ hinj]
    intro _ _
    exact Or.inr ⟨P.rowOf (relateEvent P ada) (ada.peerId P) (some (P.idOf (declareEvent P ada))) 2,
      by simp [relatedStore, appendRow], rfl, rfl⟩
  · -- the calls before it retract nothing
    have hop : op ∈ relatedCalls P ada := hpre.subset (by simp)
    simp only [relatedCalls, List.mem_cons, List.not_mem_nil, or_false] at hop
    rcases hop with rfl | rfl <;> trivial

/-- Bob's retraction takes effect on Ada's peer. -/
theorem serviceRun_foreign (hJ : JsonLaws P) (hinj : Function.Injective P.blake3)
    (hne : ada.peerId P ≠ bob.peerId P) (hbob : SignsCorrectly P bob) :
    P.serviceRun ada Store.empty (relatedCalls P ada ++ [foreignRetraction P ada bob])
      = appendRow (relatedStore P ada 1 2) (P.rowOf (retractEvent P ada bob) (bob.peerId P) none 5)
        (P.effect (retractEvent P ada bob)) := by
  have hadm := (crossing_admissible P ada bob).2.1
  exact run_ingest hJ hinj [_, _] (run_related hJ hinj)
    (by simp [relatedStore, appendRow, Store.empty, maxRows]) hbob trivial (relatedStore_bob hne 1 2)
    (retract_isSome P ada bob) hadm

theorem related_status (P : Prims H) (ada bob : Prims.PeerIdentity) :
    statusOf (relatedStore P ada 1 2).proj (P.idOf (relateEvent P ada))
      = some .active ∧
    statusOf ((P.effect (retractEvent P ada bob)).apply (relatedStore P ada 1 2).proj)
      (P.idOf (relateEvent P ada)) = some .retracted := by
  obtain ⟨-, ⟨row, ⟨hid, hactive⟩, hrow⟩, -, -⟩ := relatedTables_facts P ada
  have hproj : (relatedStore P ada 1 2).proj = relatedTables P ada := rfl
  rw [hproj, retract_effect]
  simp [statusOf, getAssertion, Table.find, Effect.apply, statusRow, Table.updateWhere, hrow, hid,
    hactive]

/-- The rule does not hold of Bob's retraction. -/
theorem foreign_not_owner (hJ : JsonLaws P) (hinj : Function.Injective P.blake3)
    (hne : ada.peerId P ≠ bob.peerId P) (hbob : SignsCorrectly P bob) :
    ¬ RetractionOwnership P ada (relatedCalls P ada ++ [foreignRetraction P ada bob]) := by
  intro h
  have hlast := h (relatedCalls P ada) (foreignRetraction P ada bob) (List.prefix_refl _)
    (P.idOf (relateEvent P ada))
  rw [serviceRun_related hJ hinj, serviceRun_foreign hJ hinj hne hbob] at hlast
  obtain ⟨hactive, hretracted⟩ := related_status P ada bob
  rcases hlast (by rw [hactive]; simp) hretracted with howner | hadmin
  · obtain ⟨row, q, actor, ⟨hev, -, -⟩, -, -, row', hrow', -, horigin⟩ := howner
    obtain rfl : P.rowOf (retractEvent P ada bob) (bob.peerId P) none 5 = row := by
      simpa [appendRow] using hev
    rw [relatedStore_events hrow'] at horigin
    exact hne horigin
  · exact hadmin

end related

/-- Ada's actor retracts its own assertion. -/
theorem retraction_ownership_own :
    RetractionOwnership idealOpen peerA (relatedCalls idealOpen peerA ++ [ownRetraction idealOpen peerA]) :=
  retraction_ownership idealOpen idealOpen_laws idealOpen_injective peerA _
    (own_retractsOwn idealOpen_laws idealOpen_injective)

/-- Ada's peer has asserted a relation and takes one event of Bob's, which
    retracts it: Bob's peer did not originate the assertion, and no
    administrator was asked. -/
theorem retracted_by_another_peer : ¬ RetractionOwnership idealOpen peerA
    (relatedCalls idealOpen peerA ++ [foreignRetraction idealOpen peerA peerB]) :=
  foreign_not_owner idealOpen_laws idealOpen_injective peerA_ne_peerB (idealOpen_signsCorrectly peerB)

end OpenAgentGraph
