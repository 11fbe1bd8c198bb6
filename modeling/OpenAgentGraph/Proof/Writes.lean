/-
  Who wrote what.

  A peer that serves requests commits events of its own, redacts rows and hides
  nodes.  Each of these is a `Write`, and `Write.Allowed` is the policy for it:
  the permission that it takes, and that it names no other actor.

  * `call_allowed`: a call of the service writes what its caller may write.
  * `peerStep_write`: where a write of one step comes from.
-/
import OpenAgentGraph.Api.Run
import OpenAgentGraph.IdealUrl
import OpenAgentGraph.Lib.Runs
import OpenAgentGraph.Proof.Assert
import OpenAgentGraph.Proof.Keys
import OpenAgentGraph.Proof.Ownership
import OpenAgentGraph.Proof.Possession
import OpenAgentGraph.Proof.Receive

namespace OpenAgentGraph

open Lib Repo

variable {H : Type}

/-! ## The policy -/

inductive Write (H : Type)
  | event (row : EventRow H)
  | redaction (row : RedactionRow H)
  | actorRedaction (row : ActorRedactionRow H)
  | suppression (row : SearchSuppressionRow H)

def Write.In (db : SearchDb H) : Write H → Prop
  | event row => row ∈ db.store.events
  | redaction row => row ∈ db.store.redactions
  | actorRedaction row => row ∈ db.store.actorRedactions
  | suppression row => row ∈ db.searchSuppressions

/-- The permission for an event; none for one that no request makes. -/
def EventPayload.permission : EventPayload → Option Permission
  | .assertRelation _ => some .graphAssert
  | .addEvidence _ => some .graphAssert
  | .verifyAssertion _ => some .graphVerify
  | .disputeAssertion _ => some .graphAssert
  | .retractAssertion _ => some .graphRetractOwn
  | .supersedeAssertion _ => some .graphAssert
  | .actorDeclare _ => none
  | .actorKeyAdd _ => none
  | .actorKeyRevoke _ => none
  | .nodeAlias _ => none

/-- The actor in whose name an event is. -/
def EventPayload.author : EventPayload → Option String
  | .assertRelation p => some p.actorId
  | .verifyAssertion p => some p.observerActorId
  | .disputeAssertion p => some p.disputingActorId
  | .retractAssertion p => some p.actorId
  | .supersedeAssertion p => some p.actorId
  | _ => none

/-- The caller holds the permission, or is an administrator. -/
def AuthContext.Has (auth : AuthContext H) (permission : Permission) : Prop :=
  permission ∈ auth.permissions ∨ .admin ∈ auth.permissions

/-- The caller may commit the event: with its permission, in the caller's own
    name, and a retraction of the caller's own assertion unless as an
    administrator. -/
structure MayCommit (P : Prims H) (s : Store H) (auth : AuthContext H) (payload : EventPayload) :
    Prop where
  permitted : ∃ permission, payload.permission = some permission ∧ auth.Has permission
  author : ∀ actor, payload.author = some actor → actor = P.toHex auth.actorId
  own : ∀ p, payload = .retractAssertion p → .admin ∈ auth.permissions ∨
    ∃ r ∈ s.proj.assertions, P.parseId p.retractedAssertionId = .ok r.id ∧ r.actorId = auth.actorId

/-- The caller may write it: an event as one of the peer's own. -/
def Write.Allowed (P : Prims H) (me : Prims.PeerIdentity) (db : SearchDb H) (auth : AuthContext H) :
    Write H → Prop
  | event row => row.originPeerId = me.peerId P ∧
    ∃ payload, P.rowPayload row = some payload ∧ MayCommit P db.store auth payload
  | redaction _ => .admin ∈ auth.permissions
  | actorRedaction _ => .admin ∈ auth.permissions
  | suppression _ => .admin ∈ auth.permissions

/-- The database holds the key, not revoked, with the caller's actor and
    permissions. -/
def ActiveKey (P : Prims H) (s : Store H) (raw : String) (auth : AuthContext H) : Prop :=
  ∃ r ∈ s.proj.actorKeys, r.keyHash = P.blake3 (utf8 raw) ∧ r.revokedAt = none ∧
    auth.actorId = r.actorId ∧ auth.permissions = r.permissions.filterMap Permission.parse

theorem require_ok {auth : AuthContext H} {permission : Permission} {u : Unit}
    (h : auth.require permission = .ok u) : auth.Has permission := by
  rw [AuthContext.require] at h
  split at h
  · assumption
  · cases h

theorem AuthContext.Has.admin {auth : AuthContext H} (h : auth.Has .admin) :
    .admin ∈ auth.permissions :=
  h.elim id id

theorem EventPayload.Same.permission_eq {p p' : EventPayload} (h : p.Same p') :
    p.permission = p'.permission := by
  cases p <;> cases p' <;> first | rfl | cases h

theorem EventPayload.Same.author_eq {p p' : EventPayload} (h : p.Same p') : p.author = p'.author := by
  cases p with
  | assertRelation p =>
    cases p' with
    | assertRelation p' =>
      obtain ⟨heq, -⟩ := h
      rw [← heq]
      rfl
    | _ => cases h
  | addEvidence p =>
    cases p' with
    | addEvidence p' => rfl
    | _ => cases h
  | _ => cases p' <;> first | (cases h; rfl) | cases h

/-- What JSON does not tell apart may be committed alike. -/
theorem MayCommit.same {P : Prims H} {s : Store H} {auth : AuthContext H} {p p' : EventPayload}
    (h : MayCommit P s auth p) (hsame : p.Same p') : MayCommit P s auth p' where
  permitted := by rw [← hsame.permission_eq]; exact h.permitted
  author := by rw [← hsame.author_eq]; exact h.author
  own := by
    rintro q rfl
    cases p with
    | retractAssertion q' =>
      obtain rfl : q' = q := EventPayload.retractAssertion.inj hsame
      exact h.own _ rfl
    | _ => cases hsame

variable [DecidableEq H] {P : Prims H}

theorem authenticate_ok {s : Store H} {raw : String} {auth : AuthContext H}
    (h : P.authenticate s raw = .ok auth) : ActiveKey P s raw auth := by
  rw [Prims.authenticate] at h
  split at h
  · next key hkey =>
    obtain ⟨r, hr, hhash, hactive, rfl⟩ := findActiveKey_eq_some hkey
    cases h
    exact ⟨r, hr, hhash, hactive, rfl, rfl⟩
  · cases h

/-! ## Calls -/

/-- The store has new events only of the peer's own, with payloads of a kind,
    and no redactions that are new. -/
structure Adds (P : Prims H) (me : Prims.PeerIdentity) (A : EventPayload → Prop) (s s' : Store H) :
    Prop where
  events : ∀ row ∈ s'.events, row ∈ s.events ∨
    row.originPeerId = me.peerId P ∧ ∃ p, P.rowPayload row = some p ∧ A p
  stored : LogStored P s → LogStored P s'
  redactions : s'.redactions = s.redactions
  actorRedactions : s'.actorRedactions = s.actorRedactions

omit [DecidableEq H] in
theorem Adds.refl (me : Prims.PeerIdentity) (A : EventPayload → Prop) (s : Store H) :
    Adds P me A s s :=
  ⟨fun _ hrow => .inl hrow, id, rfl, rfl⟩

omit [DecidableEq H] in
theorem Adds.trans {me : Prims.PeerIdentity} {A : EventPayload → Prop} {s s₁ s₂ : Store H}
    (h : Adds P me A s s₁) (h' : Adds P me A s₁ s₂) : Adds P me A s s₂ where
  events := by
    intro row hrow
    rcases h'.events row hrow with hrow | hnew
    · exact h.events row hrow
    · exact .inr hnew
  stored := h'.stored ∘ h.stored
  redactions := h'.redactions.trans h.redactions
  actorRedactions := h'.actorRedactions.trans h.actorRedactions

theorem commitLocalEvent_adds (hJ : JsonLaws P) {A : EventPayload → Prop} {s s' : Store H}
    {me : Prims.PeerIdentity} {payload : EventPayload} {now : Int64} {id : H} {o : ProjectionOutcome H}
    (h : P.commitLocalEvent s me payload now = .ok (s', id, o)) (hA : ∀ p, payload.Same p → A p) :
    Adds P me A s s' := by
  obtain ⟨row, signed, happ, horigin, -, ⟨rfl, -⟩, -⟩ := commit_appended h
  obtain ⟨p, hp, hsame⟩ := happ.stored.rowPayload hJ
  refine ⟨?_, happ.logStored, by rw [happ.eq], by rw [happ.eq]⟩
  intro r hr
  rw [happ.events_eq] at hr
  rcases List.mem_append.1 hr with hr | hr
  · exact .inl hr
  · obtain rfl := List.mem_singleton.1 hr
    exact .inr ⟨horigin, p, hp, hA p hsame⟩

theorem commitEvent_adds (hJ : JsonLaws P) {A : EventPayload → Prop} {s s' : Store H}
    {me : Prims.PeerIdentity} {payload : EventPayload} {now : Int64} {id : H}
    (h : P.commitEvent s me payload now = .ok (s', id)) (hA : ∀ p, payload.Same p → A p) :
    Adds P me A s s' := by
  obtain ⟨o, hcommit⟩ := commitEvent_ok.1 h
  exact commitLocalEvent_adds hJ hcommit hA

theorem addEvidenceInternal_adds (hJ : JsonLaws P) {A : EventPayload → Prop} {s s' : Store H}
    {me : Prims.PeerIdentity} {assertionId : H} {e : EvidenceInput} {now : Int64}
    (h : P.addEvidenceInternal s me assertionId e now = .ok s')
    (hA : ∀ p, (EventPayload.addEvidence (P.evidencePayload assertionId e)).Same p → A p) :
    Adds P me A s s' := by
  rw [Prims.addEvidenceInternal] at h
  cases hcommit : P.commitEvent s me (.addEvidence (P.evidencePayload assertionId e)) now with
  | error err =>
    rw [hcommit] at h
    cases h
  | ok r =>
    rw [hcommit] at h
    cases h
    exact commitEvent_adds hJ hcommit hA

section calls

variable {U ε : Type} {L : UrlLib U ε} {me : Prims.PeerIdentity} {db : SearchDb H}
  {auth : AuthContext H}

omit [DecidableEq H] in
theorem mayCommit_evidence {s : Store H} (h : auth.Has .graphAssert) (assertionId : H)
    (e : EvidenceInput) {p : EventPayload}
    (hsame : (EventPayload.addEvidence (P.evidencePayload assertionId e)).Same p) :
    MayCommit P s auth p := by
  refine MayCommit.same ⟨⟨_, rfl, h⟩, ?_, ?_⟩ hsame
  · intro actor hactor
    cases hactor
  · intro q hq
    cases hq

theorem assert_adds (hJ : JsonLaws P) (s : Store H) (input : AssertInput) (clock : ℕ → Int64) :
    Adds P me (MayCommit P s auth) s (P.assert L s me auth input clock).1 := by
  cases hrel : P.assertRelation L s me auth input (clock 0) with
  | error e =>
    rw [assert_rejected hrel]
    exact .refl me _ s
  | ok r =>
    obtain ⟨s₁, assertionId⟩ := r
    rw [assert_accepted hrel]
    rw [Prims.assertRelation] at hrel
    obtain ⟨_, hreq, hrel⟩ := bind_ok.1 hrel
    obtain ⟨_, -, hcommit⟩ := bind_ok.1 hrel
    have hhas := require_ok hreq
    have hfirst : Adds P me (MayCommit P s auth) s s₁ := by
      refine commitEvent_adds hJ hcommit fun p hsame => MayCommit.same ⟨⟨_, rfl, hhas⟩, ?_, ?_⟩ hsame
      · intro actor hactor
        exact (Option.some.inj hactor).symm
      · intro q hq
        cases hq
    -- each evidence item is one more commit, whether or not a later one fails
    refine runSteps_keeps (I := fun t => Adds P me (MayCommit P s auth) s t) ?_ 1 hfirst _
    intro n t e t' ht hstep
    exact ht.trans (addEvidenceInternal_adds hJ hstep fun p => mayCommit_evidence hhas assertionId e)

omit [DecidableEq H] in
/-- An event in the caller's name that is not a retraction. -/
theorem mayCommit_authored {s : Store H} {payload : EventPayload} {permission : Permission}
    (hhas : auth.Has permission) (hpermission : payload.permission = some permission)
    (hauthor : payload.author = some (P.toHex auth.actorId))
    (hother : permission ≠ .graphRetractOwn) : MayCommit P s auth payload where
  permitted := ⟨permission, hpermission, hhas⟩
  author := fun actor hactor => Option.some.inj (hactor.symm.trans hauthor)
  own := by
    rintro p rfl
    exact absurd (Option.some.inj hpermission).symm hother

variable {s s' : Store H} {assertionId : H} {now : Int64}

theorem addEvidence_adds (hJ : JsonLaws P) {e : EvidenceInput}
    (h : P.addEvidence s me auth assertionId e now = .ok s') :
    Adds P me (MayCommit P s auth) s s' := by
  obtain ⟨_, hreq, h⟩ := bind_ok.1 h
  obtain ⟨_, -, h⟩ := bind_ok.1 h
  exact addEvidenceInternal_adds hJ h fun p => mayCommit_evidence (require_ok hreq) assertionId e

theorem verifyAssertion_adds (hJ : JsonLaws P) {result : VerifyResult} {observedAt : Int64}
    (h : P.verifyAssertion s me auth assertionId result observedAt now = .ok s') :
    Adds P me (MayCommit P s auth) s s' := by
  obtain ⟨_, hreq, h⟩ := bind_ok.1 h
  obtain ⟨⟨s₁, id⟩, hcommit, h⟩ := bind_ok.1 h
  obtain rfl := pure_ok.1 h
  exact commitEvent_adds hJ hcommit fun p hsame =>
    (mayCommit_authored (require_ok hreq) rfl rfl (by decide)).same hsame

theorem disputeAssertion_adds (hJ : JsonLaws P) {reason : Option String}
    (h : P.disputeAssertion s me auth assertionId reason now = .ok s') :
    Adds P me (MayCommit P s auth) s s' := by
  obtain ⟨_, hreq, h⟩ := bind_ok.1 h
  obtain ⟨_, -, h⟩ := bind_ok.1 h
  obtain ⟨⟨s₁, id⟩, hcommit, h⟩ := bind_ok.1 h
  obtain rfl := pure_ok.1 h
  exact commitEvent_adds hJ hcommit fun p hsame =>
    (mayCommit_authored (require_ok hreq) rfl rfl (by decide)).same hsame

theorem supersedeAssertion_adds (hJ : JsonLaws P) {newAssertionId : H}
    (h : P.supersedeAssertion s me auth assertionId newAssertionId now = .ok s') :
    Adds P me (MayCommit P s auth) s s' := by
  obtain ⟨_, hreq, h⟩ := bind_ok.1 h
  obtain ⟨⟨s₁, id⟩, hcommit, h⟩ := bind_ok.1 h
  obtain rfl := pure_ok.1 h
  exact commitEvent_adds hJ hcommit fun p hsame =>
    (mayCommit_authored (require_ok hreq) rfl rfl (by decide)).same hsame

theorem retractAssertion_adds (hJ : JsonLaws P) {reason : Option String}
    (h : P.retractAssertion s me auth assertionId reason now = .ok s') :
    Adds P me (MayCommit P s auth) s s' := by
  obtain ⟨⟨r, hr, hid, howner⟩, hexec⟩ := retractAssertion_ok h
  obtain ⟨_, hreq, -⟩ := bind_ok.1 h
  obtain ⟨⟨s₁, id, o⟩, hcommit, rfl⟩ := Option.map_eq_some_iff.1 hexec
  refine commitEvent_adds hJ (commitEvent_ok.2 ⟨o, toOption_eq_some.1 hcommit⟩) fun p hsame =>
    MayCommit.same ⟨⟨_, rfl, require_ok hreq⟩, ?_, ?_⟩ hsame
  · intro actor hactor
    exact (Option.some.inj hactor).symm
  · intro q hq
    cases hq
    rcases howner with howner | hadmin
    · refine .inr ⟨r, hr, ?_, howner⟩
      rw [hid]
      exact parseId_toHex _
    · exact .inl hadmin

/-- The database after a call: with commits that the caller may make, or with
    what only an administrator may do. -/
inductive Written (P : Prims H) (me : Prims.PeerIdentity) (auth : AuthContext H) (db : SearchDb H) :
    SearchDb H → Prop
  | commits {s : Store H} : Adds P me (MayCommit P db.store auth) db.store s →
      Written P me auth db { db with store := s }
  | admin {db' : SearchDb H} : auth.Has .admin → db'.store.events = db.store.events →
      Written P me auth db db'

omit [DecidableEq H] in
theorem Adds.write {A : EventPayload → Prop} {s : Store H} (h : Adds P me A db.store s) {w : Write H}
    (hw : w.In { db with store := s }) : w.In db ∨ ∃ row, w = .event row ∧
      row.originPeerId = me.peerId P ∧ ∃ p, P.rowPayload row = some p ∧ A p := by
  cases w with
  | event row => exact (h.events row hw).imp_right fun h => ⟨row, rfl, h⟩
  | redaction row =>
    rw [Write.In, ← h.redactions]
    exact .inl hw
  | actorRedaction row =>
    rw [Write.In, ← h.actorRedactions]
    exact .inl hw
  | suppression row => exact .inl hw

omit [DecidableEq H] in
theorem Written.allowed {db' : SearchDb H} (h : Written P me auth db db') {w : Write H}
    (hw : w.In db') : w.In db ∨ w.Allowed P me db auth := by
  cases h with
  | commits hadds =>
    rcases hadds.write hw with hw | ⟨row, rfl, hallowed⟩
    · exact .inl hw
    · exact .inr hallowed
  | admin hadmin hevents =>
    cases w with
    | event row =>
      rw [Write.In, ← hevents]
      exact .inl hw
    | redaction row => exact .inr hadmin.admin
    | actorRedaction row => exact .inr hadmin.admin
    | suppression row => exact .inr hadmin.admin

omit [DecidableEq H] in
theorem Written.stored {db' : SearchDb H} (h : Written P me auth db db')
    (hs : LogStored P db.store) : LogStored P db'.store := by
  cases h with
  | commits hadds => exact hadds.stored hs
  | admin _ hevents =>
    rw [LogStored, hevents]
    exact hs

omit [DecidableEq H] in
theorem Written.refl : Written P me auth db db := .commits (.refl me _ db.store)

omit [DecidableEq H] in
theorem commit_written {r : Except (GraphError H) (Store H)}
    (h : ∀ s', r = .ok s' → Written P me auth db { db with store := s' }) :
    Written P me auth db (db.commit r).1 := by
  cases r with
  | error e => exact .refl
  | ok s' => exact h s' rfl

omit [DecidableEq H] in
theorem write_written {r : Except (GraphError H) (SearchDb H)}
    (h : ∀ db', r = .ok db' → Written P me auth db db') : Written P me auth db (db.write r).1 := by
  cases r with
  | error e => exact .refl
  | ok db' => exact h db' rfl

/-- **A call writes what its caller may write.** -/
theorem call_written (hJ : JsonLaws P) (call : ServiceCall H) (clock : ℕ → Int64) :
    Written P me auth db (P.call L me db auth clock call).1 := by
  cases call with
  | assert input => exact .commits (assert_adds hJ db.store input clock)
  | addEvidence id e => exact commit_written fun _ h => .commits (addEvidence_adds hJ h)
  | verifyAssertion id result observedAt =>
    exact commit_written fun _ h => .commits (verifyAssertion_adds hJ h)
  | disputeAssertion id reason => exact commit_written fun _ h => .commits (disputeAssertion_adds hJ h)
  | retractAssertion id reason => exact commit_written fun _ h => .commits (retractAssertion_adds hJ h)
  | supersedeAssertion old new =>
    exact commit_written fun _ h => .commits (supersedeAssertion_adds hJ h)
  | redactEvidence id reason =>
    refine commit_written fun s' h => ?_
    obtain ⟨_, hreq, -⟩ := bind_ok.1 h
    obtain ⟨-, -, rfl⟩ := redactEvidence_ok h
    exact .admin (require_ok hreq) rfl
  | redactActorIdentityUri id reason =>
    refine commit_written fun s' h => ?_
    obtain ⟨_, hreq, -⟩ := bind_ok.1 h
    obtain ⟨-, -, rfl⟩ := redactActor_ok h
    exact .admin (require_ok hreq) rfl
  | suppressNodeFromSearch id =>
    refine write_written fun db' h => ?_
    obtain ⟨_, hreq, h⟩ := bind_ok.1 h
    obtain rfl := pure_ok.1 h
    exact .admin (require_ok hreq) rfl
  | unsuppressNodeFromSearch id =>
    refine write_written fun db' h => ?_
    obtain ⟨_, hreq, h⟩ := bind_ok.1 h
    obtain rfl := pure_ok.1 h
    exact .admin (require_ok hreq) rfl

end calls

/-! ## Events of other peers -/

omit [DecidableEq H] in
theorem Receives.write {db : SearchDb H} {s : Store H} (h : Receives P db.store s) {w : Write H}
    (hw : w.In { db with store := s }) :
    w.In db ∨ ∃ row key, w = .event row ∧ SignedBy P key row := by
  cases w with
  | event row =>
    rcases h.events row hw with hrow | ⟨key, hkey⟩
    · exact .inl hrow
    · exact .inr ⟨row, key, rfl, hkey⟩
  | redaction row =>
    rw [Write.In, ← h.redactions]
    exact .inl hw
  | actorRedaction row =>
    rw [Write.In, ← h.actorRedactions]
    exact .inl hw
  | suppression row => exact .inl hw

/-! ## Steps of a peer -/

/-- The key of the header is active, and its caller may write it. -/
def KeyAllows (P : Prims H) (me : Prims.PeerIdentity) (db : SearchDb H)
    (authorization : Option String) (w : Write H) : Prop :=
  ∃ raw auth, bearer authorization = some raw ∧ ActiveKey P db.store raw auth ∧
    w.Allowed P me db auth

/-- What may cause a write: a request whose key allows it, the operator, who
    makes events of the peer's own only, or for an event its signature. -/
def Authorised (P : Prims H) (me : Prims.PeerIdentity) (db : SearchDb H) (w : Write H) :
    PeerOp P → Prop
  | .rest authorization _ _ => KeyAllows P me db authorization w
  | .mcp authorization _ _ => KeyAllows P me db authorization w
  | .operator _ => ∀ row, w = .event row → row.originPeerId = me.peerId P
  | .receive _ _ => ∃ row key, w = .event row ∧ SignedBy P key row

/-- A handler that authenticates its caller leaves what a call of that caller
    leaves, or nothing. -/
inductive Handles (P : Prims H) (me : Prims.PeerIdentity) (db : SearchDb H)
    (authorization : Option String) : SearchDb H → Prop
  | refused : Handles P me db authorization db
  | called {raw : String} {auth : AuthContext H} {db' : SearchDb H} :
      bearer authorization = some raw → ActiveKey P db.store raw auth → Written P me auth db db' →
      Handles P me db authorization db'

section step

variable {U ε : Type} {L : ApiLib U ε} {me : Prims.PeerIdentity} {db : SearchDb H}

theorem restAuthenticate_ok {s : Store H} {authorization : Option String} {auth : AuthContext H}
    (h : restAuthenticate P s authorization = .ok auth) :
    ∃ raw, bearer authorization = some raw ∧ ActiveKey P s raw auth := by
  rw [restAuthenticate] at h
  split at h
  · cases h
  · next raw hraw => exact ⟨raw, hraw, authenticate_ok h⟩

theorem mcpAuthenticate_ok {s : Store H} {authorization : Option String} {auth : AuthContext H}
    (h : mcpAuthenticate P s authorization = .ok auth) :
    ∃ raw, bearer authorization = some raw ∧ ActiveKey P s raw auth := by
  rw [mcpAuthenticate] at h
  split at h
  · cases h
  · next raw hraw =>
    split at h
    · next hauth =>
      cases h
      exact ⟨raw, hraw, authenticate_ok hauth⟩
    · cases h

theorem restHandler_handles (hJ : JsonLaws P) (authorization : Option String) (request : RestRequest)
    (clock : ℕ → Int64) :
    Handles P me db authorization (restHandler L P me db authorization request clock).1 := by
  rw [restHandler]
  cases hauth : restAuthenticate P db.store authorization with
  | error e => exact .refused
  | ok auth =>
    obtain ⟨raw, hraw, hkey⟩ := restAuthenticate_ok hauth
    dsimp only
    cases request.call L P (clock 0) with
    | error e => exact .refused
    | ok call => exact .called hraw hkey (call_written hJ call _)

theorem mcpHandler_handles {L : UrlLib U ε} (hJ : JsonLaws P) (authorization : Option String)
    (tool : McpCall) (clock : ℕ → Int64) :
    Handles P me db authorization (mcpHandler L P me db authorization tool clock).1 := by
  rw [mcpHandler]
  cases hauth : mcpAuthenticate P db.store authorization with
  | error e => exact .refused
  | ok auth =>
    obtain ⟨raw, hraw, hkey⟩ := mcpAuthenticate_ok hauth
    dsimp only
    cases tool.call P (clock 0) with
    | error e => exact .refused
    | ok call => exact .called hraw hkey (call_written hJ call _)

omit [DecidableEq H] in
theorem Handles.write {authorization : Option String} {db' : SearchDb H}
    (h : Handles P me db authorization db') {w : Write H} (hw : w.In db') :
    w.In db ∨ KeyAllows P me db authorization w := by
  cases h with
  | refused => exact .inl hw
  | called hraw hkey hwritten => exact (hwritten.allowed hw).imp_right fun h => ⟨_, _, hraw, hkey, h⟩

omit [DecidableEq H] in
theorem Handles.stored {authorization : Option String} {db' : SearchDb H}
    (h : Handles P me db authorization db') (hs : LogStored P db.store) : LogStored P db'.store := by
  cases h with
  | refused => exact hs
  | called _ _ hwritten => exact hwritten.stored hs

omit [DecidableEq H] in
theorem commit_adds {A : EventPayload → Prop} {r : Except (GraphError H) (Store H)}
    (h : ∀ s', r = .ok s' → Adds P me A db.store s') :
    ∃ s, Adds P me A db.store s ∧ (db.commit r).1 = { db with store := s } := by
  cases r with
  | error e => exact ⟨db.store, .refl me A db.store, rfl⟩
  | ok s' => exact ⟨s', h s' rfl, rfl⟩

theorem declareActor_adds (hJ : JsonLaws P) {s s' : Store H} {actorType : ActorType}
    {name uri : Option String} {proof : Option PublicKeyProof} {now : Int64} {id : H}
    (h : P.declareActor s me actorType name uri proof now = .ok (s', id)) :
    Adds P me (fun _ => True) s s' := by
  obtain ⟨key, -, hexec⟩ := declareActor_ok h
  obtain ⟨⟨s₁, id', o⟩, hcommit, rfl⟩ := Option.map_eq_some_iff.1 hexec
  exact commitLocalEvent_adds hJ (toOption_eq_some.1 hcommit) fun _ _ => trivial

theorem createKey_adds (hJ : JsonLaws P) {s s' : Store H} {actorId : H}
    {permissions : List Permission} {random : Bytes} {now : Int64} {raw : String}
    (h : P.createKey s me actorId permissions random now = .ok (s', raw)) :
    Adds P me (fun _ => True) s s' := by
  obtain ⟨⟨s₁, id, o⟩, hcommit, h⟩ := bind_ok.1 h
  obtain ⟨rfl, -⟩ := Prod.mk.inj (pure_ok.1 h)
  exact commitLocalEvent_adds hJ (GraphError.lift_ok.1 hcommit) fun _ _ => trivial

theorem revokeKey_adds (hJ : JsonLaws P) {s s' : Store H} {keyHashHex : String} {now : Int64}
    (h : P.revokeKey s me keyHashHex now = .ok s') : Adds P me (fun _ => True) s s' := by
  rw [Prims.revokeKey] at h
  split at h
  · cases h
  split at h
  · cases h
  split at h
  · cases h
  obtain ⟨⟨s₁, id, o⟩, hcommit, h⟩ := bind_ok.1 h
  obtain rfl := pure_ok.1 h
  exact commitLocalEvent_adds hJ (GraphError.lift_ok.1 hcommit) fun _ _ => trivial

/-- What a command of the operator leaves: what a call leaves, or events of
    the peer's own. -/
theorem operatorStep_cases (hJ : JsonLaws P) (op : OperatorOp H) :
    (∃ auth, Written P me auth db (operatorStep P L me db op)) ∨
      ∃ s, Adds P me (fun _ => True) db.store s ∧ operatorStep P L me db op = { db with store := s } := by
  cases op with
  | declareActor actorType name uri proof now =>
    refine .inr (commit_adds fun s' h => ?_)
    obtain ⟨⟨s₁, id⟩, hdeclare, rfl⟩ := map_ok.1 h
    exact declareActor_adds hJ hdeclare
  | createKey actorId permissions random now =>
    refine .inr (commit_adds fun s' h => ?_)
    obtain ⟨⟨s₁, raw⟩, hcreate, rfl⟩ := map_ok.1 h
    exact createKey_adds hJ hcreate
  | revokeKey keyHashHex now => exact .inr (commit_adds fun s' h => revokeKey_adds hJ h)
  | call auth call clock => exact .inl ⟨auth, call_written hJ call clock⟩

/-- **What one step writes is authorised.** -/
theorem peerStep_write (hJ : JsonLaws P) (hinj : Function.Injective P.blake3)
    (hs : LogStored P db.store) (op : PeerOp P) {w : Write H} (hw : w.In (peerStep P L me db op)) :
    w.In db ∨ Authorised P me db w op := by
  cases op with
  | rest authorization request clock => exact (restHandler_handles hJ _ request clock).write hw
  | mcp authorization tool clock => exact (mcpHandler_handles hJ _ tool clock).write hw
  | receive op hop => exact (syncStep_receives hJ hinj hs op hop).write hw
  | operator op =>
    rcases operatorStep_cases (L := L) hJ op with ⟨auth, hwritten⟩ | ⟨s, hadds, heq⟩
    · rcases hwritten.allowed hw with hw | hallowed
      · exact .inl hw
      · refine .inr ?_
        rintro row rfl
        exact hallowed.1
    · rw [peerStep, heq] at hw
      rcases hadds.write hw with hw | ⟨row, rfl, hown, -⟩
      · exact .inl hw
      · refine .inr ?_
        rintro r hr
        rw [← Write.event.inj hr]
        exact hown

theorem peerStep_stored (hJ : JsonLaws P) (hinj : Function.Injective P.blake3)
    (hs : LogStored P db.store) (op : PeerOp P) : LogStored P (peerStep P L me db op).store := by
  cases op with
  | rest authorization request clock => exact (restHandler_handles hJ _ request clock).stored hs
  | mcp authorization tool clock => exact (mcpHandler_handles hJ _ tool clock).stored hs
  | receive op hop => exact (syncStep_receives hJ hinj hs op hop).stored
  | operator op =>
    rcases operatorStep_cases (L := L) hJ op with ⟨auth, hwritten⟩ | ⟨s, hadds, heq⟩
    · exact hwritten.stored hs
    · rw [peerStep, heq]
      exact hadds.stored hs

end step

/-! ## Runs of a peer -/

section run

variable {U ε : Type} (L : ApiLib U ε) (me : Prims.PeerIdentity)

theorem peerRun_append (ops : List (PeerOp P)) (op : PeerOp P) :
    peerRun P L me (ops ++ [op]) = peerStep P L me (peerRun P L me ops) op := by
  simp [peerRun]

theorem peerRun_stored (hJ : JsonLaws P) (hinj : Function.Injective P.blake3)
    (ops : List (PeerOp P)) : LogStored P (peerRun P L me ops).store := by
  refine List.foldlRecOn ops (peerStep P L me) (motive := fun db => LogStored P db.store) ?_ ?_
  · intro row hrow
    cases hrow
  · intro db hs op _
    exact peerStep_stored hJ hinj hs op

/-- A peer that hears of Bob and of a key of his, and then serves a request
    with the key: to hide a node. -/
def hideOps (P : Prims H) (bob : Prims.PeerIdentity) (rawKey : String) (node : H) : List (PeerOp P) :=
  [.receive (.store (.ingest (bob.verifyingKey P) (declareEvent P bob) 5)) trivial,
    .receive (.store (.ingest (bob.verifyingKey P) (grantEvent P bob rawKey) 5)) trivial,
    .rest (some ("Bearer " ++ rawKey)) (.suppressNode (P.toHex node)) fun _ => 7]

theorem bearer_key (rawKey : String) : bearer (some ("Bearer " ++ rawKey)) = some rawKey := by
  simp [bearer]

theorem hideOps_hides (hJ : JsonLaws P) (hinj : Function.Injective P.blake3)
    {bob : Prims.PeerIdentity} (hbob : SignsCorrectly P bob) (rawKey : String) (node : H) :
    (Write.suppression ⟨node, 7⟩).In (peerRun P L me (hideOps P bob rawKey node)) := by
  have hkey := (run_grantOps rawKey hJ hinj hbob).1
  let db : SearchDb H := { SearchDb.empty with store := P.run Store.empty (grantOps P bob rawKey) }
  have hauth : restAuthenticate P db.store (some ("Bearer " ++ rawKey))
      = .ok ⟨declaredActor P bob, [.admin]⟩ := by
    rw [restAuthenticate, bearer_key]
    dsimp only [db]
    rw [Prims.authenticate, hkey]
  have hrun : peerRun P L me (hideOps P bob rawKey node)
      = (restHandler L P me db (some ("Bearer " ++ rawKey)) (.suppressNode (P.toHex node))
        fun _ => 7).1 := rfl
  have hcall : (RestRequest.suppressNode (P.toHex node)).call L P 7
      = .ok (.suppressNodeFromSearch node) := by
    rw [RestRequest.call, parseApiId, Prims.hashFromStr_toHex]
    rfl
  rw [hrun, restHandler, hauth]
  dsimp only
  rw [hcall]
  exact List.mem_singleton.2 rfl

end run

/-- The libraries of a peer that is given no timestamps. -/
noncomputable def idealApi : ApiLib IdealUrl Unit := ⟨idealUrl, fun _ => .error "input is not a timestamp"⟩

end OpenAgentGraph
