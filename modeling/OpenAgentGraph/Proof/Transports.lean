/-
  The two transports of the service.

  A tool of the MCP server asks for less than the route of the REST API beside
  it: no times, and no metadata.  What it asks for is done alike: the requests
  leave the same database, and their answers agree.
-/
import OpenAgentGraph.Api.Run
import OpenAgentGraph.Lib.Except

namespace OpenAgentGraph

open Lib Repo

variable {H : Type}

/-! ## The request that asks for the same -/

def EvidenceParam.toRequest (p : EvidenceParam) : EvidenceRequest where
  evidenceType := p.evidenceType
  uri := p.uri
  title := p.title
  excerpt := p.excerpt
  contentHash := p.contentHash
  observedAt := none
  retrievedAt := none
  pinnedCid := p.pinnedCid
  metadata := none

def AssertParams.toRequest (p : AssertParams) : AssertRequest where
  subject := p.subject
  subjectType := p.subjectType
  predicate := p.predicate
  object := p.object
  objectType := p.objectType
  evidence := p.evidence.map EvidenceParam.toRequest
  actorConfidence := p.confidence
  observedAt := none

/-- The REST request that asks for what a tool asks for. -/
def McpCall.toRest : McpCall → RestRequest
  | graphAssert params => .createAssertion params.toRequest
  | graphAddEvidence assertionId evidence => .addEvidence assertionId evidence.toRequest
  | graphVerifyAssertion assertionId result => .verifyAssertion assertionId result none
  | graphDisputeAssertion assertionId reason => .disputeAssertion assertionId reason
  | graphRetractAssertion assertionId reason => .retractAssertion assertionId reason
  | graphSupersedeAssertion oldAssertionId newAssertionId =>
    .supersedeAssertion oldAssertionId newAssertionId
  | graphRedactEvidence evidenceId reason => .redactEvidence evidenceId reason
  | graphRedactActorIdentityUri actorId reason => .redactActorIdentityUri actorId reason
  | graphSuppressNode nodeId => .suppressNode nodeId
  | graphUnsuppressNode nodeId => .unsuppressNode nodeId

/-- The operation, with its tool asked for over REST. -/
def PeerOp.overRest {P : Prims H} : PeerOp P → PeerOp P
  | .mcp authorization tool clock => .rest authorization tool.toRest clock
  | op => op

/-! ## Answers that agree -/

/-- A response of the REST API and the result of a tool.  The caller's fault is
    a status from 400 on; what the service could not do is the same error,
    which REST answers with a status of its own. -/
def Agree (P : Prims H) (response : ℕ × Json) : Except (McpError H) Json → Prop
  | .ok reply => response.1 = 200 ∧ response.2.get? "assertion_id" = reply.get? "assertion_id"
  | .error (.invalidParams _) => response.1 ∈ [400, 401, 403, 404]
  | .error (.internalError e) =>
    response = restResponse P (.error e) ∧ response.1 ∈ [404, 409, 500]

/-- The failures of one request over the two transports. -/
abbrev SameFailure (P : Prims H) (e : GraphError H) (e' : McpError H) : Prop :=
  Agree P (restResponse P (.error e)) (.error e')

theorem sameFailure_mapErr (P : Prims H) (e : GraphError H) : SameFailure P e (mapErr e) := by
  cases e with
  | events e => cases e <;> simp [Agree, mapErr, restResponse, restError]
  | _ => simp [Agree, mapErr, restResponse, restError]

/-- The answers to one call. -/
theorem agree_call (P : Prims H) (r : Except (GraphError H) (Option H)) :
    Agree P (restResponse P r) ((r.mapError mapErr).map (mcpReply P)) := by
  rcases r with e | id
  · exact sameFailure_mapErr P e
  · cases id <;> exact ⟨rfl, rfl⟩

/-! ## What the transports read -/

/-- Both read the same call, or both refuse. -/
inductive SameCall (P : Prims H) :
    Except (GraphError H) (ServiceCall H) → Except (McpError H) (ServiceCall H) → Prop
  | reads (call : ServiceCall H) : SameCall P (.ok call) (.ok call)
  | refuses {e : GraphError H} {e' : McpError H} : SameFailure P e e' → SameCall P (.error e) (.error e')

section

variable {P : Prims H}

/-- An id in a path, and among the parameters. -/
theorem parse_cases (P : Prims H) (what name s : String) :
    (∃ id, parseApiId P what s = .ok id ∧ parseParam P name s = .ok id) ∨
      ∃ e e', parseApiId P what s = .error e ∧ parseParam P name s = .error e' ∧
        SameFailure P e e' := by
  unfold parseApiId parseParam
  cases P.hashFromStr s with
  | ok id => exact .inl ⟨id, rfl, rfl⟩
  | error e => exact .inr ⟨_, _, rfl, rfl, by simp [Agree, restResponse, restError]⟩

/-- A call of an id alone. -/
theorem sameCall_parse (P : Prims H) (what name s : String) (f : H → ServiceCall H) :
    SameCall P (do return f (← parseApiId P what s)) (do return f (← parseParam P name s)) := by
  rcases parse_cases P what name s with ⟨id, hrest, hmcp⟩ | ⟨e, e', hrest, hmcp, hsame⟩
  · rw [hrest, hmcp]
    exact .reads _
  · rw [hrest, hmcp]
    exact .refuses hsame

variable {U ε : Type} (L : ApiLib U ε)

theorem toRequest_intoInput (p : EvidenceParam) :
    (p.toRequest.intoInput L : Except (GraphError H) EvidenceInput) = .ok (evidenceInput p) := rfl

theorem mapM_toRequest (evidence : List EvidenceParam) :
    ((evidence.map EvidenceParam.toRequest).mapM (EvidenceRequest.intoInput L) :
        Except (GraphError H) (List EvidenceInput)) = .ok (evidence.map evidenceInput) := by
  induction evidence with
  | nil => rfl
  | cons p rest ih =>
    rw [List.map_cons, List.mapM_cons, toRequest_intoInput, ih]
    rfl

/-- A tool and its request ask the service for the same. -/
theorem sameCall_toRest (P : Prims H) (tool : McpCall) (now : Int64) :
    SameCall P (tool.toRest.call L P now) (tool.call P now) := by
  cases tool with
  | graphAssert params =>
    simp only [McpCall.toRest, RestRequest.call, McpCall.call, AssertRequest.intoInput,
      AssertParams.toRequest, mapM_toRequest]
    exact .reads _
  | graphAddEvidence assertionId evidence =>
    exact sameCall_parse P "assertion" "assertion_id" assertionId fun id =>
      .addEvidence id (evidenceInput evidence)
  | graphVerifyAssertion assertionId result =>
    rw [McpCall.toRest, RestRequest.call, McpCall.call]
    rcases parse_cases P "assertion" "assertion_id" assertionId with
      ⟨id, hrest, hmcp⟩ | ⟨e, e', hrest, hmcp, hsame⟩
    · rw [hrest, hmcp]
      cases hparse : VerifyResult.parse result with
      | some r =>
        simp only [nowOr, ok_bind]
        exact .reads _
      | none =>
        simp only [nowOr, ok_bind]
        exact .refuses (by simp [Agree, restResponse, restError])
    · rw [hrest, hmcp]
      exact .refuses hsame
  | graphDisputeAssertion assertionId reason =>
    exact sameCall_parse P "assertion" "assertion_id" assertionId (.disputeAssertion · reason)
  | graphRetractAssertion assertionId reason =>
    exact sameCall_parse P "assertion" "assertion_id" assertionId (.retractAssertion · reason)
  | graphSupersedeAssertion oldAssertionId newAssertionId =>
    rw [McpCall.toRest, RestRequest.call, McpCall.call]
    rcases parse_cases P "assertion" "old_assertion_id" oldAssertionId with
      ⟨old, hrest, hmcp⟩ | ⟨e, e', hrest, hmcp, hsame⟩
    · rw [hrest, hmcp]
      exact sameCall_parse P "assertion" "new_assertion_id" newAssertionId
        (.supersedeAssertion old ·)
    · rw [hrest, hmcp]
      exact .refuses hsame
  | graphRedactEvidence evidenceId reason =>
    exact sameCall_parse P "evidence" "evidence_id" evidenceId (.redactEvidence · reason)
  | graphRedactActorIdentityUri actorId reason =>
    exact sameCall_parse P "actor" "actor_id" actorId (.redactActorIdentityUri · reason)
  | graphSuppressNode nodeId =>
    exact sameCall_parse P "node" "node_id" nodeId .suppressNodeFromSearch
  | graphUnsuppressNode nodeId =>
    exact sameCall_parse P "node" "node_id" nodeId .unsuppressNodeFromSearch

end

/-! ## Main result -/

section

variable [DecidableEq H] {U ε : Type} (P : Prims H) (L : ApiLib U ε) (me : Prims.PeerIdentity)

/-- One request. -/
theorem handlers_agree (db : SearchDb H) (authorization : Option String) (tool : McpCall)
    (clock : ℕ → Int64) :
    (restHandler L P me db authorization tool.toRest clock).1
        = (mcpHandler L.url P me db authorization tool clock).1 ∧
      Agree P (restResponse P (restHandler L P me db authorization tool.toRest clock).2)
        ((mcpHandler L.url P me db authorization tool clock).2.map (mcpReply P)) := by
  unfold restHandler mcpHandler restAuthenticate mcpAuthenticate
  cases bearer authorization with
  | none => exact ⟨rfl, by simp [Agree, restResponse, restError, Except.map]⟩
  | some raw =>
    dsimp only
    cases P.authenticate db.store raw with
    | error e => exact ⟨rfl, sameFailure_mapErr P e⟩
    | ok auth =>
      have hcall := sameCall_toRest L P tool (clock 0)
      dsimp only
      generalize tool.toRest.call L P (clock 0) = rest at hcall
      generalize tool.call P (clock 0) = mcp at hcall
      cases hcall with
      | reads call => exact ⟨rfl, agree_call P _⟩
      | refuses hsame => exact ⟨rfl, hsame⟩

theorem peerStep_overRest (db : SearchDb H) (op : PeerOp P) :
    peerStep P L me db op.overRest = peerStep P L me db op := by
  cases op with
  | mcp authorization tool clock => exact (handlers_agree P L me db authorization tool clock).1
  | _ => rfl

end

end OpenAgentGraph
