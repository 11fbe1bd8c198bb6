/-
  The requests that write (`oag-api`: `auth.rs`, `dto.rs`, `handlers.rs`,
  `redaction.rs`, `error.rs`; `oag-mcp`: `params.rs`, `server.rs`).

  Both transports read an API key and the arguments of a call of the graph
  service (`ServiceCall`), and answer with what the call returns.
-/
import OpenAgentGraph.Graph.Search
import OpenAgentGraph.Graph.Writes

namespace OpenAgentGraph

open Lib Repo

variable {H : Type}

/-! ## Calls of the service -/

/-- A write of the graph service, with the arguments that a transport gives. -/
inductive ServiceCall (H : Type)
  | assert (input : AssertInput)
  | addEvidence (assertionId : H) (evidence : EvidenceInput)
  | verifyAssertion (assertionId : H) (result : VerifyResult) (observedAt : Int64)
  | disputeAssertion (assertionId : H) (reason : Option String)
  | retractAssertion (assertionId : H) (reason : Option String)
  | supersedeAssertion (oldAssertionId newAssertionId : H)
  | redactEvidence (evidenceId : H) (reason : Option String)
  | redactActorIdentityUri (actorId : H) (reason : Option String)
  | suppressNodeFromSearch (nodeId : H)
  | unsuppressNodeFromSearch (nodeId : H)

/-- The database after a call that is one transaction. -/
def SearchDb.commit (db : SearchDb H) (r : Except (GraphError H) (Store H)) :
    SearchDb H × Except (GraphError H) (Option H) :=
  match r with
  | .ok s => ({ db with store := s }, .ok none)
  | .error e => (db, .error e)

def SearchDb.write (db : SearchDb H) (r : Except (GraphError H) (SearchDb H)) :
    SearchDb H × Except (GraphError H) (Option H) :=
  match r with
  | .ok db' => (db', .ok none)
  | .error e => (db, .error e)

/-- The database that a call leaves, and the id of the assertion it makes, if
    it makes one. -/
def Prims.call [DecidableEq H] {U ε : Type} (P : Prims H) (L : UrlLib U ε) (me : Prims.PeerIdentity)
    (db : SearchDb H) (auth : AuthContext H) (clock : ℕ → Int64) :
    ServiceCall H → SearchDb H × Except (GraphError H) (Option H)
  | .assert input =>
    let (s, r) := P.assert L db.store me auth input clock
    ({ db with store := s }, r.map some)
  | .addEvidence assertionId evidence =>
    db.commit (P.addEvidence db.store me auth assertionId evidence (clock 0))
  | .verifyAssertion assertionId result observedAt =>
    db.commit (P.verifyAssertion db.store me auth assertionId result observedAt (clock 0))
  | .disputeAssertion assertionId reason =>
    db.commit (P.disputeAssertion db.store me auth assertionId reason (clock 0))
  | .retractAssertion assertionId reason =>
    db.commit (P.retractAssertion db.store me auth assertionId reason (clock 0))
  | .supersedeAssertion oldAssertionId newAssertionId =>
    db.commit (P.supersedeAssertion db.store me auth oldAssertionId newAssertionId (clock 0))
  | .redactEvidence evidenceId reason =>
    db.commit (P.redactEvidence db.store auth evidenceId reason (clock 0))
  | .redactActorIdentityUri actorId reason =>
    db.commit (P.redactActorIdentityUri db.store auth actorId reason (clock 0))
  | .suppressNodeFromSearch nodeId => db.write (suppressNodeFromSearch db auth nodeId (clock 0))
  | .unsuppressNodeFromSearch nodeId => db.write (unsuppressNodeFromSearch db auth nodeId)

/-- The key of an `Authorization` header, where it is there and a string. -/
def bearer (authorization : Option String) : Option String :=
  authorization.bind fun v =>
    if "Bearer ".toList.isPrefixOf v.toList then some (String.ofList (v.toList.drop 7)) else none

/-! ## REST -/

structure EvidenceRequest where
  evidenceType : Option String
  uri : Option String
  title : Option String
  excerpt : Option String
  contentHash : Option String
  observedAt : Option String
  retrievedAt : Option String
  pinnedCid : Option String
  metadata : Option JsonValue

structure AssertRequest where
  subject : String
  subjectType : Option String
  predicate : String
  object : String
  objectType : Option String
  evidence : List EvidenceRequest
  actorConfidence : Option UInt32
  observedAt : Option String

/-- A request of a route that writes: the id in its path, and its body. -/
inductive RestRequest
  | createAssertion (body : AssertRequest)
  | addEvidence (id : String) (body : EvidenceRequest)
  | verifyAssertion (id result : String) (observedAt : Option String)
  | disputeAssertion (id : String) (reason : Option String)
  | retractAssertion (id : String) (reason : Option String)
  | supersedeAssertion (id newAssertionId : String)
  | redactEvidence (id : String) (reason : Option String)
  | redactActorIdentityUri (id : String) (reason : Option String)
  | suppressNode (id : String)
  | unsuppressNode (id : String)

/-- What the transports take from their libraries. -/
structure ApiLib (U ε : Type) where
  url : UrlLib U ε
  /-- `DateTime::parse_from_rfc3339`, as a Unix time. -/
  parseFromRfc3339 : String → Except String Int64

section rest

variable {U ε : Type} (L : ApiLib U ε)

def parseTimestamp (s : String) : Except (GraphError H) Int64 :=
  match L.parseFromRfc3339 s with
  | .ok t => .ok t
  | .error e => .error (.invalidInput ("invalid RFC3339 timestamp '" ++ s ++ "': " ++ e))

def parseOptTimestamp : Option String → Except (GraphError H) (Option Int64)
  | none => .ok none
  | some s => (parseTimestamp L s).map some

def EvidenceRequest.intoInput (r : EvidenceRequest) : Except (GraphError H) EvidenceInput := do
  let observedAt ← parseOptTimestamp L r.observedAt
  let retrievedAt ← parseOptTimestamp L r.retrievedAt
  return { evidenceType := r.evidenceType, uri := r.uri, title := r.title, excerpt := r.excerpt,
           contentHash := r.contentHash, observedAt := observedAt, retrievedAt := retrievedAt,
           pinnedCid := r.pinnedCid, metadata := r.metadata }

def AssertRequest.intoInput (r : AssertRequest) : Except (GraphError H) AssertInput := do
  let evidence ← r.evidence.mapM (EvidenceRequest.intoInput L)
  let observedAt ← parseOptTimestamp L r.observedAt
  return { subject := r.subject, subjectType := r.subjectType, predicate := r.predicate,
           object := r.object, objectType := r.objectType, evidence := evidence,
           actorConfidence := r.actorConfidence, observedAt := observedAt, extractionMethod := none }

def nowOr (observedAt : Option String) (now : Int64) : Except (GraphError H) Int64 :=
  match observedAt with
  | some s => parseTimestamp L s
  | none => .ok now

variable (P : Prims H)

/-- `parse_node_id`, `parse_actor_id`, `parse_assertion_id`, `parse_event_id`. -/
def parseApiId (what s : String) : Except (GraphError H) H :=
  match P.hashFromStr s with
  | .ok id => .ok id
  | .error _ => .error (.invalidInput ("invalid " ++ what ++ " id '" ++ s ++ "'"))

/-- What the handler of each route reads, after it has authenticated. -/
def RestRequest.call (now : Int64) : RestRequest → Except (GraphError H) (ServiceCall H)
  | createAssertion body => return .assert (← body.intoInput L)
  | addEvidence id body => do
    let assertionId ← parseApiId P "assertion" id
    return .addEvidence assertionId (← body.intoInput L)
  | verifyAssertion id result observedAt => do
    let assertionId ← parseApiId P "assertion" id
    let observedAt ← nowOr L observedAt now
    match VerifyResult.parse result with
    | some result => return .verifyAssertion assertionId result observedAt
    | none => throw (.invalidInput ("unknown verify result '" ++ result ++
        "', expected one of confirmed/not_confirmed/changed/contradicted/unreachable/unknown"))
  | disputeAssertion id reason => return .disputeAssertion (← parseApiId P "assertion" id) reason
  | retractAssertion id reason => return .retractAssertion (← parseApiId P "assertion" id) reason
  | supersedeAssertion id newAssertionId => do
    let oldAssertionId ← parseApiId P "assertion" id
    return .supersedeAssertion oldAssertionId (← parseApiId P "assertion" newAssertionId)
  | redactEvidence id reason => return .redactEvidence (← parseApiId P "evidence" id) reason
  | redactActorIdentityUri id reason =>
    return .redactActorIdentityUri (← parseApiId P "actor" id) reason
  | suppressNode id => return .suppressNodeFromSearch (← parseApiId P "node" id)
  | unsuppressNode id => return .unsuppressNodeFromSearch (← parseApiId P "node" id)

variable [DecidableEq H]

/-- `authenticate` of `auth.rs`. -/
def restAuthenticate (s : Store H) (authorization : Option String) :
    Except (GraphError H) (AuthContext H) :=
  match bearer authorization with
  | none => .error .invalidApiKey
  | some raw => P.authenticate s raw

/-- The handlers: they authenticate, read the request, and make the call.
    `clock n` is the time when a handler looks at the clock the `n`-th time. -/
def restHandler (me : Prims.PeerIdentity) (db : SearchDb H) (authorization : Option String)
    (request : RestRequest) (clock : ℕ → Int64) :
    SearchDb H × Except (GraphError H) (Option H) :=
  match restAuthenticate P db.store authorization with
  | .error e => (db, .error e)
  | .ok auth =>
    match request.call L P (clock 0) with
    | .error e => (db, .error e)
    | .ok call => P.call L.url me db auth (fun n => clock (n + 1)) call

/-- The body of an answer that accepts a request. -/
def restReply (assertionId : Option H) : Json :=
  match assertionId with
  | some id => .obj [("assertion_id", .str (P.toHex id)), ("status", .str "accepted")]
  | none => .obj [("status", .str "accepted")]

/-- `ApiError::into_response`: the status, and the text of its `error`. -/
def restError : GraphError H → ℕ × String
  | .invalidApiKey => (401, "invalid api key")
  | .permissionDenied what => (403, "permission denied: requires " ++ what)
  | .notFound s => (404, "not found: " ++ s)
  | .invalidInput s => (400, "invalid input: " ++ s)
  | .events (.notFound s) => (404, "referenced object not found: " ++ s)
  | .storage _ => (500, "internal error")
  | .events _ => (500, "internal error")
  | .alreadyRedacted id => (409, "evidence " ++ P.toHex id ++ " has already been redacted")
  | .actorAlreadyRedacted id =>
    (409, "actor " ++ P.toHex id ++ "'s identity_uri has already been redacted")

/-- The status of an answer, and its body. -/
def restResponse : Except (GraphError H) (Option H) → ℕ × Json
  | .ok assertionId => (200, restReply P assertionId)
  | .error e => ((restError P e).1, .obj [("error", .str (restError P e).2)])

end rest

/-! ## MCP -/

structure EvidenceParam where
  evidenceType : Option String
  uri : Option String
  title : Option String
  excerpt : Option String
  contentHash : Option String
  pinnedCid : Option String

structure AssertParams where
  subject : String
  subjectType : Option String
  predicate : String
  object : String
  objectType : Option String
  evidence : List EvidenceParam
  confidence : Option UInt32

/-- A call of a tool that writes. -/
inductive McpCall
  | graphAssert (params : AssertParams)
  | graphAddEvidence (assertionId : String) (evidence : EvidenceParam)
  | graphVerifyAssertion (assertionId result : String)
  | graphDisputeAssertion (assertionId : String) (reason : Option String)
  | graphRetractAssertion (assertionId : String) (reason : Option String)
  | graphSupersedeAssertion (oldAssertionId newAssertionId : String)
  | graphRedactEvidence (evidenceId : String) (reason : Option String)
  | graphRedactActorIdentityUri (actorId : String) (reason : Option String)
  | graphSuppressNode (nodeId : String)
  | graphUnsuppressNode (nodeId : String)

/-- `ErrorData` -/
inductive McpError (H : Type)
  | invalidParams (message : String)
  /-- The message is that of the error. -/
  | internalError (e : GraphError H)

def mapErr : GraphError H → McpError H
  | .invalidApiKey => .invalidParams "invalid API key"
  | .permissionDenied p => .invalidParams ("permission denied: requires " ++ p)
  | .notFound what => .invalidParams ("not found: " ++ what)
  | .invalidInput msg => .invalidParams msg
  | other => .internalError other

def evidenceInput (p : EvidenceParam) : EvidenceInput where
  evidenceType := p.evidenceType
  uri := p.uri
  title := p.title
  excerpt := p.excerpt
  contentHash := p.contentHash
  observedAt := none
  retrievedAt := none
  pinnedCid := p.pinnedCid
  metadata := none

section mcp

variable {U ε : Type} (L : UrlLib U ε) (P : Prims H)

/-- An id among the parameters. -/
def parseParam (name s : String) : Except (McpError H) H :=
  match P.hashFromStr s with
  | .ok id => .ok id
  | .error _ => .error (.invalidParams ("invalid " ++ name))

/-- What each tool reads, after it has authenticated. -/
def McpCall.call (now : Int64) : McpCall → Except (McpError H) (ServiceCall H)
  | graphAssert p => return .assert {
      subject := p.subject, subjectType := p.subjectType, predicate := p.predicate,
      object := p.object, objectType := p.objectType, evidence := p.evidence.map evidenceInput,
      actorConfidence := p.confidence, observedAt := none, extractionMethod := none }
  | graphAddEvidence assertionId evidence =>
    return .addEvidence (← parseParam P "assertion_id" assertionId) (evidenceInput evidence)
  | graphVerifyAssertion assertionId result => do
    let assertionId ← parseParam P "assertion_id" assertionId
    match VerifyResult.parse result with
    | some result => return .verifyAssertion assertionId result now
    | none => throw (.invalidParams ("unknown verify result, expected one of " ++
        "confirmed/not_confirmed/changed/contradicted/unreachable/unknown"))
  | graphDisputeAssertion assertionId reason =>
    return .disputeAssertion (← parseParam P "assertion_id" assertionId) reason
  | graphRetractAssertion assertionId reason =>
    return .retractAssertion (← parseParam P "assertion_id" assertionId) reason
  | graphSupersedeAssertion oldAssertionId newAssertionId => do
    let oldAssertionId ← parseParam P "old_assertion_id" oldAssertionId
    return .supersedeAssertion oldAssertionId (← parseParam P "new_assertion_id" newAssertionId)
  | graphRedactEvidence evidenceId reason =>
    return .redactEvidence (← parseParam P "evidence_id" evidenceId) reason
  | graphRedactActorIdentityUri actorId reason =>
    return .redactActorIdentityUri (← parseParam P "actor_id" actorId) reason
  | graphSuppressNode nodeId => return .suppressNodeFromSearch (← parseParam P "node_id" nodeId)
  | graphUnsuppressNode nodeId => return .unsuppressNodeFromSearch (← parseParam P "node_id" nodeId)

variable [DecidableEq H]

/-- `OagMcpServer::authenticate` -/
def mcpAuthenticate (s : Store H) (authorization : Option String) :
    Except (McpError H) (AuthContext H) :=
  match bearer authorization with
  | none => .error (.invalidParams "missing 'Authorization: Bearer <key>' header")
  | some raw =>
    match P.authenticate s raw with
    | .ok auth => .ok auth
    | .error e => .error (mapErr e)

/-- The tools: they authenticate, read the parameters, and make the call. -/
def mcpHandler (me : Prims.PeerIdentity) (db : SearchDb H) (authorization : Option String)
    (tool : McpCall) (clock : ℕ → Int64) : SearchDb H × Except (McpError H) (Option H) :=
  match mcpAuthenticate P db.store authorization with
  | .error e => (db, .error e)
  | .ok auth =>
    match tool.call P (clock 0) with
    | .error e => (db, .error e)
    | .ok call =>
      let (db', r) := P.call L me db auth (fun n => clock (n + 1)) call
      (db', r.mapError mapErr)

/-- The result of a tool that succeeds. -/
def mcpReply (assertionId : Option H) : Json :=
  match assertionId with
  | some id => .obj [("assertion_id", .str (P.toHex id)),
      ("status", .str "accepted_pending_verification")]
  | none => .obj [("status", .str "accepted")]

end mcp

end OpenAgentGraph
