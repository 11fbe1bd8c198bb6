/-
  Asserting a relation (`oag-graph/src/assert.rs`).

  One call is several transactions: the assertion is committed first, then
  each evidence item by itself.  So `assert` returns the store on either exit.
-/
import OpenAgentGraph.Graph.Identifier
import OpenAgentGraph.Graph.Service
import OpenAgentGraph.Lib.Steps

namespace OpenAgentGraph

open Lib Repo

variable {H : Type}

/-- A storage failure, of the service's own or in the commit of an event. -/
def GraphError.IsStorage : GraphError H → Prop
  | .storage _ => True
  | .events (.storage _) => True
  | _ => False

/-! ## Limits -/

def maxIdentifierLen : ℕ := 2048
def maxTypeLen : ℕ := 64
def maxPredicateLen : ℕ := 128
def maxUriLen : ℕ := 2048
def maxTitleLen : ℕ := 512
def maxExcerptLen : ℕ := 4096
def maxContentHashLen : ℕ := 128
def maxPinnedCidLen : ℕ := 128
def maxMetadataBytes : ℕ := 8192
def maxEvidencePerAssertion : ℕ := 20
def maxAliasLen : ℕ := 512

/-! ## Inputs -/

structure EvidenceInput where
  evidenceType : Option String := none
  uri : Option String := none
  title : Option String := none
  excerpt : Option String := none
  contentHash : Option String := none
  observedAt : Option Int64 := none
  retrievedAt : Option Int64 := none
  pinnedCid : Option String := none
  metadata : Option JsonValue := none

structure AssertInput where
  subject : String
  subjectType : Option String
  predicate : String
  object : String
  objectType : Option String
  evidence : List EvidenceInput
  /-- An `f32`, by its bits. -/
  actorConfidence : Option UInt32
  observedAt : Option Int64
  extractionMethod : Option ExtractionMethod

def validateMetadata (P : Prims H) : Option JsonValue → Except (GraphError H) Unit
  | none => .ok ()
  | some metadata =>
    let len := (P.toVec.write metadata.val).length
    if maxMetadataBytes < len then
      .error (.invalidInput ("evidence.metadata is " ++ toString len ++ " bytes, exceeds the "
        ++ toString maxMetadataBytes ++ "-byte limit"))
    else .ok ()

def EvidenceInput.validate (P : Prims H) (e : EvidenceInput) : Except (GraphError H) Unit := do
  checkOptLen "evidence.uri" e.uri maxUriLen
  checkOptLen "evidence.title" e.title maxTitleLen
  checkOptLen "evidence.excerpt" e.excerpt maxExcerptLen
  checkOptLen "evidence.content_hash" e.contentHash maxContentHashLen
  checkOptLen "evidence.pinned_cid" e.pinnedCid maxPinnedCidLen
  validateMetadata P e.metadata

/-- The checks before the first commit.  None looks at the type of an evidence
    item. -/
def AssertInput.validate (P : Prims H) (input : AssertInput) : Except (GraphError H) Unit := do
  checkLen "subject" input.subject maxIdentifierLen
  checkLen "object" input.object maxIdentifierLen
  checkLen "predicate" input.predicate maxPredicateLen
  checkOptLen "subject_type" input.subjectType maxTypeLen
  checkOptLen "object_type" input.objectType maxTypeLen
  if maxEvidencePerAssertion < input.evidence.length then
    .error (.invalidInput (toString input.evidence.length ++ " evidence items exceeds the "
      ++ toString maxEvidencePerAssertion ++ "-item limit per assertion"))
  else input.evidence.forM (EvidenceInput.validate P)

/-! ## Committing -/

def AliasType.asStr : AliasType → String
  | .name => "name"
  | .url => "url"
  | .urn => "urn"
  | .package => "package"
  | .externalId => "external_id"
  | .acronym => "acronym"

namespace Prims

variable (P : Prims H) [DecidableEq H]

/-- `GraphService::commit_event`, with the service's own identity. -/
def commitEvent (s : Store H) (identity : PeerIdentity) (payload : EventPayload) (now : Int64) :
    Except (GraphError H) (Store H × H) :=
  GraphError.lift .events
    ((P.commitLocalEvent s identity payload now).map fun r => (r.1, r.2.1))

def evidencePayload (assertionId : H) (e : EvidenceInput) : AddEvidencePayload where
  assertionId := P.toHex assertionId
  evidenceType := e.evidenceType.getD "other"
  uri := e.uri
  title := e.title
  excerpt := e.excerpt
  contentHash := e.contentHash
  observedAt := e.observedAt
  retrievedAt := e.retrievedAt
  pinnedCid := e.pinnedCid
  metadata := e.metadata

def addEvidenceInternal (s : Store H) (identity : PeerIdentity) (assertionId : H) (e : EvidenceInput)
    (now : Int64) : Except (GraphError H) (Store H) :=
  (P.commitEvent s identity (.addEvidence (P.evidencePayload assertionId e)) now).map Prod.fst

variable {U ε : Type} (L : UrlLib U ε)

def relationPayload (auth : AuthContext H) (input : AssertInput) : AssertRelationPayload :=
  let (subjectIdentifier, subjectKind) := P.canonicalizeValue L input.subject
  let (objectIdentifier, objectKind) := P.canonicalizeValue L input.object
  { subjectIdentifier := subjectIdentifier
    subjectType := (input.subjectType.or subjectKind).getD "unknown"
    predicate := input.predicate
    objectIdentifier := objectIdentifier
    objectType := (input.objectType.or objectKind).getD "unknown"
    actorId := P.toHex auth.actorId
    actorConfidence := input.actorConfidence
    observedAt := input.observedAt
    extractionMethod := (input.extractionMethod.getD .direct).asStr }

/-- The assertion's commit, after the checks. -/
def assertRelation (s : Store H) (identity : PeerIdentity) (auth : AuthContext H) (input : AssertInput)
    (now : Int64) : Except (GraphError H) (Store H × H) := do
  auth.require .graphAssert
  input.validate P
  P.commitEvent s identity (.assertRelation (P.relationPayload L auth input)) now

/-- The store that the call leaves, and what it returns.  `clock n` is the time
    when it looks at the clock the `n`-th time. -/
def assert (s : Store H) (identity : PeerIdentity) (auth : AuthContext H) (input : AssertInput)
    (clock : ℕ → Int64) : Store H × Except (GraphError H) H :=
  match P.assertRelation L s identity auth input (clock 0) with
  | .error e => (s, .error e)
  | .ok (s, assertionId) =>
    let (s, r) := runSteps (fun n s e => P.addEvidenceInternal s identity assertionId e (clock n))
      1 s input.evidence
    (s, r.map fun _ => assertionId)

def declareAlias (s : Store H) (identity : PeerIdentity) (auth : AuthContext H) (nodeId : H)
    (aliasName : String) (aliasType : AliasType) (now : Int64) : Except (GraphError H) (Store H) := do
  auth.require .graphAssert
  checkLen "alias" aliasName maxAliasLen
  let (s, _) ← P.commitEvent s identity
    (.nodeAlias ⟨P.toHex nodeId, aliasName, aliasType.asStr⟩) now
  return s

end Prims

end OpenAgentGraph
