/-
  The graph's data model (`oag-core`): the enumerations with their wire
  names, node types and predicates, node and edge ids.
-/
import OpenAgentGraph.Primitives

namespace OpenAgentGraph

open Lib

/-! ## Enumerations -/

inductive ActorType
  | human | agent | model | crawler | organization | domain | service | peer | anonymous
  deriving DecidableEq, Repr

namespace ActorType

def asStr : ActorType → String
  | human => "human"
  | agent => "agent"
  | model => "model"
  | crawler => "crawler"
  | organization => "organization"
  | domain => "domain"
  | service => "service"
  | peer => "peer"
  | anonymous => "anonymous"

def parse : String → Option ActorType
  | "human" => some human
  | "agent" => some agent
  | "model" => some model
  | "crawler" => some crawler
  | "organization" => some organization
  | "domain" => some domain
  | "service" => some service
  | "peer" => some peer
  | "anonymous" => some anonymous
  | _ => none

@[simp] theorem parse_asStr (t : ActorType) : parse t.asStr = some t := by cases t <;> rfl

end ActorType

inductive Permission
  | graphRead | graphAssert | graphVerify | graphRetractOwn | graphCrawl | admin
  deriving DecidableEq, Repr

namespace Permission

def asStr : Permission → String
  | graphRead => "graph:read"
  | graphAssert => "graph:assert"
  | graphVerify => "graph:verify"
  | graphRetractOwn => "graph:retract-own"
  | graphCrawl => "graph:crawl"
  | admin => "admin"

def parse : String → Option Permission
  | "graph:read" => some graphRead
  | "graph:assert" => some graphAssert
  | "graph:verify" => some graphVerify
  | "graph:retract-own" => some graphRetractOwn
  | "graph:crawl" => some graphCrawl
  | "admin" => some admin
  | _ => none

@[simp] theorem parse_asStr (p : Permission) : parse p.asStr = some p := by cases p <;> rfl

end Permission

inductive ExtractionMethod
  | direct | structuredExtraction | llmExtraction | verification
  deriving DecidableEq, Repr

namespace ExtractionMethod

def asStr : ExtractionMethod → String
  | direct => "direct"
  | structuredExtraction => "structured_extraction"
  | llmExtraction => "llm_extraction"
  | verification => "verification"

def parse : String → Option ExtractionMethod
  | "direct" => some direct
  | "structured_extraction" => some structuredExtraction
  | "llm_extraction" => some llmExtraction
  | "verification" => some verification
  | _ => none

@[simp] theorem parse_asStr (m : ExtractionMethod) : parse m.asStr = some m := by cases m <;> rfl

end ExtractionMethod

inductive AssertionStatus
  | active | disputed | retracted | superseded
  deriving DecidableEq, Repr

inductive EvidenceType
  | webPage | documentation | sourceCode | repository | apiResponse | dataset | file | manual
  | specification | userObservation | agentObservation | serviceReceipt | other
  deriving DecidableEq, Repr

namespace EvidenceType

def asStr : EvidenceType → String
  | webPage => "web_page"
  | documentation => "documentation"
  | sourceCode => "source_code"
  | repository => "repository"
  | apiResponse => "api_response"
  | dataset => "dataset"
  | file => "file"
  | manual => "manual"
  | specification => "specification"
  | userObservation => "user_observation"
  | agentObservation => "agent_observation"
  | serviceReceipt => "service_receipt"
  | other => "other"

def parse : String → Option EvidenceType
  | "web_page" => some webPage
  | "documentation" => some documentation
  | "source_code" => some sourceCode
  | "repository" => some repository
  | "api_response" => some apiResponse
  | "dataset" => some dataset
  | "file" => some file
  | "manual" => some manual
  | "specification" => some specification
  | "user_observation" => some userObservation
  | "agent_observation" => some agentObservation
  | "service_receipt" => some serviceReceipt
  | "other" => some other
  | _ => none

@[simp] theorem parse_asStr (t : EvidenceType) : parse t.asStr = some t := by cases t <;> rfl

end EvidenceType

inductive AliasType
  | name | url | urn | package | externalId | acronym
  deriving DecidableEq, Repr

namespace AliasType

def parse : String → Option AliasType
  | "name" => some name
  | "url" => some url
  | "urn" => some urn
  | "package" => some package
  | "external_id" => some externalId
  | "acronym" => some acronym
  | _ => none

end AliasType

/-! ## Text normalization -/

/-- Unicode `White_Space`. -/
def isWhiteSpace (c : Char) : Bool :=
  let n := c.toNat
  (9 ≤ n && n ≤ 13) || n == 32 || n == 133 || n == 160 || n == 5760 || (8192 ≤ n && n ≤ 8202)
    || n == 8232 || n == 8233 || n == 8239 || n == 8287 || n == 12288

/-- `str::trim`. -/
def trim (s : String) : String :=
  String.ofList (((s.toList.dropWhile isWhiteSpace).reverse.dropWhile isWhiteSpace).reverse)

/-- `str::split_whitespace`: the maximal runs of other characters. -/
def splitWhitespace (s : String) : List String :=
  ((s.toList.splitOnP isWhiteSpace).filter fun w => !w.isEmpty).map String.ofList

variable {H : Type}

namespace Prims

variable (P : Prims H)

/-- `NodeType::new`. -/
def nodeType (raw : String) : String := P.toLowercase (trim raw)

/-- `Predicate::new`. -/
def predicate (raw : String) : String :=
  String.intercalate "_" (splitWhitespace (P.toLowercase (trim raw)))

/-- `NodeId::from_canonical_identifier`. -/
def nodeId (identifier : String) : H := P.derive nodeIdPrefix (utf8 identifier)

/-- `EdgeId::from_triple`. -/
def edgeId (subject : H) (pred : String) (object : H) : H :=
  P.derive edgeIdPrefix
    (utf8 (P.toHex subject) ++ 58 :: (utf8 pred ++ 58 :: utf8 (P.toHex object)))

theorem nodeId_injective (hinj : Function.Injective P.blake3) : Function.Injective P.nodeId :=
  (P.derive_injective hinj _).comp utf8_injective

/-- No hexadecimal digit is a colon. -/
theorem colon_notMem_toHex (h : H) : (58 : UInt8) ∉ utf8 (P.toHex h) := by
  intro hmem
  simp only [toHex, utf8_hexEncode, hexEncodeBytes, List.mem_flatMap, List.mem_cons,
    List.not_mem_nil, or_false] at hmem
  have key : ∀ n : UInt8, n < 16 → (58 : UInt8) ≠ hexDigit n := forall_byte (by decide +kernel)
  obtain ⟨x, -, hx | hx⟩ := hmem
  · exact key _ (high_lt x) hx
  · exact key _ (low_lt x) hx

end Prims

/-- An edge id determines its triple: the subject's digits end at the first
    colon, the object's start after the last. -/
theorem Prims.edgeId_injective (P : Prims H) (hinj : Function.Injective P.blake3)
    {s s' o o' : H} {p p' : String} (h : P.edgeId s p o = P.edgeId s' p' o') :
    s = s' ∧ p = p' ∧ o = o' := by
  have hbytes := P.derive_injective hinj _ h
  obtain ⟨hs, hrest⟩ := split_first (P.colon_notMem_toHex s) (P.colon_notMem_toHex s') hbytes
  have hrev := congrArg List.reverse hrest
  simp only [List.reverse_append, List.reverse_cons, List.append_assoc, List.cons_append,
    List.nil_append] at hrev
  obtain ⟨ho, hp⟩ := split_first (by simpa using P.colon_notMem_toHex o)
    (by simpa using P.colon_notMem_toHex o') hrev
  exact ⟨P.toHex_injective (utf8_injective hs), utf8_injective (List.reverse_injective hp),
    P.toHex_injective (utf8_injective (List.reverse_injective ho))⟩

end OpenAgentGraph
