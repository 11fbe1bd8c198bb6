/-
  Crawling a page (`oag-crawler`: `crawler.rs`, `fetch.rs`).

  The state is that of the environment with the store of the peer.  The
  extractors of the page formats, the language model and the pinning service
  are any functions: what they answer only decides which facts are asserted.
  The two counters of the metrics are left out.
-/
import OpenAgentGraph.Crawler.Fetch
import OpenAgentGraph.Crawler.Robots
import OpenAgentGraph.Graph.Assert
import OpenAgentGraph.Lib.Percent
import OpenAgentGraph.Lib.Triple

namespace OpenAgentGraph

open Lib Lib.Sending

/-! ## What is extracted -/

structure ExtractedFact where
  subject : String
  subjectType : Option String
  predicate : String
  object : String
  objectType : Option String

structure ExtractedAlias where
  nodeIdentifier : String
  aliasName : String
  aliasType : AliasType

structure ExtractedPage where
  facts : List ExtractedFact := []
  aliases : List ExtractedAlias := []

def ExtractedPage.merge (page other : ExtractedPage) : ExtractedPage :=
  ⟨page.facts ++ other.facts, page.aliases ++ other.aliases⟩

/-- `confidence` is an `f32`, by its bits. -/
structure CandidateAssertion where
  subject : String
  predicate : String
  object : String
  confidence : UInt32

/-- The extractors; each is given the text and the URL that its facts are
    about. -/
structure PageExtractors (U : Type) where
  htmlMeta : String → String → ExtractedPage
  jsonLdFromHtml : String → String → ExtractedPage
  jsonLdFromJson : String → String → ExtractedPage
  markdown : String → String → ExtractedPage
  llmsTxt : String → U → ExtractedPage
  ard : String → String → ExtractedPage
  a2a : String → String → ExtractedPage
  bodyText : String → ℕ → String
  originOf : U → String

/-- `extract` is asked about a text and its URL.  `clock` gives the times that
    one call of the graph service sees. -/
structure CrawlEnv (Ω : Type) where
  clock : Ω → (ℕ → Int64) × Ω
  pin : Bytes → Ω → Except String String × Ω
  extract : String → String → Ω → Except String (List CandidateAssertion) × Ω
  modelName : String

/-! ## The service -/

structure CrawlSummary where
  pageUrl : String
  factsAsserted : ℕ := 0
  factsSkipped : ℕ := 0
  aliasesDeclared : ℕ := 0
  llmsTxtFound : Bool := false
  ardFound : Bool := false
  a2aFound : Bool := false
  llmCandidatesAsserted : ℕ := 0
  deriving DecidableEq

/-- `CrawlError`, with the variants that a fetch does not have. -/
inductive CrawlFailure (H : Type)
  | fetch (e : CrawlError)
  | robotsDisallowed
  | graph (e : GraphError H)

structure CrawlerService (U Ω ε H : Type) where
  net : Internet U Ω
  url : UrlLib U ε
  extractors : PageExtractors U
  env : CrawlEnv Ω
  identity : Prims.PeerIdentity
  config : CrawlerConfig := {}
  /-- The order in which a query reads the actors. -/
  actorOrder : Table.RowOrder (ActorRow H)

def crawlerActorName : String := "crawler"

def llmExtractionMaxChars : ℕ := 8000

variable {H : Type} [DecidableEq H]

/-- The actors with a name and a type. -/
def actorsNamed (actors : List (ActorRow H)) (name : String) (actorType : ActorType) :
    List (ActorRow H) :=
  actors.filter fun row => row.name = some name ∧ row.actorType = actorType

/-- `find_by_name_and_type`: the first row that the query meets. -/
def findByNameAndType (order : Table.RowOrder (ActorRow H)) (g : Projection H) (name : String)
    (actorType : ActorType) : Option (ActorRow H) :=
  (order.read (actorsNamed g.actors name actorType)).head?

/-- A transaction: a failure leaves the store. -/
def transact {α : Type} (s : Store H) (r : Except (GraphError H) (Store H × α)) :
    Store H × Except (GraphError H) α :=
  match r with
  | .ok (s', a) => (s', .ok a)
  | .error e => (s, .error e)

namespace CrawlerService

variable {U Ω ε : Type} (P : Prims H) (svc : CrawlerService U Ω ε H)

/-- What a call does: it asks the environment, writes the store and fetches. -/
abbrev Call (U Ω H α : Type) := Program (Ω × Store H) (Sent U) (CrawlFailure H) α

def clock : Call U Ω H (ℕ → Int64) := onFirst (call svc.env.clock)

/-- The outcome of a call, which does not end the crawl. -/
def outcome {α : Type} (m : Call U Ω H α) : Call U Ω H (Except (CrawlFailure H) α) := attempt m

/-- A call of the graph service. -/
def graph {α : Type} (f : Store H → Store H × Except (GraphError H) α) : Call U Ω H α :=
  mapError .graph (onSecond f)

def fetch (url : U) : Call U Ω H (Internet.FetchedPage U) :=
  mapError .fetch (onFirst (svc.net.safeFetch P url svc.config))

/-- Reuses the actor of a name, or declares it. -/
def actorAuth (name : String) (actorType : ActorType) : Call U Ω H (AuthContext H) := do
  let actor ← graph fun s => (s, .ok (findByNameAndType svc.actorOrder s.proj name actorType))
  match actor with
  | some actor => return ⟨actor.actorId, [.graphAssert]⟩
  | none => do
    let now ← svc.clock
    let actorId ← graph fun s =>
      transact s (P.declareActor s svc.identity actorType (some name) none none (now 0))
    return ⟨actorId, [.graphAssert]⟩

def crawlerAuth : Call U Ω H (AuthContext H) := svc.actorAuth P crawlerActorName .crawler

def llmExtractorName : String := "llm-extractor:" ++ svc.env.modelName

def llmExtractorAuth : Call U Ω H (AuthContext H) := svc.actorAuth P svc.llmExtractorName .model

/-- A missing or unfetchable robots.txt allows everything. -/
def checkRobots (url : U) : Call U Ω H RobotsRules :=
  match svc.net.join url "/robots.txt" with
  | none => return .allowAll
  | some robotsUrl => do
    match ← outcome (svc.fetch P (svc.url.setQuery robotsUrl none)) with
    | .ok page => return .parse P (String.ofList (fromUtf8Lossy page.body)) svc.config.userAgent
    | .error _ => return .allowAll

/-! ## Asserting what was found -/

def assert (auth : AuthContext H) (input : AssertInput) : Call U Ω H H := do
  let now ← svc.clock
  graph fun s => P.assert svc.url s svc.identity auth input now

def factInput (evidence : EvidenceInput) (confidence : UInt32) (fact : ExtractedFact) : AssertInput where
  subject := fact.subject
  subjectType := fact.subjectType
  predicate := fact.predicate
  object := fact.object
  objectType := fact.objectType
  evidence := [evidence]
  actorConfidence := some confidence
  observedAt := none
  extractionMethod := some .structuredExtraction

def assertFact (auth : AuthContext H) (evidence : EvidenceInput) (confidence : UInt32)
    (summary : CrawlSummary) (fact : ExtractedFact) : Call U Ω H CrawlSummary := do
  match ← outcome (svc.assert P auth (factInput evidence confidence fact)) with
  | .ok _ => return { summary with factsAsserted := summary.factsAsserted + 1 }
  | .error _ => return { summary with factsSkipped := summary.factsSkipped + 1 }

/-- Search candidates are no node, as no match is. -/
def resolveNodeId (identifier : String) (s : Store H) : Except (GraphError H) H :=
  match Table.find NodeRow.canonicalIdentifier (P.canonicalizeValue svc.url identifier).1
      s.proj.nodes with
  | some node => .ok node.nodeId
  | none => .error (.notFound ("node for " ++ identifier))

/-- An alias whose node does not exist is skipped. -/
def declareExtractedAlias (auth : AuthContext H) (found : ExtractedAlias) : Call U Ω H Unit := do
  let nodeId ← graph fun s => (s, svc.resolveNodeId P found.nodeIdentifier s)
  let now ← svc.clock
  graph fun s => transact s
    ((P.declareAlias s svc.identity auth nodeId found.aliasName found.aliasType (now 0)).map (·, ()))

def assertAlias (auth : AuthContext H) (summary : CrawlSummary) (found : ExtractedAlias) :
    Call U Ω H CrawlSummary := do
  match ← outcome (svc.declareExtractedAlias P auth found) with
  | .ok _ => return { summary with aliasesDeclared := summary.aliasesDeclared + 1 }
  | .error _ => return summary

def assertExtracted (auth : AuthContext H) (page : ExtractedPage) (evidence : EvidenceInput)
    (confidence : UInt32) (summary : CrawlSummary) : Call U Ω H CrawlSummary := do
  let summary ← page.facts.foldlM (svc.assertFact P auth evidence confidence) summary
  page.aliases.foldlM (svc.assertAlias P auth) summary

/-! ## The page -/

def isHtml (contentType : String) : Bool :=
  contentType = "text/html" ∨ contentType = "application/xhtml+xml"

/-- The deterministic extractors of a page. -/
def extractPage (contentType body finalUrl : String) : ExtractedPage :=
  if isHtml contentType then
    (svc.extractors.htmlMeta body finalUrl).merge (svc.extractors.jsonLdFromHtml body finalUrl)
  else if contentType = "application/ld+json" then svc.extractors.jsonLdFromJson body finalUrl
  else if contentType = "text/markdown" then svc.extractors.markdown body finalUrl
  else {}

/-- The assertion that makes the page's own node exist. -/
def baselineInput (finalUrl : String) (html : Bool) (evidence : EvidenceInput) : AssertInput where
  subject := finalUrl
  subjectType := some (if html then "website" else "document")
  predicate := "instance_of"
  object := if html then "concept:website" else "concept:document"
  objectType := some "concept"
  evidence := [evidence]
  actorConfidence := some 0x3F733333 -- 0.95
  observedAt := none
  extractionMethod := some .structuredExtraction

def candidateInput (evidence : EvidenceInput) (candidate : CandidateAssertion) : AssertInput where
  subject := candidate.subject
  subjectType := none
  predicate := candidate.predicate
  object := candidate.object
  objectType := none
  evidence := [{ evidence with evidenceType := some "agent_observation" }]
  actorConfidence := some candidate.confidence
  observedAt := none
  extractionMethod := some .llmExtraction

def assertCandidate (auth : AuthContext H) (evidence : EvidenceInput) (summary : CrawlSummary)
    (candidate : CandidateAssertion) : Call U Ω H CrawlSummary := do
  match ← outcome (svc.assert P auth (candidateInput evidence candidate)) with
  | .ok _ => return { summary with llmCandidatesAsserted := summary.llmCandidatesAsserted + 1 }
  | .error _ => return { summary with factsSkipped := summary.factsSkipped + 1 }

/-- The pass of the language model over the text of an HTML page. -/
def llmPass (html : Bool) (body finalUrl : String) (evidence : EvidenceInput) (summary : CrawlSummary) :
    Call U Ω H CrawlSummary := do
  let text := svc.extractors.bodyText body llmExtractionMaxChars
  if html ∧ trim text ≠ "" then do
    match ← onFirst (call (svc.env.extract text finalUrl)) with
    | .ok [] => return summary
    | .ok candidates => do
      let llmAuth ← svc.llmExtractorAuth P
      candidates.foldlM (svc.assertCandidate P llmAuth evidence) summary
    | .error _ => return summary
  else return summary

/-- One of the fetches beside the page: a path of the site, the extractor of what
    is found there, and how it is recorded. -/
structure SideFetch (U : Type) where
  path : String
  extract : String → U → ExtractedPage
  evidenceType : String
  confidence : UInt32
  found : CrawlSummary → CrawlSummary

/-- A file that cannot be fetched is skipped. -/
def sidePage (auth : AuthContext H) (url : U) (side : SideFetch U) (summary : CrawlSummary) :
    Call U Ω H CrawlSummary := do
  match svc.net.join url side.path with
  | none => return summary
  | some sideUrl => do
    match ← outcome (svc.fetch P sideUrl) with
    | .error _ => return summary
    | .ok page => do
      let now ← svc.clock
      let evidence : EvidenceInput :=
        { evidenceType := some side.evidenceType
          uri := some (svc.url.toString sideUrl)
          contentHash := some page.contentHash
          retrievedAt := some (now 0) }
      let body := String.ofList (fromUtf8Lossy page.body)
      let summary ← svc.assertExtracted P auth (side.extract body sideUrl) evidence side.confidence summary
      return side.found summary

def llmsTxtFetch : SideFetch U where
  path := "/llms.txt"
  extract := svc.extractors.llmsTxt
  evidenceType := "documentation"
  confidence := 0x3F000000 -- 0.5
  found summary := { summary with llmsTxtFound := true }

def ardFetch (url : U) : SideFetch U where
  path := "/.well-known/ard.json"
  extract body _ := svc.extractors.ard body (svc.extractors.originOf url)
  evidenceType := "api_response"
  confidence := 0x3F333333 -- 0.7
  found summary := { summary with ardFound := true }

def a2aFetch (finalUrl : String) : SideFetch U where
  path := "/.well-known/agent-card.json"
  extract body _ := svc.extractors.a2a body finalUrl
  evidenceType := "api_response"
  confidence := 0x3F333333 -- 0.7
  found summary := { summary with a2aFound := true }

/-- What `crawl_inner` does behind the check of robots.txt. -/
def crawlPage (auth : AuthContext H) (url : U) : Call U Ω H CrawlSummary := do
  let page ← svc.fetch P url
  let finalUrl := svc.url.toString page.finalUrl
  let html := isHtml page.contentType
  -- a pin that fails must never fail the crawl
  let pinned ← onFirst (call (svc.env.pin page.body))
  let now ← svc.clock
  let evidence : EvidenceInput :=
    { evidenceType := some "web_page"
      uri := some finalUrl
      contentHash := some page.contentHash
      retrievedAt := some (now 0)
      pinnedCid := pinned.toOption }
  let _ ← svc.assert P auth (baselineInput finalUrl html evidence)
  let body := String.ofList (fromUtf8Lossy page.body)
  let summary : CrawlSummary := { pageUrl := svc.url.toString url, factsAsserted := 1 }
  let summary ← svc.assertExtracted P auth (svc.extractPage page.contentType body finalUrl) evidence
    0x3F333333 summary
  let summary ← svc.llmPass P html body finalUrl evidence summary
  let summary ← svc.sidePage P auth url svc.llmsTxtFetch summary
  let summary ← svc.sidePage P auth url (svc.ardFetch url) summary
  svc.sidePage P auth url (svc.a2aFetch finalUrl) summary

def crawl (url : U) : Call U Ω H CrawlSummary := do
  let auth ← svc.crawlerAuth P
  let robots ← svc.checkRobots P url
  if robots.isAllowed (svc.url.path url) then svc.crawlPage P auth url
  else throw .robotsDisallowed

end CrawlerService

end OpenAgentGraph
