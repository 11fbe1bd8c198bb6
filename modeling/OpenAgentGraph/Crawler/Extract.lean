/-
  Reading pages (`oag-crawler`: `extract`, `llm_extract.rs`).

  HTML and JSON are read by other crates: `PageLib` is what the extractors ask
  of them.  A JSON text is read as a value, or else by the fields of a type, and
  then a field that is written twice is an error.
-/
import OpenAgentGraph.Crawler.Crawl
import OpenAgentGraph.Graph.Corroboration

namespace OpenAgentGraph

open Lib

/-- `scraper` and `serde_json`: documents `D` with elements `E`. -/
structure PageLib (D E : Type) where
  parseDocument : String → D
  select : D → String → List E
  /-- The text nodes below an element, each with the names of the elements
      around it. -/
  texts : E → List (List String × String)
  attr : E → String → Option String
  /-- `from_str::<Value>`. -/
  value : String → Option JsonValue
  /-- The tree of a text, as it is written. -/
  tree : String → Option Json

/-! ## Texts -/

def stripPrefix (pre t : Text) : Option Text := if pre.isPrefixOf t then some (t.drop pre.length) else none

/-- `str::trim_start`. -/
def trimStart (t : Text) : Text := t.dropWhile isWhiteSpace

def dropPrefixes (pre : Text) : ℕ → Text → Text
  | 0, t => t
  | n + 1, t => match stripPrefix pre t with
    | some rest => dropPrefixes pre n rest
    | none => t

/-- `str::trim_start_matches`, for a pattern that is not empty. -/
def trimStartMatches (pre t : Text) : Text := dropPrefixes pre t.length t

/-- `str::trim_end_matches`. -/
def trimEndMatches (suf t : Text) : Text := (trimStartMatches suf.reverse t.reverse).reverse

def eqIgnoreAsciiCase (a b : String) : Bool := toAsciiLowercase a = toAsciiLowercase b

/-! ## Reading a type -/

def Json.asStr : Json → Option String
  | .str s => some s
  | _ => none

/-- The fields of a derived type, by name: those of an object, of which none is
    written twice, or the items of an array in the order of the fields.  `fields`
    tells which of them have a default. -/
def readStruct (fields : List (String × Bool)) : Json → Option (String → Option Json)
  | .obj kvs =>
    if fields.all fun f => (kvs.filter fun kv => kv.1 = f.1).length ≤ 1 then
      some fun name => kvs.lookup name
    else none
  | .arr xs =>
    if xs.length ≤ fields.length ∧ (fields.drop xs.length).all (·.2) then
      some fun name => ((fields.map Prod.fst).zip xs).lookup name
    else none
  | _ => none

/-- A field of type `Option<T>`. -/
def readOption {α : Type} (read : Json → Option α) : Option Json → Option (Option α)
  | none => some none
  | some .null => some none
  | some j => (read j).map some

/-- A field with a default. -/
def readDefault {α : Type} (default : α) (read : Json → Option α) : Option Json → Option α
  | none => some default
  | some j => read j

def readVec {α : Type} (read : Json → Option α) : Json → Option (List α)
  | .arr xs => xs.mapM read
  | _ => none

/-! ## Names and facts -/

def nameAlias (nodeIdentifier name : String) : ExtractedAlias := ⟨nodeIdentifier, name, .name⟩

/-- A name that is not blank. -/
def nameOf (name : Option String) : Option String := (name.map trim).filter (· ≠ "")

variable {H : Type} (P : Prims H)

/-! ## `json_ld.rs` -/

namespace JsonLd

def typesOf (kvs : List (String × Json)) : List String :=
  match kvs.lookup "@type" with
  | some (.str s) => [P.toLowercase s]
  | some (.arr arr) => (arr.filterMap Json.asStr).map P.toLowercase
  | _ => []

/-- `push_same_as`. -/
def sameAs (pageUrl target : String) : ExtractedFact := ⟨pageUrl, none, "related_to", target, none⟩

def processNode (kvs : List (String × Json)) (pageUrl : String) : ExtractedPage :=
  let types := typesOf P kvs
  let text (name : String) := (kvs.lookup name).bind Json.asStr
  let software : List ExtractedFact :=
    if types.any fun t => t = "softwareapplication" ∨ t = "softwaresourcecode" then
      ⟨pageUrl, some "software", "instance_of", "concept:software", some "concept"⟩ ::
        (text "codeRepository").toList.map fun repo =>
          ⟨pageUrl, some "software", "repository_at", repo, some "repository"⟩
    else []
  let organization : List ExtractedFact :=
    if "organization" ∈ types then
      (text "url").toList.map fun orgUrl => ⟨pageUrl, none, "operated_by", orgUrl, some "organization"⟩
    else []
  let same : List ExtractedFact := match kvs.lookup "sameAs" with
    | some (.str s) => [sameAs pageUrl s]
    | some (.arr arr) => (arr.filterMap Json.asStr).map (sameAs pageUrl)
    | _ => []
  { facts := software ++ organization ++ same
    aliases := (nameOf (text "name")).toList.map (nameAlias pageUrl) }

mutual

def processDocument (pageUrl : String) : Json → ExtractedPage
  | .arr items => processItems pageUrl items
  | .obj kvs => (processGraph pageUrl kvs).getD (processNode P kvs pageUrl)
  | _ => {}

def processItems (pageUrl : String) : List Json → ExtractedPage
  | [] => {}
  | item :: items => (processDocument pageUrl item).merge (processItems pageUrl items)

/-- The items of the field `@graph`, if it is an array. -/
def processGraph (pageUrl : String) : List (String × Json) → Option ExtractedPage
  | [] => none
  | (name, graph) :: kvs =>
    if name = "@graph" then
      match graph with
      | .arr items => some (processItems pageUrl items)
      | _ => none
    else processGraph pageUrl kvs

end

end JsonLd

variable {D E : Type} (lib : PageLib D E)

namespace PageLib

def jsonLdFromJson (body pageUrl : String) : ExtractedPage :=
  match lib.value body with
  | some value => JsonLd.processDocument P pageUrl value.val
  | none => {}

/-- A block that is no JSON is skipped. -/
def jsonLdFromHtml (html pageUrl : String) : ExtractedPage :=
  ((lib.select (lib.parseDocument html) "script[type=\"application/ld+json\"]").map fun el =>
    lib.jsonLdFromJson P (String.join ((lib.texts el).map (·.2))) pageUrl).foldl ExtractedPage.merge {}

/-! ## `html_meta.rs` and `markdown.rs` -/

def htmlMeta (html pageUrl : String) : ExtractedPage :=
  let document := lib.parseDocument html
  let title := nameOf ((lib.select document "title").head?.map fun el =>
    String.join ((lib.texts el).map (·.2)))
  let ogTitle := nameOf ((lib.select document "meta[property=\"og:title\"]").head?.bind
    (lib.attr · "content"))
  { aliases := (title.toList ++ ogTitle.toList.filter (some · ≠ title)).map (nameAlias pageUrl) }

end PageLib

/-- A heading of the first level. -/
def headingOf (line : Text) : Option String := (stripPrefix "# ".toList line).map fun rest =>
  trim (String.ofList rest)

def extractMarkdown (markdown pageUrl : String) : ExtractedPage :=
  let title := (lines markdown.toList).findSome? fun line => nameOf (headingOf (trimStart line))
  { aliases := title.toList.map (nameAlias pageUrl) }

/-! ## `llms_txt.rs` -/

/-- `[text](url)`, the first such in a line. -/
def parseMarkdownLink (s : Text) : Option (String × String) := do
  let (_, s) ← splitOnce '[' s
  let (text, rest) ← splitOnce ']' s
  let (_, rest) ← splitOnce '(' rest
  let (url, _) ← splitOnce ')' rest
  if url = [] then none else some (String.ofList text, String.ofList url)

namespace LlmsTxt

structure Parser where
  title : Option String := none
  facts : List ExtractedFact := []

variable {U : Type} (join : U → String → Option U) (toString : U → String)

/-- A bullet that is a link. -/
def bullet (siteOrigin : String) (baseUrl : U) (line : Text) : Option ExtractedFact := do
  let rest ← (stripPrefix "- ".toList line).or (stripPrefix "* ".toList line)
  let (_, url) ← parseMarkdownLink rest
  return ⟨siteOrigin, none, "links_to", ((join baseUrl url).map toString).getD url, none⟩

/-- One line.  Until there is a title, a heading is nothing but a title. -/
def Parser.line (siteOrigin : String) (baseUrl : U) (st : Parser) (rawLine : Text) : Parser :=
  let line := (trim (String.ofList rawLine)).toList
  match (if st.title.isNone then headingOf line else none) with
  | some heading => { st with title := nameOf (some heading) }
  | none => { st with facts := st.facts ++ (bullet join toString siteOrigin baseUrl line).toList }

def parse (originOf : U → String) (body : String) (baseUrl : U) : ExtractedPage :=
  let siteOrigin := originOf baseUrl
  let st := (lines body.toList).foldl (Parser.line join toString siteOrigin baseUrl) {}
  { facts := st.facts
    aliases := st.title.toList.map (nameAlias siteOrigin) }

end LlmsTxt

/-- `scheme://host[:port]`; `port` is none where it is that of the scheme. -/
def originOf {U Ω : Type} (net : Internet U Ω) (port : U → Option UInt16) (url : U) : String :=
  net.scheme url ++ "://" ++ (net.hostStr url).getD "" ++
    match port url with
    | some port => ":" ++ toString port.toNat
    | none => ""

/-! ## `ard.rs` -/

structure ArdOperator where
  name : Option String
  url : Option String

structure ArdResource where
  name : Option String
  resourceType : Option String
  url : Option String
  capabilities : List String
  operator : Option ArdOperator

namespace Ard

def readOperator (j : Json) : Option ArdOperator := do
  let field ← readStruct [("name", false), ("url", false)] j
  return ⟨← readOption Json.asStr (field "name"), ← readOption Json.asStr (field "url")⟩

def readResource (j : Json) : Option ArdResource := do
  let field ← readStruct [("name", false), ("type", false), ("url", false), ("capabilities", true),
    ("operator", false)] j
  return ⟨← readOption Json.asStr (field "name"), ← readOption Json.asStr (field "type"),
    ← readOption Json.asStr (field "url"), ← readDefault [] (readVec Json.asStr) (field "capabilities"),
    ← readOption readOperator (field "operator")⟩

def readDocument (j : Json) : Option (List ArdResource) := do
  let field ← readStruct [("resources", true)] j
  readDefault [] (readVec readResource) (field "resources")

def resourcePage (siteOrigin : String) (resource : ArdResource) : ExtractedPage :=
  let resourceId := resource.url.getD siteOrigin
  let nodeType := match resource.resourceType with
    | some t => if eqIgnoreAsciiCase t "mcp_server" || eqIgnoreAsciiCase t "mcp-server" then "mcp_server"
      else "agent"
    | none => "agent"
  let operator := resource.operator.bind fun operator => operator.url.or operator.name
  { facts :=
      ⟨resourceId, some nodeType, "instance_of", "concept:" ++ nodeType, some "concept"⟩ ::
        (operator.toList.map fun org =>
          ⟨resourceId, some nodeType, "operated_by", org, some "organization"⟩) ++
        resource.capabilities.map fun capability =>
          ⟨resourceId, some nodeType, "provides_capability", capability, some "capability"⟩
    aliases := (nameOf resource.name).toList.map (nameAlias resourceId) }

end Ard

def PageLib.ard (body siteOrigin : String) : ExtractedPage :=
  match (lib.tree body).bind Ard.readDocument with
  | some resources => (resources.map (Ard.resourcePage siteOrigin)).foldl ExtractedPage.merge {}
  | none => {}

/-! ## `a2a.rs` -/

structure AgentProvider where
  organization : Option String
  url : Option String

structure AgentSkill where
  name : Option String
  id : Option String

structure AgentCard where
  name : Option String
  provider : Option AgentProvider
  skills : List AgentSkill

namespace A2a

def readProvider (j : Json) : Option AgentProvider := do
  let field ← readStruct [("organization", false), ("url", false)] j
  return ⟨← readOption Json.asStr (field "organization"), ← readOption Json.asStr (field "url")⟩

def readSkill (j : Json) : Option AgentSkill := do
  let field ← readStruct [("name", false), ("id", false)] j
  return ⟨← readOption Json.asStr (field "name"), ← readOption Json.asStr (field "id")⟩

def readCard (j : Json) : Option AgentCard := do
  let field ← readStruct [("name", false), ("provider", false), ("skills", true)] j
  return ⟨← readOption Json.asStr (field "name"), ← readOption readProvider (field "provider"),
    ← readDefault [] (readVec readSkill) (field "skills")⟩

def cardPage (agentUrl : String) (card : AgentCard) : ExtractedPage :=
  -- a URL is preferred to a bare name
  let provider := card.provider.bind fun provider => provider.url.or provider.organization
  { facts :=
      ⟨agentUrl, some "agent", "instance_of", "concept:a2a-agent", some "concept"⟩ ::
        (provider.toList.map fun org =>
          ⟨agentUrl, some "agent", "operated_by", org, some "organization"⟩) ++
        (card.skills.filterMap fun skill => skill.name.or skill.id).map fun capability =>
          ⟨agentUrl, some "agent", "provides_capability", capability, some "capability"⟩
    aliases := (nameOf card.name).toList.map (nameAlias agentUrl) }

end A2a

namespace PageLib

def a2a (body agentUrl : String) : ExtractedPage :=
  match (lib.tree body).bind A2a.readCard with
  | some card => A2a.cardPage agentUrl card
  | none => {}

/-! ## `mod.rs` -/

/-- The text of the body outside scripts and styles. -/
def bodyText (html : String) (maxChars : ℕ) : String :=
  let parts := match (lib.select (lib.parseDocument html) "body").head? with
    | some body => (lib.texts body).filter (fun node => "script" ∉ node.1 ∧ "style" ∉ node.1) |>.map (·.2)
    | none => []
  let collapsed := String.intercalate " " (splitWhitespace (String.intercalate " " parts))
  String.ofList (collapsed.toList.take maxChars)

/-! ## `llm_extract.rs` -/

/-- `clamp(0.0, 1.0)`, of an `f32` by its bits. -/
def clampUnit (b : UInt32) : UInt32 :=
  match f32Value b with
  | .finite q => if q < 0 then 0 else if 1 < q then 0x3F800000 else b
  | .posInf => 0x3F800000
  | .negInf => 0
  | .nan => b

def readCandidate (j : Json) : Option CandidateAssertion := do
  let field ← readStruct [("subject", false), ("predicate", false), ("object", false), ("confidence", true)] j
  let number : Json → Option UInt32
    | .num n => some (P.f32OfNumber n)
    | _ => none
  return ⟨← (field "subject").bind Json.asStr, ← (field "predicate").bind Json.asStr,
    ← (field "object").bind Json.asStr, ← readDefault 0 number (field "confidence")⟩

/-- A reply that is no JSON says nothing. -/
def parseCandidates (content : String) : List CandidateAssertion :=
  let fence := "```".toList
  let trimmed := trim (String.ofList (trimEndMatches fence (trimStartMatches fence
    (trimStartMatches "```json".toList (trim content).toList))))
  let raw := ((lib.tree trimmed).bind (readVec (readCandidate P))).getD []
  (raw.filter fun c => trim c.subject ≠ "" ∧ trim c.predicate ≠ "" ∧ trim c.object ≠ "").map fun c =>
    { c with confidence := clampUnit c.confidence }

end PageLib

def buildPrompt (pageText sourceUrl : String) : String :=
  "You extract factual subject-predicate-object relationships from web page content. The page is at "
    ++ sourceUrl ++ ".\n\nRespond with ONLY a JSON array (no markdown fences, no commentary). Each "
    ++ "element must be an object with exactly these keys: \"subject\" (string), \"predicate\" (a short "
    ++ "snake_case verb phrase), \"object\" (string), and \"confidence\" (a number from 0.0 to 1.0 "
    ++ "reflecting how directly the text states this). If nothing can be confidently extracted, respond "
    ++ "with [].\n\nPage content:\n" ++ pageText

/-! ## The crawler that reads so -/

/-- The first choice of a chat model's reply, or an empty text. -/
abbrev Chat (Ω : Type) := String → Ω → Except String String × Ω

namespace PageLib

/-- `LlmExtractor::extract`; no model is configured by default. -/
def extractCandidates {Ω : Type} (chat : Option (Chat Ω)) (pageText sourceUrl : String) (ω : Ω) :
    Except String (List CandidateAssertion) × Ω :=
  match chat with
  | none => (.ok [], ω)
  | some ask =>
    let (reply, ω) := ask (buildPrompt pageText sourceUrl) ω
    (reply.map (lib.parseCandidates P), ω)

def extractors {U Ω ε : Type} (net : Internet U Ω) (L : UrlLib U ε) (port : U → Option UInt16) :
    PageExtractors U where
  htmlMeta := lib.htmlMeta
  jsonLdFromHtml := lib.jsonLdFromHtml P
  jsonLdFromJson := lib.jsonLdFromJson P
  markdown := extractMarkdown
  llmsTxt := LlmsTxt.parse net.join L.toString (originOf net port)
  ard := lib.ard
  a2a := lib.a2a
  bodyText := lib.bodyText
  originOf := originOf net port

end PageLib

/-- The service with the extractors of this crate. -/
def CrawlerService.reading {U Ω ε : Type} (svc : CrawlerService U Ω ε H) (lib : PageLib D E)
    (port : U → Option UInt16) (chat : Option (Chat Ω)) : CrawlerService U Ω ε H :=
  { svc with
    extractors := lib.extractors P svc.net svc.url port
    env := { svc.env with extract := lib.extractCandidates P chat } }

end OpenAgentGraph
