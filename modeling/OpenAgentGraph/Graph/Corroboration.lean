/-
  Corroboration (`oag-graph`: `corroboration.rs`).

  An evidence URI is collapsed to a key for who controls it; the keys behind an
  edge's active assertions are its source groups.  The signals that need more
  than counting (agreement, strength, freshness, identity) are not modelled.
-/
import OpenAgentGraph.Graph.Identifier
import OpenAgentGraph.Graph.Service

namespace OpenAgentGraph

open Lib Repo

/-- Hosts where one domain serves many unrelated publishers. -/
def multiTenantHosts : List String :=
  ["github.com", "www.github.com", "gist.github.com", "raw.githubusercontent.com", "gitlab.com",
    "bitbucket.org", "npmjs.com", "www.npmjs.com", "pypi.org", "crates.io", "huggingface.co",
    "sourceforge.net"]

def secondLevelSuffixes : List String :=
  ["co.uk", "org.uk", "gov.uk", "ac.uk", "me.uk", "net.uk", "co.jp", "ne.jp", "or.jp", "co.in",
    "co.nz", "org.nz", "net.nz", "com.au", "net.au", "org.au", "co.za", "com.br", "com.mx",
    "co.kr", "com.cn", "co.il", "co.id", "com.sg", "com.tw", "com.hk", "co.th"]

def splitAtChar (c : Char) (s : String) : List String := (s.toList.splitOn c).map String.ofList

def registrableDomain (host : String) : String :=
  match (splitAtChar '.' host).reverse with
  | last :: secondLast :: thirdLast :: _ =>
    let lastTwo := secondLast ++ "." ++ last
    if secondLevelSuffixes.contains lastTwo then thirdLast ++ "." ++ lastTwo else lastTwo
  | _ => host

def toAsciiLowercase (s : String) : String := String.ofList (s.toList.map Char.toLower)

/-- The URL library, with the host of a URL. -/
structure HostLib (U ε : Type) extends UrlLib U ε where
  hostStr : U → Option String

namespace HostLib

variable {U ε : Type} (L : HostLib U ε)

/-- A path that does not begin with a slash has no segments. -/
def pathSegments (u : U) : Option (List String) :=
  match (L.path u).toList with
  | '/' :: remainder => some (splitAtChar '/' (String.ofList remainder))
  | _ => none

def controlGroupForUri (uri : String) : Option String := do
  let parsed ← (L.parse uri).toOption
  let host := toAsciiLowercase (← L.hostStr parsed)
  match multiTenantHosts.find? (· = host) with
  | some canonicalHost =>
    match ((L.pathSegments parsed).bind List.head?).filter (· ≠ "") with
    | some owner => return canonicalHost ++ "/" ++ owner
    | none => return canonicalHost
  | none => return registrableDomain host

end HostLib

/-- The signals of one edge that are counts, or follow from one. -/
structure EdgeCorroboration (H : Type) where
  edgeId : H
  totalAssertions : ℕ
  activeAssertions : ℕ
  disputedAssertions : ℕ
  distinctActors : ℕ
  sourceGroups : List String
  sourceIndependence : ℚ

section
variable {H U ε : Type} [DecidableEq H] (P : Prims H) (L : HostLib U ε)

/-- The groups of one active assertion: a claim with no evidence, and an item
    whose URI gives no key, count for the actor. -/
def assertionGroups (g : Projection H) (assertion : AssertionRow H) : List String :=
  let actorGroup := "actor:" ++ P.toHex assertion.actorId
  match g.evidence.filter fun item => item.assertionId = assertion.id with
  | [] => [actorGroup]
  | evidence => evidence.map fun item => (item.uri.bind L.controlGroupForUri).getD actorGroup

/-- One group is no independent corroboration, two are partial, three or more
    saturate. -/
def sourceIndependenceOf (distinctSourceGroups : ℕ) : ℚ :=
  max 0 (min 1 (((distinctSourceGroups - 1 : ℕ) : ℚ) / 2))

/-- The tables are read without an order, and none matters to the result. -/
def getEdgeCorroboration (g : Projection H) (edgeId : H) :
    Except (GraphError H) (EdgeCorroboration H) :=
  if hasEdge g edgeId then
    let allAssertions := g.assertions.filter fun a => a.edgeId = edgeId
    let active := allAssertions.filter fun a => a.status = .active
    let sourceGroups := ((active.flatMap (assertionGroups P L g)).dedup).mergeSort (· ≤ ·)
    .ok
      { edgeId
        totalAssertions := allAssertions.length
        activeAssertions := active.length
        disputedAssertions := (allAssertions.filter fun a => a.status = .disputed).length
        distinctActors := (active.map AssertionRow.actorId).dedup.length
        sourceGroups
        sourceIndependence := sourceIndependenceOf sourceGroups.length }
  else .error (.notFound ("edge " ++ P.toHex edgeId))

end

end OpenAgentGraph
