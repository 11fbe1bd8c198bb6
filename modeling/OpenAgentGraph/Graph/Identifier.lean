/-
  Canonical identifiers (`oag-core`: `canonicalize.rs`; `oag-graph`:
  `identifier.rs`).

  The `url` crate is a parameter: `UrlLib` is what the code calls, and
  `UrlLib.Laws` is what the crate documents of it.
-/
import OpenAgentGraph.Core
import OpenAgentGraph.Lib.FormUrl

namespace OpenAgentGraph

open Lib

/-! ## URLs -/

/-- `url::Url`: parsing, serializing, and the components that are set. -/
structure UrlLib (U ε : Type) where
  parse : String → Except ε U
  toString : U → String
  path : U → String
  setPath : U → String → U
  fragment : U → Option String
  setFragment : U → Option String → U
  query : U → Option String
  setQuery : U → Option String → U

/-- A URL is what stands before its path (scheme, credentials, host and port),
    its path, its query and its fragment.  It is parsed from what it is
    serialized to, setting a component leaves the others alone, and a query
    is stored with the characters percent-encoded that may not stand in it. -/
structure UrlLib.Laws {U ε B : Type} (L : UrlLib U ε) (front : U → B) (querySet : B → QuerySet) :
    Prop where
  ext : ∀ u v, front u = front v → L.path u = L.path v → L.query u = L.query v →
    L.fragment u = L.fragment v → u = v
  parse_toString : ∀ u, L.parse (L.toString u) = .ok u
  setPath : ∀ u, front (L.setPath u "/") = front u ∧ L.path (L.setPath u "/") ≠ "" ∧
    L.query (L.setPath u "/") = L.query u ∧ L.fragment (L.setPath u "/") = L.fragment u
  path_setPath : ∀ u v, front u = front v → L.path (L.setPath u "/") = L.path (L.setPath v "/")
  setFragment : ∀ u, front (L.setFragment u none) = front u ∧
    L.path (L.setFragment u none) = L.path u ∧ L.query (L.setFragment u none) = L.query u ∧
    L.fragment (L.setFragment u none) = none
  setQuery : ∀ u q, front (L.setQuery u q) = front u ∧ L.path (L.setQuery u q) = L.path u ∧
    L.query (L.setQuery u q) = q.map (fun t => asciiText ((querySet (front u)).store t.toList)) ∧
    L.fragment (L.setQuery u q) = L.fragment u

inductive CanonicalizeError (ε : Type)
  | invalidUrl (e : ε)

def trackingParams : List String :=
  ["utm_source", "utm_medium", "utm_campaign", "utm_term", "utm_content", "gclid", "fbclid"]

/-- The pair is no tracking parameter. -/
def notTracking (p : Pair) : Bool := !trackingParams.contains (String.ofList p.1)

namespace UrlLib

variable {U ε : Type} (L : UrlLib U ε)

def queryPairs (u : U) : List Pair := readQuery (utf8 ((L.query u).getD ""))

/-- The decoded pairs that are kept. -/
def filteredQuery (u : U) : List Pair := (L.queryPairs u).filter notTracking

/-- The URL as `canonicalize_url` leaves it. -/
def canonicalUrl (url : U) : U :=
  let url := if L.path url = "" then L.setPath url "/" else url
  let url := if L.fragment url = some "" then L.setFragment url none else url
  let filtered := L.filteredQuery url
  if filtered = [] then L.setQuery url none
  else L.setQuery url (some (String.ofList (writeQuery filtered)))

def canonicalizeUrl (raw : String) : Except (CanonicalizeError ε) String := do
  let url ← (L.parse raw).mapError .invalidUrl
  return L.toString (L.canonicalUrl url)

end UrlLib

/-! ## Lower case -/

/-- What a character may become in lower case. -/
structure LowerForm (c : Char) (p : Text) : Prop where
  ne_nil : p ≠ []
  ascii : c.toNat < 128 → p = [c.toLower]
  /-- White space comes from itself only. -/
  white : ∀ d ∈ p, isWhiteSpace d = true → d = c

/-- `str::to_lowercase`: each character becomes one or more, which may depend on
    what stands around it, and what has been lowered is not changed again. -/
structure LowercaseLaws (lower : String → String) : Prop where
  chars : ∀ s, ∃ parts, List.Forall₂ LowerForm s.toList parts ∧ (lower s).toList = parts.flatten
  image : ∀ s, ∀ c ∈ (lower s).toList, lower (String.ofList [c]) = String.ofList [c]
  fixed : ∀ s, (∀ c ∈ s.toList, lower (String.ofList [c]) = String.ofList [c]) → lower s = s

/-! ## Identifiers -/

/-- The part of a text before its first colon. -/
def schemeOf (s : String) : Option String :=
  if ':' ∈ s.toList then some (String.ofList (s.toList.takeWhile (· ≠ ':'))) else none

def isSchemeChar (c : Char) : Bool := c.isAlphanum || c == '-' || c == '_'

/-- The scheme is `http` or `https`, in any case. -/
def isHttp (scheme : String) : Bool :=
  decide ((utf8 scheme).map asciiLower = utf8 "http") || decide ((utf8 scheme).map asciiLower = utf8 "https")

namespace Prims

variable {H : Type} (P : Prims H)

def canonicalIdentifier (kind value : String) : String :=
  P.toLowercase (trim kind) ++ ":" ++ trim value

def slug (trimmed : String) : String :=
  String.intercalate "-" (splitWhitespace (P.toLowercase trimmed))

/-- The identifier for a subject, an object or a search, and what kind of value
    it was taken for. -/
def canonicalizeValue {U ε : Type} (L : UrlLib U ε) (value : String) : String × Option String :=
  let trimmed := trim value
  let concept := (P.canonicalIdentifier "concept" (P.slug trimmed), some "concept")
  match schemeOf trimmed with
  | none => concept
  | some scheme =>
    if isHttp scheme then
      match L.canonicalizeUrl trimmed with
      | .ok url => (P.canonicalIdentifier "url" url, some "url")
      | .error _ => concept
    else if scheme ≠ "" ∧ ' ' ∉ trimmed.toList ∧ scheme.toList.all isSchemeChar then
      (P.toLowercase trimmed, none)
    else concept

end Prims

end OpenAgentGraph
