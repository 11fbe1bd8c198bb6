/-
  The rules of a robots.txt (`oag-crawler`: `robots.rs`): `User-agent` and
  `Disallow` directives only.
-/
import OpenAgentGraph.Core
import OpenAgentGraph.Lib.Lines

namespace OpenAgentGraph

open Lib

structure RobotsRules where
  disallow : List String
  deriving DecidableEq

/-- The variables of the loop over the lines: the closed groups, and the names
    and values of the one that is open. -/
structure RobotsParser where
  groups : List (List String × List String) := []
  currentAgents : List String := []
  currentDisallows : List String := []
  inGroup : Bool := false

variable {H : Type} (P : Prims H)

/-- The `user-agent` branch. -/
def RobotsParser.userAgent (st : RobotsParser) (value : String) : RobotsParser :=
  let st :=
    if st.inGroup = true ∧ st.currentDisallows ≠ [] then
      -- a `User-agent` line after `Disallow` lines starts a new group
      ⟨st.groups ++ [(st.currentAgents, st.currentDisallows)], [], [], false⟩
    else st
  { st with currentAgents := st.currentAgents ++ [P.toLowercase value] }

/-- The `disallow` branch. -/
def RobotsParser.disallow (st : RobotsParser) (value : String) : RobotsParser :=
  let st := { st with inGroup := true }
  if value ≠ "" then { st with currentDisallows := st.currentDisallows ++ [value] } else st

/-- One line. -/
def RobotsParser.line (st : RobotsParser) (rawLine : Text) : RobotsParser :=
  let line := trim (String.ofList (rawLine.takeWhile (· ≠ '#')))
  if line = "" then st
  else match splitOnce ':' line.toList with
    | none => st
    | some (key, value) =>
      let key := P.toLowercase (trim (String.ofList key))
      let value := trim (String.ofList value)
      if key = "user-agent" then st.userAgent P value
      else if key = "disallow" then st.disallow value
      else st

/-- The groups after the last line. -/
def RobotsParser.finish (st : RobotsParser) : List (List String × List String) :=
  if st.currentAgents ≠ [] then st.groups ++ [(st.currentAgents, st.currentDisallows)] else st.groups

/-- The first group that names an agent. -/
def groupNaming (groups : List (List String × List String)) (ua : String) :
    Option (List String × List String) :=
  groups.find? fun group => group.1.any (· == ua)

namespace RobotsRules

def parse (body userAgent : String) : RobotsRules :=
  let groups := ((lines body.toList).foldl (RobotsParser.line P) {}).finish
  -- prefer a group naming our exact user-agent; fall back to `*`
  let ua := P.toLowercase userAgent
  ⟨(((groupNaming groups ua).or (groupNaming groups "*")).map (·.2)).getD []⟩

def allowAll : RobotsRules := ⟨[]⟩

def isAllowed (rules : RobotsRules) (path : String) : Bool :=
  !rules.disallow.any fun rule => rule.toList.isPrefixOf path.toList

end RobotsRules

end OpenAgentGraph
