/-
  The gravity level of a peer (`oag-sync`: `gravity.rs`; `oag-storage`:
  `node_gravity.rs`), under concurrent calls.

  `get_or_generate` reads, and where it finds nothing it rolls a level, inserts
  it unless one is there, and reads again.  Each access is atomic, and between
  two of them other calls make theirs: of the loops of this process, or of
  another process that has opened the database.
-/
import OpenAgentGraph.Storage.Repo

namespace OpenAgentGraph

open Lib

variable {H : Type} [DecidableEq H]

structure NodeGravityRow (H : Type) where
  peerId : H
  /-- The bits of an `f32`; the column holds it as an `f64`, which is exact. -/
  gravityLevel : UInt32
  generatedAt : Int64

/-- `node_gravity::get` -/
def getGravity (t : List (NodeGravityRow H)) (peerId : H) : Option UInt32 :=
  (Table.find NodeGravityRow.peerId peerId t).map NodeGravityRow.gravityLevel

/-- `node_gravity::insert_if_missing` -/
def insertGravity (t : List (NodeGravityRow H)) (peerId : H) (gravityLevel : UInt32)
    (generatedAt : Int64) : List (NodeGravityRow H) :=
  Table.insertOrIgnore NodeGravityRow.peerId ⟨peerId, gravityLevel, generatedAt⟩ t

/-- How far a call of `get_or_generate` is. -/
inductive GravityCall (H : Type)
  | started (peerId : H) (now : Int64)
  | missed (peerId : H) (now : Int64)
  | inserted (peerId : H) (rolled : UInt32)
  | returned (peerId : H) (level : UInt32)
  /-- An access to the database failed, or the process ended. -/
  | failed

structure GravityState (H : Type) where
  rows : List (NodeGravityRow H)
  /-- The calls that were made, in the order in which they started. -/
  calls : List (GravityCall H)

inductive GravityOp (H : Type)
  | call (peerId : H) (now : Int64)
  /-- The next access of a call; `roll` is the level that it rolls, if it does. -/
  | access (i : ℕ) (roll : UInt32)
  | fail (i : ℕ)

/-- One access of a call, and how far the call is after it. -/
def GravityCall.access (t : List (NodeGravityRow H)) (roll : UInt32) :
    GravityCall H → List (NodeGravityRow H) × GravityCall H
  | started peerId now =>
    match getGravity t peerId with
    | some level => (t, .returned peerId level)
    | none => (t, .missed peerId now)
  | missed peerId now => (insertGravity t peerId roll now, .inserted peerId roll)
  | inserted peerId rolled => (t, .returned peerId ((getGravity t peerId).getD rolled))
  | returned peerId level => (t, .returned peerId level)
  | failed => (t, .failed)

def GravityCall.fail : GravityCall H → GravityCall H
  | returned peerId level => .returned peerId level
  | _ => .failed

def gravityStep (s : GravityState H) : GravityOp H → GravityState H
  | .call peerId now => { s with calls := s.calls ++ [.started peerId now] }
  | .access i roll =>
    match s.calls[i]? with
    | some c => ⟨(c.access s.rows roll).1, s.calls.set i (c.access s.rows roll).2⟩
    | none => s
  | .fail i =>
    match s.calls[i]? with
    | some c => { s with calls := s.calls.set i c.fail }
    | none => s

def gravityRun (s : GravityState H) (ops : List (GravityOp H)) : GravityState H :=
  ops.foldl gravityStep s

end OpenAgentGraph
