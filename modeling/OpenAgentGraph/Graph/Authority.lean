/-
  Authority of nodes, a PageRank over the edges (`oag-graph`: `authority.rs`),
  with exact rationals for the scores.

  A hash map is a table with a key; `out_edges` is read in an order of its own
  (`RowOrder`), the set of nodes in ascending order.  A result `none` says that
  the code panics, at a score that the map does not hold.
-/
import OpenAgentGraph.Lib.Scatter
import OpenAgentGraph.Lib.Table

namespace OpenAgentGraph

open Lib Lib.Scatter

/-- `DAMPING`. -/
def damping : ℚ := 85 / 100

/-- `MAX_ITERATIONS`. -/
def maxIterations : Nat := 50

/-- `CONVERGENCE_EPSILON`. -/
def convergenceEpsilon : ℚ := 1 / 10 ^ 6

variable {H : Type} [LinearOrder H]

/-- `nodes`. -/
def rankedNodes (edges : List (H × H)) : List H :=
  (edges.foldl (fun nodes e => insert e.2 (insert e.1 nodes)) (∅ : Finset H)).sort

/-- `out_edges`. -/
def outEdges (edges : List (H × H)) : List (H × List H) :=
  edges.foldl (fun m e => Table.upsert Prod.fst (e.1, [e.2]) (fun y => (y.1, y.2 ++ [e.2])) m) []

def isDangling (outs : List (H × List H)) (id : H) : Bool :=
  ((Table.find Prod.fst id outs).map fun y => y.2.isEmpty).getD true

def danglingMass (nodes : List H) (outs : List (H × List H)) (scores : List (H × ℚ)) : Option ℚ := do
  let held ← (nodes.filter (isDangling outs)).mapM (amount scores)
  return held.sum

/-- What the targets of one source receive. -/
def spread (scores newScores : List (H × ℚ)) (source : H × List H) : Option (List (H × ℚ)) :=
  if source.2.isEmpty then some newScores
  else do
    let score ← amount scores source.1
    let share := damping * score / source.2.length
    source.2.foldlM (addAt share) newScores

/-- The body of the loop: the scores of the next iteration. -/
def powerStep (order : Table.RowOrder (H × List H)) (nodes : List H) (outs : List (H × List H))
    (scores : List (H × ℚ)) : Option (List (H × ℚ)) := do
  let mass ← danglingMass nodes outs scores
  let base := (1 - damping) / nodes.length + damping * mass / nodes.length
  (order.read outs).foldlM (spread scores) (tabulate nodes fun _ => base)

/-- How far an iteration moved the scores. -/
def movement (nodes : List H) (scores newScores : List (H × ℚ)) : Option ℚ := do
  let moved ← nodes.mapM fun id => do
    let new ← amount newScores id
    let old ← amount scores id
    return |new - old|
  return moved.sum

/-- The loop, after `run` iterations, with `left` more allowed. -/
def powerLoop (order : Table.RowOrder (H × List H)) (nodes : List H) (outs : List (H × List H)) :
    (left run : Nat) → List (H × ℚ) → Option (List (H × ℚ) × Nat)
  | 0, run, scores => some (scores, run)
  | left + 1, run, scores => do
    let newScores ← powerStep order nodes outs scores
    let diff ← movement nodes scores newScores
    if diff < convergenceEpsilon then return (newScores, run + 1)
    else powerLoop order nodes outs left (run + 1) newScores

def initialScores (nodes : List H) : List (H × ℚ) := tabulate nodes fun _ => 1 / nodes.length

/-- `pagerank`. -/
def pagerank (order : Table.RowOrder (H × List H)) (edges : List (H × H)) :
    Option (List (H × ℚ) × Nat) :=
  let nodes := rankedNodes edges
  if nodes.length = 0 then some ([], 0)
  else powerLoop order nodes (outEdges edges) maxIterations 0 (initialScores nodes)

/-- The scores after `k` iterations. -/
def scoresAfter (order : Table.RowOrder (H × List H)) (edges : List (H × H)) : Nat → Option (List (H × ℚ))
  | 0 => some (initialScores (rankedNodes edges))
  | k + 1 => do
    let scores ← scoresAfter order edges k
    powerStep order (rankedNodes edges) (outEdges edges) scores

end OpenAgentGraph
