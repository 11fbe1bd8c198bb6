/-
  The neighborhood of a node (`oag-graph`: `subgraph.rs`; `oag-storage`:
  `edges.rs`, `assertions.rs`).

  The rows of a query and the entries of a hash map come in an order of their
  own (`RowOrder`).
-/
import OpenAgentGraph.Graph.Service

namespace OpenAgentGraph

open Lib Repo

variable {H : Type}

structure SubgraphNode (H : Type) where
  node : NodeRow H
  /-- Hops from the root. -/
  distance : Nat

structure Subgraph (H : Type) where
  nodes : List (SubgraphNode H)
  edges : List (EdgeRow H)
  assertions : List (AssertionRow H)

/-- The orders in which the traversal reads rows and entries. -/
structure SubgraphOrders (H : Type) where
  touching : H → Table.RowOrder (EdgeRow H)
  byEdge : H → Table.RowOrder (AssertionRow H)
  nodes : Table.RowOrder (SubgraphNode H)
  edges : Table.RowOrder (EdgeRow H)

def SubgraphNode.id (n : SubgraphNode H) : H := n.node.nodeId

/-- What the traversal has seen, and the nodes that the current hop found. -/
structure Traversal (H : Type) where
  visitedNodes : List (SubgraphNode H)
  visitedEdges : List (EdgeRow H)
  nextFrontier : List H

variable [DecidableEq H]

def Repo.listTouching (order : Table.RowOrder (EdgeRow H)) (g : Projection H) (node : H) :
    List (EdgeRow H) :=
  order.read (g.edges.filter fun e => e.subject = node ∨ e.object = node)

def Repo.listByEdge (order : Table.RowOrder (AssertionRow H)) (g : Projection H) (edgeId : H) :
    List (AssertionRow H) :=
  order.read (g.assertions.filter fun a => a.edgeId = edgeId)

namespace Traversal

variable (g : Projection H) (hop : Nat)

/-- One end of an edge. -/
def visitCandidate (t : Traversal H) (candidate : H) : Traversal H :=
  if Table.hasKey SubgraphNode.id candidate t.visitedNodes then t
  else
    match getNode g candidate with
    | some node =>
      { t with
        visitedNodes := t.visitedNodes ++ [⟨node, hop⟩]
        nextFrontier := t.nextFrontier ++ [candidate] }
    | none => t

def visitEdge (t : Traversal H) (edge : EdgeRow H) : Traversal H :=
  let t := { t with visitedEdges := Table.upsert EdgeRow.edgeId edge (fun _ => edge) t.visitedEdges }
  [edge.subject, edge.object].foldl (visitCandidate g hop) t

/-- The edges of one node, until the cap is reached. -/
def visitEdges (maxNodes : Nat) : Traversal H → List (EdgeRow H) → Traversal H
  | t, [] => t
  | t, edge :: edges =>
    if maxNodes ≤ t.visitedNodes.length then t
    else visitEdges maxNodes (visitEdge g hop t edge) edges

def visitFrontier (orders : SubgraphOrders H) (maxNodes : Nat) (t : Traversal H)
    (frontier : List H) : Traversal H :=
  frontier.foldl (fun t node => visitEdges g hop maxNodes t (listTouching (orders.touching node) g node)) t

/-- The loop over the hops, of which `left` remain and `hop` is the next. -/
def traverse (orders : SubgraphOrders H) (maxNodes : Nat) :
    (left hop : Nat) → Traversal H → Traversal H
  | 0, _, t => t
  | left + 1, hop, t =>
    if maxNodes ≤ t.visitedNodes.length then t
    else
      traverse orders maxNodes left (hop + 1)
        (visitFrontier g hop orders maxNodes { t with nextFrontier := [] } t.nextFrontier)

end Traversal

/-- `get_subgraph`. -/
def Prims.getSubgraph (P : Prims H) (orders : SubgraphOrders H) (g : Projection H) (root : H)
    (depth maxNodes : Nat) : Except (GraphError H) (Subgraph H) :=
  match getNode g root with
  | none => .error (.notFound ("node " ++ P.toHex root))
  | some rootNode =>
    let t := Traversal.traverse g orders maxNodes depth 1 ⟨[⟨rootNode, 0⟩], [], [root]⟩
    let edges := orders.edges.read t.visitedEdges
    .ok
      { nodes := orders.nodes.read t.visitedNodes
        edges
        assertions := edges.flatMap fun e => listByEdge (orders.byEdge e.edgeId) g e.edgeId }

end OpenAgentGraph
