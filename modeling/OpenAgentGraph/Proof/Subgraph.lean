/-
  The neighborhood is a breadth-first search, wherever the cap cuts it.
-/
import OpenAgentGraph.Graph.Subgraph
import OpenAgentGraph.Lib.Distance
import OpenAgentGraph.Proof.Database

namespace OpenAgentGraph

open Lib Lib.Distance Repo
open scoped List

variable {H : Type} [DecidableEq H]

/-! ## The graph of the edges -/

/-- Two nodes with an edge between them, in either direction. -/
def Projection.graph (g : Projection H) : SimpleGraph H :=
  SimpleGraph.fromRel fun a b => ∃ e ∈ g.edges, e.subject = a ∧ e.object = b

/-- What the tables promise: the ends of an edge exist, and its id is a key. -/
structure EdgesStored (g : Projection H) : Prop where
  ends : ∀ e ∈ g.edges, hasNode g e.subject = true ∧ hasNode g e.object = true
  keys : (g.edges.map EdgeRow.edgeId).Nodup

/-- `e` is an edge of `u`. -/
def Touches (e : EdgeRow H) (u : H) : Prop := e.subject = u ∨ e.object = u

variable {g : Projection H} {orders : SubgraphOrders H} {root u v : H} {j maxNodes : Nat}
  {e e' : EdgeRow H} {t t' : Traversal H}

omit [DecidableEq H] in
theorem edist_end_le (he : e ∈ g.edges) (hu : Touches e u) (hv : Touches e v)
    (hj : g.graph.edist root u = j) : g.graph.edist root v ≤ (j + 1 : ℕ) := by
  by_cases huv : u = v
  · subst huv
    rw [hj]
    exact_mod_cast Nat.le_succ j
  · have hadj : g.graph.Adj u v := by
      refine ⟨huv, ?_⟩
      rcases hu with rfl | rfl <;> rcases hv with rfl | rfl
      · exact absurd rfl huv
      · exact Or.inl ⟨e, he, rfl, rfl⟩
      · exact Or.inr ⟨e, he, rfl, rfl⟩
      · exact absurd rfl huv
    exact edist_le_succ hadj hj.le

omit [DecidableEq H] in
theorem exists_edge_of_adj (h : g.graph.Adj u v) : ∃ e ∈ g.edges, Touches e u ∧ Touches e v := by
  obtain ⟨-, ⟨e, he, hs, ho⟩ | ⟨e, he, hs, ho⟩⟩ := h
  · exact ⟨e, he, Or.inl hs, Or.inr ho⟩
  · exact ⟨e, he, Or.inr ho, Or.inl hs⟩

theorem mem_listTouching {order : Table.RowOrder (EdgeRow H)} :
    e ∈ listTouching order g u ↔ e ∈ g.edges ∧ Touches e u := by
  rw [listTouching, (order.perm _).mem_iff, List.mem_filter, decide_eq_true_eq]
  rfl

/-! ## One hop -/

/-- The traversal has the node. -/
def Seen (t : Traversal H) (v : H) : Prop := ∃ n ∈ t.visitedNodes, n.id = v

/-- What holds during the `j`-th hop, wherever the cap cuts it. -/
structure Sound (g : Projection H) (root : H) (maxNodes j : Nat) (t : Traversal H) : Prop where
  nodup : (t.visitedNodes.map SubgraphNode.id).Nodup
  stored : ∀ n ∈ t.visitedNodes, getNode g n.id = some n.node
  exact_distance : ∀ n ∈ t.visitedNodes, g.graph.edist root n.id = n.distance
  near : ∀ n ∈ t.visitedNodes, n.distance ≤ j
  closer : ∀ v, g.graph.edist root v < j → Seen t v
  frontier : ∀ v, v ∈ t.nextFrontier ↔ Seen t v ∧ g.graph.edist root v = j
  edges : ∀ e ∈ t.visitedEdges, e ∈ g.edges ∧ Seen t e.subject ∧ Seen t e.object
  cap : t.visitedNodes.length ≤ max 1 maxNodes

/-- A step of a hop only adds. -/
structure Grows (t t' : Traversal H) : Prop where
  nodes : t.visitedNodes <+: t'.visitedNodes
  edges : t.visitedEdges ⊆ t'.visitedEdges

omit [DecidableEq H] in
theorem Grows.refl (t : Traversal H) : Grows t t := ⟨List.prefix_rfl, List.Subset.refl _⟩

omit [DecidableEq H] in
theorem Grows.trans {t'' : Traversal H} (h : Grows t t') (h' : Grows t' t'') : Grows t t'' :=
  ⟨h.nodes.trans h'.nodes, List.Subset.trans h.edges h'.edges⟩

omit [DecidableEq H] in
theorem Seen.grows (h : Seen t v) (hg : Grows t t') : Seen t' v := by
  obtain ⟨n, hn, hv⟩ := h
  exact ⟨n, hg.nodes.subset hn, hv⟩

open Traversal

theorem visitCandidate_seen {hop : Nat} (h : Seen t v) : visitCandidate g hop t v = t := by
  unfold visitCandidate
  rw [if_pos (Table.hasKey_iff.2 h)]

/-- A node that is new in this hop is one hop further than the last. -/
theorem visitCandidate_new (hs : Sound g root maxNodes j t) (hstored : hasNode g v = true)
    (hnear : g.graph.edist root v ≤ j) (hnew : ¬ Seen t v)
    (hroom : t.visitedNodes.length < max 1 maxNodes) :
    Sound g root maxNodes j (visitCandidate g j t v) ∧ Grows t (visitCandidate g j t v) ∧
    Seen (visitCandidate g j t v) v := by
  have hdist : g.graph.edist root v = j :=
    le_antisymm hnear (not_lt.1 fun hlt => hnew (hs.closer v hlt))
  obtain ⟨node, hnode⟩ := Option.isSome_iff_exists.1 (Table.find_isSome.2 (Table.hasKey_iff.1 hstored))
  obtain ⟨-, rfl⟩ := Table.find_eq_some hnode
  have heq : visitCandidate g j t node.nodeId = { t with
      visitedNodes := t.visitedNodes ++ [⟨node, j⟩]
      nextFrontier := t.nextFrontier ++ [node.nodeId] } := by
    unfold visitCandidate getNode
    rw [if_neg fun h => hnew (Table.hasKey_iff.1 h), hnode]
  have hgrows : Grows t (visitCandidate g j t node.nodeId) := by
    rw [heq]
    exact ⟨List.prefix_append _ _, List.Subset.refl _⟩
  have hseen : ∀ w, Seen (visitCandidate g j t node.nodeId) w ↔ Seen t w ∨ w = node.nodeId := by
    intro w
    rw [heq]
    simp [Seen, SubgraphNode.id, or_and_right, exists_or, eq_comm]
  refine ⟨⟨?_, ?_, ?_, ?_, ?_, ?_, ?_, ?_⟩, hgrows, (hseen _).2 (Or.inr rfl)⟩
  · rw [heq, List.map_append, List.nodup_append]
    refine ⟨hs.nodup, List.nodup_singleton _, ?_⟩
    rintro a ha b hb rfl
    obtain ⟨n, hn, rfl⟩ := List.mem_map.1 ha
    exact hnew ⟨n, hn, List.mem_singleton.1 hb⟩
  · rw [heq]
    exact List.forall_mem_append.2 ⟨hs.stored, List.forall_mem_singleton.2 hnode⟩
  · rw [heq]
    exact List.forall_mem_append.2 ⟨hs.exact_distance, List.forall_mem_singleton.2 hdist⟩
  · rw [heq]
    exact List.forall_mem_append.2 ⟨hs.near, List.forall_mem_singleton.2 le_rfl⟩
  · intro w hw
    exact (hs.closer w hw).grows hgrows
  · intro w
    rw [hseen, heq, List.mem_append, List.mem_singleton, hs.frontier]
    constructor
    · rintro (⟨hw, hd⟩ | rfl)
      · exact ⟨Or.inl hw, hd⟩
      · exact ⟨Or.inr rfl, hdist⟩
    · rintro ⟨hw | rfl, hd⟩
      · exact Or.inl ⟨hw, hd⟩
      · exact Or.inr rfl
  · intro e he
    rw [heq] at he
    obtain ⟨hstored, hsub, hobj⟩ := hs.edges e he
    exact ⟨hstored, hsub.grows hgrows, hobj.grows hgrows⟩
  · rw [heq, List.length_append, List.length_singleton]
    omega

/-- A candidate that is at most one hop further is seen afterwards, and costs
    one place at most. -/
theorem visitCandidate_spec (hs : Sound g root maxNodes j t) (hstored : hasNode g v = true)
    (hnear : g.graph.edist root v ≤ j) (hroom : t.visitedNodes.length < max 1 maxNodes) :
    Sound g root maxNodes j (visitCandidate g j t v) ∧ Grows t (visitCandidate g j t v) ∧
    Seen (visitCandidate g j t v) v := by
  by_cases hseen : Seen t v
  · rw [visitCandidate_seen hseen]
    exact ⟨hs, .refl t, hseen⟩
  · exact visitCandidate_new hs hstored hnear hseen hroom

/-- One end of the edge is seen already, so the edge costs one place at most. -/
theorem visitEnds_spec (hs : Sound g root maxNodes (j + 1) t) (hstored : EdgesStored g)
    (he : e ∈ g.edges) (hu : Touches e u) (hj : g.graph.edist root u = j)
    (hroom : t.visitedNodes.length < maxNodes) :
    ∃ t', [e.subject, e.object].foldl (visitCandidate g (j + 1)) t = t' ∧
      Sound g root maxNodes (j + 1) t' ∧ Grows t t' ∧ Seen t' e.subject ∧ Seen t' e.object := by
  have hroom' : t.visitedNodes.length < max 1 maxNodes := lt_max_of_lt_right hroom
  obtain ⟨hsub, hobj⟩ := hstored.ends e he
  have hseen : Seen t u := hs.closer u (by rw [hj]; exact_mod_cast Nat.lt_succ_self j)
  rcases hu with rfl | rfl
  · rw [List.foldl_cons, visitCandidate_seen hseen]
    obtain ⟨hs', hgrows, hobj'⟩ := visitCandidate_spec hs hobj
      (edist_end_le he (Or.inl rfl) (Or.inr rfl) hj) hroom'
    exact ⟨_, rfl, hs', hgrows, hseen.grows hgrows, hobj'⟩
  · obtain ⟨hs', hgrows, hsub'⟩ := visitCandidate_spec hs hsub
      (edist_end_le he (Or.inr rfl) (Or.inl rfl) hj) hroom'
    rw [List.foldl_cons, List.foldl_cons, visitCandidate_seen (hseen.grows hgrows)]
    exact ⟨_, rfl, hs', hgrows, hsub', hseen.grows hgrows⟩

theorem foldl_visitCandidate_edges (hop : Nat) (edges : List (EdgeRow H)) (cs : List H)
    (t : Traversal H) :
    cs.foldl (visitCandidate g hop) { t with visitedEdges := edges }
      = { cs.foldl (visitCandidate g hop) t with visitedEdges := edges } := by
  induction cs generalizing t with
  | nil => rfl
  | cons c cs ih =>
    have hone : visitCandidate g hop { t with visitedEdges := edges } c
        = { visitCandidate g hop t c with visitedEdges := edges } := by
      simp only [visitCandidate]
      split
      · rfl
      · split <;> rfl
    rw [List.foldl_cons, List.foldl_cons, hone, ih]

/-- The edge itself is recorded, and no other is lost. -/
theorem mem_upsert_edge (hstored : EdgesStored g) (he : e ∈ g.edges) {edges : List (EdgeRow H)}
    (hedges : ∀ e' ∈ edges, e' ∈ g.edges) :
    e' ∈ Table.upsert EdgeRow.edgeId e (fun _ => e) edges ↔ e' ∈ edges ∨ e' = e := by
  have hkey : ∀ {z : EdgeRow H}, z ∈ edges → z.edgeId = e.edgeId → z = e := fun hz hk =>
    List.inj_on_of_nodup_map hstored.keys (hedges _ hz) he hk
  rw [Table.mem_upsert]
  constructor
  · rintro (⟨z, hz, rfl⟩ | ⟨rfl, -⟩)
    · split
      · exact Or.inr rfl
      · exact Or.inl hz
    · exact Or.inr rfl
  · rintro (he' | rfl)
    · refine Or.inl ⟨e', he', ?_⟩
      split
      · rename_i hk
        exact hkey he' hk
      · rfl
    · by_cases hheld : ∃ z ∈ edges, z.edgeId = e'.edgeId
      · obtain ⟨z, hz, hk⟩ := hheld
        exact Or.inl ⟨z, hz, by rw [if_pos hk]⟩
      · push Not at hheld
        exact Or.inr ⟨rfl, hheld⟩

theorem visitEdge_spec (hs : Sound g root maxNodes (j + 1) t) (hstored : EdgesStored g)
    (he : e ∈ g.edges) (hu : Touches e u) (hj : g.graph.edist root u = j)
    (hroom : t.visitedNodes.length < maxNodes) :
    Sound g root maxNodes (j + 1) (visitEdge g (j + 1) t e) ∧
    Grows t (visitEdge g (j + 1) t e) ∧ e ∈ (visitEdge g (j + 1) t e).visitedEdges := by
  obtain ⟨t', ht', hs', hgrows, hsub, hobj⟩ := visitEnds_spec hs hstored he hu hj hroom
  have hedges : ∀ e', e' ∈ Table.upsert EdgeRow.edgeId e (fun _ => e) t.visitedEdges ↔
      e' ∈ t.visitedEdges ∨ e' = e := fun e' =>
    mem_upsert_edge hstored he fun e' he' => (hs.edges e' he').1
  unfold visitEdge
  rw [foldl_visitCandidate_edges, ht']
  refine ⟨⟨hs'.nodup, hs'.stored, hs'.exact_distance, hs'.near, hs'.closer, hs'.frontier, ?_,
    hs'.cap⟩, ⟨hgrows.nodes, fun e' he' => (hedges e').2 (Or.inl he')⟩, (hedges e).2 (Or.inr rfl)⟩
  intro e' he'
  rcases (hedges e').1 he' with he' | rfl
  · obtain ⟨hin, hsub', hobj'⟩ := hs.edges e' he'
    exact ⟨hin, (hsub'.grows hgrows : Seen t' _), (hobj'.grows hgrows : Seen t' _)⟩
  · exact ⟨he, hsub, hobj⟩

/-- The edges of one node: all of them, or the cap is reached. -/
theorem visitEdges_spec (hs : Sound g root maxNodes (j + 1) t) (hstored : EdgesStored g)
    (hj : g.graph.edist root u = j) {es : List (EdgeRow H)}
    (hes : ∀ e ∈ es, e ∈ g.edges ∧ Touches e u) :
    Sound g root maxNodes (j + 1) (visitEdges g (j + 1) maxNodes t es) ∧
    Grows t (visitEdges g (j + 1) maxNodes t es) ∧
    (maxNodes ≤ (visitEdges g (j + 1) maxNodes t es).visitedNodes.length ∨
      ∀ e ∈ es, e ∈ (visitEdges g (j + 1) maxNodes t es).visitedEdges) := by
  induction es generalizing t with
  | nil => exact ⟨hs, .refl t, Or.inr fun e he => absurd he List.not_mem_nil⟩
  | cons e es ih =>
    rw [visitEdges]
    split
    · rename_i hfull
      exact ⟨hs, .refl t, Or.inl hfull⟩
    · rename_i hroom
      obtain ⟨⟨he, hu⟩, hes⟩ := List.forall_mem_cons.1 hes
      obtain ⟨hs₁, hgrows₁, he₁⟩ := visitEdge_spec hs hstored he hu hj (not_le.1 hroom)
      obtain ⟨hs₂, hgrows₂, hall⟩ := ih hs₁ hes
      refine ⟨hs₂, hgrows₁.trans hgrows₂, hall.imp_right fun hall => ?_⟩
      exact List.forall_mem_cons.2 ⟨hgrows₂.edges he₁, hall⟩

/-- A whole hop. -/
theorem visitFrontier_spec (orders : SubgraphOrders H) (hstored : EdgesStored g) {frontier : List H}
    (hs : Sound g root maxNodes (j + 1) t) (hfrontier : ∀ u ∈ frontier, g.graph.edist root u = j) :
    Sound g root maxNodes (j + 1) (visitFrontier g (j + 1) orders maxNodes t frontier) ∧
    Grows t (visitFrontier g (j + 1) orders maxNodes t frontier) ∧
    (maxNodes ≤ (visitFrontier g (j + 1) orders maxNodes t frontier).visitedNodes.length ∨
      ∀ u ∈ frontier, ∀ e ∈ g.edges, Touches e u →
        e ∈ (visitFrontier g (j + 1) orders maxNodes t frontier).visitedEdges) := by
  induction frontier generalizing t with
  | nil => exact ⟨hs, .refl t, Or.inr fun u hu => absurd hu List.not_mem_nil⟩
  | cons u frontier ih =>
    obtain ⟨hu, hfrontier⟩ := List.forall_mem_cons.1 hfrontier
    obtain ⟨hs₁, hgrows₁, hall₁⟩ := visitEdges_spec hs hstored hu
      fun e (he : e ∈ listTouching (orders.touching u) g u) => mem_listTouching.1 he
    obtain ⟨hs₂, hgrows₂, hall₂⟩ := ih hs₁ hfrontier
    refine ⟨hs₂, hgrows₁.trans hgrows₂, ?_⟩
    rcases hall₂ with hfull | hall₂
    · exact Or.inl hfull
    rcases hall₁ with hfull | hall₁
    · exact Or.inl (hfull.trans hgrows₂.nodes.length_le)
    · refine Or.inr (List.forall_mem_cons.2 ⟨fun e he hue => ?_, hall₂⟩)
      exact hgrows₂.edges (hall₁ e (mem_listTouching.2 ⟨he, hue⟩))

/-! ## All hops -/

/-- What the traversal has after `j` hops that the cap did not cut. -/
structure Complete (g : Projection H) (root : H) (j : Nat) (t : Traversal H) : Prop where
  nodes : ∀ v, g.graph.edist root v ≤ j → Seen t v
  edges : ∀ e ∈ g.edges, ∀ u, Touches e u → g.graph.edist root u < j → e ∈ t.visitedEdges

theorem Sound.next (hs : Sound g root maxNodes j t) (hc : Complete g root j t) :
    Sound g root maxNodes (j + 1) { t with nextFrontier := [] } where
  nodup := hs.nodup
  stored := hs.stored
  exact_distance := hs.exact_distance
  near n hn := (hs.near n hn).trans (Nat.le_succ j)
  closer v hv := by
    have hlt : g.graph.edist root v < (j : ℕ∞) + 1 := by exact_mod_cast hv
    exact hc.nodes v (Order.le_of_lt_add_one hlt)
  frontier v := by
    constructor
    · intro hv; cases hv
    · rintro ⟨⟨n, hn, rfl⟩, hd⟩
      have hle := hs.near n hn
      rw [hs.exact_distance n hn] at hd
      have : n.distance = j + 1 := by exact_mod_cast hd
      omega
  edges := hs.edges
  cap := hs.cap

theorem Complete.next (hc : Complete g root j t) (hs : Sound g root maxNodes j t)
    (hs' : Sound g root maxNodes (j + 1) t') (hgrows : Grows t t')
    (hall : ∀ u ∈ t.nextFrontier, ∀ e ∈ g.edges, Touches e u → e ∈ t'.visitedEdges) :
    Complete g root (j + 1) t' := by
  have hedges : ∀ e ∈ g.edges, ∀ u, Touches e u → g.graph.edist root u < (j + 1 : ℕ) →
      e ∈ t'.visitedEdges := by
    intro e he u hu hlt
    have hle : g.graph.edist root u ≤ j :=
      Order.le_of_lt_add_one (by exact_mod_cast hlt)
    rcases hle.lt_or_eq with hlt | heq
    · exact hgrows.edges (hc.edges e he u hu hlt)
    · exact hall u ((hs.frontier u).2 ⟨hc.nodes u hle, heq⟩) e he hu
  refine ⟨fun v hv => ?_, hedges⟩
  rcases hv.lt_or_eq with hlt | heq
  · exact (hc.nodes v (Order.le_of_lt_add_one (by exact_mod_cast hlt))).grows hgrows
  · -- the last step of a shortest walk is an edge of the last hop
    obtain ⟨u, hadj, hu⟩ := exists_adj_of_edist heq
    obtain ⟨e, he, hue, hve⟩ := exists_edge_of_adj hadj
    obtain ⟨-, hsub, hobj⟩ := hs'.edges e (hedges e he u hue (by
      rw [hu]
      exact_mod_cast Nat.lt_succ_self j))
    rcases hve with rfl | rfl
    · exact hsub
    · exact hobj

theorem traverse_spec (orders : SubgraphOrders H) (hstored : EdgesStored g) (left : Nat)
    (hs : Sound g root maxNodes j t)
    (hc : t.visitedNodes.length < maxNodes → Complete g root j t) :
    ∃ j', j' ≤ j + left ∧
      Sound g root maxNodes j' (Traversal.traverse g orders maxNodes left (j + 1) t) ∧
      ((Traversal.traverse g orders maxNodes left (j + 1) t).visitedNodes.length < maxNodes →
        Complete g root (j + left) (Traversal.traverse g orders maxNodes left (j + 1) t)) := by
  induction left generalizing j t with
  | zero => exact ⟨j, le_rfl, hs, hc⟩
  | succ left ih =>
    rw [Traversal.traverse]
    split
    · rename_i hfull
      exact ⟨j, by omega, hs, fun hroom => absurd hroom (not_lt.2 hfull)⟩
    · rename_i hroom
      have hc := hc (not_le.1 hroom)
      obtain ⟨hs₁, hgrows, hall⟩ := visitFrontier_spec orders hstored (hs.next hc)
        fun u hu => ((hs.frontier u).1 hu).2
      obtain ⟨j', hj', hs', hc'⟩ := ih hs₁ fun hroom₁ => hc.next hs hs₁ ⟨hgrows.nodes, hgrows.edges⟩
        (hall.resolve_left (not_le.2 hroom₁))
      refine ⟨j', by omega, hs', fun hroom' => ?_⟩
      rw [show j + (left + 1) = j + 1 + left by omega]
      exact hc' hroom'

theorem sound_root {node : NodeRow H} (hnode : getNode g root = some node) (maxNodes : Nat) :
    Sound g root maxNodes 0 ⟨[⟨node, 0⟩], [], [root]⟩ := by
  obtain ⟨-, rfl⟩ := Table.find_eq_some hnode
  have hself : g.graph.edist node.nodeId node.nodeId = ((0 : ℕ) : ℕ∞) := SimpleGraph.edist_self
  refine ⟨List.nodup_singleton _, ?_, ?_, ?_, ?_, ?_, ?_, ?_⟩
  · rintro n hn
    rw [List.mem_singleton.1 hn]
    exact hnode
  · rintro n hn
    rw [List.mem_singleton.1 hn]
    exact hself
  · rintro n hn
    rw [List.mem_singleton.1 hn]
  · intro v hv
    exact absurd hv (by simp)
  · intro v
    rw [List.mem_singleton]
    constructor
    · rintro rfl
      exact ⟨⟨_, List.mem_singleton_self _, rfl⟩, hself⟩
    · rintro ⟨⟨n, hn, rfl⟩, -⟩
      rw [List.mem_singleton.1 hn]
      rfl
  · intro e he; cases he
  · exact le_max_left _ _

theorem complete_root {node : NodeRow H} (hnode : getNode g root = some node) :
    Complete g root 0 ⟨[⟨node, 0⟩], [], [root]⟩ := by
  obtain ⟨-, rfl⟩ := Table.find_eq_some hnode
  refine ⟨fun v hv => ?_, fun e _ u _ hlt => absurd hlt (by simp)⟩
  have hzero : g.graph.edist node.nodeId v = 0 := by simpa using hv
  exact ⟨_, List.mem_singleton_self _, SimpleGraph.edist_eq_zero_iff.1 hzero⟩

/-- **The neighborhood is a bounded breadth-first search**: no more nodes than
    the cap, each once and with its distance from the root; edges between them
    alone; and, below the cap, all nodes within the depth and all edges of the
    nodes before the last hop. -/
theorem getSubgraph_bfs (P : Prims H) (orders : SubgraphOrders H) (g : Projection H)
    (hstored : EdgesStored g) (root : H) (hroot : hasNode g root = true) (depth maxNodes : Nat) :
    ∃ sub, P.getSubgraph orders g root depth maxNodes = .ok sub ∧
      sub.nodes.length ≤ max 1 maxNodes ∧ (sub.nodes.map SubgraphNode.id).Nodup ∧
      (∀ n ∈ sub.nodes, getNode g n.id = some n.node ∧ g.graph.edist root n.id = n.distance ∧
        n.distance ≤ depth) ∧
      (∀ e ∈ sub.edges, e ∈ g.edges ∧ (∃ n ∈ sub.nodes, n.id = e.subject) ∧
        ∃ n ∈ sub.nodes, n.id = e.object) ∧
      (sub.nodes.length < maxNodes →
        (∀ v, g.graph.edist root v ≤ depth → ∃ n ∈ sub.nodes, n.id = v) ∧
        ∀ e ∈ g.edges, ∀ u, Touches e u → g.graph.edist root u < depth → e ∈ sub.edges) := by
  obtain ⟨node, hnode⟩ := Option.isSome_iff_exists.1 (Table.find_isSome.2 (Table.hasKey_iff.1 hroot))
  have hnode : getNode g root = some node := hnode
  obtain ⟨j, hj, hs, hc⟩ := traverse_spec orders hstored depth
    (sound_root hnode maxNodes) fun _ => complete_root hnode
  have hperm := orders.nodes.perm (Traversal.traverse g orders maxNodes depth 1
    ⟨[⟨node, 0⟩], [], [root]⟩).visitedNodes
  have hseen : ∀ v, Seen (Traversal.traverse g orders maxNodes depth 1 ⟨[⟨node, 0⟩], [], [root]⟩) v →
      ∃ n ∈ orders.nodes.read (Traversal.traverse g orders maxNodes depth 1
        ⟨[⟨node, 0⟩], [], [root]⟩).visitedNodes, n.id = v := by
    rintro v ⟨n, hn, hv⟩
    exact ⟨n, hperm.mem_iff.2 hn, hv⟩
  rw [zero_add] at hs hc hj
  unfold Prims.getSubgraph
  rw [hnode]
  refine ⟨_, rfl, ?_, ?_, ?_, ?_, ?_⟩
  · rw [hperm.length_eq]
    exact hs.cap
  · exact (hperm.map SubgraphNode.id).nodup_iff.2 hs.nodup
  · intro n hn
    have hn := hperm.mem_iff.1 hn
    exact ⟨hs.stored n hn, hs.exact_distance n hn, (hs.near n hn).trans hj⟩
  · intro e he
    obtain ⟨hin, hsub, hobj⟩ := hs.edges e ((orders.edges.perm _).mem_iff.1 he)
    exact ⟨hin, hseen _ hsub, hseen _ hobj⟩
  · intro hroom
    rw [hperm.length_eq] at hroom
    have hc := hc hroom
    rw [zero_add] at hc
    refine ⟨fun v hv => hseen v (hc.nodes v hv), fun e he u hu hlt => ?_⟩
    exact (orders.edges.perm _).mem_iff.2 (hc.edges e he u hu hlt)

/-- Two nodes and two edges between them, the one a loop. -/
def loopGraph : Projection Bytes :=
  { Projection.empty with
    nodes := [⟨[1], "concept", "concept:a", none, none, none, .emptyObj, 0⟩,
      ⟨[2], "concept", "concept:b", none, none, none, .emptyObj, 0⟩]
    edges := [⟨[8], [1], "RELATED_TO", [1], 0⟩, ⟨[9], [2], "RELATED_TO", [1], 0⟩] }

theorem loopGraph_stored : EdgesStored loopGraph := ⟨by decide, by decide⟩

theorem getSubgraph_bfs_loop : ∃ sub, idealOpen.getSubgraph ⟨fun _ => ⟨id, fun _ => .refl _⟩,
    fun _ => ⟨id, fun _ => .refl _⟩, ⟨id, fun _ => .refl _⟩, ⟨id, fun _ => .refl _⟩⟩
    loopGraph [1] 1 10 = .ok sub ∧ sub.nodes.length ≤ 10 :=
  have ⟨sub, hsub, hlen, _⟩ := getSubgraph_bfs idealOpen ⟨fun _ => ⟨id, fun _ => .refl _⟩,
    fun _ => ⟨id, fun _ => .refl _⟩, ⟨id, fun _ => .refl _⟩, ⟨id, fun _ => .refl _⟩⟩
    loopGraph loopGraph_stored [1] (by decide) 1 10
  ⟨sub, hsub, hlen⟩

/-! ## Reachable stores -/

theorem EdgesStored.apply (h : EdgesStored g) {e : Effect H} (hadm : e.Admissible g) :
    EdgesStored (e.apply g) := by
  have hgrow : ∀ {id : H}, hasNode g id = true → hasNode (e.apply g) id = true := by
    intro id hid
    obtain ⟨y, hy, hk⟩ := Table.hasKey_iff.1 hid
    exact Table.hasKey_iff.2 ⟨y, mem_foldl_addNode hy, hk⟩
  refine ⟨fun r hr => ?_, nodup_addAll e.edges h.keys⟩
  rcases mem_addAll_cases hr with hr | ⟨hr, hno⟩
  · exact ⟨hgrow (h.ends r hr).1, hgrow (h.ends r hr).2⟩
  · refine (hadm.edges r hr).resolve_left fun htaken => ?_
    obtain ⟨y, hy, hk⟩ := Table.hasKey_iff.1 htaken
    exact hno y hy hk

variable {P : Prims H}

theorem Built.edgesStored {rows : List (EventRow H)} (h : Built P rows g) : EdgesStored g := by
  induction h with
  | nil => exact ⟨by rintro e ⟨⟩, List.nodup_nil⟩
  | snoc _ _ hadm ih => exact ih.apply hadm

/-- The graph of every reachable store. -/
theorem DbInv.edgesStored {s : Store H} (h : DbInv P s) : EdgesStored s.proj := by
  obtain ⟨g, hbuilt, -, hproj⟩ := h.replay.built
  rw [hproj, redactAll_eq]
  exact ⟨hbuilt.edgesStored.ends, hbuilt.edgesStored.keys⟩

end OpenAgentGraph
