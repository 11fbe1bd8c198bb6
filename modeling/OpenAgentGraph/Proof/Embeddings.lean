/-
  Recomputing the embeddings.

  The old table is deleted before the first vector is asked for, and every
  statement stays done.  So a recomputation that fails behind the deletion
  leaves the rows that it wrote until then, and one that returns leaves a row
  for each node with a text.
-/
import OpenAgentGraph.Graph.Search

namespace OpenAgentGraph

open Lib Repo

variable {H ε : Type} [DecidableEq H]

/-! ## Vectors -/

/-- A stored vector reads back. -/
theorem decodeEmbedding_encode (vector : Vector32) : decodeEmbedding (encodeEmbedding vector) = vector := by
  induction vector with
  | nil => rfl
  | cons x vector ih =>
    have hx := x.toNat_lt
    rw [encodeEmbedding, List.flatMap_cons]
    show UInt32.ofNat _ :: decodeEmbedding (encodeEmbedding vector) = _
    rw [ih]
    congr 1
    rw [← UInt32.toNat_inj]
    simp only [UInt8.toNat_ofNat', UInt32.toNat_ofNat']
    omega

/-! ## Rows -/

section
variable (provider : EmbeddingProvider ε) (faults : RecomputeFaults) (now : Int64)

/-- The rows that the loop writes for some nodes, counted from `n`. -/
def embedNodes : ℕ → List (NodeRow H) → Except (EmbeddingFailure ε) (List (NodeEmbeddingRow H))
  | _, [] => .ok []
  | n, node :: nodes => do
    let row ← embedNode provider faults now n node
    let rows ← embedNodes (n + 1) nodes
    return row :: rows

/-- The table after the writes of some rows. -/
def writeRows (table rows : List (NodeEmbeddingRow H)) : List (NodeEmbeddingRow H) :=
  rows.foldl upsertEmbedding table

variable {provider faults now}

omit [DecidableEq H] in
theorem embedNodes_cons_ok {n : ℕ} {node : NodeRow H} {nodes : List (NodeRow H)}
    {rows : List (NodeEmbeddingRow H)} :
    embedNodes provider faults now n (node :: nodes) = .ok rows ↔
      ∃ row rest, embedNode provider faults now n node = .ok row ∧
        embedNodes provider faults now (n + 1) nodes = .ok rest ∧ rows = row :: rest := by
  rw [embedNodes]
  cases embedNode provider faults now n node with
  | error e => simp [bind, Except.bind]
  | ok row =>
    cases embedNodes provider faults now (n + 1) nodes with
    | error e => simp [bind, Except.bind]
    | ok rest => simp [bind, Except.bind, pure, Except.pure, eq_comm]

theorem runSteps_ok_iff {n : ℕ} {table table' : List (NodeEmbeddingRow H)} {nodes : List (NodeRow H)} :
    runSteps (writeStep provider faults now) n table nodes = (table', .ok ()) ↔
      ∃ rows, embedNodes provider faults now n nodes = .ok rows ∧ table' = writeRows table rows := by
  induction nodes generalizing n table with
  | nil =>
    simp only [runSteps, embedNodes, Prod.mk.injEq, and_true]
    constructor
    · rintro rfl
      exact ⟨[], rfl, rfl⟩
    · rintro ⟨rows, hrows, rfl⟩
      cases hrows
      rfl
  | cons node nodes ih =>
    cases hrow : embedNode provider faults now n node with
    | error e =>
      have hstep : writeStep provider faults now n table node = .error e := by
        rw [writeStep, hrow]
        rfl
      rw [runSteps_cons_error hstep]
      simp [embedNodes_cons_ok, hrow]
    | ok row =>
      have hstep : writeStep provider faults now n table node = .ok (upsertEmbedding table row) := by
        rw [writeStep, hrow]
        rfl
      rw [runSteps_cons_ok hstep, ih]
      constructor
      · rintro ⟨rows, hrows, rfl⟩
        exact ⟨row :: rows, embedNodes_cons_ok.2 ⟨row, rows, hrow, hrows, rfl⟩, rfl⟩
      · rintro ⟨rows, hrows, rfl⟩
        obtain ⟨row', rest, hrow', hrest, rfl⟩ := embedNodes_cons_ok.1 hrows
        rw [hrow] at hrow'
        cases hrow'
        exact ⟨rest, hrest, rfl⟩

theorem runSteps_written {nodes : List (NodeRow H)} {rows : List (NodeEmbeddingRow H)}
    (h : embedNodes provider faults now 0 nodes = .ok rows) :
    runSteps (writeStep provider faults now) 0 [] nodes = (writeRows [] rows, .ok ()) :=
  runSteps_ok_iff.2 ⟨rows, h, rfl⟩

/-! ## The table that a run leaves -/

omit [DecidableEq H] in
theorem upsertEmbedding_key (row old : NodeEmbeddingRow H) :
    ({ row with nodeId := old.nodeId } : NodeEmbeddingRow H).nodeId = old.nodeId := rfl

theorem mem_upsertEmbedding {table : List (NodeEmbeddingRow H)} {row row' : NodeEmbeddingRow H}
    (h : row' ∈ upsertEmbedding table row) : row' = row ∨ row' ∈ table := by
  rcases Table.mem_upsert.1 h with ⟨old, hold, rfl⟩ | ⟨rfl, -⟩
  · split_ifs with hkey
    · left
      rw [hkey]
    · exact Or.inr hold
  · exact Or.inl rfl

theorem mem_writeRows {table rows : List (NodeEmbeddingRow H)} {row : NodeEmbeddingRow H}
    (h : row ∈ writeRows table rows) : row ∈ table ∨ row ∈ rows := by
  induction rows generalizing table with
  | nil => exact Or.inl h
  | cons first rows ih =>
    rcases ih h with hmem | hmem
    · rcases mem_upsertEmbedding hmem with rfl | hmem
      · exact Or.inr (by simp)
      · exact Or.inl hmem
    · exact Or.inr (List.mem_cons_of_mem _ hmem)

theorem nodup_writeRows {table : List (NodeEmbeddingRow H)}
    (h : (table.map NodeEmbeddingRow.nodeId).Nodup) (rows : List (NodeEmbeddingRow H)) :
    ((writeRows table rows).map NodeEmbeddingRow.nodeId).Nodup := by
  induction rows generalizing table with
  | nil => exact h
  | cons row rows ih => exact ih (Table.nodup_upsert (upsertEmbedding_key row) h)

theorem mem_key_writeRows {table : List (NodeEmbeddingRow H)} (rows : List (NodeEmbeddingRow H)) {id : H} :
    id ∈ (writeRows table rows).map NodeEmbeddingRow.nodeId ↔
      id ∈ table.map NodeEmbeddingRow.nodeId ∨ id ∈ rows.map NodeEmbeddingRow.nodeId := by
  induction rows generalizing table with
  | nil => simp [writeRows]
  | cons row rows ih =>
    have hfirst := Table.mem_map_key_upsert (t := table) (k := id) (x := row) (upsertEmbedding_key row)
    rw [writeRows, List.foldl_cons, ← writeRows, ih, List.map_cons, List.mem_cons]
    rw [upsertEmbedding, hfirst, or_assoc]

omit [DecidableEq H] in
theorem embedNode_ok {n : ℕ} {node : NodeRow H} {row : NodeEmbeddingRow H}
    (h : embedNode provider faults now n node = .ok row) :
    ∃ embedding, provider.embed n (embeddableText node) = .ok embedding ∧
      row = embeddingRow provider now node embedding := by
  unfold embedNode at h
  cases hembed : provider.embed n (embeddableText node) with
  | error e =>
    rw [hembed] at h
    cases h
  | ok embedding =>
    rw [hembed] at h
    cases hfault : faults.upsert n with
    | some e =>
      rw [hfault] at h
      cases h
    | none =>
      rw [hfault] at h
      cases h
      exact ⟨embedding, rfl, rfl⟩

/-- A row that this run wrote for one of the nodes. -/
def WrittenFor (provider : EmbeddingProvider ε) (now : Int64) (nodes : List (NodeRow H))
    (row : NodeEmbeddingRow H) : Prop :=
  ∃ n, ∃ node ∈ nodes, ∃ embedding, provider.embed n (embeddableText node) = .ok embedding ∧
    row = embeddingRow provider now node embedding

omit [DecidableEq H] in
theorem embedNodes_rows {n : ℕ} {nodes : List (NodeRow H)} {rows : List (NodeEmbeddingRow H)}
    (h : embedNodes provider faults now n nodes = .ok rows) :
    rows.map NodeEmbeddingRow.nodeId = nodes.map NodeRow.nodeId ∧
      ∀ row ∈ rows, WrittenFor provider now nodes row := by
  induction nodes generalizing n rows with
  | nil =>
    cases h
    exact ⟨rfl, fun row hrow => absurd hrow List.not_mem_nil⟩
  | cons node nodes ih =>
    obtain ⟨row, rest, hrow, hrest, rfl⟩ := embedNodes_cons_ok.1 h
    obtain ⟨embedding, hembed, rfl⟩ := embedNode_ok hrow
    obtain ⟨hids, hall⟩ := ih hrest
    refine ⟨?_, ?_⟩
    · rw [List.map_cons, List.map_cons, hids]
      rfl
    · rintro row (_ | ⟨_, hmem⟩)
      · exact ⟨n, node, by simp, embedding, hembed, rfl⟩
      · obtain ⟨m, node', hnode', rest⟩ := hall row hmem
        exact ⟨m, node', List.mem_cons_of_mem _ hnode', rest⟩

/-- One row for each node with a text, each from this run. -/
structure FreshTable (provider : EmbeddingProvider ε) (now : Int64) (nodes : List (NodeRow H))
    (table : List (NodeEmbeddingRow H)) : Prop where
  one : (table.map NodeEmbeddingRow.nodeId).Nodup
  each : ∀ id, id ∈ table.map NodeEmbeddingRow.nodeId ↔
    ∃ node ∈ nodes, node.nodeId = id ∧ trim (embeddableText node) ≠ ""
  fresh : ∀ row ∈ table, WrittenFor provider now nodes row

omit [DecidableEq H] in
theorem FreshTable.length_le {nodes : List (NodeRow H)} {table : List (NodeEmbeddingRow H)}
    (h : FreshTable provider now nodes table) : table.length ≤ nodes.length := by
  have hsub : table.map NodeEmbeddingRow.nodeId ⊆ nodes.map NodeRow.nodeId := by
    rintro id hid
    obtain ⟨node, hnode, rfl, -⟩ := (h.each id).1 hid
    exact List.mem_map_of_mem hnode
  simpa using (h.one.subperm hsub).length_le

theorem freshTable_writeRows {nodes : List (NodeRow H)} {rows : List (NodeEmbeddingRow H)}
    (h : embedNodes provider faults now 0 (nodes.filter hasText) = .ok rows) :
    FreshTable provider now nodes (writeRows [] rows) := by
  obtain ⟨hids, hall⟩ := embedNodes_rows h
  refine ⟨nodup_writeRows (by simp) rows, fun id => ?_, fun row hrow => ?_⟩
  · rw [mem_key_writeRows, hids]
    simp only [List.map_nil, List.not_mem_nil, false_or, List.mem_map, List.mem_filter, hasText,
      decide_eq_true_eq]
    constructor
    · rintro ⟨node, ⟨hnode, htext⟩, hid⟩
      exact ⟨node, hnode, hid, htext⟩
    · rintro ⟨node, hnode, hid, htext⟩
      exact ⟨node, ⟨hnode, htext⟩, hid⟩
  · rcases mem_writeRows hrow with hmem | hmem
    · exact absurd hmem List.not_mem_nil
    · obtain ⟨n, node, hnode, rest⟩ := hall row hmem
      exact ⟨n, node, List.mem_of_mem_filter hnode, rest⟩

end

/-! ## Failure -/

section
variable (provider : EmbeddingProvider ε) (faults : RecomputeFaults) (now : Int64) (db : SearchDb H)

/-- A statement fails no later than the deletion of the old table. -/
def FailsEarly (faults : RecomputeFaults) : Prop :=
  ((faults.acquire.or faults.listAll).or faults.clearAll).isSome = true

theorem recompute_early (h : FailsEarly faults) :
    ∃ e, recomputeEmbeddings provider faults now db = (db, .error e) := by
  obtain ⟨e, he⟩ := Option.isSome_iff_exists.1 h
  exact ⟨.storage e, by rw [recomputeEmbeddings, he]⟩

variable {provider faults now db}

theorem recompute_ok (h : ¬ FailsEarly faults) {rows : List (NodeEmbeddingRow H)}
    (hrows : embedNodes provider faults now 0 (db.store.proj.nodes.filter hasText) = .ok rows) :
    recomputeEmbeddings provider faults now db =
      ({ db with nodeEmbeddings := writeRows [] rows },
        .ok ⟨(db.store.proj.nodes.filter hasText).length,
          db.store.proj.nodes.length - (db.store.proj.nodes.filter hasText).length⟩) := by
  have hloop := runSteps_written hrows
  have hnone := Option.not_isSome_iff_eq_none.1 h
  simp only [recomputeEmbeddings, hnone, hloop]
  rfl

theorem recompute_fails (h : ¬ FailsEarly faults) {good rest : List (NodeRow H)} {bad : NodeRow H}
    {rows : List (NodeEmbeddingRow H)} {e : EmbeddingFailure ε}
    (hnodes : db.store.proj.nodes.filter hasText = good ++ bad :: rest)
    (hgood : embedNodes provider faults now 0 good = .ok rows)
    (hbad : embedNode provider faults now good.length bad = .error e) :
    recomputeEmbeddings provider faults now db =
      ({ db with nodeEmbeddings := writeRows [] rows }, .error e) := by
  have hprefix := runSteps_written hgood
  have hstep : writeStep provider faults now (0 + good.length) (writeRows [] rows) bad = .error e := by
    rw [writeStep, Nat.zero_add, hbad]
    rfl
  have hloop : runSteps (writeStep provider faults now) 0 [] (db.store.proj.nodes.filter hasText) =
      (writeRows [] rows, .error e) := by
    rw [hnodes, runSteps_append hprefix, runSteps_cons_error hstep]
  have hnone := Option.not_isSome_iff_eq_none.1 h
  simp only [recomputeEmbeddings, hnone, hloop]
  rfl

/-- The loop ends, or it fails at one of the nodes. -/
theorem embedNodes_cases (provider : EmbeddingProvider ε) (faults : RecomputeFaults) (now : Int64)
    (nodes : List (NodeRow H)) :
    (∃ rows, embedNodes provider faults now 0 nodes = .ok rows) ∨
      ∃ good bad rest rows e, nodes = good ++ bad :: rest ∧
        embedNodes provider faults now 0 good = .ok rows ∧
        embedNode provider faults now good.length bad = .error e := by
  rcases runSteps_cases (writeStep provider faults now) 0 [] nodes with
    ⟨table, hend⟩ | ⟨good, bad, rest, table, e, hnodes, hgood, hbad, -⟩
  · obtain ⟨rows, hrows, -⟩ := runSteps_ok_iff.1 hend
    exact Or.inl ⟨rows, hrows⟩
  · obtain ⟨rows, hrows, -⟩ := runSteps_ok_iff.1 hgood
    refine Or.inr ⟨good, bad, rest, rows, e, hnodes, hrows, ?_⟩
    rw [writeStep, Nat.zero_add] at hbad
    cases hrow : embedNode provider faults now good.length bad with
    | ok row =>
      rw [hrow] at hbad
      cases hbad
    | error e' =>
      rw [hrow] at hbad
      cases hbad
      rfl

variable (provider faults now db)

/-- **A recomputation that fails changes nothing exactly if it fails before the
    old table is gone, or what it wrote is what had been there**; one that
    returns leaves a row for each node with a text. -/
theorem recompute_embeddings_iff :
    ((∀ e, (recomputeEmbeddings provider faults now db).2 = .error e →
          (recomputeEmbeddings provider faults now db).1.nodeEmbeddings.Perm db.nodeEmbeddings) ∧
        ∀ summary, (recomputeEmbeddings provider faults now db).2 = .ok summary →
          FreshTable provider now db.store.proj.nodes
            (recomputeEmbeddings provider faults now db).1.nodeEmbeddings) ↔
      FailsEarly faults ∨ ∀ good bad rest rows e,
        db.store.proj.nodes.filter hasText = good ++ bad :: rest →
        embedNodes provider faults now 0 good = .ok rows →
        embedNode provider faults now good.length bad = .error e →
        (writeRows [] rows).Perm db.nodeEmbeddings := by
  by_cases hearly : FailsEarly faults
  · obtain ⟨e, heq⟩ := recompute_early provider faults now db hearly
    simp only [heq, hearly, true_or, iff_true]
    refine ⟨fun _ _ => List.Perm.refl _, ?_⟩
    rintro summary ⟨⟩
  · rw [or_iff_right hearly]
    constructor
    · rintro ⟨hunchanged, -⟩ good bad rest rows e hnodes hgood hbad
      have heq := recompute_fails hearly hnodes hgood hbad
      rw [heq] at hunchanged
      exact hunchanged e rfl
    · intro hsame
      rcases embedNodes_cases provider faults now (db.store.proj.nodes.filter hasText) with
        ⟨rows, hrows⟩ | ⟨good, bad, rest, rows, e, hnodes, hgood, hbad⟩
      · rw [recompute_ok hearly hrows]
        refine ⟨?_, fun _ _ => freshTable_writeRows hrows⟩
        rintro e ⟨⟩
      · rw [recompute_fails hearly hnodes hgood hbad]
        refine ⟨fun _ _ => hsame good bad rest rows e hnodes hgood hbad, ?_⟩
        rintro summary ⟨⟩

end

/-! ## A provider that is not configured -/

/-- `DisabledProvider`. -/
def disabledProvider : EmbeddingProvider Unit := ⟨"disabled", "", fun _ _ => .error ()⟩

def topicNode : NodeRow ℕ := ⟨1, "concept", "concept:topic", none, none, none, .emptyObj, 1⟩

/-- A node, and the vector of an earlier run. -/
def embeddedDb : SearchDb ℕ where
  store := { Store.empty with proj := { Projection.empty with nodes := [topicNode] } }
  searchSuppressions := []
  nodeEmbeddings := [⟨1, "openai-compatible", "small", 1, [0, 0, 0x80, 0x3F], 1⟩]

/-- The old vector is lost. -/
theorem recompute_disabled_clears : ∃ e,
    (recomputeEmbeddings disabledProvider {} 2 embeddedDb).2 = .error e ∧
      ¬ (recomputeEmbeddings disabledProvider {} 2 embeddedDb).1.nodeEmbeddings.Perm
        embeddedDb.nodeEmbeddings := by
  have hnodes : embeddedDb.store.proj.nodes.filter hasText = [] ++ topicNode :: [] := by
    show [topicNode].filter hasText = [topicNode]
    rw [List.filter_cons_of_pos (by decide)]
    rfl
  have hearly : ¬ FailsEarly {} := by simp [FailsEarly]
  have hnone : embedNodes disabledProvider {} 2 0 [] = .ok ([] : List (NodeEmbeddingRow ℕ)) := rfl
  have hbad : embedNode disabledProvider {} 2 0 topicNode = .error (.embedding ()) := rfl
  have heq := recompute_fails hearly hnodes hnone hbad
  refine ⟨.embedding (), by rw [heq], ?_⟩
  rw [heq]
  simp [writeRows, embeddedDb]

end OpenAgentGraph
