/-
  Suppressed nodes and search.

  Keyword search asks for the suppression of every node; semantic search ranks
  whatever vector is stored.  So a suppressed node stays out of semantic search
  as long as it has no vector: no node is suppressed that has one, and no
  recomputation writes one for a suppressed node.
-/
import OpenAgentGraph.IdealUrl
import OpenAgentGraph.Proof.Converge
import OpenAgentGraph.Proof.Embeddings

namespace OpenAgentGraph

open Lib Repo

variable {H ε : Type} [DecidableEq H] (L : SearchLib H) {db : SearchDb H}

theorem isSuppressed_iff {id : H} :
    isSuppressed db id = true ↔ ∃ row ∈ db.searchSuppressions, row.nodeId = id :=
  Table.hasKey_iff

/-! ## Keyword search -/

theorem searchNodes_shown {query : String} {limit : ℕ} {node : NodeRow H}
    (h : node ∈ searchNodes L db query limit) : isSuppressed db node.nodeId = false := by
  have hmem := List.mem_of_mem_take h
  simpa using (List.mem_filter.1 hmem).2

theorem search_shown {query : String} {limit : Int64} {node : NodeRow H}
    (h : node ∈ search L db query limit) : isSuppressed db node.nodeId = false := by
  simp only [search] at h
  split_ifs at h with hempty
  · cases h
  · exact searchNodes_shown L h

theorem resolve_shown {U ε' : Type} {P : Prims H} {url : UrlLib U ε'} {value : String}
    {nodes : List (NodeRow H)} (h : resolve L P url db value = .candidates nodes) {node : NodeRow H}
    (hnode : node ∈ nodes) : isSuppressed db node.nodeId = false := by
  simp only [resolve] at h
  split at h
  · cases h
  · split_ifs at h with hempty hnone
    obtain rfl := ResolveOutcome.candidates.inj h
    exact searchNodes_shown L hnode

/-! ## Semantic search -/

theorem mem_rank {T : Type} {cosine : Vector32 → Vector32 → UInt32} {query : Vector32}
    {candidates : List (T × Vector32)} {limit : ℕ} {r : T × UInt32}
    (h : r ∈ rank cosine query candidates limit) : ∃ c ∈ candidates, r = (c.1, cosine query c.2) := by
  have hsorted := List.mem_mergeSort.1 (List.mem_of_mem_take h)
  obtain ⟨c, hc, rfl⟩ := List.mem_map.1 hsorted
  exact ⟨c, hc, rfl⟩

/-- All candidates are ranked where the limit leaves room for them. -/
theorem mem_rank_of_le {T : Type} {cosine : Vector32 → Vector32 → UInt32} {query : Vector32}
    {candidates : List (T × Vector32)} {limit : ℕ} (hle : candidates.length ≤ limit) {c : T × Vector32}
    (hc : c ∈ candidates) : (c.1, cosine query c.2) ∈ rank cosine query candidates limit := by
  rw [rank, List.take_of_length_le (by simpa using hle), List.mem_mergeSort]
  exact List.mem_map.2 ⟨c, hc, rfl⟩

section
variable {provider : EmbeddingProvider ε} {query : String} {limit : Int64}
  {results : List (NodeRow H × UInt32)}

theorem semanticSearch_ok : semanticSearch L db provider query limit = .ok results ↔
    ∃ embedding, provider.embed 0 query = .ok embedding ∧
      results = (rank L.cosineSimilarity embedding
        (db.nodeEmbeddings.map fun row => (row.nodeId, decodeEmbedding row.embedding))
        (clampLimit limit)).filterMap fun (id, score) =>
          (getNode db.store.proj id).map fun node => (node, score) := by
  rw [semanticSearch]
  cases provider.embed 0 query with
  | error e => simp [bind, Except.bind]
  | ok embedding => simp [bind, Except.bind, pure, Except.pure, eq_comm]

/-- Whatever is found has a vector. -/
theorem semanticSearch_embedded (h : semanticSearch L db provider query limit = .ok results)
    {r : NodeRow H × UInt32} (hr : r ∈ results) :
    ∃ row ∈ db.nodeEmbeddings, row.nodeId = r.1.nodeId := by
  obtain ⟨embedding, -, rfl⟩ := (semanticSearch_ok L).1 h
  obtain ⟨⟨id, score⟩, hranked, hnode⟩ := List.mem_filterMap.1 hr
  obtain ⟨node, hget, rfl⟩ := Option.map_eq_some_iff.1 hnode
  obtain ⟨c, hc, heq⟩ := mem_rank hranked
  obtain ⟨row, hrow, rfl⟩ := List.mem_map.1 hc
  obtain ⟨-, hid⟩ := Table.find_eq_some hget
  exact ⟨row, hrow, by rw [hid, (Prod.mk.inj heq).1]⟩

/-- Where the limit leaves room for all vectors, each node with one is found. -/
theorem semanticSearch_complete (h : semanticSearch L db provider query limit = .ok results)
    (hle : db.nodeEmbeddings.length ≤ clampLimit limit) {row : NodeEmbeddingRow H}
    (hrow : row ∈ db.nodeEmbeddings) (hnode : hasNode db.store.proj row.nodeId = true) :
    ∃ r ∈ results, r.1.nodeId = row.nodeId := by
  obtain ⟨embedding, -, rfl⟩ := (semanticSearch_ok L).1 h
  obtain ⟨node, hget⟩ : ∃ node, getNode db.store.proj row.nodeId = some node :=
    Option.isSome_iff_exists.1 (Table.find_isSome.2 (Table.hasKey_iff.1 hnode))
  obtain ⟨-, hid⟩ := Table.find_eq_some hget
  have hcandidate : (row.nodeId, decodeEmbedding row.embedding) ∈
      db.nodeEmbeddings.map fun row => (row.nodeId, decodeEmbedding row.embedding) :=
    List.mem_map_of_mem hrow
  have hranked : (row.nodeId, L.cosineSimilarity embedding (decodeEmbedding row.embedding)) ∈ rank
      L.cosineSimilarity embedding (db.nodeEmbeddings.map fun row => (row.nodeId, decodeEmbedding row.embedding))
      (clampLimit limit) := mem_rank_of_le (by simpa using hle) hcandidate
  have hfound := congrArg (Option.map fun node =>
    (node, L.cosineSimilarity embedding (decodeEmbedding row.embedding))) hget
  exact ⟨_, List.mem_filterMap.2 ⟨_, hranked, hfound⟩, hid⟩

end

/-! ## One operation -/

/-- No suppressed node has a vector. -/
def Hidden (db : SearchDb H) : Prop := ∀ row ∈ db.nodeEmbeddings, isSuppressed db row.nodeId = false

/-- The nodes that a recomputation writes a vector for: those with a text in
    front of the first failure. -/
def Embedded (provider : EmbeddingProvider ε) (faults : RecomputeFaults) (now : Int64) (db : SearchDb H)
    (nodes : List (NodeRow H)) : Prop :=
  ¬ FailsEarly faults ∧ ∃ rest rows, db.store.proj.nodes.filter hasText = nodes ++ rest ∧
    embedNodes provider faults now 0 nodes = .ok rows

/-- The operation suppresses no node that has a vector, and writes no vector of
    a suppressed node. -/
def KeepsApart {P : Prims H} (db : SearchDb H) : SearchOp P ε → Prop
  | .suppress auth nodeId _ => auth.require .admin = .ok () →
      ∀ row ∈ db.nodeEmbeddings, row.nodeId ≠ nodeId
  | .recompute provider faults now => ∀ nodes, Embedded provider faults now db nodes →
      ∀ node ∈ nodes, isSuppressed db node.nodeId = false
  | _ => True

theorem suppress_ok {auth : AuthContext H} {nodeId : H} {now : Int64} {db' : SearchDb H} :
    suppressNodeFromSearch db auth nodeId now = .ok db' ↔ auth.require .admin = .ok () ∧
      db' = { db with searchSuppressions :=
        Table.insertOrIgnore SearchSuppressionRow.nodeId ⟨nodeId, now⟩ db.searchSuppressions } := by
  rw [suppressNodeFromSearch]
  cases auth.require .admin with
  | error e => simp [bind, Except.bind]
  | ok u => simp [bind, Except.bind, pure, Except.pure, eq_comm]

theorem unsuppress_ok {auth : AuthContext H} {nodeId : H} {db' : SearchDb H} :
    unsuppressNodeFromSearch db auth nodeId = .ok db' ↔ auth.require .admin = .ok () ∧
      db' = { db with searchSuppressions :=
        db.searchSuppressions.filter fun row => row.nodeId ≠ nodeId } := by
  rw [unsuppressNodeFromSearch]
  cases auth.require .admin with
  | error e => simp [bind, Except.bind]
  | ok u => simp [bind, Except.bind, pure, Except.pure, eq_comm]

theorem searchStep_suppress {P : Prims H} {auth : AuthContext H} (h : auth.require .admin = .ok ())
    (nodeId : H) (now : Int64) : P.searchStep db (.suppress auth nodeId now : SearchOp P ε) =
      { db with searchSuppressions :=
        Table.insertOrIgnore SearchSuppressionRow.nodeId ⟨nodeId, now⟩ db.searchSuppressions } := by
  rw [Prims.searchStep, suppress_ok.2 ⟨h, rfl⟩]
  rfl

theorem searchStep_recompute {P : Prims H} {provider : EmbeddingProvider ε} {faults : RecomputeFaults}
    {now : Int64} {db' : SearchDb H} {r : Except (EmbeddingFailure ε) EmbeddingSummary}
    (h : recomputeEmbeddings provider faults now db = (db', r)) :
    P.searchStep db (.recompute provider faults now) = db' := by
  rw [Prims.searchStep, h]

/-- A failing recomputation leaves the vectors that it wrote, and so does one
    that returns. -/
theorem recompute_cases (provider : EmbeddingProvider ε) (faults : RecomputeFaults) (now : Int64)
    (db : SearchDb H) :
    (recomputeEmbeddings provider faults now db).1 = db ∨
      ∃ nodes rows, Embedded provider faults now db nodes ∧
        rows.map NodeEmbeddingRow.nodeId = nodes.map NodeRow.nodeId ∧
        (recomputeEmbeddings provider faults now db).1 = { db with nodeEmbeddings := writeRows [] rows } := by
  by_cases hearly : FailsEarly faults
  · obtain ⟨e, heq⟩ := recompute_early provider faults now db hearly
    left
    rw [heq]
  · right
    rcases embedNodes_cases provider faults now (db.store.proj.nodes.filter hasText) with
      ⟨rows, hrows⟩ | ⟨good, bad, rest, rows, e, hnodes, hgood, hbad⟩
    · refine ⟨_, rows, ⟨hearly, [], rows, (List.append_nil _).symm, hrows⟩, (embedNodes_rows hrows).1, ?_⟩
      rw [recompute_ok hearly hrows]
    · refine ⟨good, rows, ⟨hearly, bad :: rest, rows, hnodes, hgood⟩, (embedNodes_rows hgood).1, ?_⟩
      rw [recompute_fails hearly hnodes hgood hbad]

theorem hidden_suppress (hdb : Hidden db) {nodeId : H} {now : Int64}
    (hnone : ∀ row ∈ db.nodeEmbeddings, row.nodeId ≠ nodeId) :
    Hidden { db with searchSuppressions :=
      Table.insertOrIgnore SearchSuppressionRow.nodeId ⟨nodeId, now⟩ db.searchSuppressions } := by
  intro row hrow
  rw [← Bool.not_eq_true, isSuppressed_iff]
  rintro ⟨sup, hsup, hid⟩
  rcases Table.mem_insertOrIgnore.1 hsup with hold | ⟨rfl, -⟩
  · have hshown := hdb row hrow
    rw [isSuppressed_iff.2 ⟨sup, hold, hid⟩] at hshown
    cases hshown
  · exact hnone row hrow hid.symm

theorem hidden_unsuppress (hdb : Hidden db) (nodeId : H) :
    Hidden { db with searchSuppressions :=
      db.searchSuppressions.filter fun row => row.nodeId ≠ nodeId } := by
  intro row hrow
  rw [← Bool.not_eq_true, isSuppressed_iff]
  rintro ⟨sup, hsup, hid⟩
  have hshown := hdb row hrow
  rw [isSuppressed_iff.2 ⟨sup, List.mem_of_mem_filter hsup, hid⟩] at hshown
  cases hshown

/-- **One operation.** -/
theorem hidden_searchStep {P : Prims H} {op : SearchOp P ε} (hdb : Hidden db) (hop : KeepsApart db op) :
    Hidden (P.searchStep db op) := by
  cases op with
  | store op => exact hdb
  | suppress auth nodeId now =>
    rw [Prims.searchStep]
    cases hsup : suppressNodeFromSearch db auth nodeId now with
    | error e => exact hdb
    | ok db' =>
      obtain ⟨hadmin, rfl⟩ := suppress_ok.1 hsup
      exact hidden_suppress hdb (hop hadmin)
  | unsuppress auth nodeId =>
    rw [Prims.searchStep]
    cases hsup : unsuppressNodeFromSearch db auth nodeId with
    | error e => exact hdb
    | ok db' =>
      obtain ⟨-, rfl⟩ := unsuppress_ok.1 hsup
      exact hidden_unsuppress hdb nodeId
  | recompute provider faults now =>
    rcases recompute_cases provider faults now db with heq | ⟨nodes, rows, hembedded, hids, heq⟩
    · show Hidden (recomputeEmbeddings provider faults now db).1
      rw [heq]
      exact hdb
    · show Hidden (recomputeEmbeddings provider faults now db).1
      rw [heq]
      rintro row hrow
      have hid : row.nodeId ∈ rows.map NodeEmbeddingRow.nodeId :=
        List.mem_map_of_mem ((mem_writeRows hrow).resolve_left List.not_mem_nil)
      rw [hids] at hid
      obtain ⟨node, hnode, heq⟩ := List.mem_map.1 hid
      rw [← heq]
      exact hop nodes hembedded node hnode

/-! ## Runs -/

theorem searchRun_append {P : Prims H} (db : SearchDb H) (ops ops' : List (SearchOp P ε)) :
    P.searchRun db (ops ++ ops') = P.searchRun (P.searchRun db ops) ops' :=
  List.foldl_append

theorem searchRun_cons {P : Prims H} (db : SearchDb H) (op : SearchOp P ε) (ops : List (SearchOp P ε)) :
    P.searchRun db (op :: ops) = P.searchRun (P.searchStep db op) ops := rfl

/-- Operations on the store alone leave the tables of the search. -/
theorem searchRun_store {P : Prims H} (db : SearchDb H) (ops : List (Op P)) :
    P.searchRun db (ops.map fun op => (.store op : SearchOp P ε)) = { db with store := P.run db.store ops } := by
  induction ops generalizing db with
  | nil => rfl
  | cons op ops ih => exact ih { db with store := P.step db.store op }

/-- Every operation of the run meets a condition in the state before it. -/
def EveryStep {P : Prims H} (meets : SearchDb H → SearchOp P ε → Prop) (ops : List (SearchOp P ε)) : Prop :=
  ∀ before op after, ops = before ++ op :: after → meets (P.searchRun .empty before) op

theorem hidden_searchRun {P : Prims H} {ops : List (SearchOp P ε)} (h : EveryStep KeepsApart ops) :
    Hidden (P.searchRun .empty ops) := by
  induction ops using List.reverseRecOn with
  | nil =>
    rintro row hrow
    cases hrow
  | append_singleton ops op ih =>
    rw [searchRun_append]
    show Hidden (P.searchStep _ op)
    refine hidden_searchStep (ih fun before o after heq => ?_) (h ops op [] rfl)
    exact h before o (after ++ [op]) (by rw [heq, List.append_assoc, List.cons_append])

/-- **Suppressed nodes stay out of search** in every run that suppresses no node
    with a vector and computes no vector of a suppressed node. -/
theorem suppressed_stay_out {U ε' : Type} {P : Prims H} (url : UrlLib U ε') {ops : List (SearchOp P ε)}
    (h : EveryStep KeepsApart ops) :
    let db := P.searchRun .empty ops
    ∀ id, isSuppressed db id = true →
      (∀ query limit, ∀ node ∈ search L db query limit, node.nodeId ≠ id) ∧
      (∀ value nodes, resolve L P url db value = .candidates nodes → ∀ node ∈ nodes, node.nodeId ≠ id) ∧
      ∀ (provider : EmbeddingProvider ε) query limit results,
        semanticSearch L db provider query limit = .ok results → ∀ r ∈ results, r.1.nodeId ≠ id := by
  intro db id hid
  refine ⟨?_, ?_, ?_⟩
  · rintro query limit node hnode rfl
    rw [search_shown L hnode] at hid
    cases hid
  · rintro value nodes hres node hnode rfl
    rw [resolve_shown L hres hnode] at hid
    cases hid
  · rintro provider query limit results hres r hr rfl
    obtain ⟨row, hrow, heq⟩ := semanticSearch_embedded L hres hr
    rw [← heq, hidden_searchRun h row hrow] at hid
    cases hid

/-! ## A node that is suppressed behind its vector -/

section suppressedBehind

/-- Answers the vector of the one number 1.0 to every text. -/
def oneProvider : EmbeddingProvider Unit := ⟨"one", "one", fun _ _ => .ok [0x3F800000]⟩

/-- The similarity of two vectors that are each the number 1.0 is 1.0. -/
def oneLib : SearchLib Bytes := ⟨fun _ => true, fun _ nodes => nodes, fun _ _ => 0x3F800000⟩

def searchAdmin : AuthContext Bytes := ⟨[], [.admin]⟩

noncomputable def suppressedId : Bytes := idealOpen.nodeId "a"

/-- A peer that asserts a relation between two nodes. -/
noncomputable def relatedOps : List (SearchOp idealOpen Unit) :=
  [.commit peerA declarePayload 1, .commit peerA (relatePayload idealOpen peerA) 2].map .store

/-- One of them is suppressed before any vector is computed. -/
noncomputable def suppressOps : List (SearchOp idealOpen Unit) :=
  relatedOps ++ [.suppress searchAdmin suppressedId 3]

theorem suppressed_stay_out_unembedded :
    let db := idealOpen.searchRun .empty suppressOps
    ∀ id, isSuppressed db id = true →
      (∀ query limit, ∀ node ∈ search oneLib db query limit, node.nodeId ≠ id) ∧
      (∀ value nodes, resolve oneLib idealOpen idealUrl db value = .candidates nodes →
        ∀ node ∈ nodes, node.nodeId ≠ id) ∧
      ∀ (provider : EmbeddingProvider Unit) query limit results,
        semanticSearch oneLib db provider query limit = .ok results → ∀ r ∈ results, r.1.nodeId ≠ id := by
  refine suppressed_stay_out oneLib idealUrl ?_
  rintro before op after heq
  rcases before with _ | ⟨_, _ | ⟨_, _ | ⟨_, before⟩⟩⟩
  · cases heq
    trivial
  · cases heq
    trivial
  · cases heq
    rintro - row hrow
    cases hrow
  · have hlen := congrArg List.length heq
    simp [suppressOps, relatedOps] at hlen

/-- One of them is suppressed behind a recomputation. -/
noncomputable def embeddedOps : List (SearchOp idealOpen Unit) :=
  relatedOps ++ [.recompute oneProvider {} 3, .suppress searchAdmin suppressedId 4]

omit [DecidableEq H] in
theorem relate_nodes {P : Prims H} (ada : Prims.PeerIdentity) :
    (P.effect (relateEvent P ada)).nodes = [P.newNode "a" "concept" 2, P.newNode "b" "concept" 2] := by
  have heff := effectOf_eq_effect (s := relateEvent P ada) (relate_isSome P ada)
  change P.relationEffect _ _ _ = some _ at heff
  simp only [Prims.relationEffect, option_bind_some, option_pure_some, toOption_eq_some] at heff
  obtain ⟨_, -, _, -, he⟩ := heff
  rw [← he]
  rfl

/-- The peer with the two nodes. -/
noncomputable def relatedDb : SearchDb Bytes := ⟨relatedStore idealOpen peerA 1 2, [], []⟩

theorem relatedDb_nodes : relatedDb.store.proj.nodes =
    addNode [idealOpen.newNode "a" "concept" 2] (idealOpen.newNode "b" "concept" 2) := by
  show (idealOpen.effect (relateEvent idealOpen peerA)).nodes.foldl addNode [] = _
  rw [relate_nodes]
  rfl

theorem mem_addNode_of_mem {t : List (NodeRow H)} {row first : NodeRow H} (h : first ∈ t) :
    first ∈ addNode t row := by
  unfold addNode
  split_ifs with hkey
  · exact h
  · exact Table.mem_insertOrIgnore.2 (Or.inl h)

theorem length_addNode_le (t : List (NodeRow H)) (row : NodeRow H) :
    (addNode t row).length ≤ t.length + 1 := by
  unfold addNode Table.insertOrIgnore
  split_ifs
  all_goals simp

/-- The vectors of the two nodes. -/
theorem relatedDb_embedded : ∃ rows,
    recomputeEmbeddings oneProvider {} 3 relatedDb =
      ({ relatedDb with nodeEmbeddings := writeRows [] rows },
        .ok ⟨(relatedDb.store.proj.nodes.filter hasText).length,
          relatedDb.store.proj.nodes.length - (relatedDb.store.proj.nodes.filter hasText).length⟩) ∧
      FreshTable oneProvider 3 relatedDb.store.proj.nodes (writeRows [] rows) := by
  rcases embedNodes_cases oneProvider {} 3 (relatedDb.store.proj.nodes.filter hasText) with
    ⟨rows, hrows⟩ | ⟨good, bad, rest, rows, e, -, -, hbad⟩
  · refine ⟨rows, recompute_ok (by simp [FailsEarly]) hrows, freshTable_writeRows hrows⟩
  · cases hbad

theorem relatedOps_run : idealOpen.searchRun .empty relatedOps = relatedDb := by
  have hstore : idealOpen.run Store.empty [.commit peerA declarePayload 1,
      .commit peerA (relatePayload idealOpen peerA) 2] = relatedStore idealOpen peerA 1 2 :=
    run_related idealOpen_laws idealOpen_injective
  rw [relatedOps, searchRun_store, SearchDb.empty, hstore]
  rfl

/-- The run ends with a fresh table and one suppression. -/
theorem embeddedOps_run : ∃ table, FreshTable oneProvider 3 relatedDb.store.proj.nodes table ∧
    table.length ≤ 2 ∧ idealOpen.searchRun .empty embeddedOps =
      { relatedDb with searchSuppressions := [⟨suppressedId, 4⟩], nodeEmbeddings := table } := by
  obtain ⟨rows, hrun, hfresh⟩ := relatedDb_embedded
  refine ⟨_, hfresh, ?_, ?_⟩
  · refine le_trans hfresh.length_le ?_
    rw [relatedDb_nodes]
    exact length_addNode_le _ _
  · have hadmin : searchAdmin.require .admin = .ok () := by simp [AuthContext.require, searchAdmin]
    rw [embeddedOps, searchRun_append, relatedOps_run, searchRun_cons,
      searchStep_recompute hrun, searchRun_cons, searchStep_suppress hadmin]
    rfl

/-- The node is suppressed, and found. -/
theorem suppressed_found :
    let db := idealOpen.searchRun .empty embeddedOps
    isSuppressed db suppressedId = true ∧ ∃ results,
      semanticSearch oneLib db oneProvider "a" 10 = .ok results ∧
        ∃ r ∈ results, r.1.nodeId = suppressedId := by
  obtain ⟨table, hfresh, hlen, hrun⟩ := embeddedOps_run
  intro db
  have hdb : db = { relatedDb with searchSuppressions := [⟨suppressedId, 4⟩], nodeEmbeddings := table } :=
    hrun
  have hnode : idealOpen.newNode "a" "concept" 2 ∈ relatedDb.store.proj.nodes := by
    rw [relatedDb_nodes]
    exact mem_addNode_of_mem (List.mem_singleton.2 rfl)
  obtain ⟨row, hrow, hid⟩ := List.mem_map.1 ((hfresh.each suppressedId).2
    ⟨_, hnode, rfl, by decide⟩)
  obtain ⟨results, hsearch⟩ : ∃ results, semanticSearch oneLib db oneProvider "a" 10 = .ok results :=
    ⟨_, (semanticSearch_ok oneLib).2 ⟨_, rfl, rfl⟩⟩
  refine ⟨?_, results, hsearch, ?_⟩
  · rw [hdb, isSuppressed_iff]
    exact ⟨_, List.mem_singleton.2 rfl, rfl⟩
  · rw [← hid]
    refine semanticSearch_complete oneLib hsearch ?_ ?_ ?_
    · rw [hdb]
      exact le_trans hlen (by decide)
    · rw [hdb]
      exact hrow
    · rw [hdb]
      exact Table.hasKey_iff.2 ⟨_, hnode, hid.symm⟩

end suppressedBehind

end OpenAgentGraph
