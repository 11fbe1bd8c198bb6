/-
  Search (`oag-graph`: `search.rs`, `semantic_search.rs`, `resolve.rs` and the
  suppressions of `redaction.rs`; `oag-embeddings`: `similarity.rs`).

  Keyword search reads a full-text index of the nodes; semantic search ranks
  the vectors that the last recomputation stored.  Both tables here are outside
  of what a rebuild clears.
-/
import OpenAgentGraph.Graph.Identifier
import OpenAgentGraph.Lib.Steps
import OpenAgentGraph.Run

namespace OpenAgentGraph

open Lib Repo

variable {H : Type}

/-! ## Tables -/

structure SearchSuppressionRow (H : Type) where
  nodeId : H
  suppressedAt : Int64

structure NodeEmbeddingRow (H : Type) where
  nodeId : H
  provider : String
  model : String
  dim : Int64
  embedding : Bytes
  computedAt : Int64

/-- A peer's store, with the tables that only search reads. -/
structure SearchDb (H : Type) where
  store : Store H
  searchSuppressions : List (SearchSuppressionRow H)
  nodeEmbeddings : List (NodeEmbeddingRow H)

def SearchDb.empty : SearchDb H := ⟨.empty, [], []⟩

/-- A vector of `f32`, each by its bits. -/
abbrev Vector32 := List UInt32

/-- Four bytes for each number, the lowest first. -/
def encodeEmbedding (vector : Vector32) : Bytes :=
  vector.flatMap fun (x : UInt32) => [.ofNat x.toNat, .ofNat (x.toNat / 2 ^ 8), .ofNat (x.toNat / 2 ^ 16),
    .ofNat (x.toNat / 2 ^ 24)]

/-- What is left behind the last whole number is ignored. -/
def decodeEmbedding : Bytes → Vector32
  | a :: b :: c :: d :: rest =>
    .ofNat (a.toNat + 2 ^ 8 * b.toNat + 2 ^ 16 * c.toNat + 2 ^ 24 * d.toNat) :: decodeEmbedding rest
  | _ => []

/-! ## The libraries -/

/-- `fts` are the rows of `nodes` that match a query of the full-text index, in
    the order of their rank. -/
structure SearchLib (H : Type) where
  isAlphanumeric : Char → Bool
  fts : String → List (NodeRow H) → List (NodeRow H)
  cosineSimilarity : Vector32 → Vector32 → UInt32

/-- `embed n` answers the `n`-th request of a call. -/
structure EmbeddingProvider (ε : Type) where
  providerName : String
  modelName : String
  embed : ℕ → String → Except ε Vector32

/-! ## Keyword search -/

/-- Strips what is syntax in the query language of the index. -/
def sanitizeFtsQuery (isAlphanumeric : Char → Bool) (raw : String) : String :=
  let cleaned := String.ofList (raw.toList.map fun c =>
    if isAlphanumeric c || isWhiteSpace c then c else ' ')
  String.intercalate " " ((splitWhitespace cleaned).map fun word => "\"" ++ word ++ "\"")

def maxSearchLimit : ℤ := 1000

/-- `limit.clamp(0, MAX_SEARCH_LIMIT)` -/
def clampLimit (limit : Int64) : ℕ := (max 0 (min limit.toInt maxSearchLimit)).toNat

section
variable [DecidableEq H] (L : SearchLib H)

def isSuppressed (db : SearchDb H) (id : H) : Bool :=
  Table.hasKey SearchSuppressionRow.nodeId id db.searchSuppressions

/-- `nodes::search` -/
def searchNodes (db : SearchDb H) (query : String) (limit : ℕ) : List (NodeRow H) :=
  ((L.fts query db.store.proj.nodes).filter fun node => !isSuppressed db node.nodeId).take limit

def search (db : SearchDb H) (query : String) (limit : Int64) : List (NodeRow H) :=
  let sanitized := sanitizeFtsQuery L.isAlphanumeric query
  if sanitized = "" then [] else searchNodes L db sanitized (clampLimit limit)

inductive ResolveOutcome (H : Type)
  /-- `confidence` is 1.0. -/
  | found (node : NodeRow H)
  | candidates (nodes : List (NodeRow H))
  | notFound

def resolve {U ε : Type} (P : Prims H) (url : UrlLib U ε) (db : SearchDb H) (value : String) :
    ResolveOutcome H :=
  let (identifier, _) := P.canonicalizeValue url value
  match Table.find NodeRow.canonicalIdentifier identifier db.store.proj.nodes with
  | some node => .found node
  | none =>
    let sanitized := sanitizeFtsQuery L.isAlphanumeric value
    if sanitized = "" then .notFound
    else
      let candidates := searchNodes L db sanitized 10
      if candidates = [] then .notFound else .candidates candidates

end

/-! ## Semantic search -/

/-- Where `f32::total_cmp` puts a number, by its bits. -/
def totalKey (x : UInt32) : ℤ := if x.toNat < 2 ^ 31 then x.toNat else 2 ^ 31 - 1 - x.toNat

/-- `rank`: highest similarity first, ties in the order of the input. -/
def rank {T : Type} (cosine : Vector32 → Vector32 → UInt32) (query : Vector32)
    (candidates : List (T × Vector32)) (limit : ℕ) : List (T × UInt32) :=
  let scored := candidates.map fun c => (c.1, cosine query c.2)
  (scored.mergeSort fun a b => totalKey b.2 ≤ totalKey a.2).take limit

def semanticSearch {ε : Type} [DecidableEq H] (L : SearchLib H) (db : SearchDb H)
    (provider : EmbeddingProvider ε) (query : String) (limit : Int64) :
    Except ε (List (NodeRow H × UInt32)) := do
  let queryEmbedding ← provider.embed 0 query
  let candidates := db.nodeEmbeddings.map fun row => (row.nodeId, decodeEmbedding row.embedding)
  let ranked := rank L.cosineSimilarity queryEmbedding candidates (clampLimit limit)
  return ranked.filterMap fun (id, score) => (getNode db.store.proj id).map fun node => (node, score)

/-! ## Recomputation -/

/-- The failures of `recompute_embeddings`. -/
inductive EmbeddingFailure (ε : Type)
  | storage (e : StorageError)
  | embedding (e : ε)

structure EmbeddingSummary where
  nodesEmbedded : ℕ
  nodesSkipped : ℕ
  deriving DecidableEq

/-- The statements of `recompute_embeddings` that fail. -/
structure RecomputeFaults where
  acquire : Option StorageError := none
  listAll : Option StorageError := none
  clearAll : Option StorageError := none
  /-- The write of the `n`-th vector. -/
  upsert : ℕ → Option StorageError := fun _ => none

def embeddableText (node : NodeRow H) : String :=
  String.intercalate " "
    ([some node.canonicalIdentifier, node.name, node.description].filterMap id)

def hasText (node : NodeRow H) : Bool := trim (embeddableText node) ≠ ""

def embeddingRow {ε : Type} (provider : EmbeddingProvider ε) (now : Int64) (node : NodeRow H)
    (embedding : Vector32) : NodeEmbeddingRow H where
  nodeId := node.nodeId
  provider := provider.providerName
  model := provider.modelName
  dim := .ofNat embedding.length
  embedding := encodeEmbedding embedding
  computedAt := now

section
variable {ε : Type} (provider : EmbeddingProvider ε) (faults : RecomputeFaults) (now : Int64)

/-- The row that the loop writes for the `n`-th node with a text. -/
def embedNode (n : ℕ) (node : NodeRow H) : Except (EmbeddingFailure ε) (NodeEmbeddingRow H) :=
  match provider.embed n (embeddableText node) with
  | .error e => .error (.embedding e)
  | .ok embedding =>
    match faults.upsert n with
    | some e => .error (.storage e)
    | none => .ok (embeddingRow provider now node embedding)

/-- `upsert` of `node_embeddings`. -/
def upsertEmbedding [DecidableEq H] (table : List (NodeEmbeddingRow H)) (row : NodeEmbeddingRow H) :
    List (NodeEmbeddingRow H) :=
  Table.upsert NodeEmbeddingRow.nodeId row (fun old => { row with nodeId := old.nodeId }) table

/-- The body of the loop. -/
def writeStep [DecidableEq H] (n : ℕ) (table : List (NodeEmbeddingRow H)) (node : NodeRow H) :
    Except (EmbeddingFailure ε) (List (NodeEmbeddingRow H)) :=
  (embedNode provider faults now n node).map (upsertEmbedding table)

/-- Every statement is a transaction of its own: the result is the database that
    the call leaves, on either exit. -/
def recomputeEmbeddings [DecidableEq H] (db : SearchDb H) :
    SearchDb H × Except (EmbeddingFailure ε) EmbeddingSummary :=
  match (faults.acquire.or faults.listAll).or faults.clearAll with
  | some e => (db, .error (.storage e))
  | none =>
    let allNodes := db.store.proj.nodes
    -- nodes without a text are skipped
    let nodes := allNodes.filter hasText
    let (table, r) := runSteps (writeStep provider faults now) 0 [] nodes
    ({ db with nodeEmbeddings := table },
      r.map fun _ => ⟨nodes.length, allNodes.length - nodes.length⟩)

end

/-! ## Suppression -/

def suppressNodeFromSearch [DecidableEq H] (db : SearchDb H) (auth : AuthContext H) (nodeId : H)
    (now : Int64) : Except (GraphError H) (SearchDb H) := do
  auth.require .admin
  return { db with searchSuppressions :=
    Table.insertOrIgnore SearchSuppressionRow.nodeId ⟨nodeId, now⟩ db.searchSuppressions }

def unsuppressNodeFromSearch [DecidableEq H] (db : SearchDb H) (auth : AuthContext H) (nodeId : H) :
    Except (GraphError H) (SearchDb H) := do
  auth.require .admin
  return { db with searchSuppressions := db.searchSuppressions.filter fun row => row.nodeId ≠ nodeId }

/-! ## Runs -/

inductive SearchOp (P : Prims H) (ε : Type)
  | store (op : Op P)
  | suppress (auth : AuthContext H) (nodeId : H) (now : Int64)
  | unsuppress (auth : AuthContext H) (nodeId : H)
  | recompute (provider : EmbeddingProvider ε) (faults : RecomputeFaults) (now : Int64)

namespace Prims

variable (P : Prims H) [DecidableEq H] {ε : Type}

def searchStep (db : SearchDb H) : SearchOp P ε → SearchDb H
  | .store op => { db with store := P.step db.store op }
  | .suppress auth nodeId now => (suppressNodeFromSearch db auth nodeId now).toOption.getD db
  | .unsuppress auth nodeId => (unsuppressNodeFromSearch db auth nodeId).toOption.getD db
  | .recompute provider faults now => (recomputeEmbeddings provider faults now db).1

def searchRun (db : SearchDb H) (ops : List (SearchOp P ε)) : SearchDb H := ops.foldl P.searchStep db

end Prims

end OpenAgentGraph
