/-
  One peer's database under every operation that writes it: the transactions
  of the peer itself, replication, the removal of a peer, and the migration of
  an artifact to the current schema.
-/
import OpenAgentGraph.Sync.Run

namespace OpenAgentGraph

open Lib Repo

variable {H : Type}

/-! ## Schema versions -/

/-- The artifacts that can be migrated one by one. -/
inductive Artifact
  | node | edge | assertion | evidence | actor
  deriving DecidableEq, Repr

structure Database (H : Type) where
  store : Store H
  /-- The column `schema_version` of the artifact tables; its default is 1. -/
  schemaVersion : Artifact → H → Int64

def Database.empty : Database H := ⟨.empty, fun _ _ => 1⟩

inductive MigrationOutcome
  | alreadyCurrent (version : Int64)
  | migrated (old new : Int64)
  deriving DecidableEq

/-- `CURRENT_VERSION`, the same for every artifact. -/
def artifactVersion : Int64 := 1

variable [DecidableEq H]

/-- The row of an artifact exists. -/
def Artifact.has (s : Store H) (id : H) : Artifact → Bool
  | node => hasNode s.proj id
  | edge => hasEdge s.proj id
  | assertion => hasAssertion s.proj id
  | evidence => Table.hasKey EvidenceRow.id id s.proj.evidence
  | actor => hasActor s.proj id

/-- `migrate_to_current` of any artifact: the version that the chain of
    migrations reaches is written back, and nothing else. -/
def migrateToCurrent (db : Database H) (kind : Artifact) (id : H) :
    Except StorageError (Database H × MigrationOutcome) :=
  if !kind.has db.store id then .error .notFound
  else
    let version := db.schemaVersion kind id
    if artifactVersion ≤ version then .ok (db, .alreadyCurrent version)
    else
      -- `MIGRATIONS` is empty, so that the chain stops at the version it starts from
      let reached := version
      .ok ({ db with schemaVersion := fun kind' id' =>
          if kind' = kind ∧ id' = id then reached else db.schemaVersion kind' id' },
        .migrated version reached)

/-- `migrate_node` and the four others. -/
def migrate (db : Database H) (auth : AuthContext H) (kind : Artifact) (id : H) :
    Except (GraphError H) (Database H × MigrationOutcome) := do
  auth.require .admin
  GraphError.lift .storage (migrateToCurrent db kind id)

/-! ## Runs -/

inductive DbOp (P : Prims H)
  | sync (op : SyncOp P)
  | addAddress (peerId : H) (address : String)
  | removePeer (peerId : H)
  /-- A `remove_peer` that is cut off between its two statements. -/
  | deleteAddresses (peerId : H)
  | migrate (auth : AuthContext H) (kind : Artifact) (id : H)

namespace Prims

variable (P : Prims H)

/-- A rebuild inserts the rows anew, with the default version. -/
def schemaVersionAfter (db : Database H) : SyncOp P → Artifact → H → Int64
  | .store .rebuild => match P.exec db.store .rebuild with
    | some _ => fun _ _ => 1
    | none => db.schemaVersion
  | _ => db.schemaVersion

def dbStep (db : Database H) : DbOp P → Database H
  | .sync op => ⟨P.syncStep db.store op, P.schemaVersionAfter db op⟩
  | .addAddress peerId address =>
    match Repo.addAddress db.store.peers db.store.peerAddresses peerId address with
    | .ok addresses => { db with store := { db.store with peerAddresses := addresses } }
    | .error _ => db
  | .removePeer peerId => { db with store := (Repo.removePeer db.store peerId).1 }
  | .deleteAddresses peerId => { db with store :=
      { db.store with peerAddresses := Repo.deleteAddresses db.store.peerAddresses peerId } }
  | .migrate auth kind id =>
    match OpenAgentGraph.migrate db auth kind id with
    | .ok (db', _) => db'
    | .error _ => db

def dbRun (db : Database H) (ops : List (DbOp P)) : Database H := ops.foldl P.dbStep db

end Prims

end OpenAgentGraph
