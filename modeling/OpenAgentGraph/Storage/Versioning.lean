/-
  Artifact versioning (`oag-storage`: `versioning.rs`).

  Every row carries the version of the schema it was written under, and a
  chain of steps brings an older row to the current one.
-/
import OpenAgentGraph.Lib.Loop

namespace OpenAgentGraph

open Lib

/-- A row that knows its own stored schema version. -/
class HasSchemaVersion (T : Type) where
  schemaVersion : T → Int64

/-- The version that a step applies from, and the function that advances a
    row past it. -/
abbrev MigrationStep (T : Type) := Int64 × (T → T)

variable {T : Type} [HasSchemaVersion T]

open HasSchemaVersion

/-- `steps.iter().find(|(from, _)| *from == current)` -/
def findStep (steps : List (MigrationStep T)) (current : Int64) : Option (MigrationStep T) :=
  steps.find? fun step => step.1 = current

/-- One turn of the loop of `migrate_to_version`; `none` where it returns. -/
def migrateTurn (target : Int64) (steps : List (MigrationStep T)) (row : T) : Option T :=
  let current := schemaVersion row
  if target ≤ current then none
  else match findStep steps current with
    | some (_, step) => some (step row)
    | none => none

/-- `migrate_to_version`, for as many turns as `fuel` allows. -/
def migrateToVersion (fuel : ℕ) (row : T) (target : Int64) (steps : List (MigrationStep T)) :
    Option T :=
  loop (migrateTurn target steps) fuel row

/-- `migrate_to_version` returns `row'`. -/
def MigratesTo (row : T) (target : Int64) (steps : List (MigrationStep T)) (row' : T) : Prop :=
  ∃ fuel, migrateToVersion fuel row target steps = some row'

end OpenAgentGraph
