/-
  Chains of migrations end, and compose.

  A turn of the loop brings the version of the row strictly nearer to the
  target, so that there are at most as many turns as versions in between.  A
  chain with a higher target goes on wherever one with a lower target does, so
  that it can be run in two parts.
-/
import OpenAgentGraph.Storage.Versioning
import OpenAgentGraph.Database

namespace OpenAgentGraph

open Lib HasSchemaVersion

section
variable {T : Type} [HasSchemaVersion T]

/-- The row after some steps, from the left to the right. -/
def applySteps (row : T) (steps : List (MigrationStep T)) : T := steps.foldl (fun r step => step.2 r) row

/-- Every step of `applied` is the first one for the version that the steps
    before it reach, which is below the target. -/
def AppliedInOrder (steps : List (MigrationStep T)) (target : Int64) (row : T)
    (applied : List (MigrationStep T)) : Prop :=
  ∀ i (hi : i < applied.length), schemaVersion (applySteps row (applied.take i)) < target ∧
    findStep steps (schemaVersion (applySteps row (applied.take i))) = some applied[i]

variable {target target' : Int64} {steps : List (MigrationStep T)} {row row' : T}

omit [HasSchemaVersion T] in
theorem findStep_mem {v : Int64} {step : MigrationStep T} (h : findStep steps v = some step) :
    step ∈ steps ∧ step.1 = v :=
  ⟨List.mem_of_find?_eq_some h, by simpa using List.find?_some h⟩

theorem migrateTurn_eq_some : migrateTurn target steps row = some row' ↔
    schemaVersion row < target ∧
      ∃ step, findStep steps (schemaVersion row) = some step ∧ row' = step.2 row := by
  unfold migrateTurn
  by_cases hv : target ≤ schemaVersion row
  · simp [hv, Int64.not_lt.2 hv]
  · rw [if_neg hv]
    have hlt : schemaVersion row < target := Int64.not_le.1 hv
    cases hf : findStep steps (schemaVersion row) with
    | none => simp
    | some step => simp [hlt, eq_comm]

theorem migrateTurn_eq_none : migrateTurn target steps row = none ↔
    target ≤ schemaVersion row ∨ ∀ step ∈ steps, step.1 ≠ schemaVersion row := by
  unfold migrateTurn
  by_cases hv : target ≤ schemaVersion row
  · simp [hv]
  · rw [if_neg hv, or_iff_right hv]
    cases hf : findStep steps (schemaVersion row) with
    | none => simpa [findStep] using hf
    | some step =>
      obtain ⟨hmem, hfrom⟩ := findStep_mem hf
      simp only [reduceCtorEq, false_iff]
      exact fun hnone => hnone step hmem hfrom

/-- The number of versions that a row is short of the target. -/
def versionsLeft (target : Int64) (row : T) : ℕ := (target.toInt - (schemaVersion row).toInt).toNat

/-- Every step registered from a version leaves a row of a higher one. -/
def StepsAdvance (steps : List (MigrationStep T)) : Prop :=
  ∀ step ∈ steps, ∀ row : T, schemaVersion row = step.1 → step.1 < schemaVersion (step.2 row)

theorem versionsLeft_turn (hsteps : StepsAdvance steps) (h : migrateTurn target steps row = some row') :
    versionsLeft target row' < versionsLeft target row := by
  obtain ⟨hlt, step, hfind, rfl⟩ := migrateTurn_eq_some.1 h
  obtain ⟨hmem, hfrom⟩ := findStep_mem hfind
  have hup := hsteps step hmem row hfrom.symm
  rw [hfrom, Int64.lt_iff_toInt_lt] at hup
  rw [Int64.lt_iff_toInt_lt] at hlt
  unfold versionsLeft
  omega

theorem applied_of_turns {l : List T} (h : Turns (migrateTurn target steps) row l row') :
    ∃ applied, row' = applySteps row applied ∧ AppliedInOrder steps target row applied := by
  induction h with
  | nil s => exact ⟨[], rfl, fun i hi => absurd hi (Nat.not_lt_zero i)⟩
  | @cons s s' t l hturn _ ih =>
    obtain ⟨hlt, step, hfind, rfl⟩ := migrateTurn_eq_some.1 hturn
    obtain ⟨applied, rfl, happlied⟩ := ih
    refine ⟨step :: applied, rfl, ?_⟩
    rintro (_ | i) hi
    · exact ⟨hlt, hfind⟩
    · exact happlied i (by simpa using hi)

theorem migrateTurn_mono (h : target ≤ target') (row row' : T)
    (hturn : migrateTurn target steps row = some row') : migrateTurn target' steps row = some row' := by
  obtain ⟨hlt, hstep⟩ := migrateTurn_eq_some.1 hturn
  exact migrateTurn_eq_some.2 ⟨Int64.lt_of_lt_of_le hlt h, hstep⟩

/-- **A chain of migrations ends**, within as many turns as versions are left. -/
theorem migrateToVersion_ends (hsteps : StepsAdvance steps) (row : T) :
    ∃ row', migrateToVersion (versionsLeft target row + 1) row target steps = some row' :=
  exists_loop (versionsLeft target) (fun _ _ => versionsLeft_turn hsteps) row

/-- **Migration chains terminate and compose.** -/
theorem migrate_to_version_chain (target : Int64) (steps : List (MigrationStep T))
    (hsteps : ∀ step ∈ steps, ∀ row : T, schemaVersion row = step.1 →
      step.1 < schemaVersion (step.2 row)) (row : T) :
    ∃ row', MigratesTo row target steps row' ∧ (∀ r, MigratesTo row target steps r → r = row') ∧
      (target ≤ schemaVersion row' ∨ ∀ step ∈ steps, step.1 ≠ schemaVersion row') ∧
      (∃ applied, row' = applySteps row applied ∧ AppliedInOrder steps target row applied) ∧
      MigratesTo row' target steps row' ∧
      ∀ target', target ≤ target' → ∀ r,
        MigratesTo row' target' steps r ↔ MigratesTo row target' steps r := by
  obtain ⟨row', hrun⟩ : ∃ row', migrateToVersion (versionsLeft target row + 1) row target steps = some row' :=
    migrateToVersion_ends hsteps row
  have hends : Ends (migrateTurn target steps) row row' := ⟨_, hrun⟩
  obtain ⟨hstop, l, hturns⟩ := ends_iff.1 hends
  refine ⟨row', hends, fun r hr => Ends.unique hr hends, migrateTurn_eq_none.1 hstop,
    applied_of_turns hturns, hends.ends_self, fun target' hle r => ?_⟩
  exact hends.comp (migrateTurn_mono hle)

end

/-! ## Two steps, and none -/

/-- A row of two columns, with the steps from version 1 to 2 and from 2 to 3. -/
structure ChainRow where
  schemaVersion : Int64
  value : ℤ
  deriving DecidableEq

instance : HasSchemaVersion ChainRow := ⟨ChainRow.schemaVersion⟩

def chainSteps : List (MigrationStep ChainRow) :=
  [(1, fun r => ⟨2, r.value * 10⟩), (2, fun r => ⟨3, r.value + 1⟩)]

theorem migrate_to_version_chain_two : ∃ row', MigratesTo (⟨1, 4⟩ : ChainRow) 3 chainSteps row' ∧
    (∀ r, MigratesTo (⟨1, 4⟩ : ChainRow) 3 chainSteps r → r = row') ∧ row' = ⟨3, 41⟩ := by
  obtain ⟨row', hrun, hunique, -⟩ := migrate_to_version_chain 3 chainSteps (by
    rintro step hstep row -
    rcases List.mem_cons.1 hstep with rfl | hstep
    · exact (by decide : (1 : Int64) < 2)
    · cases List.mem_singleton.1 hstep
      exact (by decide : (2 : Int64) < 3)) (⟨1, 4⟩ : ChainRow)
  exact ⟨row', hrun, hunique, (hunique ⟨3, 41⟩ ⟨3, rfl⟩).symm⟩

/-- What a migration reads of an artifact's row, and writes back. -/
structure ArtifactRow where
  version : Int64

instance : HasSchemaVersion ArtifactRow := ⟨ArtifactRow.version⟩

/-- `MIGRATIONS`, the same for every artifact. -/
def artifactMigrations : List (MigrationStep ArtifactRow) := []

/-- `migrate_to_current` of an artifact writes the version that the chain ends
    in. -/
theorem migrateToCurrent_chain {H : Type} [DecidableEq H] {db db' : Database H} {kind : Artifact} {id : H}
    {old new : Int64} (h : migrateToCurrent db kind id = .ok (db', .migrated old new)) :
    MigratesTo ⟨old⟩ artifactVersion artifactMigrations ⟨new⟩ ∧ db'.schemaVersion kind id = new := by
  unfold migrateToCurrent at h
  split at h
  · cases h
  · simp only [] at h
    split at h
    · cases h
    · cases h
      refine ⟨?_, if_pos ⟨rfl, rfl⟩⟩
      exact (ends_of_none (migrateTurn_eq_none.2 (Or.inr (by simp [artifactMigrations])))).2 rfl

end OpenAgentGraph
