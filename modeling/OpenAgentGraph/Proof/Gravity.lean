/-
  Concurrent calls for a gravity level.

  A level that is stored stays (`gravityStep_get`), and a call that is past its
  insertion, or has returned, finds one (`GravityInv`).  So all calls for a peer
  return one level, whatever the order of their accesses.
-/
import OpenAgentGraph.Sync.Gravity

namespace OpenAgentGraph

open Lib

variable {H : Type} [DecidableEq H]

/-! ## The table -/

theorem insertGravity_of_get {t : List (NodeGravityRow H)} {q : H} {level : UInt32}
    (h : getGravity t q = some level) (roll : UInt32) (now : Int64) :
    insertGravity t q roll now = t := by
  obtain ⟨r, hr, -⟩ := Option.map_eq_some_iff.1 h
  exact Table.insertOrIgnore_of_mem ⟨r, Table.find_eq_some hr⟩

theorem insertGravity_of_none {t : List (NodeGravityRow H)} {q : H} (h : getGravity t q = none)
    (roll : UInt32) (now : Int64) : insertGravity t q roll now = t ++ [⟨q, roll, now⟩] := by
  refine Table.insertOrIgnore_of_not_mem ?_
  rintro ⟨r, hr, hq⟩
  exact Table.find_eq_none.1 (Option.map_eq_none_iff.1 h) r hr hq

/-- **A stored level stays.** -/
theorem getGravity_insertGravity {t : List (NodeGravityRow H)} {p q : H} {level : UInt32}
    (h : getGravity t p = some level) (roll : UInt32) (now : Int64) :
    getGravity (insertGravity t q roll now) p = some level := by
  cases hq : getGravity t q with
  | some _ => rwa [insertGravity_of_get hq]
  | none =>
    have hne : q ≠ p := by
      rintro rfl
      rw [hq] at h
      cases h
    rw [insertGravity_of_none hq, getGravity, Table.find_append_ne hne]
    exact h

theorem getGravity_insertGravity_isSome (t : List (NodeGravityRow H)) (q : H) (roll : UInt32)
    (now : Int64) : (getGravity (insertGravity t q roll now) q).isSome := by
  cases hq : getGravity t q with
  | some _ => rw [insertGravity_of_get hq, hq, Option.isSome_some]
  | none =>
    have hno := Table.find_eq_none.1 (Option.map_eq_none_iff.1 hq)
    let row : NodeGravityRow H := ⟨q, roll, now⟩
    have hfound : Table.find NodeGravityRow.peerId row.peerId (t ++ [row]) = some row :=
      Table.find_append_self hno
    rw [insertGravity_of_none hq, getGravity, hfound]
    rfl

/-! ## Steps -/

theorem access_get (c : GravityCall H) {t : List (NodeGravityRow H)} {p : H} {level : UInt32}
    (h : getGravity t p = some level) (roll : UInt32) :
    getGravity (c.access t roll).1 p = some level := by
  cases c with
  | started q now =>
    rw [GravityCall.access]
    split <;> exact h
  | missed q now => exact getGravity_insertGravity h roll now
  | _ => exact h

theorem gravityStep_get {s : GravityState H} (op : GravityOp H) {p : H} {level : UInt32}
    (h : getGravity s.rows p = some level) : getGravity (gravityStep s op).rows p = some level := by
  cases op with
  | call q now => exact h
  | fail i =>
    rw [gravityStep]
    split <;> exact h
  | access i roll =>
    rw [gravityStep]
    split
    · exact access_get _ h roll
    · exact h

theorem gravityRun_get {s : GravityState H} (ops : List (GravityOp H)) {p : H} {level : UInt32}
    (h : getGravity s.rows p = some level) : getGravity (gravityRun s ops).rows p = some level :=
  List.foldlRecOn ops gravityStep (motive := fun s => getGravity s.rows p = some level) h
    fun _ hs op _ => gravityStep_get op hs

/-- What a call has seen of the table. -/
def GravityCall.Sees (t : List (NodeGravityRow H)) : GravityCall H → Prop
  | inserted p _ => (getGravity t p).isSome
  | returned p level => getGravity t p = some level
  | _ => True

def GravityInv (s : GravityState H) : Prop := ∀ c ∈ s.calls, c.Sees s.rows

theorem GravityCall.Sees.mono {t t' : List (NodeGravityRow H)} {c : GravityCall H} (h : c.Sees t)
    (hget : ∀ p level, getGravity t p = some level → getGravity t' p = some level) :
    c.Sees t' := by
  cases c with
  | inserted p rolled =>
    obtain ⟨level, hlevel⟩ := Option.isSome_iff_exists.1 h
    exact Option.isSome_iff_exists.2 ⟨level, hget p level hlevel⟩
  | returned p level => exact hget p level h
  | _ => trivial

theorem GravityCall.Sees.access {t : List (NodeGravityRow H)} {c : GravityCall H} (h : c.Sees t)
    (roll : UInt32) : (c.access t roll).2.Sees (c.access t roll).1 := by
  cases c with
  | started p now =>
    rw [GravityCall.access]
    split
    · assumption
    · trivial
  | missed p now => exact getGravity_insertGravity_isSome t p roll now
  | inserted p rolled =>
    -- the read after the insertion finds a row, so its own roll is not returned
    obtain ⟨level, hlevel⟩ := Option.isSome_iff_exists.1 h
    rw [GravityCall.access, hlevel]
    exact hlevel
  | returned p level => exact h
  | failed => trivial

theorem GravityCall.Sees.fail {t : List (NodeGravityRow H)} {c : GravityCall H} (h : c.Sees t) :
    c.fail.Sees t := by
  cases c with
  | returned p level => exact h
  | _ => trivial

theorem GravityInv.step {s : GravityState H} (h : GravityInv s) (op : GravityOp H) :
    GravityInv (gravityStep s op) := by
  cases op with
  | call p now =>
    intro c hc
    rcases List.mem_append.1 hc with hc | hc
    · exact h c hc
    · obtain rfl := List.mem_singleton.1 hc
      trivial
  | fail i =>
    rw [gravityStep]
    split
    · next c hi =>
      intro c' hc'
      rcases List.mem_or_eq_of_mem_set hc' with hc' | rfl
      · exact h c' hc'
      · exact (h c (List.mem_of_getElem? hi)).fail
    · exact h
  | access i roll =>
    rw [gravityStep]
    split
    · next c hi =>
      intro c' hc'
      rcases List.mem_or_eq_of_mem_set hc' with hc' | rfl
      · exact (h c' hc').mono fun p level hp => access_get c hp roll
      · exact (h c (List.mem_of_getElem? hi)).access roll
    · exact h

theorem gravityRun_inv (rows : List (NodeGravityRow H)) (ops : List (GravityOp H)) :
    GravityInv (gravityRun ⟨rows, []⟩ ops) := by
  refine List.foldlRecOn ops gravityStep (motive := GravityInv) ?_ fun s hs op _ => hs.step op
  intro c hc
  cases hc

/-! ## Main result -/

/-- **One level for a peer.**  In every run of concurrent calls on any table, the
    level that a call has returned is the stored one ever after, and every call
    for that peer that has returned returned it. -/
theorem gravity_stable (rows : List (NodeGravityRow H)) (before after : List (GravityOp H))
    {i : ℕ} {p : H} {level : UInt32}
    (h : (gravityRun ⟨rows, []⟩ before).calls[i]? = some (.returned p level)) :
    getGravity (gravityRun ⟨rows, []⟩ (before ++ after)).rows p = some level ∧
      ∀ (j : ℕ) (level' : UInt32),
        (gravityRun ⟨rows, []⟩ (before ++ after)).calls[j]? = some (.returned p level') →
          level' = level := by
  have hnow : getGravity (gravityRun ⟨rows, []⟩ before).rows p = some level :=
    gravityRun_inv rows before _ (List.mem_of_getElem? h)
  have hlater : getGravity (gravityRun ⟨rows, []⟩ (before ++ after)).rows p = some level := by
    rw [gravityRun, List.foldl_append]
    exact gravityRun_get after hnow
  refine ⟨hlater, fun j level' hj => ?_⟩
  have hfound : getGravity (gravityRun ⟨rows, []⟩ (before ++ after)).rows p = some level' :=
    gravityRun_inv rows _ _ (List.mem_of_getElem? hj)
  exact Option.some.inj (hfound.symm.trans hlater)

/-- Two calls miss, and both insert: the second one returns the roll of the
    first. -/
theorem gravity_stable_race :
    let ops : List (GravityOp ℕ) := [.call 0 1, .call 0 2, .access 0 0, .access 1 0, .access 0 7,
      .access 1 8, .access 1 8]
    (gravityRun ⟨[], []⟩ ops).calls[1]? = some (.returned 0 7) ∧
      ∀ (j : ℕ) (level : UInt32),
        (gravityRun ⟨[], []⟩ (ops ++ [.access 0 7])).calls[j]? = some (.returned 0 level) →
          level = 7 := by
  intro ops
  have hreturned : (gravityRun ⟨[], []⟩ ops).calls[1]? = some (.returned 0 7) := rfl
  exact ⟨hreturned, (gravity_stable [] ops [.access 0 7] hreturned).2⟩

end OpenAgentGraph
