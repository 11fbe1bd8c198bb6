/-
  The distance of a vertex from a root, one edge at a time.
-/
import Mathlib

namespace Lib.Distance

variable {V : Type} {G : SimpleGraph V} {r u v : V} {k : ℕ}

theorem edist_le_succ (h : G.Adj u v) (hu : G.edist r u ≤ k) : G.edist r v ≤ (k + 1 : ℕ) := by
  have hone : G.edist u v = 1 := SimpleGraph.edist_eq_one_iff_adj.2 h
  calc G.edist r v ≤ G.edist r u + G.edist u v := SimpleGraph.edist_triangle
    _ ≤ k + 1 := by
      rw [hone]
      gcongr
    _ = (k + 1 : ℕ) := by push_cast; rfl

/-- The last step of a shortest walk. -/
theorem exists_adj_of_edist (h : G.edist r v = (k + 1 : ℕ)) : ∃ u, G.Adj u v ∧ G.edist r u = k := by
  obtain ⟨p, hp⟩ := SimpleGraph.exists_walk_of_edist_eq_coe h
  cases hrev : p.reverse with
  | nil =>
    have := congrArg SimpleGraph.Walk.length hrev
    rw [SimpleGraph.Walk.length_reverse, hp] at this
    cases this
  | @cons _ u _ hadj q =>
    have hq : q.length = k := by
      have := congrArg SimpleGraph.Walk.length hrev
      rw [SimpleGraph.Walk.length_reverse, hp, SimpleGraph.Walk.length_cons] at this
      omega
    have hle : G.edist r u ≤ k := by
      have := G.edist_le q.reverse
      rwa [SimpleGraph.Walk.length_reverse, hq] at this
    refine ⟨u, hadj.symm, ?_⟩
    obtain ⟨n, hn, hnk⟩ := ENat.le_natCast_iff.1 hle
    have hge : G.edist r v ≤ (n + 1 : ℕ) := edist_le_succ hadj.symm hn.le
    rw [h] at hge
    have hkn : k ≤ n := by
      have : k + 1 ≤ n + 1 := by exact_mod_cast hge
      omega
    rw [hn, le_antisymm hnk hkn]

end Lib.Distance
