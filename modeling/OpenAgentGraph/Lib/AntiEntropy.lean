/-
  Anti-entropy: nodes that gather items from one another, one pull at a time.

  A pull need not bring all that the puller lacks.  It is enough that it brings
  something as long as something is lacking (`brings`): items are finitely many
  and none is lost, so the network comes to rest, and at rest a node has all
  that the nodes hold from which it pulls again and again (`IsGathering.settles`).
-/
import Mathlib

namespace Lib

variable {ι κ : Type} {held : ℕ → ι → Set κ} {pull : ℕ → Option (ι × ι)}

/-- What each node holds, from one moment to the next.  At each moment one node
    pulls from another, or none does. -/
structure IsGathering (held : ℕ → ι → Set κ) (pull : ℕ → Option (ι × ι)) : Prop where
  /-- Only the puller's items change. -/
  rest : ∀ n k, (∀ j, pull n ≠ some (k, j)) → held (n + 1) k = held n k
  grows : ∀ n i j, pull n = some (i, j) → held n i ⊆ held (n + 1) i
  sources : ∀ n i j, pull n = some (i, j) → held (n + 1) i ⊆ held n i ∪ held n j
  /-- A pull brings something as long as something is lacking. -/
  brings : ∀ n i j, pull n = some (i, j) → held (n + 1) i = held n i → held n j ⊆ held n i

/-- The first node pulls from the second again and again. -/
def PullsForever (pull : ℕ → Option (ι × ι)) (i j : ι) : Prop :=
  ∃ᶠ n in Filter.atTop, pull n = some (i, j)

namespace IsGathering

theorem subset_succ (h : IsGathering held pull) (n : ℕ) (k : ι) : held n k ⊆ held (n + 1) k := by
  by_cases hk : ∃ j, pull n = some (k, j)
  · obtain ⟨j, hj⟩ := hk
    exact h.grows n k j hj
  · rw [h.rest n k fun j hj => hk ⟨j, hj⟩]

/-- Nothing is lost. -/
theorem monotone (h : IsGathering held pull) : Monotone held :=
  monotone_nat_of_le_succ fun n k => h.subset_succ n k

/-- Nothing appears that no node held. -/
theorem subset_initial (h : IsGathering held pull) (n : ℕ) (k : ι) :
    held n k ⊆ ⋃ j, held 0 j := by
  induction n generalizing k with
  | zero => exact Set.subset_iUnion (held 0) k
  | succ n ih =>
    by_cases hk : ∃ j, pull n = some (k, j)
    · obtain ⟨j, hj⟩ := hk
      exact (h.sources n k j hj).trans (Set.union_subset (ih k) (ih j))
    · rw [h.rest n k fun j hj => hk ⟨j, hj⟩]
      exact ih k

variable [Finite ι] [Finite κ]

/-- The network comes to rest. -/
theorem stops (h : IsGathering held pull) : ∃ N, ∀ n, N ≤ n → held n = held N := by
  obtain ⟨N, hN⟩ := WellFoundedGT.monotone_chain_condition (⟨held, h.monotone⟩ : ℕ →o (ι → Set κ))
  exact ⟨N, fun n hn => (hN n hn).symm⟩

/-- **A network settles.**  From some moment on a node holds what a node holds
    from which it pulls again and again, directly or through others. -/
theorem settles (h : IsGathering held pull) : ∃ N, ∀ n, N ≤ n → ∀ i j,
    Relation.ReflTransGen (PullsForever pull) i j → held n j ⊆ held n i := by
  obtain ⟨N, hN⟩ := h.stops
  refine ⟨N, fun n hn i j hij => ?_⟩
  rw [hN n hn]
  induction hij with
  | refl => exact subset_rfl
  | @tail j k _ hjk ih =>
    obtain ⟨m, hm, hpull⟩ := Filter.frequently_atTop.1 hjk N
    -- the pull at `m` brings nothing, so nothing is lacking
    have hsame : held (m + 1) j = held m j := by rw [hN m hm, hN (m + 1) (hm.trans m.le_succ)]
    have hsub := h.brings m j k hpull hsame
    rw [hN m hm] at hsub
    exact hsub.trans ih

/-- **A connected network agrees**: in the end each node holds what any node
    held at the start. -/
theorem agrees (h : IsGathering held pull)
    (hconn : ∀ i j, Relation.ReflTransGen (PullsForever pull) i j) :
    ∃ N, ∀ n, N ≤ n → ∀ i, held n i = ⋃ j, held 0 j := by
  obtain ⟨N, hN⟩ := h.settles
  refine ⟨N, fun n hn i => (h.subset_initial n i).antisymm ?_⟩
  exact Set.iUnion_subset fun j => (h.monotone (Nat.zero_le n) j).trans (hN n hn i j (hconn i j))

end IsGathering

end Lib
