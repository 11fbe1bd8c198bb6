/-
  `ORDER BY`: lists sorted by a key of a linear order.

  Rows with different keys are sorted strictly, and there is one such list of
  them.
-/
import Mathlib

namespace Lib.OrderBy

variable {α κ : Type} [LinearOrder κ] {key : α → κ} {l l' : List α}

/-- Comparison by a key. -/
def leBy (key : α → κ) (a b : α) : Bool := decide (key a ≤ key b)

/-- No two entries of the list have the same key. -/
def KeyInj (key : α → κ) (l : List α) : Prop := ∀ x ∈ l, ∀ y ∈ l, key x = key y → x = y

omit [LinearOrder κ] in
theorem KeyInj.perm (h : KeyInj key l) (hp : l.Perm l') : KeyInj key l' := by
  intro x hx y hy
  exact h x (hp.mem_iff.2 hx) y (hp.mem_iff.2 hy)

theorem pairwise_sort (key : α → κ) (l : List α) :
    (l.mergeSort (leBy key)).Pairwise fun a b => key a ≤ key b := by
  have hsorted : (l.mergeSort (leBy key)).Pairwise fun a b => leBy key a b = true := by
    refine List.pairwise_mergeSort ?_ ?_ l
    · intro a b c hab hbc
      simp only [leBy, decide_eq_true_eq] at hab hbc ⊢
      exact hab.trans hbc
    · intro a b
      simpa [leBy] using le_total (key a) (key b)
  exact hsorted.imp fun h => of_decide_eq_true h

/-- Distinct rows with distinct keys are sorted strictly. -/
theorem pairwise_lt_sort (h : KeyInj key l) (hnd : l.Nodup) :
    (l.mergeSort (leBy key)).Pairwise fun a b => key a < key b := by
  have hperm := List.mergeSort_perm l (leBy key)
  have hinj := h.perm hperm.symm
  have hboth := List.Pairwise.and (pairwise_sort key l) (hperm.nodup_iff.2 hnd)
  refine hboth.imp_of_mem fun {a b} ha hb hab => lt_of_le_of_ne hab.1 fun heq => ?_
  exact hab.2 (hinj a ha b hb heq)

/-- A list is determined by its entries and their strict order. -/
theorem eq_of_pairwise_lt (h : l.Pairwise fun a b => key a < key b)
    (h' : l'.Pairwise fun a b => key a < key b) (hmem : ∀ x, x ∈ l ↔ x ∈ l') : l = l' := by
  have hirrefl : Std.Irrefl fun a b : α => key a < key b := ⟨fun _ => lt_irrefl _⟩
  have hantisymm : Std.Antisymm fun a b : α => key a < key b :=
    ⟨fun _ _ hab hba => absurd (hab.trans hba) (lt_irrefl _)⟩
  exact h.eq_of_mem_iff h' hmem

end Lib.OrderBy
