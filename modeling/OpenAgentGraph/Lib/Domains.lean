/-
  Domain separation.

  A key signs messages of several kinds, each after the tag of its kind.  If no
  tag begins another, a message is of one kind only, so what verifies under
  such a key was signed as what it is taken for.
-/
import Mathlib

namespace Lib

variable {κ α : Type} {tag : κ → List α}

/-- Tags none of which begins another. -/
def PrefixFree (tag : κ → List α) : Prop := ∀ k k', tag k <+: tag k' → k = k'

theorem PrefixFree.append_inj (h : PrefixFree tag) {k k' : κ} {m m' : List α}
    (heq : tag k ++ m = tag k' ++ m') : k = k' ∧ m = m' := by
  have hpre : tag k <+: tag k' ++ m' := heq ▸ List.prefix_append _ _
  obtain rfl : k = k' := by
    rcases List.prefix_or_prefix_of_prefix hpre (List.prefix_append (tag k') m') with hk | hk
    · exact h k k' hk
    · exact (h k' k hk).symm
  exact ⟨rfl, List.append_cancel_left heq⟩

/-- **Domain separation.**  Where only messages that were said are accepted, a
    message is accepted as one of a kind only if it was said as one. -/
theorem PrefixFree.accepted (h : PrefixFree tag) {accepts : List α → Prop} {said : κ → List α → Prop}
    (honly : ∀ m, accepts m → ∃ k body, said k body ∧ m = tag k ++ body) {k : κ} {m : List α}
    (haccepts : accepts (tag k ++ m)) : said k m := by
  obtain ⟨k', m', hsaid, heq⟩ := honly _ haccepts
  obtain ⟨rfl, rfl⟩ := h.append_inj heq
  exact hsaid

end Lib
