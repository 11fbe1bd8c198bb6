/-
  Runs of a step function.

  What holds after a run and not before it came to hold at some step
  (`exists_moment`), so that a property of runs about what is there at the end
  is one of single steps.
-/
import Mathlib

namespace Lib

variable {σ α : Type} {f : σ → α → σ} {p : σ → Prop}

theorem exists_moment {s : σ} {as : List α} (hstart : ¬ p s) (hend : p (as.foldl f s)) :
    ∃ before a, before ++ [a] <+: as ∧ ¬ p (before.foldl f s) ∧ p (f (before.foldl f s) a) := by
  induction as using List.reverseRecOn with
  | nil => exact absurd hend hstart
  | append_singleton as a ih =>
    by_cases hlast : p (as.foldl f s)
    · obtain ⟨before, b, hpre, hnot, hthen⟩ := ih hlast
      exact ⟨before, b, hpre.trans (List.prefix_append _ _), hnot, hthen⟩
    · refine ⟨as, a, List.prefix_rfl, hlast, ?_⟩
      rwa [List.foldl_append] at hend

end Lib
