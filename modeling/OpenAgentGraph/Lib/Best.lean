/-
  Picking a heaviest element of a list in one pass, and counting over
  sublists.

  * `foldl_best_mem`, `le_foldl_best`: the element kept is one of the list
    (or the start), and none is heavier, whether ties keep the old element or
    take the new one; `foldl_best_first`: which one it is if ties keep the old.
  * `exists_sublist_between`: a sublist grows to any length below that of the
    list.
  * `exists_distinct_sublist`: among positions that satisfy a predicate, as
    many as are needed with distinct keys.
-/
import Mathlib

namespace Lib

open scoped List

/-! ## The heaviest element -/

section best

variable {α β : Type} {r : ℕ → ℕ → Prop} [DecidableRel r] (w : β → ℕ) (f : α → β)

theorem foldl_best_mem (b : β) (xs : List α) :
    xs.foldl (fun best x => if r (w best) (w (f x)) then f x else best) b = b ∨
      ∃ x ∈ xs, xs.foldl (fun best x => if r (w best) (w (f x)) then f x else best) b = f x := by
  induction xs generalizing b with
  | nil => exact Or.inl rfl
  | cons x xs ih =>
    rw [List.foldl_cons]
    rcases ih (if r (w b) (w (f x)) then f x else b) with h | ⟨y, hy, h⟩
    · rw [h]
      by_cases hr : r (w b) (w (f x))
      · exact Or.inr ⟨x, by simp, by rw [if_pos hr]⟩
      · exact Or.inl (by rw [if_neg hr])
    · exact Or.inr ⟨y, by simp [hy], h⟩

theorem le_foldl_best (hle : ∀ a b, r a b → a ≤ b) (hge : ∀ a b, ¬ r a b → b ≤ a) (b : β)
    (xs : List α) :
    w b ≤ w (xs.foldl (fun best x => if r (w best) (w (f x)) then f x else best) b) ∧
      ∀ x ∈ xs, w (f x) ≤
        w (xs.foldl (fun best x => if r (w best) (w (f x)) then f x else best) b) := by
  induction xs generalizing b with
  | nil => exact ⟨le_rfl, by simp⟩
  | cons x xs ih =>
    rw [List.foldl_cons]
    obtain ⟨hb, hxs⟩ := ih (if r (w b) (w (f x)) then f x else b)
    by_cases hr : r (w b) (w (f x))
    · rw [if_pos hr] at hb hxs ⊢
      refine ⟨(hle _ _ hr).trans hb, ?_⟩
      intro y hy
      rcases List.mem_cons.1 hy with rfl | hy
      · exact hb
      · exact hxs y hy
    · rw [if_neg hr] at hb hxs ⊢
      refine ⟨hb, ?_⟩
      intro y hy
      rcases List.mem_cons.1 hy with rfl | hy
      · exact (hge _ _ hr).trans hb
      · exact hxs y hy

/-- With a strict comparison, the first of the heaviest elements is kept. -/
theorem foldl_best_first {before after : List α} {b : β} {c : α} (hb : w b < w (f c))
    (hbefore : ∀ x ∈ before, w (f x) < w (f c)) (hafter : ∀ x ∈ after, w (f x) ≤ w (f c)) :
    (before ++ c :: after).foldl (fun best x => if w best < w (f x) then f x else best) b = f c := by
  have hkeep : ∀ after : List α, (∀ x ∈ after, w (f x) ≤ w (f c)) →
      after.foldl (fun best x => if w best < w (f x) then f x else best) (f c) = f c := by
    intro after hafter
    induction after with
    | nil => rfl
    | cons x after ih =>
      rw [List.foldl_cons, if_neg (not_lt.2 (hafter x (by simp)))]
      exact ih fun y hy => hafter y (by simp [hy])
  rw [List.foldl_append, List.foldl_cons, if_pos ?_]
  · exact hkeep after hafter
  · rcases foldl_best_mem (r := (· < ·)) w f b before with h | ⟨x, hx, h⟩
    · rw [h]
      exact hb
    · rw [h]
      exact hbefore x hx

omit [DecidableRel r] in
theorem exists_first_heaviest (w : α → ℕ) {xs : List α} (h : xs ≠ []) :
    ∃ before c after, xs = before ++ c :: after ∧ (∀ x ∈ before, w x < w c) ∧
      ∀ x ∈ after, w x ≤ w c := by
  induction xs with
  | nil => exact absurd rfl h
  | cons x xs ih =>
    by_cases hxs : xs = []
    · exact ⟨[], x, [], by rw [hxs]; rfl, by simp, by simp⟩
    · obtain ⟨before, c, after, heq, hbefore, hafter⟩ := ih hxs
      by_cases hlt : w x < w c
      · refine ⟨x :: before, c, after, by rw [heq]; rfl, ?_, hafter⟩
        intro y hy
        rcases List.mem_cons.1 hy with rfl | hy
        · exact hlt
        · exact hbefore y hy
      · refine ⟨[], x, xs, rfl, by simp, ?_⟩
        intro y hy
        rw [heq] at hy
        rcases List.mem_append.1 hy with hy | hy
        · exact (hbefore y hy).le.trans (not_lt.1 hlt)
        · rcases List.mem_cons.1 hy with rfl | hy
          · exact not_lt.1 hlt
          · exact (hafter y hy).trans (not_lt.1 hlt)

end best

/-! ## Sublists -/

theorem exists_sublist_between {α : Type} {l m : List α} (h : l <+ m) {k : ℕ} (hl : l.length ≤ k)
    (hm : k ≤ m.length) : ∃ s, l <+ s ∧ s <+ m ∧ s.length = k := by
  induction h generalizing k with
  | slnil => exact ⟨[], List.Sublist.slnil, List.Sublist.slnil, by simp at hm; simp [hm]⟩
  | @cons l m a h ih =>
    by_cases hk : k ≤ m.length
    · obtain ⟨s, hs, hsm, hlen⟩ := ih hl hk
      exact ⟨s, hs, hsm.cons a, hlen⟩
    · refine ⟨a :: m, h.cons a, List.Sublist.refl _, ?_⟩
      simp only [List.length_cons] at hm ⊢
      omega
  | @cons_cons l m a h ih =>
    simp only [List.length_cons] at hl hm
    obtain ⟨s, hs, hsm, hlen⟩ := ih (k := k - 1) (by omega) (by omega)
    refine ⟨a :: s, hs.cons_cons a, hsm.cons_cons a, ?_⟩
    simp only [List.length_cons]
    omega

/-- If `k` outcomes satisfy `p`, then `k` of the pairs with distinct keys do,
    as soon as one is enough or all keys are distinct. -/
theorem exists_distinct_sublist {α β κ : Type} (key : α → κ) (p : β → Bool) {as : List α}
    {bs : List β} (hlen : as.length = bs.length) {k : ℕ} (hk : k ≤ bs.countP p)
    (hd : k ≤ 1 ∨ (as.map key).Nodup) :
    ∃ l, l <+ as.zip bs ∧ k ≤ l.length ∧ (l.map fun x => key x.1).Nodup ∧ ∀ x ∈ l, p x.2 = true := by
  have hcount : ((as.zip bs).filter fun x => p x.2).length = bs.countP p := by
    have hsnd : (as.zip bs).map Prod.snd = bs := List.map_snd_zip hlen.ge
    rw [← List.countP_eq_length_filter]
    conv_rhs => rw [← hsnd, List.countP_map]
    rfl
  obtain ⟨l, -, hl, hlk⟩ := exists_sublist_between (List.nil_sublist ((as.zip bs).filter fun x => p x.2))
    (k := k) (by simp) (by omega)
  have hz : l <+ as.zip bs := hl.trans List.filter_sublist
  refine ⟨l, hz, hlk.ge, ?_, ?_⟩
  · rcases hd with h1 | hnd
    · rcases l with _ | ⟨x, _ | ⟨y, l⟩⟩
      · simp
      · simp
      · simp only [List.length_cons] at hlk
        omega
    · have hfst : (as.zip bs).map (fun x => key x.1) = as.map key := by
        have h := congrArg (List.map key) (List.map_fst_zip hlen.le)
        rwa [List.map_map] at h
      exact (hfst ▸ hnd).sublist (hz.map _)
  · intro x hx
    exact (List.mem_filter.1 (hl.subset hx)).2

end Lib
