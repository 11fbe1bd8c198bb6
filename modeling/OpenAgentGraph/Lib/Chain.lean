/-
  Hash chains: lists of entries numbered 1, 2, …, each naming the id of the
  entry before it.

  `IsChain` is built by appending at the end; the lemmas read off what it says
  about an entry in the middle.
-/
import Mathlib

namespace Lib

variable {α κ : Type} {id : α → κ} {seq : α → ℤ} {prev : α → Option κ}

/-- A chain of entries, oldest first. -/
inductive IsChain (id : α → κ) (seq : α → ℤ) (prev : α → Option κ) : List α → Prop
  | nil : IsChain id seq prev []
  | snoc {l : List α} {x : α} : IsChain id seq prev l → seq x = l.length + 1 →
      prev x = l.getLast?.map id → IsChain id seq prev (l ++ [x])

namespace IsChain

theorem snoc_inv {l : List α} {x : α} (h : IsChain id seq prev (l ++ [x])) :
    IsChain id seq prev l ∧ seq x = l.length + 1 ∧ prev x = l.getLast?.map id := by
  generalize hm : l ++ [x] = m at h
  cases h with
  | nil => simp at hm
  | snoc hl hs hp =>
    obtain ⟨rfl, hx⟩ := List.append_inj' hm rfl
    obtain rfl : x = _ := by simpa using hx
    exact ⟨hl, hs, hp⟩

/-- An entry at position `k` is numbered `k + 1`. -/
theorem seq_getElem {l : List α} (h : IsChain id seq prev l) (k : ℕ) (hk : k < l.length) :
    seq l[k] = k + 1 := by
  induction h with
  | nil => simp at hk
  | @snoc l x _ hs _ ih =>
    by_cases hlt : k < l.length
    · rw [List.getElem_append_left hlt]; exact ih hlt
    · have hlen : k = l.length := by simp at hk; omega
      subst hlen
      simpa using hs

/-- Entry numbers are between 1 and the length. -/
theorem pairwise {l : List α} (h : IsChain id seq prev l) :
    l.Pairwise fun a b => seq a < seq b := by
  rw [List.pairwise_iff_getElem]
  intro i j hi hj hij
  rw [h.seq_getElem i hi, h.seq_getElem j hj]
  omega

theorem seq_bounds {l : List α} (h : IsChain id seq prev l) {x : α} (hx : x ∈ l) :
    1 ≤ seq x ∧ seq x ≤ l.length := by
  obtain ⟨k, hk, rfl⟩ := List.getElem_of_mem hx
  rw [h.seq_getElem k hk]
  omega

/-- The first entry has no predecessor. -/
theorem prev_first {l : List α} (h : IsChain id seq prev l) {x : α} (hx : x ∈ l) (hs : seq x = 1) :
    prev x = none := by
  induction h with
  | nil => cases hx
  | @snoc l y hl hsy hp ih =>
    rcases List.mem_append.1 hx with hx | hx
    · exact ih hx
    · obtain rfl : x = y := by simpa using hx
      have hnil : l = [] := by
        rw [← List.length_eq_zero_iff]
        omega
      rw [hp, hnil]
      rfl

/-- An entry names the one before it. -/
theorem prev_link {l : List α} (h : IsChain id seq prev l) {x y : α} (hx : x ∈ l) (hy : y ∈ l)
    (hs : seq y = seq x + 1) : prev y = some (id x) := by
  induction h with
  | nil => cases hx
  | @snoc l z hl hsz hp ih =>
    rcases List.mem_append.1 hy with hy' | hy'
    · rcases List.mem_append.1 hx with hx | hx
      · exact ih hx hy'
      · -- the last entry has no successor
        obtain rfl : x = z := by simpa using hx
        have := (hl.seq_bounds hy').2
        omega
    · obtain rfl : y = z := by simpa using hy'
      rcases List.mem_append.1 hx with hx | hx
      · obtain ⟨k, hk, rfl⟩ := List.getElem_of_mem hx
        have hsk := hl.seq_getElem k hk
        have hlast : l.getLast? = some l[k] := by
          rw [List.getLast?_eq_getElem?, show l.length - 1 = k by omega]
          exact List.getElem?_eq_getElem hk
        rw [hp, hlast]
        rfl
      · obtain rfl : x = y := by simpa using hx
        omega

/-- A number from 1 to the length is the number of exactly one entry. -/
theorem filter_seq {l : List α} (h : IsChain id seq prev l) (k : ℤ) (h₁ : 1 ≤ k)
    (h₂ : k ≤ l.length) : ∃ x, l.filter (fun y => decide (seq y = k)) = [x] := by
  induction h with
  | nil => simp at h₂; omega
  | @snoc l z hl hsz hp ih =>
    rw [List.filter_append]
    by_cases hk : k ≤ l.length
    · obtain ⟨x, hx⟩ := ih hk
      refine ⟨x, ?_⟩
      have hz : decide (seq z = k) = false := by simp; omega
      rw [hx, List.filter_singleton, hz]
      rfl
    · have hnone : l.filter (fun y => decide (seq y = k)) = [] := by
        rw [List.filter_eq_nil_iff]
        intro y hy
        have := (hl.seq_bounds hy).2
        simp
        omega
      have hz : decide (seq z = k) = true := by
        simp only [List.length_append, List.length_singleton, Nat.cast_add, Nat.cast_one] at h₂
        simp
        omega
      exact ⟨z, by rw [hnone, List.filter_singleton, hz]; rfl⟩

/-- The last entry is numbered by the length. -/
theorem last_seq {l : List α} (h : IsChain id seq prev l) {x : α} (hx : l.getLast? = some x) :
    x ∈ l ∧ seq x = l.length := by
  have hmem := List.mem_of_getLast? hx
  refine ⟨hmem, ?_⟩
  cases h with
  | nil => simp at hx
  | @snoc l z hl hsz hp =>
    obtain rfl : z = x := by simpa using hx
    simp [hsz]

theorem of_append {l m : List α} (h : IsChain id seq prev (l ++ m)) : IsChain id seq prev l := by
  induction m using List.reverseRecOn with
  | nil => simpa using h
  | append_singleton m x ih =>
    rw [← List.append_assoc] at h
    exact ih h.snoc_inv.1

/-- An element refers to the last one before it. -/
theorem prev_getElem {l : List α} (h : IsChain id seq prev l) {k : ℕ} {x : α} (hx : l[k]? = some x) :
    seq x = k + 1 ∧ prev x = (l.take k).getLast?.map id := by
  obtain ⟨hk, rfl⟩ := List.getElem?_eq_some_iff.1 hx
  have hsplit : l = (l.take k ++ [l[k]]) ++ l.drop (k + 1) := by
    rw [List.take_append_getElem, List.take_append_drop]
  rw [hsplit] at h
  obtain ⟨-, hseq, hprev⟩ := h.of_append.snoc_inv
  rw [List.length_take, min_eq_left hk.le] at hseq
  exact ⟨hseq, hprev⟩

/-- **The last id determines the chain.**  Two chains that end with the same id
    are the same entry by entry, as far as an id determines an entry. -/
theorem map_eq_of_last {β : Type} {view : α → β} {l l' : List α} (h : IsChain id seq prev l)
    (h' : IsChain id seq prev l')
    (hdet : ∀ x ∈ l, ∀ y ∈ l', id x = id y → view x = view y ∧ prev x = prev y)
    (hlast : l.getLast?.map id = l'.getLast?.map id) : l.map view = l'.map view := by
  induction h generalizing l' with
  | nil =>
    have hnil : l' = [] := by
      rw [← List.getLast?_eq_none_iff, ← Option.map_eq_none_iff (f := id), ← hlast]
      rfl
    rw [hnil]
  | @snoc l x hl hs hp ih =>
    cases h' with
    | nil => simp at hlast
    | @snoc l' y hl' hs' hp' =>
      have hxy : id x = id y := by simpa using hlast
      obtain ⟨hview, hprev⟩ := hdet x (by simp) y (by simp) hxy
      -- the entries before the last have the same last id, as both name it
      have hbefore := ih hl' (fun a ha b hb => hdet a (List.mem_append_left _ ha) b
        (List.mem_append_left _ hb)) (hp.symm.trans (hprev.trans hp'))
      rw [List.map_append, List.map_append, hbefore, List.map_singleton, List.map_singleton, hview]

/-- An entry is known by its number. -/
theorem eq_of_seq {l : List α} (h : IsChain id seq prev l) {x y : α} (hx : x ∈ l) (hy : y ∈ l)
    (hs : seq x = seq y) : x = y := by
  obtain ⟨i, hi, rfl⟩ := List.getElem_of_mem hx
  obtain ⟨j, hj, rfl⟩ := List.getElem_of_mem hy
  rw [h.seq_getElem i hi, h.seq_getElem j hj] at hs
  have hij : i = j := by omega
  subst hij
  rfl

/-- Chains that agree on every number have the same ids, as far as both go. -/
theorem map_take_eq {l l' : List α} (h : IsChain id seq prev l) (h' : IsChain id seq prev l')
    (hagree : ∀ x ∈ l, ∀ y ∈ l', seq x = seq y → id x = id y) (hle : l.length ≤ l'.length) :
    l.map id = (l'.take l.length).map id := by
  refine List.ext_getElem (by simp [hle]) fun k hk hk' => ?_
  have hkl : k < l.length := by simpa using hk
  rw [List.getElem_map, List.getElem_map, List.getElem_take]
  refine hagree _ (List.getElem_mem hkl) _ (List.getElem_mem (hkl.trans_le hle)) ?_
  rw [h.seq_getElem k hkl, h'.seq_getElem k (hkl.trans_le hle)]

end IsChain

end Lib
