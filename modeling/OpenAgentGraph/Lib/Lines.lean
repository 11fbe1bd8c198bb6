/-
  Texts of lines, and what surrounds the parts of a line.

  What reads the lines of a text and takes no notice of a carriage return at the
  end of a line, and of an empty line, reads the parts between the line feeds
  (`filterMap_lines`).
-/
import OpenAgentGraph.Lib.FormUrl
import Mathlib.Data.List.DropRight

namespace Lib

/-! ## Trimming -/

section
variable {α : Type} {p : α → Bool} {a b t u v : List α} {x : α}

/-- A list without the elements at either end that satisfy `p`. -/
def trimBy (p : α → Bool) (t : List α) : List α := (t.dropWhile p).rdropWhile p

theorem rdropWhile_append_of_all (hb : ∀ c ∈ b, p c = true) : (t ++ b).rdropWhile p = t.rdropWhile p := by
  rw [List.rdropWhile, List.reverse_append, List.dropWhile_append_of_pos (by simpa using hb), List.rdropWhile]

theorem rdropWhile_cons (hx : p x = false) : (u ++ x :: v).rdropWhile p = u ++ x :: v.rdropWhile p := by
  rw [List.rdropWhile, List.reverse_append, List.reverse_cons, List.append_assoc, List.dropWhile_append,
    List.singleton_append, List.dropWhile_cons_of_neg (by simp [hx]), List.rdropWhile]
  split_ifs with hv
  · rw [List.isEmpty_iff.1 hv]
    simp
  · simp

theorem trimBy_append_left (ha : ∀ c ∈ a, p c = true) : trimBy p (a ++ t) = trimBy p t := by
  rw [trimBy, List.dropWhile_append_of_pos ha, trimBy]

theorem trimBy_append_right (hb : ∀ c ∈ b, p c = true) : trimBy p (t ++ b) = trimBy p t := by
  rw [trimBy, trimBy, List.dropWhile_append]
  split_ifs with ht
  · rw [List.isEmpty_iff.1 ht, List.dropWhile_eq_nil_iff.2 hb]
  · exact rdropWhile_append_of_all hb

theorem trimBy_of_all (ha : ∀ c ∈ a, p c = true) : trimBy p a = [] := by
  rw [trimBy, List.dropWhile_eq_nil_iff.2 ha]
  rfl

theorem trimBy_of_none (ht : ∀ c ∈ t, p c = false) : trimBy p t = t := by
  have hdrop : t.dropWhile p = t :=
    List.dropWhile_eq_self_iff.2 fun hlen => by simp [ht _ (List.getElem_mem hlen)]
  rw [trimBy, hdrop]
  exact List.rdropWhile_eq_self_iff.2 fun hne => by simp [ht _ (List.getLast_mem hne)]

theorem trimBy_rdropWhile : trimBy p (t.rdropWhile p) = trimBy p t := by
  have hall : ∀ c ∈ t.rtakeWhile p, p c = true := fun c hc => List.mem_rtakeWhile_imp hc
  rw [← trimBy_append_right hall, List.rdropWhile_append_rtakeWhile]

/-- A list that starts without elements to drop, around an element to keep. -/
theorem trimBy_cons (hu : ∀ c ∈ u.head?, p c = false) (hne : u ≠ []) (hx : p x = false) :
    trimBy p (u ++ x :: v) = u ++ x :: v.rdropWhile p := by
  obtain ⟨c, u, rfl⟩ := List.exists_cons_of_ne_nil hne
  rw [trimBy, List.cons_append, List.dropWhile_cons_of_neg (by simp [hu c (by simp)]), ← List.cons_append,
    rdropWhile_cons hx]

end

/-! ## Lines -/

/-- A line without a carriage return at its end. -/
def stripCr (l : Text) : Text := if l.getLast? = some '\r' then l.dropLast else l

/-- Every part but the last one ended with a line feed. -/
def linesOf : List Text → List Text
  | [] => []
  | [last] => if last = [] then [] else [last]
  | l :: rest => stripCr l :: linesOf rest

/-- `str::lines`. -/
def lines (t : Text) : List Text := linesOf (t.splitOn '\n')

/-- `split_once`. -/
def splitOnce (c : Char) (t : Text) : Option (Text × Text) :=
  if c ∈ t then some (t.takeWhile (· ≠ c), (t.dropWhile (· ≠ c)).drop 1) else none

theorem splitOnce_append {c : Char} {a b : Text} (ha : c ∉ a) : splitOnce c (a ++ c :: b) = some (a, b) := by
  rw [splitOnce, if_pos (by simp), (cut_first ha).1, (cut_first ha).2]

theorem stripCr_cases (l : Text) : stripCr l = l ∨ l = stripCr l ++ ['\r'] := by
  unfold stripCr
  split_ifs with h
  · exact Or.inr (List.dropLast_append_getLast? '\r' h).symm
  · exact Or.inl rfl

section
variable {β : Type} {f : Text → Option β}

theorem filterMap_linesOf (hnil : f [] = none) (hcr : ∀ l, f (stripCr l) = f l) (ls : List Text) :
    (linesOf ls).filterMap f = ls.filterMap f := by
  induction ls with
  | nil => rfl
  | cons l rest ih =>
    cases rest with
    | nil =>
      by_cases hl : l = []
      · rw [linesOf, if_pos hl, hl, List.filterMap_cons_none hnil]
      · rw [linesOf, if_neg hl]
    | cons l' rest =>
      rw [linesOf, List.filterMap_cons, List.filterMap_cons, hcr, ih]
      simp

theorem filterMap_lines (hnil : f [] = none) (hcr : ∀ l, f (stripCr l) = f l) {ls : List Text}
    (hls : ∀ l ∈ ls, '\n' ∉ l) : (lines (['\n'].intercalate ls)).filterMap f = ls.filterMap f := by
  rw [lines, filterMap_linesOf hnil hcr]
  rcases eq_or_ne ls [] with rfl | hne
  · exact List.filterMap_cons_none hnil
  · rw [List.splitOn_intercalate '\n' hls hne]

end

end Lib
