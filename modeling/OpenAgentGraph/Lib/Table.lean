/-
  Tables with a primary key, as lists of rows in insertion order.

  `insertOrIgnore` keeps a row that already has the key, `insertNew` refuses
  it, `upsert` rewrites it, `updateWhere` rewrites the rows of a condition.
  The lemmas say what each does to membership and to the set of keys.
-/
import Mathlib

namespace Lib.Table

variable {α κ : Type} [DecidableEq κ]

/-- Some row has the key. -/
def hasKey (key : α → κ) (k : κ) (t : List α) : Bool := t.any fun y => decide (key y = k)

/-- The row with the key. -/
def find (key : α → κ) (k : κ) (t : List α) : Option α := t.find? fun y => decide (key y = k)

/-- `INSERT OR IGNORE`. -/
def insertOrIgnore (key : α → κ) (x : α) (t : List α) : List α :=
  if hasKey key (key x) t then t else t ++ [x]

/-- `INSERT`, refused when the key is taken. -/
def insertNew (key : α → κ) (x : α) (t : List α) : Option (List α) :=
  if hasKey key (key x) t then none else some (t ++ [x])

/-- `UPDATE … WHERE`. -/
def updateWhere (p : α → Bool) (f : α → α) (t : List α) : List α :=
  t.map fun y => if p y then f y else y

/-- `INSERT … ON CONFLICT DO UPDATE`. -/
def upsert (key : α → κ) (x : α) (f : α → α) (t : List α) : List α :=
  if hasKey key (key x) t then updateWhere (fun y => decide (key y = key x)) f t else t ++ [x]

/-- An order in which rows are read where none is asked for. -/
structure RowOrder (α : Type) where
  read : List α → List α
  perm : ∀ t, (read t).Perm t

variable {key : α → κ} {x y : α} {k : κ} {t t' : List α}

theorem hasKey_iff : hasKey key k t = true ↔ ∃ y ∈ t, key y = k := by
  simp [hasKey]

theorem hasKey_eq_false : hasKey key k t = false ↔ ∀ y ∈ t, key y ≠ k := by
  simp [hasKey]

theorem find_eq_some (h : find key k t = some y) : y ∈ t ∧ key y = k := by
  unfold find at h
  exact ⟨List.mem_of_find?_eq_some h, by simpa using List.find?_some h⟩

theorem find_eq_none : find key k t = none ↔ ∀ y ∈ t, key y ≠ k := by
  simp [find]

theorem find_isNone : (find key k t).isNone = true ↔ ∀ y ∈ t, key y ≠ k := by
  rw [Option.isNone_iff_eq_none, find_eq_none]

theorem find_isSome : (find key k t).isSome = true ↔ ∃ y ∈ t, key y = k := by
  simp [find]

theorem mem_insertOrIgnore :
    y ∈ insertOrIgnore key x t ↔ y ∈ t ∨ (y = x ∧ ∀ z ∈ t, key z ≠ key x) := by
  unfold insertOrIgnore
  split
  · rename_i h
    obtain ⟨z, hz, hk⟩ := hasKey_iff.1 h
    constructor
    · exact Or.inl
    · rintro (hy | ⟨-, hno⟩)
      · exact hy
      · exact absurd hk (hno z hz)
  · rename_i h
    have hno := hasKey_eq_false.1 (Bool.eq_false_iff.2 h)
    simp only [List.mem_append, List.mem_singleton]
    constructor
    · rintro (hy | rfl)
      · exact Or.inl hy
      · exact Or.inr ⟨rfl, hno⟩
    · rintro (hy | ⟨rfl, -⟩)
      · exact Or.inl hy
      · exact Or.inr rfl

/-- After the insertion some row has the key. -/
theorem exists_key_insertOrIgnore : (∃ y ∈ insertOrIgnore key x t, key y = k) ↔
    (∃ y ∈ t, key y = k) ∨ k = key x := by
  constructor
  · rintro ⟨y, hy, rfl⟩
    rcases mem_insertOrIgnore.1 hy with hy | ⟨rfl, -⟩
    · exact Or.inl ⟨y, hy, rfl⟩
    · exact Or.inr rfl
  · rintro (⟨y, hy, rfl⟩ | rfl)
    · exact ⟨y, mem_insertOrIgnore.2 (Or.inl hy), rfl⟩
    · by_cases h : ∃ y ∈ t, key y = key x
      · obtain ⟨y, hy, hk⟩ := h
        exact ⟨y, mem_insertOrIgnore.2 (Or.inl hy), hk⟩
      · push Not at h
        exact ⟨x, mem_insertOrIgnore.2 (Or.inr ⟨rfl, h⟩), rfl⟩

theorem insertOrIgnore_of_mem (h : ∃ y ∈ t, key y = key x) : insertOrIgnore key x t = t := by
  unfold insertOrIgnore
  rw [if_pos (hasKey_iff.2 h)]

theorem insertOrIgnore_of_not_mem (h : ¬ ∃ y ∈ t, key y = key x) :
    insertOrIgnore key x t = t ++ [x] := by
  unfold insertOrIgnore
  rw [if_neg fun hc => h (hasKey_iff.1 hc)]

theorem insertNew_eq_some : insertNew key x t = some t' ↔ (∀ y ∈ t, key y ≠ key x) ∧ t' = t ++ [x] := by
  unfold insertNew
  split
  · rename_i h
    obtain ⟨z, hz, hk⟩ := hasKey_iff.1 h
    constructor
    · intro hc; cases hc
    · rintro ⟨hno, -⟩; exact absurd hk (hno z hz)
  · rename_i h
    have hno := hasKey_eq_false.1 (Bool.eq_false_iff.2 h)
    constructor
    · intro hc; exact ⟨hno, (Option.some.inj hc).symm⟩
    · rintro ⟨-, rfl⟩; rfl

theorem mem_updateWhere {p : α → Bool} {f : α → α} :
    y ∈ updateWhere p f t ↔ ∃ z ∈ t, y = if p z then f z else z := by
  simp only [updateWhere, List.mem_map, eq_comm (a := y)]

theorem map_updateWhere {β : Type} {p : α → Bool} {f : α → α} {g : α → β}
    (h : ∀ z ∈ t, g (f z) = g z) : (updateWhere p f t).map g = t.map g := by
  unfold updateWhere
  rw [List.map_map]
  apply List.map_congr_left
  intro z hz
  simp only [Function.comp_apply]
  split
  · exact h z hz
  · rfl

theorem filter_updateWhere {p q : α → Bool} {f : α → α} (t : List α)
    (h : ∀ y, p y = true → q y = false ∧ q (f y) = false) :
    (updateWhere p f t).filter q = t.filter q := by
  induction t with
  | nil => rfl
  | cons y t ih =>
    simp only [updateWhere, List.map_cons] at ih ⊢
    by_cases hp : p y = true
    · rw [if_pos hp, List.filter_cons_of_neg (by simp [(h y hp).2]),
        List.filter_cons_of_neg (by simp [(h y hp).1]), ih]
    · rw [if_neg hp, List.filter_cons, List.filter_cons, ih]

theorem mem_upsert {f : α → α} : y ∈ upsert key x f t ↔
    (∃ z ∈ t, y = if key z = key x then f z else z) ∨ (y = x ∧ ∀ z ∈ t, key z ≠ key x) := by
  unfold upsert
  split
  · rename_i h
    obtain ⟨z, hz, hk⟩ := hasKey_iff.1 h
    rw [mem_updateWhere]
    simp only [decide_eq_true_eq]
    constructor
    · exact Or.inl
    · rintro (hy | ⟨-, hno⟩)
      · exact hy
      · exact absurd hk (hno z hz)
  · rename_i h
    have hno := hasKey_eq_false.1 (Bool.eq_false_iff.2 h)
    simp only [List.mem_append, List.mem_singleton]
    constructor
    · rintro (hy | rfl)
      · exact Or.inl ⟨y, hy, by rw [if_neg (hno y hy)]⟩
      · exact Or.inr ⟨rfl, hno⟩
    · rintro (⟨z, hz, rfl⟩ | ⟨rfl, -⟩)
      · rw [if_neg (hno z hz)]; exact Or.inl hz
      · exact Or.inr rfl

theorem find_append_self (h : ∀ y ∈ t, key y ≠ key x) : find key (key x) (t ++ [x]) = some x := by
  have hnone : t.find? (fun y => decide (key y = key x)) = none := find_eq_none.2 h
  simp [find, List.find?_append, hnone]

theorem find_append_ne (h : key x ≠ k) : find key k (t ++ [x]) = find key k t := by
  simp [find, List.find?_append, h]

theorem find_updateWhere {p : α → Bool} {f : α → α} (hf : ∀ y, key (f y) = key y) :
    find key k (updateWhere p f t) = (find key k t).map fun y => if p y then f y else y := by
  have hkey : ∀ y, key (if p y then f y else y) = key y := by
    intro y
    split
    · exact hf y
    · rfl
  simp only [find, updateWhere, List.find?_map, Function.comp_def, hkey]

/-- After an upsert the key has the updated row, or the new one. -/
theorem find_upsert {f : α → α} (hf : ∀ y, key (f y) = key y) :
    find key (key x) (upsert key x f t) = some ((find key (key x) t).elim x f) := by
  unfold upsert
  split
  · rename_i h
    obtain ⟨y, hy⟩ := Option.isSome_iff_exists.1 (find_isSome.2 (hasKey_iff.1 h))
    obtain ⟨-, hk⟩ := find_eq_some hy
    rw [find_updateWhere hf, hy]
    simp [hk]
  · rename_i h
    have hno := hasKey_eq_false.1 (Bool.eq_false_iff.2 h)
    rw [find_append_self hno, find_eq_none.2 hno]
    rfl

theorem find_upsert_self {f : α → α} (hf : ∀ y, key (f y) = key y)
    (hx : ∀ y, key y = key x → f y = x) : find key (key x) (upsert key x f t) = some x := by
  rw [find_upsert hf]
  cases hy : find key (key x) t with
  | none => rfl
  | some y => exact congrArg some (hx y (find_eq_some hy).2)

theorem find_upsert_ne {f : α → α} (hf : ∀ y, key (f y) = key y) (hk : key x ≠ k) :
    find key k (upsert key x f t) = find key k t := by
  unfold upsert
  split
  · rw [find_updateWhere hf]
    cases hy : find key k t with
    | none => rfl
    | some y =>
      obtain ⟨-, hky⟩ := find_eq_some hy
      have hne : key y ≠ key x := by rw [hky]; exact hk.symm
      simp [hne]
  · exact find_append_ne hk

/-- A column that the update does not touch is kept. -/
theorem find_updateWhere_keeps {β : Type} {g : α → β} {p : α → Bool} {f : α → α}
    (hf : ∀ y, key (f y) = key y) (hg : ∀ y, g (f y) = g y) (h : find key k t = some y) :
    ∃ z, find key k (updateWhere p f t) = some z ∧ g z = g y := by
  rw [find_updateWhere hf, h]
  refine ⟨_, rfl, ?_⟩
  dsimp only
  split
  · exact hg y
  · rfl

theorem find_upsert_keeps {β : Type} {g : α → β} {f : α → α} (hf : ∀ y, key (f y) = key y)
    (hg : ∀ y, g (f y) = g y) (h : find key k t = some y) :
    ∃ z, find key k (upsert key x f t) = some z ∧ g z = g y := by
  by_cases hk : key x = k
  · obtain ⟨hy, hyk⟩ := find_eq_some h
    have htaken : hasKey key (key x) t = true := hasKey_iff.2 ⟨y, hy, hyk.trans hk.symm⟩
    rw [upsert, if_pos htaken]
    exact find_updateWhere_keeps hf hg h
  · exact ⟨y, (find_upsert_ne hf hk).trans h, rfl⟩

theorem find_of_nodup (h : (t.map key).Nodup) (hy : y ∈ t) : find key (key y) t = some y := by
  induction t with
  | nil => cases hy
  | cons z t ih =>
    obtain ⟨hnot, hnd⟩ := List.nodup_cons.1 h
    rcases List.mem_cons.1 hy with rfl | hy
    · simp [find]
    · have hne : key z ≠ key y := by
        intro heq
        exact hnot (heq ▸ List.mem_map_of_mem hy)
      simp only [find, List.find?_cons, hne, decide_false]
      exact ih hnd hy

theorem map_key_upsert_of_mem {f : α → α} (hf : ∀ y, key (f y) = key y) (h : key x ∈ t.map key) :
    (upsert key x f t).map key = t.map key := by
  obtain ⟨y, hy, hk⟩ := List.mem_map.1 h
  rw [upsert, if_pos (hasKey_iff.2 ⟨y, hy, hk⟩)]
  exact map_updateWhere fun y _ => hf y

theorem map_key_upsert_of_not_mem {f : α → α} (h : key x ∉ t.map key) :
    (upsert key x f t).map key = t.map key ++ [key x] := by
  have hfree : hasKey key (key x) t = false :=
    hasKey_eq_false.2 fun y hy hk => h (hk ▸ List.mem_map_of_mem hy)
  simp [upsert, hfree]

theorem nodup_upsert {f : α → α} (hf : ∀ y, key (f y) = key y) (h : (t.map key).Nodup) :
    ((upsert key x f t).map key).Nodup := by
  by_cases hx : key x ∈ t.map key
  · rw [map_key_upsert_of_mem hf hx]
    exact h
  · rw [map_key_upsert_of_not_mem hx]
    exact h.append (List.nodup_singleton _) (by simpa using hx)

theorem mem_map_key_upsert {f : α → α} (hf : ∀ y, key (f y) = key y) :
    k ∈ (upsert key x f t).map key ↔ k ∈ t.map key ∨ k = key x := by
  by_cases hx : key x ∈ t.map key
  · rw [map_key_upsert_of_mem hf hx]
    constructor
    · exact Or.inl
    · rintro (h | rfl)
      · exact h
      · exact hx
  · rw [map_key_upsert_of_not_mem hx, List.mem_append, List.mem_singleton]

theorem length_upsert_le {f : α → α} (hf : ∀ y, key (f y) = key y) :
    (upsert key x f t).length ≤ t.length + 1 := by
  have hlen : ∀ u : List α, u.length = (u.map key).length := fun u => (List.length_map key).symm
  rw [hlen, hlen t]
  by_cases hx : key x ∈ t.map key
  · rw [map_key_upsert_of_mem hf hx]
    omega
  · simp [map_key_upsert_of_not_mem hx]

/-- The entries that belong to one of several sources, each with a key of its
    own. -/
theorem filter_flatMap {β : Type} {id : β → κ} {f : α → List β}
    (hf : ∀ a ∈ t, ∀ b ∈ f a, id b = key a) (hnd : (t.map key).Nodup) (hx : x ∈ t) :
    (t.flatMap f).filter (fun b => decide (id b = key x)) = f x := by
  induction t with
  | nil => cases hx
  | cons a t ih =>
    rw [List.map_cons, List.nodup_cons] at hnd
    have hrest : ∀ a' ∈ t, ∀ b ∈ f a', id b = key a' := fun a' ha' => hf a' (List.mem_cons_of_mem _ ha')
    have hkeep : ∀ {a' : α}, a' ∈ a :: t → key a' = key x →
        (f a').filter (fun b => decide (id b = key x)) = f a' := by
      intro a' ha' hk
      refine List.filter_eq_self.2 fun b hb => ?_
      rw [hf a' ha' b hb, hk]
      exact decide_eq_true rfl
    have hdrop : ∀ l : List α, (∀ a' ∈ l, a' ∈ a :: t) → (∀ a' ∈ l, key a' ≠ key x) →
        (l.flatMap f).filter (fun b => decide (id b = key x)) = [] := by
      intro l hl hne
      refine List.filter_eq_nil_iff.2 fun b hb => ?_
      obtain ⟨a', ha', hb⟩ := List.mem_flatMap.1 hb
      rw [hf a' (hl a' ha') b hb]
      simpa using hne a' ha'
    rw [List.flatMap_cons, List.filter_append]
    rcases List.mem_cons.1 hx with rfl | hx
    · rw [hkeep (List.mem_cons_self ..) rfl, hdrop t (fun a' ha' => List.mem_cons_of_mem _ ha'),
        List.append_nil]
      intro a' ha' hk
      exact hnd.1 (hk ▸ List.mem_map_of_mem ha')
    · have hne : key a ≠ key x := fun hk => hnd.1 (hk ▸ List.mem_map_of_mem hx)
      have hfirst := hdrop [a] (fun a' ha' => by simp_all) (fun a' ha' => by simp_all)
      rw [List.flatMap_singleton] at hfirst
      rw [hfirst, List.nil_append, ih hrest hnd.2 hx]

theorem filter_of_nodup (hnd : (t.map key).Nodup) (hx : x ∈ t) :
    t.filter (fun y => decide (key y = key x)) = [x] := by
  have hself : ∀ a ∈ t, ∀ b ∈ [a], key b = key a := by simp
  have h := filter_flatMap hself hnd hx
  rwa [List.flatMap_singleton'] at h

end Lib.Table
