/-
  The PageRank of the edges conserves mass and does not depend on their order.
-/
import OpenAgentGraph.Graph.Authority

namespace OpenAgentGraph

open Lib Lib.Scatter

variable {H : Type} [LinearOrder H]

/-! ## The graph of the edges -/

def targetsOf (edges : List (H × H)) (source : H) : List H :=
  (edges.filter fun e => e.1 = source).map Prod.snd

/-- The nodes with an edge out of them. -/
def sources (edges : List (H × H)) : Finset H := (edges.map Prod.fst).toFinset

variable {edges edges' : List (H × H)} {v s : H}

theorem mem_rankedNodes : v ∈ rankedNodes edges ↔ ∃ e ∈ edges, v = e.1 ∨ v = e.2 := by
  have hfold : ∀ (edges : List (H × H)) (nodes : Finset H),
      v ∈ edges.foldl (fun nodes e => insert e.2 (insert e.1 nodes)) nodes ↔
        v ∈ nodes ∨ ∃ e ∈ edges, v = e.1 ∨ v = e.2 := by
    intro edges
    induction edges with
    | nil => simp
    | cons e edges ih =>
      intro nodes
      rw [List.foldl_cons, ih, List.exists_mem_cons_iff]
      simp only [Finset.mem_insert]
      grind
  rw [rankedNodes, Finset.mem_sort, hfold]
  simp

theorem nodup_rankedNodes : (rankedNodes edges).Nodup := Finset.sort_nodup ..

theorem mem_sources : s ∈ sources edges ↔ ∃ e ∈ edges, e.1 = s := by
  simp [sources]

theorem sources_subset : sources edges ⊆ (rankedNodes edges).toFinset := by
  intro s hs
  obtain ⟨e, he, rfl⟩ := mem_sources.1 hs
  exact List.mem_toFinset.2 (mem_rankedNodes.2 ⟨e, he, Or.inl rfl⟩)

theorem mem_targetsOf {t : H} : t ∈ targetsOf edges s ↔ (s, t) ∈ edges := by
  unfold targetsOf
  constructor
  · intro ht
    obtain ⟨e, he, rfl⟩ := List.mem_map.1 ht
    obtain ⟨he, hs⟩ := List.mem_filter.1 he
    rw [← of_decide_eq_true hs]
    exact he
  · intro he
    exact List.mem_map.2 ⟨(s, t), List.mem_filter.2 ⟨he, decide_eq_true rfl⟩, rfl⟩

theorem targetsOf_ne_nil : targetsOf edges s ≠ [] ↔ s ∈ sources edges := by
  rw [mem_sources]
  constructor
  · intro hne
    obtain ⟨t, ht⟩ := List.exists_mem_of_ne_nil _ hne
    exact ⟨(s, t), mem_targetsOf.1 ht, rfl⟩
  · rintro ⟨⟨_, t⟩, he, rfl⟩
    exact List.ne_nil_of_mem (mem_targetsOf.2 he)

theorem targetsOf_append (e : H × H) : targetsOf (edges ++ [e]) s
    = if e.1 = s then targetsOf edges s ++ [e.2] else targetsOf edges s := by
  unfold targetsOf
  rw [List.filter_append, List.map_append]
  by_cases hs : e.1 = s <;> simp [hs]

/-- The map of out-edges holds each source once, with the targets of its
    edges. -/
structure OutsOf (edges : List (H × H)) (outs : List (H × List H)) : Prop where
  nodup : (outs.map Prod.fst).Nodup
  targets : ∀ y ∈ outs, y.2 = targetsOf edges y.1
  keys : ∀ s, s ∈ outs.map Prod.fst ↔ s ∈ sources edges

theorem outsOf_outEdges (edges : List (H × H)) : OutsOf edges (outEdges edges) := by
  induction edges using List.reverseRecOn with
  | nil => exact ⟨List.nodup_nil, by rintro y ⟨⟩, by simp [outEdges, sources]⟩
  | append_singleton edges e ih =>
    have hstep : outEdges (edges ++ [e]) = Table.upsert Prod.fst (e.1, [e.2])
        (fun y => (y.1, y.2 ++ [e.2])) (outEdges edges) := by
      simp [outEdges]
    rw [hstep]
    refine ⟨Table.nodup_upsert (fun _ => rfl) ih.nodup, ?_, ?_⟩
    · intro y hy
      rw [targetsOf_append]
      rcases Table.mem_upsert.1 hy with ⟨z, hz, rfl⟩ | ⟨rfl, hno⟩
      · by_cases hk : z.1 = e.1
        · simp [hk, ih.targets z hz]
        · simp [hk, Ne.symm hk, ih.targets z hz]
      · have hnew : targetsOf edges e.1 = [] := by
          by_contra hne
          obtain ⟨y, hy, hk⟩ := List.mem_map.1 ((ih.keys _).2 (targetsOf_ne_nil.1 hne))
          exact hno y hy hk
        simp [hnew]
    · intro s
      have hkeys : s ∈ (Table.upsert Prod.fst (e.1, [e.2]) (fun y => (y.1, y.2 ++ [e.2]))
          (outEdges edges)).map Prod.fst ↔ s ∈ (outEdges edges).map Prod.fst ∨ s = e.1 :=
        Table.mem_map_key_upsert fun _ => rfl
      rw [hkeys, ih.keys, mem_sources, mem_sources]
      simp only [List.mem_append, List.mem_singleton, or_and_right, exists_or, exists_eq_left,
        eq_comm (a := s)]

namespace OutsOf

variable {outs outs' : List (H × List H)}

theorem perm (h : OutsOf edges outs) (hperm : outs'.Perm outs) : OutsOf edges outs' where
  nodup := (hperm.map Prod.fst).nodup_iff.2 h.nodup
  targets y hy := h.targets y (hperm.mem_iff.1 hy)
  keys s := (hperm.map Prod.fst).mem_iff.trans (h.keys s)

theorem eq_map (h : OutsOf edges outs) :
    outs = (outs.map Prod.fst).map fun s => (s, targetsOf edges s) := by
  rw [List.map_map]
  conv_lhs => rw [← List.map_id outs]
  exact List.map_congr_left fun y hy => Prod.ext rfl (h.targets y hy)

theorem sum_keys (h : OutsOf edges outs) (g : H → ℚ) :
    ((outs.map Prod.fst).map g).sum = ∑ s ∈ sources edges, g s := by
  have hset : (outs.map Prod.fst).toFinset = sources edges := by
    ext s
    rw [List.mem_toFinset, h.keys]
  rw [← hset, List.sum_toFinset g h.nodup]

end OutsOf

theorem isDangling_outEdges (s : H) :
    isDangling (outEdges edges) s = true ↔ s ∉ sources edges := by
  have h := outsOf_outEdges edges
  unfold isDangling
  cases hfind : Table.find Prod.fst s (outEdges edges) with
  | none =>
    have hno := Table.find_eq_none.1 hfind
    simp only [Option.map_none, Option.getD_none, true_iff]
    intro hs
    obtain ⟨y, hy, hk⟩ := List.mem_map.1 ((h.keys s).2 hs)
    exact hno y hy hk
  | some y =>
    obtain ⟨hy, rfl⟩ := Table.find_eq_some hfind
    rw [← targetsOf_ne_nil, Option.map_some, Option.getD_some, List.isEmpty_iff, h.targets y hy,
      not_not]

/-! ## One iteration -/

/-- The mass that one iteration gives to every node alike. -/
def baseOf (edges : List (H × H)) (f : H → ℚ) : ℚ :=
  (1 - damping) / (rankedNodes edges).length
    + damping * (∑ v ∈ (rankedNodes edges).toFinset \ sources edges, f v) / (rankedNodes edges).length

/-- The mass that one iteration sends along one edge of a source. -/
def shareOf (edges : List (H × H)) (f : H → ℚ) (s : H) : ℚ :=
  damping * f s / (targetsOf edges s).length

/-- The scores of the next iteration, as a function of the nodes. -/
def nextScore (edges : List (H × H)) (f : H → ℚ) (v : H) : ℚ :=
  baseOf edges f + ∑ s ∈ sources edges, shareOf edges f s * (targetsOf edges s).count v

variable {f : H → ℚ}

theorem danglingMass_tabulate :
    danglingMass (rankedNodes edges) (outEdges edges) (tabulate (rankedNodes edges) f)
      = some (∑ v ∈ (rankedNodes edges).toFinset \ sources edges, f v) := by
  have hset : ((rankedNodes edges).filter (isDangling (outEdges edges))).toFinset
      = (rankedNodes edges).toFinset \ sources edges := by
    ext v
    rw [List.mem_toFinset, List.mem_filter, isDangling_outEdges, Finset.mem_sdiff, List.mem_toFinset]
  unfold danglingMass
  rw [mapM_amount fun v hv => List.mem_of_mem_filter hv, ← hset,
    List.sum_toFinset f (nodup_rankedNodes.filter _)]
  rfl

theorem spread_tabulate {g : H → ℚ} (hs : s ∈ sources edges) :
    spread (tabulate (rankedNodes edges) f) (tabulate (rankedNodes edges) g) (s, targetsOf edges s)
      = some (tabulate (rankedNodes edges) fun v =>
          g v + shareOf edges f s * (targetsOf edges s).count v) := by
  have hne := targetsOf_ne_nil.2 hs
  have hmem : s ∈ rankedNodes edges := List.mem_toFinset.1 (sources_subset hs)
  have htargets : ∀ t ∈ targetsOf edges s, t ∈ rankedNodes edges := fun t ht =>
    mem_rankedNodes.2 ⟨(s, t), mem_targetsOf.1 ht, Or.inr rfl⟩
  unfold spread
  rw [if_neg (by simpa using hne), amount_tabulate hmem]
  exact foldlM_addAt _ htargets

theorem foldlM_spread {g : H → ℚ} {ss : List H} (hss : ∀ s ∈ ss, s ∈ sources edges) :
    (ss.map fun s => (s, targetsOf edges s)).foldlM (spread (tabulate (rankedNodes edges) f))
        (tabulate (rankedNodes edges) g)
      = some (tabulate (rankedNodes edges) fun v =>
          g v + (ss.map fun s => shareOf edges f s * (targetsOf edges s).count v).sum) := by
  induction ss generalizing g with
  | nil => simp
  | cons s ss ih =>
    obtain ⟨hs, hss⟩ := List.forall_mem_cons.1 hss
    rw [List.map_cons, List.foldlM_cons, spread_tabulate hs, Option.bind_eq_bind, Option.bind_some,
      ih hss]
    simp only [List.map_cons, List.sum_cons, add_assoc]

/-- Whatever the order of the map, one iteration is `nextScore`. -/
theorem powerStep_tabulate (order : Table.RowOrder (H × List H)) (edges : List (H × H))
    (f : H → ℚ) :
    powerStep order (rankedNodes edges) (outEdges edges) (tabulate (rankedNodes edges) f)
      = some (tabulate (rankedNodes edges) (nextScore edges f)) := by
  have hread := (outsOf_outEdges edges).perm (order.perm (outEdges edges))
  unfold powerStep
  rw [danglingMass_tabulate, Option.bind_eq_bind, Option.bind_some, hread.eq_map,
    foldlM_spread fun s hs => (hread.keys s).1 hs]
  refine congrArg (fun g => some (tabulate (rankedNodes edges) g)) (funext fun v => ?_)
  rw [hread.sum_keys]
  rfl

theorem movement_tabulate (g : H → ℚ) :
    movement (rankedNodes edges) (tabulate (rankedNodes edges) f) (tabulate (rankedNodes edges) g)
      = some ((rankedNodes edges).map fun v => |g v - f v|).sum := by
  have hmoved : ∀ l : List H, (∀ v ∈ l, v ∈ rankedNodes edges) → l.mapM (fun id => do
      let new ← amount (tabulate (rankedNodes edges) g) id
      let old ← amount (tabulate (rankedNodes edges) f) id
      return |new - old|) = some (l.map fun v => |g v - f v|) := by
    intro l
    induction l with
    | nil => exact fun _ => rfl
    | cons v l ih =>
      intro hl
      obtain ⟨hv, hl⟩ := List.forall_mem_cons.1 hl
      rw [List.mapM_cons, amount_tabulate hv, amount_tabulate hv, ih hl]
      rfl
  unfold movement
  rw [hmoved _ fun v hv => hv]
  rfl

/-! ## Mass -/

theorem sum_baseOf (hne : rankedNodes edges ≠ []) :
    (rankedNodes edges).length * baseOf edges f
      = (1 - damping) + damping * ∑ v ∈ (rankedNodes edges).toFinset \ sources edges, f v := by
  have hn : ((rankedNodes edges).length : ℚ) ≠ 0 := by
    exact_mod_cast List.length_pos_iff.2 hne |>.ne'
  unfold baseOf
  field_simp

/-- What the sources send is their damped mass. -/
theorem sum_shareOf (edges : List (H × H)) (f : H → ℚ) :
    ∑ v ∈ (rankedNodes edges).toFinset, ∑ s ∈ sources edges,
        shareOf edges f s * ((targetsOf edges s).count v : ℚ)
      = damping * ∑ s ∈ sources edges, f s := by
  rw [Finset.sum_comm, Finset.mul_sum]
  refine Finset.sum_congr rfl fun s hs => ?_
  have hlen : ((targetsOf edges s).length : ℚ) ≠ 0 := by
    exact_mod_cast List.length_pos_iff.2 (targetsOf_ne_nil.2 hs) |>.ne'
  rw [sum_count_mul _ fun t ht => List.mem_toFinset.2 (mem_rankedNodes.2
    ⟨(s, t), mem_targetsOf.1 ht, Or.inr rfl⟩)]
  unfold shareOf
  field_simp

/-- One iteration keeps a mass of one. -/
theorem sum_nextScore (hne : rankedNodes edges ≠ [])
    (hsum : ∑ v ∈ (rankedNodes edges).toFinset, f v = 1) :
    ∑ v ∈ (rankedNodes edges).toFinset, nextScore edges f v = 1 := by
  have hcard : ((rankedNodes edges).toFinset.card : ℚ) = (rankedNodes edges).length := by
    rw [List.toFinset_card_of_nodup nodup_rankedNodes]
  calc ∑ v ∈ (rankedNodes edges).toFinset, nextScore edges f v
      = (rankedNodes edges).length * baseOf edges f + damping * ∑ s ∈ sources edges, f s := by
        unfold nextScore
        rw [Finset.sum_add_distrib, sum_shareOf, Finset.sum_const, nsmul_eq_mul, hcard]
    _ = (1 - damping) + damping * (∑ v ∈ (rankedNodes edges).toFinset \ sources edges, f v
          + ∑ s ∈ sources edges, f s) := by
        rw [sum_baseOf hne]
        ring
    _ = 1 := by
        rw [Finset.sum_sdiff sources_subset, hsum]
        ring

theorem nextScore_pos (hne : rankedNodes edges ≠ []) (hpos : ∀ v ∈ rankedNodes edges, 0 < f v) :
    0 < nextScore edges f v := by
  have hn : (0 : ℚ) < (rankedNodes edges).length := by
    exact_mod_cast List.length_pos_iff.2 hne
  have hd : 0 < damping ∧ damping < 1 := by
    unfold damping
    norm_num
  have hmass : 0 ≤ ∑ v ∈ (rankedNodes edges).toFinset \ sources edges, f v :=
    Finset.sum_nonneg fun v hv =>
      (hpos v (List.mem_toFinset.1 (Finset.mem_sdiff.1 hv).1)).le
  have hbase : 0 < baseOf edges f := by
    have hjump : 0 < (1 - damping) / (rankedNodes edges).length := div_pos (by linarith [hd.2]) hn
    have hrest := div_nonneg (mul_nonneg hd.1.le hmass) hn.le
    unfold baseOf
    linarith
  have hshares : 0 ≤ ∑ s ∈ sources edges, shareOf edges f s * (targetsOf edges s).count v := by
    refine Finset.sum_nonneg fun s hs => mul_nonneg (div_nonneg (mul_nonneg hd.1.le ?_) ?_) ?_
    · exact (hpos s (List.mem_toFinset.1 (sources_subset hs))).le
    · exact Nat.cast_nonneg _
    · exact Nat.cast_nonneg _
  unfold nextScore
  linarith

/-! ## Runs -/

/-- The scores after `k` iterations, as a function of the nodes. -/
def scoreAfter (edges : List (H × H)) : Nat → H → ℚ
  | 0 => fun _ => 1 / (rankedNodes edges).length
  | k + 1 => nextScore edges (scoreAfter edges k)

theorem scoresAfter_eq (order : Table.RowOrder (H × List H)) (edges : List (H × H)) (k : Nat) :
    scoresAfter order edges k = some (tabulate (rankedNodes edges) (scoreAfter edges k)) := by
  induction k with
  | zero => rfl
  | succ k ih =>
    rw [scoresAfter, ih, Option.bind_eq_bind, Option.bind_some, powerStep_tabulate]
    rfl

theorem scoreAfter_spec (hne : rankedNodes edges ≠ []) (k : Nat) :
    (∀ v ∈ rankedNodes edges, 0 < scoreAfter edges k v) ∧
    ∑ v ∈ (rankedNodes edges).toFinset, scoreAfter edges k v = 1 := by
  induction k with
  | zero =>
    have hn : (0 : ℚ) < (rankedNodes edges).length := by
      exact_mod_cast List.length_pos_iff.2 hne
    refine ⟨fun v _ => div_pos one_pos hn, ?_⟩
    unfold scoreAfter
    rw [Finset.sum_const, List.toFinset_card_of_nodup nodup_rankedNodes, nsmul_eq_mul]
    field_simp
  | succ k ih => exact ⟨fun v _ => nextScore_pos hne ih.1, sum_nextScore hne ih.2⟩

/-- The loop stops after some iterations, with the scores after them. -/
theorem powerLoop_eq (edges : List (H × H)) (order : Table.RowOrder (H × List H)) (left run : Nat) :
    ∃ k, run ≤ k ∧ k ≤ run + left ∧ (0 < left → run < k) ∧
      powerLoop order (rankedNodes edges) (outEdges edges) left run
          (tabulate (rankedNodes edges) (scoreAfter edges run))
        = some (tabulate (rankedNodes edges) (scoreAfter edges k), k) := by
  induction left generalizing run with
  | zero => exact ⟨run, le_rfl, le_rfl, fun h => absurd h (lt_irrefl _), rfl⟩
  | succ left ih =>
    simp only [powerLoop, powerStep_tabulate, movement_tabulate, Option.bind_eq_bind,
      Option.bind_some]
    split
    · exact ⟨run + 1, by omega, by omega, fun _ => by omega, rfl⟩
    · obtain ⟨k, hle, hk, -, heq⟩ := ih (run + 1)
      exact ⟨k, by omega, by omega, fun _ => by omega, heq⟩

/-! ## The order of the edges -/

theorem rankedNodes_perm (hperm : edges'.Perm edges) : rankedNodes edges' = rankedNodes edges := by
  have hset : (rankedNodes edges').toFinset = (rankedNodes edges).toFinset := by
    ext v
    simp only [List.mem_toFinset, mem_rankedNodes, hperm.mem_iff]
  have hsorted : ∀ edges : List (H × H),
      rankedNodes edges = (rankedNodes edges).toFinset.sort := by
    intro edges
    unfold rankedNodes
    rw [Finset.sort_toFinset]
  rw [hsorted edges', hset, ← hsorted]

theorem nextScore_perm (hperm : edges'.Perm edges) : nextScore edges' = nextScore edges := by
  have htargets : ∀ s, (targetsOf edges' s).Perm (targetsOf edges s) := fun s =>
    (hperm.filter _).map _
  have hsources : sources edges' = sources edges := by
    ext s
    simp only [mem_sources, hperm.mem_iff]
  funext f v
  simp only [nextScore, baseOf, shareOf, rankedNodes_perm hperm, hsources, (htargets _).count_eq,
    (htargets _).length_eq]

/-- Neither the order of the edges nor that of the map shows in a loop. -/
theorem powerLoop_perm (order order' : Table.RowOrder (H × List H)) (hperm : edges'.Perm edges)
    (left run : Nat) (f : H → ℚ) :
    powerLoop order' (rankedNodes edges) (outEdges edges') left run (tabulate (rankedNodes edges) f)
      = powerLoop order (rankedNodes edges) (outEdges edges) left run
          (tabulate (rankedNodes edges) f) := by
  have hstep' := powerStep_tabulate order' edges'
  rw [rankedNodes_perm hperm, nextScore_perm hperm] at hstep'
  induction left generalizing run f with
  | zero => rfl
  | succ left ih =>
    simp only [powerLoop, hstep', powerStep_tabulate, movement_tabulate, Option.bind_eq_bind,
      Option.bind_some, ih]

/-- A score map with one positive score for each endpoint of the edges, one in
    all. -/
structure Conserved (edges : List (H × H)) (scores : List (H × ℚ)) : Prop where
  nodup : (scores.map Prod.fst).Nodup
  keys : ∀ v, v ∈ scores.map Prod.fst ↔ ∃ e ∈ edges, v = e.1 ∨ v = e.2
  pos : ∀ s ∈ scores, 0 < s.2
  mass : (scores.map Prod.snd).sum = 1

theorem conserved_scoreAfter (hne : rankedNodes edges ≠ []) (k : Nat) :
    Conserved edges (tabulate (rankedNodes edges) (scoreAfter edges k)) := by
  obtain ⟨hpos, hsum⟩ := scoreAfter_spec hne k
  refine ⟨?_, ?_, ?_, ?_⟩
  · rw [map_fst_tabulate]
    exact nodup_rankedNodes
  · intro v
    rw [map_fst_tabulate, mem_rankedNodes]
  · intro s hs
    obtain ⟨v, hv, rfl⟩ := List.mem_map.1 hs
    exact hpos v hv
  · rw [map_snd_tabulate, ← List.sum_toFinset _ nodup_rankedNodes, hsum]

/-- **PageRank conserves mass**: after every iteration the scores are positive,
    one for each endpoint, and one in all; the loop returns the scores after
    some iteration; and the order of the edges does not change them. -/
theorem pagerank_conserves (order : Table.RowOrder (H × List H)) (edges : List (H × H))
    (hne : edges ≠ []) :
    (∀ k, ∃ scores, scoresAfter order edges k = some scores ∧ Conserved edges scores) ∧
    (∃ scores k, pagerank order edges = some (scores, k) ∧ 1 ≤ k ∧ k ≤ maxIterations ∧
      scoresAfter order edges k = some scores) ∧
    ∀ order' edges', edges'.Perm edges → pagerank order' edges' = pagerank order edges := by
  have hnodes : rankedNodes edges ≠ [] := by
    obtain ⟨e, he⟩ := List.exists_mem_of_ne_nil edges hne
    exact List.ne_nil_of_mem (mem_rankedNodes.2 ⟨e, he, Or.inl rfl⟩)
  have hlen : (rankedNodes edges).length ≠ 0 := fun h => hnodes (List.length_eq_zero_iff.1 h)
  refine ⟨fun k => ?_, ?_, fun order' edges' hperm => ?_⟩
  · exact ⟨_, scoresAfter_eq order edges k, conserved_scoreAfter hnodes k⟩
  · obtain ⟨k, -, hk, hpos, heq⟩ := powerLoop_eq edges order maxIterations 0
    refine ⟨_, k, ?_, hpos (by decide), by omega, scoresAfter_eq order edges k⟩
    unfold pagerank
    rw [if_neg hlen]
    exact heq
  · unfold pagerank
    rw [rankedNodes_perm hperm, if_neg hlen, if_neg hlen]
    exact powerLoop_perm order order' hperm ..

/-- A self-loop and a node without edges out. -/
theorem pagerank_conserves_loop :
    ∃ scores, scoresAfter ⟨id, fun _ => .refl _⟩ [(1, 1), (1, 2)] 1 = some scores ∧
      Conserved [(1, 1), (1, 2)] scores :=
  (pagerank_conserves (H := Nat) ⟨id, fun _ => .refl _⟩ [(1, 1), (1, 2)] (by decide)).1 1

end OpenAgentGraph
