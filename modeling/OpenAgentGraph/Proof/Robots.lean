/-
  Which group of a robots.txt the parser applies.

  The parser closes a group at a `User-agent` line only if the group has a
  value.  So a group whose values are all empty is joined to the next one, and
  its agents get the values of the next group that has any (`parse_eq`).
-/
import OpenAgentGraph.Crawler.Robots
import OpenAgentGraph.IdealUrl

namespace OpenAgentGraph

open Lib

variable {H : Type} {P : Prims H}

/-! ## Groups -/

/-- The names of some agents, and the values of their `Disallow` lines. -/
structure AgentGroup where
  agents : List String
  values : List String

inductive Directive
  | userAgent (name : String)
  | disallow (value : String)

/-- The closed groups, the open one, and whether that has a `Disallow` line. -/
structure GroupReader where
  closed : List AgentGroup := []
  opened : AgentGroup := ⟨[], []⟩
  seen : Bool := false

/-- A `User-agent` line after a `Disallow` line starts a new group. -/
def GroupReader.step (r : GroupReader) : Directive → GroupReader
  | .userAgent name =>
    if r.seen then ⟨r.closed ++ [r.opened], ⟨[name], []⟩, false⟩
    else { r with opened := { r.opened with agents := r.opened.agents ++ [name] } }
  | .disallow value =>
    { r with opened := { r.opened with values := r.opened.values ++ [value] }, seen := true }

def GroupReader.finish (r : GroupReader) : List AgentGroup := r.closed ++ [r.opened]

/-- The groups of some directives.  The first one has no agents if there is no
    `User-agent` line in front of its values. -/
def groupsOf (ds : List Directive) : List AgentGroup := (ds.foldl GroupReader.step {}).finish

namespace AgentGroup

/-- A group names an agent, in any case. -/
def names (P : Prims H) (g : AgentGroup) (agent : String) : Prop :=
  ∃ a ∈ g.agents, P.toLowercase a = P.toLowercase agent

instance (g : AgentGroup) (agent : String) : Decidable (g.names P agent) := List.decidableBEx ..

def nonEmptyValues (g : AgentGroup) : List String := g.values.filter (· ≠ "")

end AgentGroup

/-- The groups from the first one on that names the agent, or else `*`. -/
def applicable (P : Prims H) (groups : List AgentGroup) (agent : String) : List AgentGroup :=
  let named := groups.dropWhile fun g => ¬ g.names P agent
  if named ≠ [] then named else groups.dropWhile fun g => ¬ g.names P "*"

/-- The values that an agent must respect: those of the first group that names
    it, or else of the first one that names `*`, or else none. -/
def disallowedFor (P : Prims H) (groups : List AgentGroup) (agent : String) : List String :=
  match (groups.find? fun g => g.names P agent).or (groups.find? fun g => g.names P "*") with
  | some g => g.nonEmptyValues
  | none => []

/-- The values of the first group that has any. -/
def firstValues : List AgentGroup → List String
  | [] => []
  | g :: gs => if g.nonEmptyValues ≠ [] then g.nonEmptyValues else firstValues gs

theorem disallowedFor_eq (groups : List AgentGroup) (agent : String) :
    disallowedFor P groups agent = ((applicable P groups agent).head?.map (·.nonEmptyValues)).getD [] := by
  have hfind : ∀ a, groups.find? (fun g => g.names P a) = (groups.dropWhile fun g => ¬ g.names P a).head? := by
    intro a
    rw [List.find?_eq_head?_dropWhile_not]
    simp
  rw [disallowedFor, hfind, hfind, applicable]
  cases groups.dropWhile (fun g => ¬ g.names P agent) with
  | nil =>
    rw [if_neg (by simp)]
    cases groups.dropWhile (fun g => ¬ g.names P "*") <;> rfl
  | cons g gs => rfl

theorem mem_applicable {groups : List AgentGroup} {agent : String} {g : AgentGroup}
    (hg : g ∈ applicable P groups agent) : g ∈ groups := by
  simp only [applicable] at hg
  split_ifs at hg
  · exact (List.dropWhile_suffix _).subset hg
  · exact (List.dropWhile_suffix _).subset hg

theorem applicable_of_head {g : AgentGroup} {gs : List AgentGroup} {agent : String}
    (hg : g.names P agent) : applicable P (g :: gs) agent = g :: gs := by
  have hdrop : (g :: gs).dropWhile (fun g => decide (¬ g.names P agent)) = g :: gs :=
    List.dropWhile_cons_of_neg (by simp [hg])
  rw [applicable, hdrop]
  exact if_pos (List.cons_ne_nil _ _)

theorem firstValues_eq_head_iff {g : AgentGroup} {gs : List AgentGroup} :
    firstValues (g :: gs) = g.nonEmptyValues ↔
      g.nonEmptyValues ≠ [] ∨ ∀ g' ∈ gs, g'.nonEmptyValues = [] := by
  rw [firstValues]
  split_ifs with hg
  · simp [hg]
  · rw [Classical.not_not.1 hg]
    simp only [ne_eq, not_true_eq_false, false_or]
    induction gs with
    | nil => simp [firstValues]
    | cons g' gs ih =>
      rw [firstValues]
      split_ifs with hg'
      · simp [hg']
      · simp [ih, Classical.not_not.1 hg']

/-! ## Directives -/

/-- What a line says, if it is a directive. -/
def directiveOf (P : Prims H) (rawLine : Text) : Option Directive := do
  let (key, value) ← splitOnce ':' (trim (String.ofList (rawLine.takeWhile (· ≠ '#')))).toList
  let key := P.toLowercase (trim (String.ofList key))
  let value := trim (String.ofList value)
  if key = "user-agent" then some (.userAgent value)
  else if key = "disallow" then some (.disallow value)
  else none

def directivesOf (P : Prims H) (body : String) : List Directive :=
  (lines body.toList).filterMap (directiveOf P)

namespace RobotsParser

variable (st : RobotsParser)

def directive (P : Prims H) (st : RobotsParser) : Directive → RobotsParser
  | .userAgent name => st.userAgent P name
  | .disallow value => st.disallow value

theorem line_eq (rawLine : Text) :
    st.line P rawLine = match directiveOf P rawLine with
      | some d => st.directive P d
      | none => st := by
  simp only [line, directiveOf]
  by_cases hline : trim (String.ofList (rawLine.takeWhile (· ≠ '#'))) = ""
  · rw [if_pos hline, hline]
    rfl
  · rw [if_neg hline]
    cases splitOnce ':' (trim (String.ofList (rawLine.takeWhile (· ≠ '#')))).toList with
    | none => rfl
    | some kv =>
      simp only [Option.bind_eq_bind, Option.bind_some]
      split_ifs <;> rfl

/-- The loop over the lines runs the directives. -/
theorem foldl_line (ls : List Text) :
    ls.foldl (line P) st = (ls.filterMap (directiveOf P)).foldl (directive P) st := by
  induction ls generalizing st with
  | nil => rfl
  | cons l ls ih =>
    rw [List.foldl_cons, line_eq, List.filterMap_cons]
    cases directiveOf P l with
    | none => exact ih st
    | some d => exact ih (st.directive P d)

/-! ## Groups of the parser -/

/-- The lower-case names of a group, and its values that are not empty. -/
def block (P : Prims H) (g : AgentGroup) : List String × List String :=
  (g.agents.map P.toLowercase, g.nonEmptyValues)

/-- The groups that the parser makes of those that follow an open one. -/
def blocks : List String × List String → List (List String × List String) →
    List (List String × List String)
  | opened, [] => [opened]
  | opened, g :: gs => if opened.2 ≠ [] then opened :: blocks g gs else blocks (opened.1 ++ g.1, g.2) gs

/-- One more group, after some closed ones and the open one. -/
def join (st : List (List String × List String) × (List String × List String))
    (g : List String × List String) : List (List String × List String) × (List String × List String) :=
  if st.2.2 ≠ [] then (st.1 ++ [st.2], g) else (st.1, (st.2.1 ++ g.1, g.2))

theorem foldl_join (done : List (List String × List String)) (opened : List String × List String)
    (gs : List (List String × List String)) :
    (gs.foldl join (done, opened)).1 ++ [(gs.foldl join (done, opened)).2] = done ++ blocks opened gs := by
  induction gs generalizing done opened with
  | nil => rfl
  | cons g gs ih =>
    rw [List.foldl_cons, blocks, join]
    split_ifs with hopen
    · rw [ih, List.append_assoc]
      rfl
    · exact ih _ _

/-- The parser holds the groups of the text, joined. -/
structure Reads (P : Prims H) (r : GroupReader) (st : RobotsParser) : Prop where
  groups : (st.groups, (st.currentAgents, st.currentDisallows)) =
    (r.finish.map (block P)).foldl join ([], ([], []))
  unseen : r.seen = false → r.opened.values = []
  seen : st.currentDisallows ≠ [] → st.inGroup = true

theorem join_snd (acc : List (List String × List String) × (List String × List String))
    (g : List String × List String) : (join acc g).2.2 = g.2 := by
  unfold join
  split_ifs <;> rfl

theorem finish_foldl (r : GroupReader) :
    (r.finish.map (block P)).foldl join ([], ([], [])) =
      join ((r.closed.map (block P)).foldl join ([], ([], []))) (block P r.opened) := by
  rw [GroupReader.finish, List.map_append, List.foldl_append]
  rfl

theorem Reads.disallows {r : GroupReader} {st : RobotsParser} (h : Reads P r st) :
    st.currentDisallows = r.opened.nonEmptyValues := by
  have hsnd := congrArg (·.2.2) h.groups
  rw [finish_foldl] at hsnd
  exact hsnd.trans (join_snd _ _)

/-- More names and other values for the group that was joined last. -/
theorem join_grow (acc : List (List String × List String) × (List String × List String))
    (a a' d d' : List String) :
    join acc (a ++ a', d') = ((join acc (a, d)).1, ((join acc (a, d)).2.1 ++ a', d')) := by
  unfold join
  split_ifs <;> simp

theorem Reads.step {r : GroupReader} {st : RobotsParser} (h : Reads P r st) (d : Directive) :
    Reads P (r.step d) (st.directive P d) := by
  have hjoin := (finish_foldl r).symm.trans h.groups.symm
  have hopen : block P r.opened = (r.opened.agents.map P.toLowercase, r.opened.nonEmptyValues) := rfl
  cases d with
  | userAgent name =>
    cases hseen : r.seen with
    | true =>
      -- the text closes the open group; the parser does if that has a value
      have hstep : r.step (.userAgent name) = ⟨r.closed ++ [r.opened], ⟨[name], []⟩, false⟩ := by
        rw [GroupReader.step, if_pos hseen]
      have hnew : block P ⟨[name], []⟩ = ([P.toLowercase name], []) := rfl
      rw [hstep]
      refine ⟨?_, fun _ => rfl, ?_⟩
      · rw [finish_foldl, show (r.closed ++ [r.opened]) = r.finish from rfl, ← h.groups, hnew, join,
          directive, userAgent]
        by_cases hD : st.currentDisallows ≠ []
        · rw [if_pos ⟨h.seen hD, hD⟩, if_pos hD]
          rfl
        · rw [if_neg fun hand => hD hand.2, if_neg hD, Classical.not_not.1 hD]
      · intro hne
        rw [directive, userAgent] at hne ⊢
        split_ifs at hne ⊢ with hclose
        · exact absurd rfl hne
        · exact h.seen hne
    | false =>
      have hnil : st.currentDisallows = [] := by
        rw [h.disallows, AgentGroup.nonEmptyValues, h.unseen hseen]
        rfl
      have hstep : r.step (.userAgent name) =
          { r with opened := { r.opened with agents := r.opened.agents ++ [name] } } := by
        rw [GroupReader.step, if_neg (by simp [hseen])]
      have hdir : st.directive P (.userAgent name) =
          { st with currentAgents := st.currentAgents ++ [P.toLowercase name] } := by
        rw [directive, userAgent, if_neg fun hand => hand.2 hnil]
      have hnew : block P { r.opened with agents := r.opened.agents ++ [name] } =
          (r.opened.agents.map P.toLowercase ++ [P.toLowercase name], r.opened.nonEmptyValues) := by
        rw [block, List.map_append]
        rfl
      rw [hstep, hdir]
      refine ⟨?_, fun _ => h.unseen hseen, h.seen⟩
      rw [finish_foldl, hnew, join_grow _ _ _ r.opened.nonEmptyValues, ← hopen]
      simp only [hjoin, h.disallows]
  | disallow value =>
    have hdir : st.directive P (.disallow value) =
        { st with
          currentDisallows := st.currentDisallows ++ [value].filter (· ≠ "")
          inGroup := true } := by
      rw [directive, disallow]
      by_cases hv : value = "" <;> simp [hv]
    have hnew : block P { r.opened with values := r.opened.values ++ [value] } =
        (r.opened.agents.map P.toLowercase ++ [],
          st.currentDisallows ++ [value].filter (· ≠ "")) := by
      rw [block, AgentGroup.nonEmptyValues, List.filter_append, h.disallows, List.append_nil]
      rfl
    rw [hdir]
    refine ⟨?_, fun hno => Bool.noConfusion hno, fun _ => rfl⟩
    rw [GroupReader.step, finish_foldl, hnew, join_grow _ _ _ r.opened.nonEmptyValues, ← hopen]
    simp only [hjoin, List.append_nil]

theorem reads_foldl (ds : List Directive) :
    Reads P (ds.foldl GroupReader.step {}) (ds.foldl (directive P) {}) := by
  induction ds using List.reverseRecOn with
  | nil => exact ⟨rfl, fun _ => rfl, fun hne => absurd rfl hne⟩
  | append_singleton ds d ih =>
    rw [List.foldl_append, List.foldl_append]
    exact ih.step d

end RobotsParser

/-! ## The group that the parser applies -/

/-- `firstValues`, of the groups as the parser holds them. -/
def firstBlock : List (List String × List String) → List String
  | [] => []
  | g :: gs => if g.2 ≠ [] then g.2 else firstBlock gs

theorem firstBlock_map (gs : List AgentGroup) :
    firstBlock (gs.map (RobotsParser.block P)) = firstValues gs := by
  induction gs with
  | nil => rfl
  | cons g gs ih =>
    rw [List.map_cons, firstBlock, ih, firstValues]
    rfl

def valuesFrom : List (List String × List String) → Option (List String)
  | [] => none
  | g :: gs => some (firstBlock (g :: gs))

open RobotsParser in
/-- An agent that a group names gets the values of the first group from there on
    that has any. -/
theorem find_blocks {q : List String → Bool} (hq : ∀ a b, q (a ++ b) = (q a || q b))
    (opened : List String × List String) (gs : List (List String × List String)) :
    ((blocks opened gs).find? fun g => q g.1).map (·.2) =
      valuesFrom ((opened :: gs).dropWhile fun g => !q g.1) := by
  induction gs generalizing opened with
  | nil =>
    by_cases ho : q opened.1 = true
    · rw [blocks, List.find?_cons_of_pos (by exact ho), List.dropWhile_cons_of_neg (by simp [ho])]
      show some opened.2 = some (if opened.2 ≠ [] then opened.2 else [])
      split_ifs with hopen
      · rfl
      · rw [Classical.not_not.1 hopen]
    · simp [blocks, ho, valuesFrom]
  | cons g gs ih =>
    rw [blocks]
    split_ifs with hopen
    · by_cases ho : q opened.1 = true
      · simp [ho, valuesFrom, firstBlock, hopen]
      · have hdrop : (opened :: g :: gs).dropWhile (fun g => !q g.1) = (g :: gs).dropWhile (fun g => !q g.1) :=
          List.dropWhile_cons_of_pos (by simp [ho])
        rw [List.find?_cons_of_neg (by simpa using ho), ih, hdrop]
    · rw [ih]
      by_cases ho : q opened.1 = true
      · simp [ho, hq, valuesFrom, firstBlock, hopen]
      · by_cases hg : q g.1 = true
        · simp [ho, hg, hq, valuesFrom, firstBlock]
        · simp [ho, hg, hq]

/-- What an agent gets of the groups that the parser ends with. -/
theorem groupNaming_finish (ds : List Directive) {agent lower : String}
    (hlower : P.toLowercase agent = lower) :
    (groupNaming (ds.foldl (RobotsParser.directive P) {}).finish lower).map (·.2) =
      valuesFrom (((groupsOf ds).dropWhile fun g => ¬ g.names P agent).map (RobotsParser.block P)) := by
  have hreads := (RobotsParser.reads_foldl (P := P) ds).groups
  have hblocks := RobotsParser.foldl_join [] ([], []) ((groupsOf ds).map (RobotsParser.block P))
  rw [groupsOf, ← hreads, List.nil_append] at hblocks
  -- an open group without agents names nobody
  have hfinish : groupNaming (ds.foldl (RobotsParser.directive P) {}).finish lower =
      (RobotsParser.blocks ([], []) ((groupsOf ds).map (RobotsParser.block P))).find? fun g =>
        g.1.any (· == lower) := by
    rw [groupNaming, groupsOf, ← hblocks, RobotsParser.finish]
    split_ifs with hagents
    · rfl
    · rw [List.find?_append, List.find?_cons_of_neg (by simp [Classical.not_not.1 hagents])]
      simp
  have hnames : (fun g : List String × List String => !g.1.any (· == lower)) ∘ RobotsParser.block P =
      fun g => decide (¬ g.names P agent) := by
    funext g
    rw [Bool.eq_iff_iff]
    simp [RobotsParser.block, AgentGroup.names, hlower]
  have hmap := List.dropWhile_map (f := RobotsParser.block P) (p := fun g => !g.1.any (· == lower))
    (l := groupsOf ds)
  rw [hnames] at hmap
  rw [hfinish, ← hmap, find_blocks (q := fun names => names.any (· == lower)) fun a b => List.any_append]
  rfl

theorem valuesFrom_map (gs : List AgentGroup) :
    valuesFrom (gs.map (RobotsParser.block P)) = if gs = [] then none else some (firstValues gs) := by
  cases gs with
  | nil => rfl
  | cons g gs =>
    rw [if_neg (List.cons_ne_nil _ _), ← firstBlock_map (P := P)]
    rfl

theorem toLowercase_ascii (h : LowercaseLaws P.toLowercase) {t : Text} (ht : ∀ c ∈ t, c.toNat < 128) :
    P.toLowercase (String.ofList t) = String.ofList (t.map Char.toLower) := by
  obtain ⟨parts, hparts, htext⟩ := h.chars (String.ofList t)
  rw [String.toList_ofList] at hparts
  have hflat : parts.flatten = t.map Char.toLower := by
    clear htext
    induction hparts with
    | nil => rfl
    | cons hp _ ih =>
      rw [List.flatten_cons, hp.ascii (ht _ (by simp)), ih fun c hc => ht c (List.mem_cons_of_mem _ hc)]
      rfl
  rw [← String.toList_inj, htext, hflat, String.toList_ofList]

/-- **What the parser yields**: the values of the first group that has any, from
    the group on that applies. -/
theorem parse_eq (h : LowercaseLaws P.toLowercase) (body agent : String) :
    (RobotsRules.parse P body agent).disallow =
      firstValues (applicable P (groupsOf (directivesOf P body)) agent) := by
  have hstar : P.toLowercase "*" = "*" := toLowercase_ascii h (t := ['*']) (by simp)
  simp only [RobotsRules.parse, RobotsParser.foldl_line]
  rw [Option.map_or, groupNaming_finish _ rfl, groupNaming_finish _ hstar, valuesFrom_map, valuesFrom_map,
    applicable, ← directivesOf]
  by_cases hnamed : ((groupsOf (directivesOf P body)).dropWhile fun g => ¬ g.names P agent) = []
  · rw [if_pos hnamed, Option.none_or, if_neg (not_not.2 hnamed)]
    split_ifs with hstar
    · rw [hstar]
      rfl
    · rfl
  · rw [if_neg hnamed, if_pos hnamed]
    rfl

/-! ## Rendered groups -/

/-- A text that can stand in a line as a name or a value. -/
structure Plain (s : String) : Prop where
  no_newline : '\n' ∉ s.toList
  no_hash : '#' ∉ s.toList
  trimmed : trim s = s

/-- A group that can be written. -/
structure RobotsGroup extends AgentGroup where
  agents_ne : agents ≠ []
  values_ne : values ≠ []
  agents_plain : ∀ a ∈ agents, Plain a
  values_plain : ∀ v ∈ values, Plain v

def RobotsGroup.directives (g : RobotsGroup) : List Directive :=
  g.agents.map .userAgent ++ g.values.map .disallow

def IsSpace (t : Text) : Prop := ∀ c ∈ t, isWhiteSpace c = true ∧ c ≠ '\n'

def IsComment (t : Text) : Prop := t = [] ∨ ∃ text, t = '#' :: text ∧ '\n' ∉ text

/-- A line with a keyword, in any case, and its value, in any spacing. -/
def IsLine (keyword value : String) (l : Text) : Prop :=
  ∃ a key b c d e, IsSpace a ∧ key.map Char.toLower = keyword.toList ∧ IsSpace b ∧ IsSpace c ∧
    IsSpace d ∧ IsComment e ∧ l = a ++ key ++ b ++ ':' :: (c ++ value.toList ++ d ++ e)

def Directive.IsLine : Directive → Text → Prop
  | .userAgent name => OpenAgentGraph.IsLine "user-agent" name
  | .disallow value => OpenAgentGraph.IsLine "disallow" value

/-- The lines of some directives, among blank lines and comments. -/
inductive Renders : List Directive → List Text → Prop
  | nil : Renders [] []
  | blank {ds : List Directive} {ls : List Text} {a e : Text} :
      IsSpace a → IsComment e → Renders ds ls → Renders ds ((a ++ e) :: ls)
  | line {d : Directive} {ds : List Directive} {l : Text} {ls : List Text} :
      d.IsLine l → Renders ds ls → Renders (d :: ds) (l :: ls)

/-- `body` is a robots.txt with these groups. -/
def IsRobotsTxt (groups : List RobotsGroup) (body : String) : Prop :=
  ∃ ls, Renders (groups.flatMap RobotsGroup.directives) ls ∧ body.toList = ['\n'].intercalate ls

namespace GroupReader

variable (closed : List AgentGroup) (agents values : List String)

theorem foldl_userAgent (names : List String) :
    (names.map Directive.userAgent).foldl step ⟨closed, ⟨agents, values⟩, false⟩ =
      ⟨closed, ⟨agents ++ names, values⟩, false⟩ := by
  induction names generalizing agents with
  | nil => simp
  | cons name names ih =>
    have hstep : step ⟨closed, ⟨agents, values⟩, false⟩ (.userAgent name) =
        ⟨closed, ⟨agents ++ [name], values⟩, false⟩ := rfl
    rw [List.map_cons, List.foldl_cons, hstep, ih, List.append_assoc]
    rfl

theorem foldl_disallow (seen : Bool) {vs : List String} (hne : vs ≠ []) :
    (vs.map Directive.disallow).foldl step ⟨closed, ⟨agents, values⟩, seen⟩ =
      ⟨closed, ⟨agents, values ++ vs⟩, true⟩ := by
  induction vs generalizing values seen with
  | nil => exact absurd rfl hne
  | cons v vs ih =>
    have hstep : step ⟨closed, ⟨agents, values⟩, seen⟩ (.disallow v) =
        ⟨closed, ⟨agents, values ++ [v]⟩, true⟩ := rfl
    rw [List.map_cons, List.foldl_cons, hstep]
    rcases eq_or_ne vs [] with rfl | hvs
    · rfl
    · rw [ih _ _ hvs, List.append_assoc]
      rfl

theorem foldl_first (g : RobotsGroup) :
    g.directives.foldl step ⟨closed, ⟨[], []⟩, false⟩ = ⟨closed, g.toAgentGroup, true⟩ := by
  rw [RobotsGroup.directives, List.foldl_append, foldl_userAgent, foldl_disallow _ _ _ _ g.values_ne]
  rfl

theorem foldl_next (opened : AgentGroup) (g : RobotsGroup) :
    g.directives.foldl step ⟨closed, opened, true⟩ = ⟨closed ++ [opened], g.toAgentGroup, true⟩ := by
  obtain ⟨name, names, hnames⟩ := List.exists_cons_of_ne_nil g.agents_ne
  have hstep : step ⟨closed, opened, true⟩ (.userAgent name) = ⟨closed ++ [opened], ⟨[name], []⟩, false⟩ := rfl
  rw [RobotsGroup.directives, List.foldl_append, hnames, List.map_cons, List.foldl_cons, hstep,
    foldl_userAgent, foldl_disallow _ _ _ _ g.values_ne, List.singleton_append, ← hnames, List.nil_append]

theorem finish_foldl_groups (opened : AgentGroup) (gs : List RobotsGroup) :
    ((gs.flatMap RobotsGroup.directives).foldl step ⟨closed, opened, true⟩).finish =
      closed ++ opened :: gs.map (·.toAgentGroup) := by
  induction gs generalizing closed opened with
  | nil => rfl
  | cons g gs ih =>
    rw [List.flatMap_cons, List.foldl_append, foldl_next, ih, List.append_assoc]
    rfl

end GroupReader

theorem groupsOf_directives {groups : List RobotsGroup} (hne : groups ≠ []) :
    groupsOf (groups.flatMap RobotsGroup.directives) = groups.map (·.toAgentGroup) := by
  obtain ⟨g, gs, rfl⟩ := List.exists_cons_of_ne_nil hne
  rw [groupsOf, List.flatMap_cons, List.foldl_append, GroupReader.foldl_first,
    GroupReader.finish_foldl_groups]
  rfl

/-! ## Lines -/

theorem trim_eq (t : Text) : trim (String.ofList t) = String.ofList (trimBy isWhiteSpace t) := by
  rw [trim, String.toList_ofList]
  rfl

theorem Plain.trimBy_eq {s : String} (h : Plain s) : trimBy isWhiteSpace s.toList = s.toList := by
  have htrim := trim_eq s.toList
  rw [String.ofList_toList, h.trimmed] at htrim
  have hlist := congrArg String.toList htrim
  rw [String.toList_ofList] at hlist
  exact hlist.symm

theorem ascii_of_toLower {c : Char} (h : c.toLower.toNat < 128) : c.toNat < 128 := by
  by_contra hc
  have hself : c.toLower = c := by
    unfold Char.toLower
    rw [dif_neg]
    rintro ⟨-, hz⟩
    exact hc (Nat.lt_of_le_of_lt (show c.val.toNat ≤ 90 from hz) (by norm_num))
  rw [hself] at h
  exact hc h

/-- The characters of a keyword in any case. -/
theorem key_chars {keyword : String} {key : Text} (hkey : key.map Char.toLower = keyword.toList)
    (hkeyword : keyword = "user-agent" ∨ keyword = "disallow") {c : Char} (hc : c ∈ key) :
    c.toNat < 128 ∧ c ≠ '#' ∧ c ≠ ':' ∧ isWhiteSpace c = false := by
  have hall : ∀ n : Fin 128, (Char.ofNat n).toLower ∈ "user-agent".toList ++ "disallow".toList →
      Char.ofNat n ≠ '#' ∧ Char.ofNat n ≠ ':' ∧ isWhiteSpace (Char.ofNat n) = false := by
    decide +kernel
  have hmem : c.toLower ∈ keyword.toList := hkey ▸ List.mem_map_of_mem hc
  have hascii : ∀ d ∈ keyword.toList, d.toNat < 128 := by
    rcases hkeyword with rfl | rfl
    · exact List.forall_iff_forall_mem.1 (by decide)
    · exact List.forall_iff_forall_mem.1 (by decide)
  have hlt : c.toNat < 128 := ascii_of_toLower (hascii _ hmem)
  have hchar := hall ⟨c.toNat, hlt⟩
  simp only [Char.ofNat_toNat] at hchar
  refine ⟨hlt, hchar (List.mem_append.2 ?_)⟩
  rcases hkeyword with rfl | rfl
  · exact Or.inl hmem
  · exact Or.inr hmem

theorem hash_not_space {t : Text} (h : IsSpace t) : '#' ∉ t := by
  intro hmem
  exact absurd (h _ hmem).1 (by decide)

theorem colon_not_space {t : Text} (h : IsSpace t) : ':' ∉ t := by
  intro hmem
  exact absurd (h _ hmem).1 (by decide)

/-- What stands before the comment. -/
theorem takeWhile_comment {t e : Text} (ht : '#' ∉ t) (he : IsComment e) :
    (t ++ e).takeWhile (· ≠ '#') = t := by
  rcases he with rfl | ⟨text, rfl, -⟩
  · rw [List.append_nil, (cut_none ht).1]
  · rw [(cut_first ht).1]

theorem directiveOf_blank {a e : Text} (ha : IsSpace a) (he : IsComment e) :
    directiveOf P (a ++ e) = none := by
  have hline : trim (String.ofList ((a ++ e).takeWhile (· ≠ '#'))) = "" := by
    rw [takeWhile_comment (hash_not_space ha) he, trim_eq, trimBy_of_all fun c hc => (ha c hc).1]
  rw [directiveOf, hline]
  rfl

/-- The keyword and the value of a line, whatever surrounds them. -/
theorem directiveOf_isLine (h : LowercaseLaws P.toLowercase) {keyword value : String} {l : Text}
    (hkeyword : keyword = "user-agent" ∨ keyword = "disallow") (hvalue : Plain value)
    (hl : IsLine keyword value l) :
    directiveOf P l =
      some (if keyword = "user-agent" then .userAgent value else .disallow value) := by
  obtain ⟨a, key, b, c, d, e, ha, hkey, hb, hc, hd, he, rfl⟩ := hl
  have hchars := fun x (hx : x ∈ key) => key_chars hkey hkeyword hx
  have hne : key ≠ [] := by
    rintro rfl
    rcases hkeyword with rfl | rfl <;> exact absurd hkey (by decide)
  have hhash : '#' ∉ a ++ (key ++ b ++ ':' :: (c ++ value.toList ++ d)) := by
    simp only [List.mem_append, List.mem_cons, not_or]
    exact ⟨hash_not_space ha, ⟨fun hx => (hchars _ hx).2.1 rfl, hash_not_space hb⟩, by decide,
      ⟨hash_not_space hc, hvalue.no_hash⟩, hash_not_space hd⟩
  have hcomment : (a ++ key ++ b ++ ':' :: (c ++ value.toList ++ d ++ e)).takeWhile (· ≠ '#') =
      a ++ (key ++ b ++ ':' :: (c ++ value.toList ++ d)) := by
    rw [← takeWhile_comment hhash he]
    simp only [List.append_assoc, List.cons_append]
  have hhead : ∀ x ∈ (key ++ b).head?, isWhiteSpace x = false := by
    intro x hx
    rw [List.head?_append_of_ne_nil _ hne] at hx
    exact (hchars x (List.mem_of_mem_head? hx)).2.2.2
  have htrim : trim (String.ofList ((a ++ key ++ b ++ ':' :: (c ++ value.toList ++ d ++ e)).takeWhile
      (· ≠ '#'))) = String.ofList (key ++ b ++ ':' :: (c ++ value.toList ++ d).rdropWhile isWhiteSpace) := by
    rw [hcomment, trim_eq, trimBy_append_left fun x hx => (ha x hx).1,
      trimBy_cons hhead (List.append_ne_nil_of_left_ne_nil hne _) (by decide)]
  have hsplit : splitOnce ':' (key ++ b ++ ':' :: (c ++ value.toList ++ d).rdropWhile isWhiteSpace) =
      some (key ++ b, (c ++ value.toList ++ d).rdropWhile isWhiteSpace) := by
    refine splitOnce_append ?_
    rw [List.mem_append, not_or]
    exact ⟨fun hx => (hchars _ hx).2.2.1 rfl, colon_not_space hb⟩
  have hkeyText : P.toLowercase (trim (String.ofList (key ++ b))) = keyword := by
    rw [trim_eq, trimBy_append_right fun x hx => (hb x hx).1, trimBy_of_none fun x hx => (hchars x hx).2.2.2,
      toLowercase_ascii h fun x hx => (hchars x hx).1, hkey, String.ofList_toList]
  have hvalueText : trim (String.ofList ((c ++ value.toList ++ d).rdropWhile isWhiteSpace)) = value := by
    rw [trim_eq, trimBy_rdropWhile, trimBy_append_right fun x hx => (hd x hx).1,
      trimBy_append_left fun x hx => (hc x hx).1, hvalue.trimBy_eq, String.ofList_toList]
  simp only [directiveOf, htrim, String.toList_ofList, hsplit, Option.bind_eq_bind, Option.bind_some,
    hkeyText, hvalueText]
  rcases hkeyword with rfl | rfl
  · rfl
  · rfl

/-- A carriage return at the end of a line is in its comment, or is trimmed. -/
theorem directiveOf_stripCr (l : Text) : directiveOf P (stripCr l) = directiveOf P l := by
  have hline : trim (String.ofList ((stripCr l).takeWhile (· ≠ '#'))) =
      trim (String.ofList (l.takeWhile (· ≠ '#'))) := by
    rcases stripCr_cases l with heq | heq
    · rw [heq]
    · generalize stripCr l = t at heq
      subst heq
      by_cases hhash : '#' ∈ t
      · obtain ⟨u, v, rfl, hu⟩ := List.eq_append_cons_of_mem hhash
        rw [List.append_assoc, List.cons_append, (cut_first hu).1, (cut_first hu).1]
      · have hhash' : '#' ∉ t ++ ['\r'] := by simpa using hhash
        rw [(cut_none hhash).1, (cut_none hhash').1, trim_eq, trim_eq, trimBy_append_right]
        rintro c hc
        obtain rfl := List.mem_singleton.1 hc
        rfl
  rw [directiveOf, hline, directiveOf]

theorem plain_directives {groups : List RobotsGroup} :
    ∀ d ∈ groups.flatMap RobotsGroup.directives, ∀ s, d = .userAgent s ∨ d = .disallow s → Plain s := by
  rintro d hd s hds
  obtain ⟨g, -, hd⟩ := List.mem_flatMap.1 hd
  rcases List.mem_append.1 hd with hd | hd
  · obtain ⟨a, ha, rfl⟩ := List.mem_map.1 hd
    rcases hds with heq | heq
    · cases heq
      exact g.agents_plain _ ha
    · cases heq
  · obtain ⟨v, hv, rfl⟩ := List.mem_map.1 hd
    rcases hds with heq | heq
    · cases heq
    · cases heq
      exact g.values_plain _ hv

theorem newline_not_mem_comment {e : Text} (he : IsComment e) : '\n' ∉ e := by
  rcases he with rfl | ⟨text, rfl, htext⟩
  · simp
  · simpa using htext

theorem newline_not_mem_line {keyword value : String} {l : Text}
    (hkeyword : keyword = "user-agent" ∨ keyword = "disallow") (hvalue : Plain value)
    (hl : IsLine keyword value l) : '\n' ∉ l := by
  obtain ⟨a, key, b, c, d, e, ha, hkey, hb, hc, hd, he, rfl⟩ := hl
  have hspace : ∀ t, IsSpace t → '\n' ∉ t := fun t ht hmem => (ht _ hmem).2 rfl
  have hkey' : '\n' ∉ key := by
    intro hmem
    exact absurd (key_chars hkey hkeyword hmem).2.2.2 (by decide)
  simp only [List.mem_append, List.mem_cons, not_or]
  exact ⟨⟨⟨hspace a ha, hkey'⟩, hspace b hb⟩, by decide, ⟨⟨hspace c hc, hvalue.no_newline⟩, hspace d hd⟩,
    newline_not_mem_comment he⟩

theorem newline_not_mem_rendered {ds : List Directive} {ls : List Text} (hls : Renders ds ls)
    (hplain : ∀ d ∈ ds, ∀ s, d = .userAgent s ∨ d = .disallow s → Plain s) : ∀ l ∈ ls, '\n' ∉ l := by
  induction hls with
  | nil => simp
  | blank ha he _ ih =>
    rintro l (_ | ⟨_, hl⟩)
    · rw [List.mem_append, not_or]
      exact ⟨fun hmem => (ha _ hmem).2 rfl, newline_not_mem_comment he⟩
    · exact ih hplain l hl
  | @line d ds l ls hd _ ih =>
    rintro l' (_ | ⟨_, hl'⟩)
    · cases d with
      | userAgent name => exact newline_not_mem_line (Or.inl rfl) (hplain _ (by simp) name (Or.inl rfl)) hd
      | disallow value => exact newline_not_mem_line (Or.inr rfl) (hplain _ (by simp) value (Or.inr rfl)) hd
    · exact ih (fun d hd => hplain d (List.mem_cons_of_mem _ hd)) l' hl'

/-- Rendered directives read back. -/
theorem filterMap_rendered (h : LowercaseLaws P.toLowercase) {ds : List Directive} {ls : List Text}
    (hls : Renders ds ls) (hplain : ∀ d ∈ ds, ∀ s, d = .userAgent s ∨ d = .disallow s → Plain s) :
    ls.filterMap (directiveOf P) = ds := by
  induction hls with
  | nil => rfl
  | blank ha he _ ih => rw [List.filterMap_cons_none (directiveOf_blank ha he), ih hplain]
  | @line d ds l ls hd _ ih =>
    have hread : directiveOf P l = some d := by
      cases d with
      | userAgent name => exact directiveOf_isLine h (Or.inl rfl) (hplain _ (by simp) name (Or.inl rfl)) hd
      | disallow value => exact directiveOf_isLine h (Or.inr rfl) (hplain _ (by simp) value (Or.inr rfl)) hd
    rw [List.filterMap_cons_some hread, ih fun d hd => hplain d (List.mem_cons_of_mem _ hd)]

theorem directivesOf_rendered (h : LowercaseLaws P.toLowercase) {groups : List RobotsGroup} {body : String}
    (hbody : IsRobotsTxt groups body) : directivesOf P body = groups.flatMap RobotsGroup.directives := by
  obtain ⟨ls, hls, htext⟩ := hbody
  have hblank : directiveOf P [] = none :=
    directiveOf_blank (a := []) (e := []) (fun c hc => absurd hc List.not_mem_nil) (Or.inl rfl)
  rw [directivesOf, htext,
    filterMap_lines hblank directiveOf_stripCr (newline_not_mem_rendered hls plain_directives),
    filterMap_rendered h hls plain_directives]

/-- **A robots.txt is read as its groups say exactly if the group that applies
    has a value, or no group after it has one.** -/
theorem parse_robots_iff (h : LowercaseLaws P.toLowercase) {groups : List RobotsGroup} {body : String}
    (hbody : IsRobotsTxt groups body) (agent : String) :
    (RobotsRules.parse P body agent).disallow =
        disallowedFor P (groups.map (·.toAgentGroup)) agent ↔
      ∀ g rest, applicable P (groups.map (·.toAgentGroup)) agent = g :: rest →
        g.nonEmptyValues ≠ [] ∨ ∀ g' ∈ rest, g'.nonEmptyValues = [] := by
  rw [parse_eq h, directivesOf_rendered h hbody, disallowedFor_eq]
  rcases eq_or_ne groups [] with rfl | hne
  · -- a text without directives
    have hempty : firstValues (applicable P (groupsOf ([].flatMap RobotsGroup.directives)) agent) = [] := by
      rfl
    rw [hempty]
    simp [applicable]
  · rw [groupsOf_directives hne]
    cases happ : applicable P (groups.map (·.toAgentGroup)) agent with
    | nil => simp [firstValues]
    | cons g rest =>
      refine firstValues_eq_head_iff.trans ⟨?_, fun hall => hall g rest rfl⟩
      rintro hg g' rest' heq
      cases heq
      exact hg

/-- The usual way to write a directive. -/
def Directive.text : Directive → Text
  | .userAgent name => "User-agent".toList ++ ':' :: ' ' :: name.toList
  | .disallow value => "Disallow".toList ++ ':' :: ' ' :: value.toList

def robotsTxt (groups : List RobotsGroup) : String :=
  String.ofList (['\n'].intercalate ((groups.flatMap RobotsGroup.directives).map Directive.text))

theorem isLine_simple {keyword : String} {key : Text} (hkey : key.map Char.toLower = keyword.toList)
    (value : String) : IsLine keyword value (key ++ ':' :: ' ' :: value.toList) := by
  have hnil : IsSpace [] := fun c hc => absurd hc List.not_mem_nil
  have hblank : IsSpace [' '] := by
    rintro c hc
    obtain rfl := List.mem_singleton.1 hc
    exact ⟨rfl, by decide⟩
  exact ⟨[], key, [], [' '], [], [], hnil, hkey, hnil, hblank, hnil, Or.inl rfl, by simp⟩

theorem Directive.isLine_text : ∀ d : Directive, d.IsLine d.text
  | .userAgent name => isLine_simple (by decide) name
  | .disallow value => isLine_simple (by decide) value

theorem isRobotsTxt_robotsTxt (groups : List RobotsGroup) : IsRobotsTxt groups (robotsTxt groups) := by
  have hrenders : ∀ ds : List Directive, Renders ds (ds.map Directive.text) := by
    intro ds
    induction ds with
    | nil => exact .nil
    | cons d ds ih => exact .line d.isLine_text ih
  exact ⟨_, hrenders _, String.toList_ofList⟩

theorem plain_of_decide {s : String} (h : ('\n' ∉ s.toList ∧ '#' ∉ s.toList) ∧ trim s = s) : Plain s :=
  ⟨h.1.1, h.1.2, h.2⟩

theorem plain_star : Plain "*" := plain_of_decide (by decide)

theorem plain_productToken : Plain "oag-crawler" := plain_of_decide (by decide)

theorem plain_privatePath : Plain "/private" := plain_of_decide (by decide)

/-- One name and one value. -/
def simpleGroup (agent value : String) (ha : Plain agent) (hv : Plain value) : RobotsGroup where
  agents := [agent]
  values := [value]
  agents_ne := by simp
  values_ne := by simp
  agents_plain := by simpa using ha
  values_plain := by simpa using hv

def everyoneGroup : RobotsGroup :=
  simpleGroup "*" "/private" plain_star plain_privatePath

def freeGroup : RobotsGroup :=
  simpleGroup "oag-crawler" "" plain_productToken (plain_of_decide (by decide))

example : robotsTxt [freeGroup, everyoneGroup] =
    "User-agent: oag-crawler\nDisallow: \nUser-agent: *\nDisallow: /private" := by
  decide

theorem parse_robots_everyone :
    (RobotsRules.parse idealOpen (robotsTxt [everyoneGroup]) "oag-crawler").disallow =
      disallowedFor idealOpen [everyoneGroup.toAgentGroup] "oag-crawler" := by
  refine (parse_robots_iff idealOpen_lowercase (isRobotsTxt_robotsTxt [everyoneGroup]) "oag-crawler").2 ?_
  intro g rest heq
  have happ : g ∈ applicable idealOpen ([everyoneGroup].map (·.toAgentGroup)) "oag-crawler" := by
    rw [heq]
    exact List.mem_cons_self
  have hmem : g ∈ [everyoneGroup.toAgentGroup] := mem_applicable happ
  rw [List.mem_singleton.1 hmem]
  exact Or.inl (by decide)

/-- A group that allows everything to the crawler is read as part of the next
    one. -/
theorem parse_joins_groups :
    (RobotsRules.parse idealOpen (robotsTxt [freeGroup, everyoneGroup]) "oag-crawler").disallow ≠
      disallowedFor idealOpen [freeGroup.toAgentGroup, everyoneGroup.toAgentGroup] "oag-crawler" := by
  have hnames : freeGroup.names idealOpen "oag-crawler" :=
    ⟨"oag-crawler", by simp [freeGroup, simpleGroup], rfl⟩
  rw [parse_eq idealOpen_lowercase, directivesOf_rendered idealOpen_lowercase (isRobotsTxt_robotsTxt _),
    groupsOf_directives (by simp), disallowedFor_eq, List.map_cons, applicable_of_head hnames,
    applicable_of_head hnames]
  show ["/private"] ≠ []
  simp

end OpenAgentGraph
