/-
  Control groups and publishers.

  The key of an evidence URI is its host and its first path segment.  What a
  publisher is differs from platform to platform: the platform may have several
  hosts, names are the same in either case, and the name may stand behind a
  directory of the site.
-/
import OpenAgentGraph.Graph.Corroboration
import OpenAgentGraph.IdealUrl

namespace OpenAgentGraph

open Lib Repo

/-! ## Publishers -/

inductive Platform
  | github | gitlab | bitbucket | npm | pypi | cratesIo | huggingface | sourceforge
  deriving DecidableEq

/-- Where the name of a publisher stands: it is the first path segment, or the
    one behind a directory. -/
inductive Place
  | first
  | behind (directory : String)
  deriving DecidableEq

structure Publisher where
  place : Place
  name : String
  deriving DecidableEq

namespace Platform

def hosts : Platform → List String
  | github => ["github.com", "www.github.com", "gist.github.com", "raw.githubusercontent.com"]
  | gitlab => ["gitlab.com"]
  | bitbucket => ["bitbucket.org"]
  | npm => ["npmjs.com", "www.npmjs.com"]
  | pypi => ["pypi.org"]
  | cratesIo => ["crates.io"]
  | huggingface => ["huggingface.co"]
  | sourceforge => ["sourceforge.net"]

/-- The directories that a publisher's pages are behind. -/
def directories : Platform → List String
  | npm => ["package"]
  | pypi => ["project"]
  | cratesIo => ["crates"]
  | huggingface => ["datasets", "spaces"]
  | sourceforge => ["projects", "p"]
  | _ => []

/-- A first segment that is no directory is an owner. -/
def ownerFirst : Platform → Bool
  | github | gitlab | bitbucket | huggingface => true
  | _ => false

/-- What a publisher may be called: on npm it is a scope. -/
def isName : Platform → String → Bool
  | npm, name => name.toList.head? = some '@'
  | _, name => name ≠ ""

/-- The publisher that a path names. -/
def publisher (p : Platform) : List String → Option Publisher
  | [] => none
  | segment :: rest =>
    if segment ∈ p.directories then (rest.head?.filter p.isName).map (⟨.behind segment, ·⟩)
    else if p.ownerFirst ∧ segment ≠ "" then some ⟨.first, segment⟩ else none

def all : List Platform :=
  [github, gitlab, bitbucket, npm, pypi, cratesIo, huggingface, sourceforge]

theorem mem_all (p : Platform) : p ∈ all := by
  cases p
  all_goals simp [all]

/-- The hosts are those of the platforms. -/
theorem multiTenantHosts_eq : multiTenantHosts = all.flatMap hosts := rfl

theorem mem_multiTenantHosts {p : Platform} {host : String} (h : host ∈ p.hosts) :
    host ∈ multiTenantHosts := by
  rw [multiTenantHosts_eq]
  exact List.mem_flatMap.2 ⟨p, mem_all p, h⟩

theorem hosts_disjoint {p p' : Platform} {host : String} (h : host ∈ p.hosts) (h' : host ∈ p'.hosts) :
    p = p' := by
  have hall : ∀ p p' : Platform, ∀ host ∈ p.hosts, host ∈ p'.hosts → p = p' := by
    intro p p'
    cases p <;> cases p' <;> simp [hosts]
  exact hall p p' host h h'

theorem slash_not_mem_host {host : String} (h : host ∈ multiTenantHosts) : '/' ∉ host.toList := by
  have hall : ∀ host ∈ multiTenantHosts, '/' ∉ host.toList := by decide
  exact hall host h

end Platform

namespace Publisher

/-- Names are compared without regard to case. -/
def SameName (a b : Publisher) : Prop := toAsciiLowercase a.name = toAsciiLowercase b.name

/-- The names stand in the same place, and owners are spelled alike. -/
def Alike (a b : Publisher) : Prop := a.place = b.place ∧ (a.place = .first → a.name = b.name)

def firstSegment : Publisher → String
  | ⟨.first, name⟩ => name
  | ⟨.behind directory, _⟩ => directory

end Publisher

namespace Platform

variable {p : Platform} {a b : Publisher} {segments : List String}

/-- An owner is no directory of the platform. -/
def Places (p : Platform) (a : Publisher) : Prop :=
  match a.place with
  | .first => a.name ∉ p.directories
  | .behind directory => directory ∈ p.directories

theorem publisher_spec (h : p.publisher segments = some a) :
    segments.head? = some a.firstSegment ∧ a.firstSegment ≠ "" ∧ p.Places a := by
  have hempty : "" ∉ p.directories := by
    cases p
    all_goals simp [directories]
  cases segments with
  | nil => cases h
  | cons segment rest =>
    rw [publisher] at h
    split_ifs at h with hdir howner
    · obtain ⟨name, -, rfl⟩ := Option.map_eq_some_iff.1 h
      refine ⟨rfl, ?_, hdir⟩
      rintro rfl
      exact hempty hdir
    · cases h
      exact ⟨rfl, howner.2, hdir⟩

/-- Two names of one publisher stand behind the same first segment exactly if
    they are alike. -/
theorem firstSegment_eq_iff (ha : p.Places a) (hb : p.Places b) (hsame : a.SameName b) :
    a.firstSegment = b.firstSegment ↔ a.Alike b := by
  rcases a with ⟨_ | d, name⟩ <;> rcases b with ⟨_ | d', name'⟩
  · simp [Publisher.firstSegment, Publisher.Alike]
  · simp only [Publisher.firstSegment, Publisher.Alike, reduceCtorEq, false_and, iff_false]
    rintro rfl
    exact ha hb
  · simp only [Publisher.firstSegment, Publisher.Alike, reduceCtorEq, false_and, iff_false]
    rintro rfl
    exact hb ha
  · simp [Publisher.firstSegment, Publisher.Alike]

/-- The names of two publishers stand behind different first segments, unless
    they are behind the same directory. -/
theorem firstSegment_ne_iff (ha : p.Places a) (hb : p.Places b) (hdiff : ¬ a.SameName b) :
    a.firstSegment ≠ b.firstSegment ↔ a.place = .first ∨ a.place ≠ b.place := by
  rcases a with ⟨_ | d, name⟩ <;> rcases b with ⟨_ | d', name'⟩
  · simp only [Publisher.firstSegment, true_or, iff_true]
    rintro rfl
    exact hdiff rfl
  · simp only [Publisher.firstSegment, true_or, iff_true]
    rintro rfl
    exact ha hb
  · simp only [Publisher.firstSegment, ne_eq, reduceCtorEq, not_false_eq_true, or_true, iff_true]
    rintro rfl
    exact hb ha
  · simp [Publisher.firstSegment]

end Platform

/-! ## Keys -/

section
variable {U ε : Type} {L : HostLib U ε}

theorem pathSegments_eq {u : U} {remainder : Text} (h : (L.path u).toList = '/' :: remainder) :
    L.pathSegments u = some (splitAtChar '/' (String.ofList remainder)) := by
  rw [HostLib.pathSegments, h]
  rfl

/-- The URI has the host, and its path names the publisher on the platform. -/
structure Names (L : HostLib U ε) (uri host : String) (p : Platform) (a : Publisher) : Prop where
  hosted : host ∈ p.hosts
  parsed : ∃ u h segments, L.parse uri = .ok u ∧ L.hostStr u = some h ∧ toAsciiLowercase h = host ∧
    L.pathSegments u = some segments ∧ p.publisher segments = some a

variable {uri uri' host host' : String} {p p' : Platform} {a a' : Publisher}

theorem Names.unique (h : Names L uri host p a) (h' : Names L uri host' p' a') :
    host = host' ∧ p = p' ∧ a = a' := by
  obtain ⟨u, t, segments, hu, ht, rfl, hs, ha⟩ := h.parsed
  obtain ⟨u', t', segments', hu', ht', rfl, hs', ha'⟩ := h'.parsed
  rw [hu] at hu'
  cases hu'
  rw [ht] at ht'
  cases ht'
  rw [hs] at hs'
  cases hs'
  obtain rfl := Platform.hosts_disjoint h.hosted h'.hosted
  rw [ha] at ha'
  cases ha'
  exact ⟨rfl, rfl, rfl⟩

theorem Names.places (h : Names L uri host p a) : p.Places a := by
  obtain ⟨_, _, _, _, _, _, _, ha⟩ := h.parsed
  exact (Platform.publisher_spec ha).2.2

/-- **The key**: the host and the first path segment. -/
theorem Names.controlGroup (h : Names L uri host p a) :
    L.controlGroupForUri uri = some (host ++ "/" ++ a.firstSegment) := by
  obtain ⟨u, t, segments, hu, ht, rfl, hs, ha⟩ := h.parsed
  obtain ⟨hhead, hne, -⟩ := Platform.publisher_spec ha
  have hfind : multiTenantHosts.find? (· = toAsciiLowercase t) = some (toAsciiLowercase t) := by
    have hsome : (multiTenantHosts.find? (· = toAsciiLowercase t)).isSome = true :=
      List.find?_isSome.2 ⟨_, Platform.mem_multiTenantHosts h.hosted, by simp⟩
    obtain ⟨y, hy⟩ := Option.isSome_iff_exists.1 hsome
    have hyt := List.find?_some hy
    rw [hy, of_decide_eq_true hyt]
  have howner : ((L.pathSegments u).bind List.head?).filter (· ≠ "") = some a.firstSegment := by
    rw [hs, Option.bind_some, hhead]
    simp [hne]
  simp only [HostLib.controlGroupForUri, hu, Except.toOption, Option.bind_eq_bind, Option.bind_some, ht,
    hfind, howner]
  rfl

theorem key_eq_iff {s s' : String} (h : '/' ∉ host.toList) (h' : '/' ∉ host'.toList) :
    host ++ "/" ++ s = host' ++ "/" ++ s' ↔ host = host' ∧ s = s' := by
  constructor
  · intro heq
    have hlist := congrArg String.toList heq
    simp only [String.toList_append, List.append_assoc] at hlist
    obtain ⟨hhost, hs⟩ := split_first h h' hlist
    exact ⟨String.toList_injective hhost, String.toList_injective hs⟩
  · rintro ⟨rfl, rfl⟩
    rfl

theorem Names.controlGroup_eq_iff (h : Names L uri host p a) (h' : Names L uri' host' p' a') :
    L.controlGroupForUri uri = L.controlGroupForUri uri' ↔
      host = host' ∧ a.firstSegment = a'.firstSegment := by
  rw [h.controlGroup, h'.controlGroup, Option.some_inj]
  exact key_eq_iff (Platform.slash_not_mem_host (Platform.mem_multiTenantHosts h.hosted))
    (Platform.slash_not_mem_host (Platform.mem_multiTenantHosts h'.hosted))

end

/-! ## Edges -/

section
variable {H U ε : Type} [DecidableEq H] {P : Prims H} {L : HostLib U ε} {g : Projection H} {edgeId : H}

theorem sourceIndependenceOf_eq_zero {n : ℕ} : sourceIndependenceOf n = 0 ↔ n ≤ 1 := by
  unfold sourceIndependenceOf
  constructor
  · intro h
    by_contra hn
    have hpos : (0 : ℚ) < min 1 (((n - 1 : ℕ) : ℚ) / 2) := by
      refine lt_min one_pos (div_pos ?_ two_pos)
      exact Nat.cast_pos.2 (by omega)
    rw [max_eq_right hpos.le] at h
    exact hpos.ne' h
  · intro h
    have hzero : n - 1 = 0 := by omega
    rw [hzero]
    simp

theorem length_dedup_le_one {α : Type} [DecidableEq α] {l : List α} :
    l.dedup.length ≤ 1 ↔ ∀ x ∈ l, ∀ y ∈ l, x = y := by
  rw [← List.card_toFinset, Finset.card_le_one]
  simp only [List.mem_toFinset]

/-- The active assertions of an edge. -/
def activeOf (g : Projection H) (edgeId : H) : List (AssertionRow H) :=
  (g.assertions.filter fun a => a.edgeId = edgeId).filter fun a => a.status = .active

def evidenceOf (g : Projection H) (a : AssertionRow H) : List (EvidenceRow H) :=
  g.evidence.filter fun item => item.assertionId = a.id

/-- **One group**: independence is none exactly if all groups of the active
    assertions are equal. -/
theorem independence_eq_zero_iff {c : EdgeCorroboration H}
    (h : getEdgeCorroboration P L g edgeId = .ok c) :
    c.sourceIndependence = 0 ↔
      ∀ x ∈ (activeOf g edgeId).flatMap (assertionGroups P L g),
        ∀ y ∈ (activeOf g edgeId).flatMap (assertionGroups P L g), x = y := by
  unfold getEdgeCorroboration at h
  split_ifs at h with hedge
  cases h
  rw [sourceIndependenceOf_eq_zero, List.length_mergeSort, length_dedup_le_one]
  rfl

/-- Every active assertion of the edge has evidence, all of it by URIs that name
    one publisher. -/
structure BackedBy (L : HostLib U ε) (g : Projection H) (edgeId : H) (p : Platform) (name : String) :
    Prop where
  cited : ∀ a ∈ activeOf g edgeId, evidenceOf g a ≠ []
  named : ∀ a ∈ activeOf g edgeId, ∀ item ∈ evidenceOf g a, ∃ uri host b, item.uri = some uri ∧
    Names L uri host p b ∧ toAsciiLowercase b.name = toAsciiLowercase name

/-- The URIs behind the active assertions of an edge. -/
def backing (g : Projection H) (edgeId : H) : List String :=
  (activeOf g edgeId).flatMap fun a => (evidenceOf g a).filterMap EvidenceRow.uri

variable {p : Platform} {name : String}

theorem mem_backing {uri : String} : uri ∈ backing g edgeId ↔
    ∃ a ∈ activeOf g edgeId, ∃ item ∈ evidenceOf g a, item.uri = some uri := by
  simp only [backing, List.mem_flatMap, List.mem_filterMap]

theorem BackedBy.names (h : BackedBy L g edgeId p name) {uri : String} (huri : uri ∈ backing g edgeId) :
    ∃ host b, Names L uri host p b ∧ toAsciiLowercase b.name = toAsciiLowercase name := by
  obtain ⟨a, ha, item, hitem, hsome⟩ := mem_backing.1 huri
  obtain ⟨uri', host, b, hsome', hnames, hname⟩ := h.named a ha item hitem
  rw [hsome] at hsome'
  cases hsome'
  exact ⟨host, b, hnames, hname⟩

theorem BackedBy.mem_groups (h : BackedBy L g edgeId p name) {x : String} :
    x ∈ (activeOf g edgeId).flatMap (assertionGroups P L g) ↔
      ∃ uri ∈ backing g edgeId, L.controlGroupForUri uri = some x := by
  have hgroups : ∀ a ∈ activeOf g edgeId, assertionGroups P L g a =
      (evidenceOf g a).map fun item =>
        (item.uri.bind L.controlGroupForUri).getD ("actor:" ++ P.toHex a.actorId) := by
    intro a ha
    have hne := h.cited a ha
    unfold assertionGroups
    split
    · rename_i hempty
      exact absurd hempty hne
    · rfl
  rw [List.mem_flatMap]
  constructor
  · rintro ⟨a, ha, hx⟩
    rw [hgroups a ha] at hx
    obtain ⟨item, hitem, rfl⟩ := List.mem_map.1 hx
    obtain ⟨uri, host, b, hsome, hnames, -⟩ := h.named a ha item hitem
    refine ⟨uri, mem_backing.2 ⟨a, ha, item, hitem, hsome⟩, ?_⟩
    rw [hsome, Option.bind_some, hnames.controlGroup, Option.getD_some]
  · rintro ⟨uri, huri, hkey⟩
    obtain ⟨a, ha, item, hitem, hsome⟩ := mem_backing.1 huri
    refine ⟨a, ha, ?_⟩
    rw [hgroups a ha]
    refine List.mem_map.2 ⟨item, hitem, ?_⟩
    rw [hsome, Option.bind_some, hkey, Option.getD_some]

/-- **Control groups, exactly.**  Two URIs of one publisher get one key exactly
    if they have one host and name it alike; two URIs of different publishers on
    one host get different keys exactly if they are not both behind the same
    directory.  An edge that is backed by one publisher only has no source
    independence exactly if all its URIs have one host and name it alike. -/
theorem control_groups_iff (P : Prims H) (L : HostLib U ε) :
    (∀ uri uri' host host' p p' a a', Names L uri host p a → Names L uri' host' p' a' →
      ((p = p' → a.SameName a' → L.controlGroupForUri uri = L.controlGroupForUri uri') ↔
        (p = p' → a.SameName a' → host = host' ∧ a.Alike a')) ∧
      ((host = host' → ¬ a.SameName a' → L.controlGroupForUri uri ≠ L.controlGroupForUri uri') ↔
        (host = host' → ¬ a.SameName a' → a.place = .first ∨ a.place ≠ a'.place))) ∧
    ∀ g edgeId c p name, getEdgeCorroboration P L g edgeId = .ok c → BackedBy L g edgeId p name →
      (c.sourceIndependence = 0 ↔
        ∀ uri ∈ backing g edgeId, ∀ uri' ∈ backing g edgeId, ∀ host host' a a',
          Names L uri host p a → Names L uri' host' p a' → host = host' ∧ a.Alike a') := by
  refine ⟨fun uri uri' host host' p p' a a' h h' => ⟨?_, ?_⟩, ?_⟩
  · refine forall_congr' fun hp => forall_congr' fun hsame => ?_
    subst hp
    rw [h.controlGroup_eq_iff h', Platform.firstSegment_eq_iff h.places h'.places hsame]
  · refine forall_congr' fun hhost => forall_congr' fun hdiff => ?_
    subst hhost
    obtain rfl := Platform.hosts_disjoint h.hosted h'.hosted
    rw [ne_eq, h.controlGroup_eq_iff h', ← Platform.firstSegment_ne_iff h.places h'.places hdiff]
    simp
  · intro g edgeId c p name hc hbacked
    rw [independence_eq_zero_iff hc]
    simp only [hbacked.mem_groups]
    constructor
    · intro hone uri huri uri' huri' host host' a a' h h'
      obtain ⟨_, _, hn, hname⟩ := hbacked.names huri
      obtain ⟨-, -, rfl⟩ := h.unique hn
      obtain ⟨_, _, hn', hname'⟩ := hbacked.names huri'
      obtain ⟨-, -, rfl⟩ := h'.unique hn'
      have hkeys := hone _ ⟨uri, huri, h.controlGroup⟩ _ ⟨uri', huri', h'.controlGroup⟩
      have hsame : a.SameName a' := hname.trans hname'.symm
      rw [← Platform.firstSegment_eq_iff h.places h'.places hsame, ← h.controlGroup_eq_iff h',
        h.controlGroup, h'.controlGroup, hkeys]
    · rintro halike x ⟨uri, huri, hx⟩ y ⟨uri', huri', hy⟩
      obtain ⟨host, a, h, hname⟩ := hbacked.names huri
      obtain ⟨host', a', h', hname'⟩ := hbacked.names huri'
      obtain ⟨hhost, hal⟩ := halike uri huri uri' huri' host host' a a' h h'
      have hsame : a.SameName a' := hname.trans hname'.symm
      have hkey := (h.controlGroup_eq_iff h').2
        ⟨hhost, (Platform.firstSegment_eq_iff h.places h'.places hsame).2 hal⟩
      rw [hx, hy] at hkey
      exact Option.some_inj.1 hkey

end

/-! ## Two owners and two scopes -/

/-- The ideal URL library, with its hosts. -/
noncomputable def idealHost : HostLib IdealUrl Unit :=
  { idealUrl with hostStr := fun u => some (String.ofList u.host) }

def siteUrl (host path : Text) (hhost : '/' ∉ host ∧ '?' ∉ host ∧ '#' ∉ host)
    (hpath : '?' ∉ path ∧ '#' ∉ path) : IdealUrl where
  host := host
  path := some path
  query := none
  fragment := none
  host_free := hhost
  path_free := IdealUrl.path_free_some hpath
  query_free := IdealUrl.query_free_none

theorem names_siteUrl {host path : Text} {hhost : '/' ∉ host ∧ '?' ∉ host ∧ '#' ∉ host}
    {hpath : '?' ∉ path ∧ '#' ∉ path} {lower : String} {p : Platform} {a : Publisher}
    (hlower : toAsciiLowercase (String.ofList host) = lower) (hmem : lower ∈ p.hosts)
    (ha : p.publisher (splitAtChar '/' (String.ofList path)) = some a) :
    Names idealHost (siteUrl host path hhost hpath).toString lower p a where
  hosted := hmem
  parsed := by
    refine ⟨_, _, _, idealUrl_laws.parse_toString _, rfl, hlower, ?_, ha⟩
    exact pathSegments_eq String.toList_ofList

def upperRepo : String :=
  (siteUrl "github.com".toList "Example/repo".toList (by decide) (by decide)).toString

def lowerRepo : String :=
  (siteUrl "github.com".toList "example/tool".toList (by decide) (by decide)).toString

def firstScope : String :=
  (siteUrl "www.npmjs.com".toList "package/@first/parser".toList (by decide) (by decide)).toString

def secondScope : String :=
  (siteUrl "www.npmjs.com".toList "package/@second/parser".toList (by decide) (by decide)).toString

example : upperRepo = "https://github.com/Example/repo" := by decide

theorem names_upperRepo : Names idealHost upperRepo "github.com" .github ⟨.first, "Example"⟩ :=
  names_siteUrl (by decide) (by decide) (by decide)

theorem names_lowerRepo : Names idealHost lowerRepo "github.com" .github ⟨.first, "example"⟩ :=
  names_siteUrl (by decide) (by decide) (by decide)

theorem names_firstScope : Names idealHost firstScope "www.npmjs.com" .npm ⟨.behind "package", "@first"⟩ :=
  names_siteUrl (by decide) (by decide) (by decide)

theorem names_secondScope : Names idealHost secondScope "www.npmjs.com" .npm ⟨.behind "package", "@second"⟩ :=
  names_siteUrl (by decide) (by decide) (by decide)

/-- An edge with one active assertion that cites two URIs. -/
def citedTables (uri uri' : String) : Projection Bytes :=
  { Projection.empty with
    edges := [⟨[1], [2], "supports", [3], 1⟩]
    assertions := [⟨[4], [1], [5], none, none, 1, .direct, .active⟩]
    evidence := [⟨[6], [4], .repository, some uri, none, none, none, none, none, .emptyObj⟩,
      ⟨[7], [4], .repository, some uri', none, none, none, none, none, .emptyObj⟩] }

theorem activeOf_citedTables (uri uri' : String) :
    activeOf (citedTables uri uri') [1] = [⟨[4], [1], [5], none, none, 1, .direct, .active⟩] := rfl

theorem getEdgeCorroboration_citedTables (uri uri' : String) :
    ∃ c, getEdgeCorroboration idealOpen idealHost (citedTables uri uri') [1] = .ok c := ⟨_, rfl⟩

theorem mem_backing_citedTables {uri uri' x : String} (h : x ∈ backing (citedTables uri uri') [1]) :
    x = uri ∨ x = uri' := by
  have hback : backing (citedTables uri uri') [1] = [uri, uri'] := rfl
  rw [hback] at h
  simpa using h

/-- What two names of one publisher make of the edge. -/
theorem backedBy_citedTables {uri uri' host host' : String} {p : Platform} {a a' : Publisher}
    (h : Names idealHost uri host p a) (h' : Names idealHost uri' host' p a') (hsame : a.SameName a') :
    BackedBy idealHost (citedTables uri uri') [1] p a.name where
  cited := by
    intro row hrow
    rw [activeOf_citedTables, List.mem_singleton] at hrow
    subst hrow
    exact List.cons_ne_nil _ _
  named := by
    intro row hrow item hitem
    rw [activeOf_citedTables, List.mem_singleton] at hrow
    subst hrow
    rcases List.mem_cons.1 (List.mem_of_mem_filter hitem) with rfl | hitem
    · exact ⟨uri, host, a, rfl, h, rfl⟩
    · rw [List.mem_singleton.1 hitem]
      exact ⟨uri', host', a', rfl, h', hsame.symm⟩

def otherRepo : String :=
  (siteUrl "github.com".toList "example/other".toList (by decide) (by decide)).toString

theorem names_otherRepo : Names idealHost otherRepo "github.com" .github ⟨.first, "example"⟩ :=
  names_siteUrl (by decide) (by decide) (by decide)

/-- Two repositories of one owner are one group. -/
theorem control_groups_iff_repositories :
    idealHost.controlGroupForUri lowerRepo = idealHost.controlGroupForUri otherRepo ∧
      ∃ c, getEdgeCorroboration idealOpen idealHost (citedTables lowerRepo otherRepo) [1] = .ok c ∧
        c.sourceIndependence = 0 := by
  obtain ⟨c, hc⟩ := getEdgeCorroboration_citedTables lowerRepo otherRepo
  obtain ⟨hpairs, hedges⟩ := control_groups_iff idealOpen idealHost
  have halike : (⟨.first, "example"⟩ : Publisher).Alike ⟨.first, "example"⟩ := ⟨rfl, fun _ => rfl⟩
  refine ⟨(hpairs _ _ _ _ _ _ _ _ names_lowerRepo names_otherRepo).1.2 (fun _ _ => ⟨rfl, halike⟩) rfl rfl,
    c, hc, ?_⟩
  refine (hedges _ _ c .github "example" hc (backedBy_citedTables names_lowerRepo names_otherRepo rfl)).2 ?_
  rintro x hx x' hx' host host' a a' h h'
  have hnames : ∀ x ∈ backing (citedTables lowerRepo otherRepo) ([1] : Bytes),
      Names idealHost x "github.com" .github ⟨.first, "example"⟩ := by
    rintro x hx
    rcases mem_backing_citedTables hx with rfl | rfl
    · exact names_lowerRepo
    · exact names_otherRepo
  obtain ⟨rfl, -, rfl⟩ := h.unique (hnames x hx)
  obtain ⟨rfl, -, rfl⟩ := h'.unique (hnames x' hx')
  exact ⟨rfl, halike⟩

/-- One owner has two groups, which count as partly independent; two scopes have
    one. -/
theorem control_groups_split_and_joined :
    ((⟨.first, "Example"⟩ : Publisher).SameName ⟨.first, "example"⟩ ∧
      idealHost.controlGroupForUri upperRepo ≠ idealHost.controlGroupForUri lowerRepo ∧
      ∃ c, getEdgeCorroboration idealOpen idealHost (citedTables upperRepo lowerRepo) [1] = .ok c ∧
        c.sourceIndependence ≠ 0) ∧
    ¬ (⟨.behind "package", "@first"⟩ : Publisher).SameName ⟨.behind "package", "@second"⟩ ∧
      idealHost.controlGroupForUri firstScope = idealHost.controlGroupForUri secondScope := by
  have hkeys : idealHost.controlGroupForUri upperRepo ≠ idealHost.controlGroupForUri lowerRepo := by
    rw [ne_eq, names_upperRepo.controlGroup_eq_iff names_lowerRepo]
    simp [Publisher.firstSegment]
  have hsame : (⟨.first, "Example"⟩ : Publisher).SameName ⟨.first, "example"⟩ := by
    show toAsciiLowercase _ = toAsciiLowercase _
    decide
  obtain ⟨c, hc⟩ := getEdgeCorroboration_citedTables upperRepo lowerRepo
  refine ⟨⟨hsame, hkeys, c, hc, ?_⟩, ?_, ?_⟩
  · have hbacked := backedBy_citedTables names_upperRepo names_lowerRepo hsame
    rw [ne_eq, independence_eq_zero_iff hc]
    intro hone
    have hback : backing (citedTables upperRepo lowerRepo) ([1] : Bytes) = [upperRepo, lowerRepo] := rfl
    have hkey := hone _ (hbacked.mem_groups.2 ⟨upperRepo, by simp [hback], names_upperRepo.controlGroup⟩)
      _ (hbacked.mem_groups.2 ⟨lowerRepo, by simp [hback], names_lowerRepo.controlGroup⟩)
    rw [names_upperRepo.controlGroup, names_lowerRepo.controlGroup, hkey] at hkeys
    exact hkeys rfl
  · show ¬ toAsciiLowercase _ = toAsciiLowercase _
    decide
  · rw [names_firstScope.controlGroup_eq_iff names_secondScope]
    exact ⟨rfl, rfl⟩

end OpenAgentGraph
