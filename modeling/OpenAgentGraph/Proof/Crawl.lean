/-
  The check of robots.txt in a crawl.

  The rules decide by themselves: behind the check no call fails as if by
  robots.txt, and before it only robots.txt is fetched.  What they are given is
  the whole user agent text and the path without its query.
-/
import OpenAgentGraph.Crawler.Crawl
import OpenAgentGraph.Lib.Except
import OpenAgentGraph.Proof.Forward
import OpenAgentGraph.Proof.Robots

namespace OpenAgentGraph

open Lib Lib.Sending Repo

open scoped List

variable {H : Type} [DecidableEq H] {U Ω ε : Type}

/-! ## What the check compares -/

/-- The path of a URL, with its query. -/
def pathAndQuery (L : UrlLib U ε) (url : U) : String := L.path url ++ (L.query url).elim "" ("?" ++ ·)

/-- The groups of a robots.txt as it was fetched. -/
def robotsGroups (P : Prims H) (page : Internet.FetchedPage U) : List AgentGroup :=
  groupsOf (directivesOf P (String.ofList (fromUtf8Lossy page.body)))

theorem isAllowed_iff (rules : RobotsRules) (path : String) :
    rules.isAllowed path = true ↔ ¬ ∃ v ∈ rules.disallow, v.toList <+: path.toList := by
  rw [RobotsRules.isAllowed, Bool.not_eq_true', Bool.eq_false_iff, ne_eq, List.any_eq_true]
  simp only [List.isPrefixOf_iff_prefix]

/-! ## Calls that keep an invariant of the store -/

/-- The failure is not that of robots.txt, and the store is as it should be. -/
def ElseFails (J : Store H → Prop) (e : CrawlFailure H) (s : Store H) : Prop :=
  J s ∧ e ≠ .robotsDisallowed

/-- From `J`, the call returns in `Q` or fails in `K`, and not as if by
    robots.txt. -/
abbrev Leads {α : Type} (J : Store H → Prop) (m : CrawlerService.Call U Ω H α) (Q : α → Store H → Prop)
    (K : Store H → Prop) : Prop :=
  Triple (OnSecond J) m (fun a => OnSecond (Q a)) fun e => OnSecond (ElseFails K e)

/-- The call keeps `J` on either exit. -/
abbrev Keeps {α : Type} (J : Store H → Prop) (m : CrawlerService.Call U Ω H α) : Prop :=
  Leads J m (fun _ => J) J

omit [DecidableEq H] in
theorem transact_ok {α : Type} {s : Store H} {r : Except (GraphError H) (Store H × α)} {a : α} :
    (transact s r).2 = .ok a ↔ r = .ok ((transact s r).1, a) := by
  rcases r with e | ⟨s', b⟩ <;> simp [transact]

omit [DecidableEq H] in
theorem transact_error {α : Type} {s : Store H} {r : Except (GraphError H) (Store H × α)}
    {e : GraphError H} (h : (transact s r).2 = .error e) : (transact s r).1 = s := by
  rcases r with e | ⟨s', b⟩
  · rfl
  · cases h

namespace CrawlerService

variable {P : Prims H} {svc : CrawlerService U Ω ε H} {J K : Store H → Prop} {auth : AuthContext H}

omit [DecidableEq H] in
theorem keeps_clock : Keeps J svc.clock :=
  Triple.of_onFirst (V := fun _ => True) (F := fun _ => False) (Triple.of_call fun _ _ => trivial)
    (fun _ _ _ h => h) (fun _ _ h => h.elim)

omit [DecidableEq H] in
theorem keeps_ask {α : Type} (f : Ω → α × Ω) : Keeps J (onFirst (call f) : Call U Ω H α) :=
  Triple.of_onFirst (V := fun _ => True) (F := fun _ => False) (Triple.of_call fun _ _ => trivial)
    (fun _ _ _ h => h) (fun _ _ h => h.elim)

omit [DecidableEq H] in
theorem keeps_fetch (url : U) : Keeps J (svc.fetch P url) := by
  refine Triple.of_mapError ?_
  refine Triple.of_onFirst (V := fun _ => True) (F := fun _ => True)
    (fun _ _ => ⟨fun _ _ => trivial, fun _ _ => trivial⟩) (fun _ _ _ h => h) fun e t _ h => ⟨h, ?_⟩
  rintro ⟨⟩

omit [DecidableEq H] in
theorem fetch_eq (url : U) (w : (Ω × Store H) × List (Sent U)) : svc.fetch P url w =
    ((svc.net.safeFetch P url svc.config (w.1.1, w.2)).1.mapError .fetch,
      ((svc.net.safeFetch P url svc.config (w.1.1, w.2)).2.1, w.1.2),
      (svc.net.safeFetch P url svc.config (w.1.1, w.2)).2.2) := rfl

omit [DecidableEq H] in
theorem leads_graph {α : Type} {f : Store H → Store H × Except (GraphError H) α}
    {Q : α → Store H → Prop} (hok : ∀ s a, J s → (f s).2 = .ok a → Q a (f s).1)
    (herror : ∀ s e, J s → (f s).2 = .error e → K (f s).1) :
    Leads J (graph f : Call U Ω H α) Q K := by
  refine Triple.of_mapError ?_
  refine Triple.of_onSecond hok fun s e hs he => ⟨herror s e hs he, ?_⟩
  rintro ⟨⟩

omit [DecidableEq H] in
/-- A call whose outcome is looked at keeps what it keeps on either exit. -/
theorem outcome_bind {α β : Type} {m : Call U Ω H α} {g : Except (CrawlFailure H) α → Call U Ω H β}
    {R : β → Ω × Store H → Prop} {E : CrawlFailure H → Ω × Store H → Prop}
    (hm : Keeps J m) (hg : ∀ r, Triple (OnSecond J) (g r) R E) :
    Triple (OnSecond J) (outcome m >>= g) R E :=
  (Triple.of_attempt (hm.mono (fun _ h => h) (fun _ _ h => h) fun _ _ h => h.1)).bind hg

/-- The actor of a name, found or declared. -/
theorem leads_actorAuth {Q : AuthContext H → Store H → Prop} {name : String} {actorType : ActorType}
    (hfound : ∀ s actor, J s → findByNameAndType svc.actorOrder s.proj name actorType = some actor →
      Q ⟨actor.actorId, [.graphAssert]⟩ s)
    (hdeclared : ∀ s now s' id, J s → findByNameAndType svc.actorOrder s.proj name actorType = none →
      P.declareActor s svc.identity actorType (some name) none none now = .ok (s', id) →
      Q ⟨id, [.graphAssert]⟩ s')
    (hK : ∀ s, J s → K s) : Leads J (svc.actorAuth P name actorType) Q K := by
  refine Triple.bind (Q := fun actor => OnSecond fun s =>
    J s ∧ findByNameAndType svc.actorOrder s.proj name actorType = actor) ?_ fun actor => ?_
  · refine leads_graph ?_ fun s e hs _ => hK s hs
    rintro s actor hs ⟨⟩
    exact ⟨hs, rfl⟩
  cases actor with
  | some actor => exact Triple.of_pure fun x hx => hfound x.2 actor hx.1 hx.2
  | none =>
    refine (keeps_clock.mono (fun _ h => h) (fun _ _ h => h) fun _ _ h => ⟨hK _ h.1.1, h.2⟩).bind
      fun now => Triple.bind (Q := fun id => OnSecond fun s => Q ⟨id, [.graphAssert]⟩ s) ?_ fun id => ?_
    · refine leads_graph (fun s id hs hid => ?_) fun s e hs he => ?_
      · rw [transact_ok] at hid
        exact hdeclared s _ _ _ hs.1 hs.2 hid
      · rw [transact_error he]
        exact hK s hs.1
    · exact Triple.of_pure fun _ hx => hx

/-- The writes of the service under an actor keep an invariant. -/
structure KeptUnder (P : Prims H) (svc : CrawlerService U Ω ε H) (auth : AuthContext H)
    (J : Store H → Prop) : Prop where
  assert : ∀ s input now, J s → J (P.assert svc.url s svc.identity auth input now).1
  declareAlias : ∀ s nodeId aliasName aliasType now s', J s →
    P.declareAlias s svc.identity auth nodeId aliasName aliasType now = .ok s' → J s'

theorem KeptUnder.keeps_assert (h : KeptUnder P svc auth J) (input : AssertInput) :
    Keeps J (svc.assert P auth input) :=
  keeps_clock.bind fun now =>
    leads_graph (fun s _ hs _ => h.assert s input now hs) fun s _ hs _ => h.assert s input now hs

theorem KeptUnder.keeps_assertFact (h : KeptUnder P svc auth J) (evidence : EvidenceInput)
    (confidence : UInt32) (summary : CrawlSummary) (fact : ExtractedFact) :
    Keeps J (svc.assertFact P auth evidence confidence summary fact) := by
  refine outcome_bind (h.keeps_assert _) fun r => ?_
  cases r with
  | ok id => exact Triple.of_pure fun _ hx => hx
  | error e => exact Triple.of_pure fun _ hx => hx

theorem KeptUnder.keeps_declareExtractedAlias (h : KeptUnder P svc auth J) (found : ExtractedAlias) :
    Keeps J (svc.declareExtractedAlias P auth found) := by
  have hresolve : Keeps J (graph fun s => (s, svc.resolveNodeId P found.nodeIdentifier s) :
      Call U Ω H H) :=
    leads_graph (fun _ _ hs _ => hs) fun _ _ hs _ => hs
  refine hresolve.bind fun nodeId => keeps_clock.bind fun now =>
    leads_graph (fun s u hs hu => ?_) fun s e hs he => ?_
  · obtain ⟨s', hs', heq⟩ := map_ok.1 (transact_ok.1 hu)
    have hfst : s' = _ := congrArg Prod.fst heq
    exact hfst ▸ h.declareAlias s nodeId _ _ _ s' hs hs'
  · rw [transact_error he]
    exact hs

theorem KeptUnder.keeps_assertAlias (h : KeptUnder P svc auth J) (summary : CrawlSummary)
    (found : ExtractedAlias) : Keeps J (svc.assertAlias P auth summary found) := by
  refine outcome_bind (h.keeps_declareExtractedAlias found) fun r => ?_
  cases r with
  | ok u => exact Triple.of_pure fun _ hx => hx
  | error e => exact Triple.of_pure fun _ hx => hx

theorem KeptUnder.keeps_assertExtracted (h : KeptUnder P svc auth J) (page : ExtractedPage)
    (evidence : EvidenceInput) (confidence : UInt32) (summary : CrawlSummary) :
    Keeps J (svc.assertExtracted P auth page evidence confidence summary) :=
  (Triple.of_foldlM (fun summary fact _ => h.keeps_assertFact evidence confidence summary fact) summary).bind
    fun summary => Triple.of_foldlM (fun summary found _ => h.keeps_assertAlias summary found) summary

theorem KeptUnder.keeps_sidePage (h : KeptUnder P svc auth J) (url : U) (side : SideFetch U)
    (summary : CrawlSummary) : Keeps J (svc.sidePage P auth url side summary) := by
  unfold sidePage
  cases svc.net.join url side.path with
  | none => exact Triple.of_pure fun _ hx => hx
  | some sideUrl =>
    refine outcome_bind (keeps_fetch sideUrl) fun r => ?_
    cases r with
    | error e => exact Triple.of_pure fun _ hx => hx
    | ok page =>
      refine keeps_clock.bind fun now => (h.keeps_assertExtracted _ _ _ summary).bind fun summary => ?_
      exact Triple.of_pure fun _ hx => hx

/-- The pass of the language model, whose actor may be another one. -/
theorem leads_llmPass {K : AuthContext H → Store H → Prop} {J' : Store H → Prop}
    (hauth : Leads J (svc.llmExtractorAuth P) K J') (hkept : ∀ llmAuth, KeptUnder P svc llmAuth (K llmAuth))
    (hJ : ∀ s, J s → J' s) (hK : ∀ llmAuth s, K llmAuth s → J' s) (html : Bool) (body finalUrl : String)
    (evidence : EvidenceInput) (summary : CrawlSummary) :
    Leads J (svc.llmPass P html body finalUrl evidence summary) (fun _ => J') J' := by
  have hreturn : Leads J (pure summary : Call U Ω H CrawlSummary) (fun _ => J') J' :=
    Triple.of_pure fun _ hx => hJ _ hx
  have hcandidate : ∀ llmAuth summary candidate,
      Keeps (K llmAuth) (svc.assertCandidate P llmAuth evidence summary candidate) := by
    intro llmAuth summary candidate
    refine outcome_bind ((hkept llmAuth).keeps_assert _) fun r => ?_
    cases r with
    | ok id => exact Triple.of_pure fun _ hx => hx
    | error e => exact Triple.of_pure fun _ hx => hx
  unfold llmPass
  dsimp only
  split_ifs with htext
  · refine ((keeps_ask _).mono (fun _ h => h) (fun _ _ h => h) fun _ _ h => ⟨hJ _ h.1, h.2⟩).bind fun r => ?_
    rcases r with e | ⟨_ | ⟨candidate, candidates⟩⟩
    · exact hreturn
    · exact hreturn
    · refine hauth.bind fun llmAuth => ?_
      refine (Triple.of_foldlM (fun summary candidate _ => hcandidate llmAuth summary candidate) summary).mono
        (fun _ h => h) (fun _ _ h => hK llmAuth _ h) fun _ _ h => ⟨hK llmAuth _ h.1, h.2⟩
  · exact hreturn

/-- A page that is no HTML has no text to read. -/
theorem llmPass_of_not_html (body finalUrl : String) (evidence : EvidenceInput) (summary : CrawlSummary) :
    svc.llmPass P false body finalUrl evidence summary = pure summary := by
  rw [llmPass]
  exact if_neg fun h => absurd h.1 Bool.false_ne_true

/-- **Behind the check**: a call under an actor whose writes keep an invariant
    keeps it, and fails in other ways than by robots.txt. -/
theorem leads_crawlPage {K : AuthContext H → Store H → Prop} {J' : Store H → Prop}
    (hkept : KeptUnder P svc auth J) (hkept' : KeptUnder P svc auth J')
    (hauth : Leads J (svc.llmExtractorAuth P) K J') (hllm : ∀ llmAuth, KeptUnder P svc llmAuth (K llmAuth))
    (hJ : ∀ s, J s → J' s) (hK : ∀ llmAuth s, K llmAuth s → J' s) (url : U) :
    Leads J (svc.crawlPage P auth url) (fun _ => J') J' := by
  have hweaken : ∀ {α : Type} {m : Call U Ω H α}, Keeps J m → Leads J m (fun _ => J) J' := fun h =>
    h.mono (fun _ h => h) (fun _ _ h => h) fun _ _ h => ⟨hJ _ h.1, h.2⟩
  refine (hweaken (keeps_fetch url)).bind fun page => ?_
  refine (hweaken (keeps_ask _)).bind fun pinned => ?_
  refine (hweaken keeps_clock).bind fun now => ?_
  refine (hweaken (hkept.keeps_assert _)).bind fun _ => ?_
  refine (hweaken (hkept.keeps_assertExtracted _ _ _ _)).bind fun summary => ?_
  refine (leads_llmPass hauth hllm hJ hK _ _ _ _ summary).bind fun summary => ?_
  refine (hkept'.keeps_sidePage url _ summary).bind fun summary => ?_
  exact (hkept'.keeps_sidePage url _ summary).bind fun summary => hkept'.keeps_sidePage url _ summary

/-! ## The check -/

omit [DecidableEq H] in
theorem keeps_checkRobots (url : U) : Keeps J (svc.checkRobots P url) := by
  unfold checkRobots
  cases svc.net.join url "/robots.txt" with
  | none => exact Triple.of_pure fun _ hx => hx
  | some robotsUrl =>
    refine outcome_bind (keeps_fetch _) fun r => ?_
    cases r with
    | ok page => exact Triple.of_pure fun _ hx => hx
    | error e => exact Triple.of_pure fun _ hx => hx

/-- **A crawl**, from the invariant of its crawler's actor to one that its writes
    keep. -/
theorem triple_crawl {I N : Store H → Prop} {J J' : AuthContext H → Store H → Prop}
    {K : AuthContext H → AuthContext H → Store H → Prop} (hcrawler : Leads I (svc.crawlerAuth P) J N)
    (hkept : ∀ auth, KeptUnder P svc auth (J auth)) (hkept' : ∀ auth, KeptUnder P svc auth (J' auth))
    (hauth : ∀ auth, Leads (J auth) (svc.llmExtractorAuth P) (K auth) (J' auth))
    (hllm : ∀ auth llmAuth, KeptUnder P svc llmAuth (K auth llmAuth))
    (hJ : ∀ auth s, J auth s → J' auth s) (hK : ∀ auth llmAuth s, K auth llmAuth s → J' auth s)
    (hN : ∀ auth s, J' auth s → N s) (url : U) :
    Triple (OnSecond I) (svc.crawl P url) (fun _ => OnSecond N) fun _ => OnSecond N := by
  refine (hcrawler.mono (fun _ h => h) (fun _ _ h => h) fun _ _ h => h.1).bind fun auth => ?_
  refine ((keeps_checkRobots url).mono (fun _ h => h) (fun _ _ h => h)
    fun _ _ h => hN auth _ (hJ auth _ h.1)).bind fun robots => ?_
  split_ifs with hallowed
  · exact (leads_crawlPage (hkept auth) (hkept' auth) (hauth auth) (hllm auth) (hJ auth) (hK auth) url).mono
      (fun _ h => h) (fun _ _ h => hN auth _ h) fun _ _ h => hN auth _ h.1
  · exact Triple.of_throw fun _ hx => hN auth _ (hJ auth _ hx)

omit [DecidableEq H] in
theorem checkRobots_served {url robotsUrl : U} {page : Internet.FetchedPage U}
    {w w' : (Ω × Store H) × List (Sent U)} (hjoin : svc.net.join url "/robots.txt" = some robotsUrl)
    (hserved : svc.fetch P (svc.url.setQuery robotsUrl none) w = (.ok page, w')) :
    svc.checkRobots P url w =
      (.ok (.parse P (String.ofList (fromUtf8Lossy page.body)) svc.config.userAgent), w') := by
  rw [checkRobots, hjoin]
  dsimp only
  have houtcome : outcome (svc.fetch P (svc.url.setQuery robotsUrl none)) w = (.ok (.ok page), w') := by
    rw [outcome, attempt, hserved]
  rw [bind_of_ok houtcome]
  rfl

/-- Behind the check no call fails as if by robots.txt. -/
theorem crawlPage_ne_robotsDisallowed (auth : AuthContext H) (url : U)
    (w : (Ω × Store H) × List (Sent U)) : (svc.crawlPage P auth url w).1 ≠ .error .robotsDisallowed := by
  have hkept : ∀ auth, KeptUnder P svc auth fun _ => True := fun auth =>
    ⟨fun _ _ _ _ => trivial, fun _ _ _ _ _ _ _ _ => trivial⟩
  have hllm : Leads (fun _ => True) (svc.llmExtractorAuth P) (fun _ _ => True) fun _ => True :=
    leads_actorAuth (fun _ _ _ _ => trivial) (fun _ _ _ _ _ _ _ => trivial) fun _ _ => trivial
  have hleads := leads_crawlPage (hkept auth) (hkept auth) hllm hkept (fun _ _ => trivial)
    (fun _ _ _ => trivial) url
  intro herror
  exact ((hleads w trivial).2 _ herror).2 rfl

/-! ## A crawl of a site with a robots.txt -/

section served

variable {url robotsUrl : U} {page : Internet.FetchedPage U} {w w' : (Ω × Store H) × List (Sent U)}

/-- A crawl whose actor is there is stopped exactly if the path without the query
    starts with a value that the parser takes for the whole user agent text. -/
theorem crawl_stops (h : LowercaseLaws P.toLowercase)
    (hjoin : svc.net.join url "/robots.txt" = some robotsUrl)
    (hserved : svc.fetch P (svc.url.setQuery robotsUrl none) (svc.crawlerAuth P w).2 = (.ok page, w'))
    (hauth : (svc.crawlerAuth P w).1 = .ok auth)
    (hstop : ∃ v ∈ firstValues (applicable P (robotsGroups P page) svc.config.userAgent),
      v.toList <+: (svc.url.path url).toList) :
    svc.crawl P url w = (.error .robotsDisallowed, w') := by
  rw [crawl, bind_of_ok (Prod.ext hauth rfl), bind_of_ok (checkRobots_served hjoin hserved)]
  rw [robotsGroups, ← parse_eq h] at hstop
  rw [if_neg fun hallowed => (isAllowed_iff _ _).1 hallowed hstop]
  rfl

theorem crawl_goes_on (h : LowercaseLaws P.toLowercase)
    (hjoin : svc.net.join url "/robots.txt" = some robotsUrl)
    (hserved : svc.fetch P (svc.url.setQuery robotsUrl none) (svc.crawlerAuth P w).2 = (.ok page, w'))
    (hauth : (svc.crawlerAuth P w).1 = .ok auth)
    (hstop : ¬ ∃ v ∈ firstValues (applicable P (robotsGroups P page) svc.config.userAgent),
      v.toList <+: (svc.url.path url).toList) :
    (svc.crawl P url w).1 ≠ .error .robotsDisallowed := by
  rw [crawl, bind_of_ok (Prod.ext hauth rfl), bind_of_ok (checkRobots_served hjoin hserved)]
  rw [robotsGroups, ← parse_eq h] at hstop
  rw [if_pos ((isAllowed_iff _ _).2 hstop)]
  exact crawlPage_ne_robotsDisallowed auth url w'

theorem crawl_fails_with_actor {e : CrawlFailure H} (hauth : (svc.crawlerAuth P w).1 = .error e) :
    (svc.crawl P url w).1 ≠ .error .robotsDisallowed := by
  have hleads : Leads (fun _ => True) (svc.crawlerAuth P) (fun _ _ => True) fun _ => True :=
    leads_actorAuth (fun _ _ _ _ => trivial) (fun _ _ _ _ _ _ _ => trivial) fun _ _ => trivial
  rw [crawl, bind_of_error (Prod.ext hauth rfl)]
  intro hstop
  exact ((hleads w trivial).2 e hauth).2 (Except.error.inj hstop)

/-- **When a crawl respects robots.txt**: of a URL that the group for the product
    token disallows, with its query, the crawl is stopped in front of the page
    exactly if its actor is there and the group that is taken for the whole user
    agent text disallows the path alone. -/
theorem crawl_respects_robots_iff (h : LowercaseLaws P.toLowercase) (hconfig : svc.config = {})
    (hjoin : svc.net.join url "/robots.txt" = some robotsUrl)
    (hserved : svc.fetch P (svc.url.setQuery robotsUrl none) (svc.crawlerAuth P w).2 = (.ok page, w'))
    (_hdisallowed : ∃ v ∈ disallowedFor P (robotsGroups P page) "oag-crawler",
      v.toList <+: (pathAndQuery svc.url url).toList) :
    svc.crawl P url w = (.error .robotsDisallowed, w') ↔
      (∃ auth, (svc.crawlerAuth P w).1 = .ok auth) ∧
      ∃ v ∈ firstValues (applicable P (robotsGroups P page)
          "oag-crawler/0.1 (+https://github.com/webdawg/open-agent-graph)"),
        v.toList <+: (svc.url.path url).toList := by
  have hagent : svc.config.userAgent = "oag-crawler/0.1 (+https://github.com/webdawg/open-agent-graph)" := by
    rw [hconfig]
  rw [← hagent]
  constructor
  · intro hstop
    have hfst := congrArg Prod.fst hstop
    cases hauth : (svc.crawlerAuth P w).1 with
    | error e => exact absurd hfst (crawl_fails_with_actor hauth)
    | ok auth =>
      refine ⟨⟨auth, rfl⟩, ?_⟩
      by_contra hnot
      exact crawl_goes_on h hjoin hserved hauth hnot hfst
  · rintro ⟨⟨auth, hauth⟩, hstop⟩
    exact crawl_stops h hjoin hserved hauth hstop

end served

/-! ## The actor -/

/-- An actor without a key is declared while there is room. -/
theorem declareActor_succeeds (hJ : JsonLaws P) (hinj : Function.Injective P.blake3) {s : Store H}
    (hlog : LogInv P s) (hroom : s.events.length < maxRows) (me : Prims.PeerIdentity)
    (actorType : ActorType) {name : String} (hname : (utf8 name).length ≤ maxActorNameLen) (now : Int64) :
    ∃ r, P.declareActor s me actorType (some name) none none now = .ok r := by
  rcases hnext : Prims.nextOf (getOrigin s.eventOrigins (me.peerId P)) with ⟨n, previous⟩
  have hfin : (EventPayload.actorDeclare ⟨actorType.asStr, some name, none, none⟩).Finite := trivial
  obtain ⟨e, heff, hadm⟩ : ∃ e, P.effectOf (P.idOf (P.eventOf me n previous now
      (.actorDeclare ⟨actorType.asStr, some name, none, none⟩))) now
      (.actorDeclare ⟨actorType.asStr, some name, none, none⟩) = some e ∧ e.Admissible s.proj := by
    simp only [Prims.effectOf, Prims.actorEffect, ActorType.parse_asStr, Prims.declaredKey]
    refine ⟨_, rfl, ?_⟩
    constructor <;> simp
  obtain ⟨o, hcommit⟩ := commit_apply hJ hinj hlog hroom hfin hnext heff hadm
  have hcheck : checkLen "name" name maxActorNameLen = (.ok () : Except (GraphError H) Unit) :=
    if_neg (not_lt.2 hname)
  simp only [Prims.declareActor, checkOptLen, hcheck, Prims.provedKey, ok_bind, hcommit, GraphError.lift]
  cases o with
  | actorDeclared actorId => exact ⟨_, rfl⟩
  | unit => exact ⟨_, rfl⟩

/-- The actor of the name is found. -/
theorem crawlerAuth_found {w : (Ω × Store H) × List (Sent U)} {actor : ActorRow H}
    (hfind : findByNameAndType svc.actorOrder w.1.2.proj crawlerActorName .crawler = some actor) :
    svc.crawlerAuth P w = (.ok ⟨actor.actorId, [.graphAssert]⟩, w) := by
  have hgraph : (graph fun s => (s, .ok (findByNameAndType svc.actorOrder s.proj crawlerActorName .crawler)) :
      Call U Ω H (Option (ActorRow H))) w = (.ok (some actor), w) := by
    rw [← hfind]
    rfl
  rw [crawlerAuth, actorAuth, bind_of_ok hgraph]
  rfl

theorem crawlerAuth_succeeds (hJ : JsonLaws P) (hinj : Function.Injective P.blake3)
    {w : (Ω × Store H) × List (Sent U)} (hlog : LogInv P w.1.2) (hroom : w.1.2.events.length < maxRows) :
    ∃ auth, (svc.crawlerAuth P w).1 = .ok auth := by
  cases hfind : findByNameAndType svc.actorOrder w.1.2.proj crawlerActorName .crawler with
  | some actor => exact ⟨_, congrArg Prod.fst (crawlerAuth_found hfind)⟩
  | none =>
    have hnone : (graph fun s => (s, .ok (findByNameAndType svc.actorOrder s.proj crawlerActorName .crawler)) :
        Call U Ω H (Option (ActorRow H))) w = (.ok none, w) := by
      rw [← hfind]
      rfl
    have hclock : svc.clock (H := H) w =
      (.ok (svc.env.clock w.1.1).1, ((svc.env.clock w.1.1).2, w.1.2), w.2) := rfl
    have hname : (utf8 crawlerActorName).length ≤ maxActorNameLen := by decide
    obtain ⟨⟨s', id⟩, hdeclare⟩ := declareActor_succeeds hJ hinj hlog hroom svc.identity .crawler hname
      ((svc.env.clock w.1.1).1 0)
    have hgraph : (graph fun s => transact s (P.declareActor s svc.identity .crawler (some crawlerActorName)
        none none ((svc.env.clock w.1.1).1 0)) : Call U Ω H H) (((svc.env.clock w.1.1).2, w.1.2), w.2) =
        (.ok id, ((svc.env.clock w.1.1).2, s'), w.2) := by
      simp only [graph, mapError, onSecond, hdeclare, transact]
      rfl
    rw [crawlerAuth, actorAuth, bind_of_ok hnone]
    dsimp only
    rw [bind_of_ok hclock, bind_of_ok hgraph]
    exact ⟨_, rfl⟩

end CrawlerService

/-! ## A group that names the crawler -/

section site

/-- A site that answers every request with a text. -/
noncomputable def textSite (body : String) : Internet IdealUrl Unit where
  parse _ := .error ""
  scheme _ := "http"
  hostStr _ := some "example.com"
  portOrKnownDefault _ := some 80
  join url location := some (idealUrl.setPath url location)
  statusError status _ := toString status
  lookupHost _ port _ := (.ok [⟨.v4 ⟨93, 184, 216, 34⟩, port⟩], ())
  build _ _ := (.ok (), ())
  send client url _ := (⟨client.addrs, .ok
    ⟨200, none, some "text/plain", none, none, url, [.ok (utf8 body)]⟩⟩, ())

theorem textSite_safeFetch {body : String} (hlen : (utf8 body).length ≤ ({} : CrawlerConfig).maxResponseBytes)
    (url : IdealUrl) (w : Unit × List (Sent IdealUrl)) : ∃ w',
    (textSite body).safeFetch idealOpen url {} w =
      (.ok ⟨url, "text/plain", utf8 body, Internet.contentHash idealOpen (utf8 body)⟩, w') := by
  have hmedia : Internet.mediaType idealOpen (some "text/plain") = "text/plain" := by
    rw [Internet.mediaType, idealOpen, ideal_toLowercase]
    decide
  have hread : (textSite body).readPage idealOpen ({} : CrawlerConfig)
      ⟨200, none, some "text/plain", none, none, url, [.ok (utf8 body)]⟩ =
      .ok ⟨url, "text/plain", utf8 body, Internet.contentHash idealOpen (utf8 body)⟩ := by
    have hallowed : "text/plain" ∈ allowedContentTypes := by decide
    simp only [Internet.readPage, hmedia, Internet.readBody, List.nil_append, if_neg (not_lt.2 hlen)]
    rw [if_neg (by decide), if_neg (not_not.2 hallowed)]
    rfl
  obtain ⟨w', hhop⟩ : ∃ w', (textSite body).safeFetchHop idealOpen {} 0 url w =
      (settle ((textSite body).readPage idealOpen ({} : CrawlerConfig)
        ⟨200, none, some "text/plain", none, none, url, [.ok (utf8 body)]⟩) >>= fun page =>
          pure (Round.done page)) w' := ⟨_, rfl⟩
  rw [hread] at hhop
  rw [Internet.safeFetch, maxRedirects, Sending.loop, bind_of_ok hhop]
  exact ⟨_, rfl⟩

/-- A crawler of the site that extracts nothing. -/
noncomputable def textCrawler (body : String) : CrawlerService IdealUrl Unit Unit Bytes where
  net := textSite body
  url := idealUrl
  extractors :=
    { htmlMeta _ _ := {}
      jsonLdFromHtml _ _ := {}
      jsonLdFromJson _ _ := {}
      markdown _ _ := {}
      llmsTxt _ _ := {}
      ard _ _ := {}
      a2a _ _ := {}
      bodyText text _ := text
      originOf _ := "https://example.com" }
  env :=
    { clock _ := (fun _ => 1, ())
      pin _ _ := (.error "disabled", ())
      extract _ _ _ := (.ok [], ())
      modelName := "none" }
  identity := peerA
  actorOrder := ⟨id, fun _ => .refl _⟩

/-- A page of the site. -/
def sitePage (path : Text) (query : Option Text) (hpath : '?' ∉ path ∧ '#' ∉ path)
    (hquery : ∀ t, query = some t → '#' ∉ t) : IdealUrl where
  host := "example.com".toList
  path := some path
  query := query
  fragment := none
  host_free := IdealUrl.host_free_example
  path_free := IdealUrl.path_free_some hpath
  query_free := hquery

theorem textCrawler_fetch {body : String} (hlen : (utf8 body).length ≤ ({} : CrawlerConfig).maxResponseBytes)
    (url : IdealUrl) (w : (Unit × Store Bytes) × List (Sent IdealUrl)) : ∃ w',
    (textCrawler body).fetch idealOpen url w =
      (.ok ⟨url, "text/plain", utf8 body, Internet.contentHash idealOpen (utf8 body)⟩, w') ∧
      w'.1.2 = w.1.2 := by
  obtain ⟨w', hfetch⟩ := textSite_safeFetch hlen url (w.1.1, w.2)
  have hnet : (textCrawler body).net.safeFetch idealOpen url (textCrawler body).config (w.1.1, w.2) =
      (.ok ⟨url, "text/plain", utf8 body, Internet.contentHash idealOpen (utf8 body)⟩, w') := hfetch
  refine ⟨((w'.1, w.1.2), w'.2), ?_, rfl⟩
  rw [CrawlerService.fetch_eq, hnet]
  rfl

/-- The crawler gets to the groups of the robots.txt. -/
theorem textCrawler_served {groups : List RobotsGroup} (hne : groups ≠ [])
    (hlen : (utf8 (robotsTxt groups)).length ≤ ({} : CrawlerConfig).maxResponseBytes) (url : IdealUrl)
    (w : (Unit × Store Bytes) × List (Sent IdealUrl)) : ∃ page w',
    (textCrawler (robotsTxt groups)).fetch idealOpen url w = (.ok page, w') ∧
      robotsGroups idealOpen page = groups.map (·.toAgentGroup) := by
  obtain ⟨w', hfetch, -⟩ := textCrawler_fetch hlen url w
  refine ⟨_, w', hfetch, ?_⟩
  rw [robotsGroups, utf8_eq_flatMap, fromUtf8Lossy_text, String.ofList_toList,
    directivesOf_rendered idealOpen_lowercase (isRobotsTxt_robotsTxt groups), groupsOf_directives hne]

theorem textCrawler_auth (body : String) : ∃ auth,
    ((textCrawler body).crawlerAuth idealOpen (((), Store.empty), [])).1 = .ok auth :=
  CrawlerService.crawlerAuth_succeeds idealOpen_laws idealOpen_injective
    ⟨fun _ hr => (by cases hr), ⟨fun _ => .nil, fun _ => rfl⟩⟩ (by decide)

theorem simpleGroup_names {agent value : String} {ha : Plain agent} {hv : Plain value} {other : String} :
    (simpleGroup agent value ha hv).names idealOpen other ↔
      idealOpen.toLowercase agent = idealOpen.toLowercase other := by
  simp [AgentGroup.names, simpleGroup]

/-- The only group applies if it names the agent or everyone. -/
theorem applicable_single (g : AgentGroup) (agent : String) :
    applicable idealOpen [g] agent = if g.names idealOpen agent ∨ g.names idealOpen "*" then [g] else [] := by
  by_cases hagent : g.names idealOpen agent
  · rw [applicable_of_head hagent, if_pos (Or.inl hagent)]
  · by_cases hstar : g.names idealOpen "*" <;> simp [applicable, hagent, hstar]

noncomputable def privatePage : IdealUrl :=
  sitePage "private/notes".toList none (by decide) IdealUrl.query_free_none

noncomputable def searchPage : IdealUrl :=
  sitePage "search".toList (some "q=notes".toList) (by decide) (IdealUrl.query_free_some (by decide))

/-- A group for the product token. -/
def tokenGroup : RobotsGroup :=
  simpleGroup "oag-crawler" "/private" plain_productToken plain_privatePath

/-- A rule that names a query. -/
def queryGroup : RobotsGroup :=
  simpleGroup "*" "/search?q" plain_star (plain_of_decide (by decide))

theorem crawl_respects_robots_everyone : ∃ w',
    (textCrawler (robotsTxt [everyoneGroup])).crawl idealOpen privatePage (((), Store.empty), []) =
      (.error .robotsDisallowed, w') := by
  obtain ⟨page, w', hserved, hgroups⟩ := textCrawler_served (List.cons_ne_nil everyoneGroup []) (by decide)
    (idealUrl.setQuery (idealUrl.setPath privatePage "/robots.txt") none)
    ((textCrawler (robotsTxt [everyoneGroup])).crawlerAuth idealOpen (((), Store.empty), [])).2
  have hstar : everyoneGroup.names idealOpen "*" := simpleGroup_names.2 rfl
  have happ : ∀ agent, applicable idealOpen (robotsGroups idealOpen page) agent = [everyoneGroup.toAgentGroup] := by
    intro agent
    rw [hgroups, List.map_singleton, applicable_single, if_pos (Or.inr hstar)]
  refine ⟨w', (CrawlerService.crawl_respects_robots_iff idealOpen_lowercase rfl rfl hserved ?_).2
    ⟨textCrawler_auth _, ?_⟩⟩
  · rw [disallowedFor_eq, happ]
    exact ⟨"/private", by decide, by decide⟩
  · rw [happ]
    exact ⟨"/private", by decide, by decide⟩

/-- The crawl of a URL that the groups disallow to the product token goes on. -/
def GoesOn (groups : List RobotsGroup) (url : IdealUrl) : Prop :=
  let svc := textCrawler (robotsTxt groups)
  let w : (Unit × Store Bytes) × List (Sent IdealUrl) := (((), Store.empty), [])
  ∃ page w', svc.fetch idealOpen (idealUrl.setQuery (idealUrl.setPath url "/robots.txt") none)
      (svc.crawlerAuth idealOpen w).2 = (.ok page, w') ∧
    (∃ v ∈ disallowedFor idealOpen (robotsGroups idealOpen page) "oag-crawler",
      v.toList <+: (pathAndQuery svc.url url).toList) ∧
    (∃ auth, (svc.crawlerAuth idealOpen w).1 = .ok auth) ∧
    (svc.crawl idealOpen url w).1 ≠ .error .robotsDisallowed

theorem goesOn {g : RobotsGroup}
    (hlen : (utf8 (robotsTxt [g])).length ≤ ({} : CrawlerConfig).maxResponseBytes) {url : IdealUrl}
    {v : String} (hv : v ∈ g.nonEmptyValues) (hstarts : v.toList <+: (pathAndQuery idealUrl url).toList)
    (hnames : g.names idealOpen "oag-crawler" ∨ g.names idealOpen "*")
    (hstop : ¬ ∃ v ∈ firstValues (applicable idealOpen [g.toAgentGroup] ({} : CrawlerConfig).userAgent),
      v.toList <+: (idealUrl.path url).toList) : GoesOn [g] url := by
  obtain ⟨page, w', hserved, hgroups⟩ := textCrawler_served (List.cons_ne_nil g []) hlen
    (idealUrl.setQuery (idealUrl.setPath url "/robots.txt") none)
    ((textCrawler (robotsTxt [g])).crawlerAuth idealOpen (((), Store.empty), [])).2
  obtain ⟨auth, hauth⟩ := textCrawler_auth (robotsTxt [g])
  refine ⟨page, w', hserved, ⟨v, ?_, hstarts⟩, ⟨auth, hauth⟩,
    CrawlerService.crawl_goes_on idealOpen_lowercase rfl hserved hauth ?_⟩
  · rw [disallowedFor_eq, hgroups, List.map_singleton, applicable_single, if_pos hnames]
    exact hv
  · rw [hgroups]
    exact hstop

/-- A group that names the product token alone, and a rule with a query, do not
    stop the crawl. -/
theorem crawl_ignores_robots : GoesOn [tokenGroup] privatePage ∧ GoesOn [queryGroup] searchPage := by
  constructor
  · refine goesOn (v := "/private") (by decide) (by decide) (by decide) (Or.inl (simpleGroup_names.2 rfl)) ?_
    have hother : ¬ (tokenGroup.names idealOpen ({} : CrawlerConfig).userAgent ∨ tokenGroup.names idealOpen "*") := by
      rw [tokenGroup, simpleGroup_names, simpleGroup_names, idealOpen, ideal_toLowercase]
      decide
    rw [applicable_single, if_neg hother]
    simp [firstValues]
  · refine goesOn (v := "/search?q") (by decide) (by decide) (by decide) (Or.inr (simpleGroup_names.2 rfl)) ?_
    have hstar : queryGroup.names idealOpen "*" := simpleGroup_names.2 rfl
    rw [applicable_single, if_pos (Or.inr hstar)]
    show ¬ ∃ v ∈ ["/search?q"], v.toList <+: (idealUrl.path searchPage).toList
    decide

end site

end OpenAgentGraph
