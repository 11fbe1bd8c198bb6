/-
  Whom a crawl believes about what.

  With the extractors of the crawler, a page and an agent card say something
  about the page that the crawl got to only, and an `llms.txt` about its own
  site.  An ARD document may name any resource, and so may the language model
  (`crawl_speaks_for`).
-/
import OpenAgentGraph.Crawler.Extract
import OpenAgentGraph.Proof.Audit

namespace OpenAgentGraph

open Lib Lib.Sending Repo

variable {H : Type} {P : Prims H}

/-! ## What the extractors find -/

/-- A fact about the page. -/
def AboutPage (pageUrl : String) (fact : ExtractedFact) : Prop :=
  fact.subject = pageUrl ∧ fact.predicate ∈ ["instance_of", "repository_at", "operated_by", "related_to"]

/-- A fact about an agent. -/
def AboutAgent (agentUrl : String) (fact : ExtractedFact) : Prop :=
  fact.subject = agentUrl ∧ fact.predicate ∈ ["instance_of", "operated_by", "provides_capability"]

theorem ExtractedPage.mem_foldl_merge {pages : List ExtractedPage} {page : ExtractedPage}
    {fact : ExtractedFact} :
    fact ∈ (pages.foldl ExtractedPage.merge page).facts ↔
      fact ∈ page.facts ∨ ∃ page' ∈ pages, fact ∈ page'.facts := by
  induction pages generalizing page with
  | nil => simp
  | cons page' pages ih =>
    rw [List.foldl_cons, ih]
    simp [ExtractedPage.merge, or_assoc]

namespace JsonLd

theorem processNode_about (kvs : List (String × Json)) (pageUrl : String) :
    ∀ fact ∈ (processNode P kvs pageUrl).facts, AboutPage pageUrl fact := by
  intro fact hfact
  simp only [processNode, List.mem_append] at hfact
  rcases hfact with (hfact | hfact) | hfact
  · split_ifs at hfact
    · rcases List.mem_cons.1 hfact with rfl | hfact
      · exact ⟨rfl, by simp⟩
      · obtain ⟨repo, -, rfl⟩ := List.mem_map.1 hfact
        exact ⟨rfl, by simp⟩
    · cases hfact
  · split_ifs at hfact
    · obtain ⟨orgUrl, -, rfl⟩ := List.mem_map.1 hfact
      exact ⟨rfl, by simp⟩
    · cases hfact
  · split at hfact
    · rw [List.mem_singleton.1 hfact]
      exact ⟨rfl, by simp [sameAs]⟩
    · obtain ⟨target, -, rfl⟩ := List.mem_map.1 hfact
      exact ⟨rfl, by simp [sameAs]⟩
    · cases hfact

mutual

/-- A document is about the page, whatever it holds. -/
theorem processDocument_about (pageUrl : String) : ∀ j : Json,
    ∀ fact ∈ (processDocument P pageUrl j).facts, AboutPage pageUrl fact
  | .arr items, fact, hfact => processItems_about pageUrl items fact (by rwa [processDocument] at hfact)
  | .obj kvs, fact, hfact => by
    rw [processDocument] at hfact
    cases hgraph : processGraph P pageUrl kvs with
    | some page =>
      rw [hgraph] at hfact
      exact processGraph_about pageUrl kvs page hgraph fact hfact
    | none =>
      rw [hgraph] at hfact
      exact processNode_about kvs pageUrl fact hfact
  | .null, _, hfact => by simp [processDocument] at hfact
  | .bool _, _, hfact => by simp [processDocument] at hfact
  | .num _, _, hfact => by simp [processDocument] at hfact
  | .str _, _, hfact => by simp [processDocument] at hfact

theorem processItems_about (pageUrl : String) : ∀ items : List Json,
    ∀ fact ∈ (processItems P pageUrl items).facts, AboutPage pageUrl fact
  | [], _, hfact => by
    rw [processItems] at hfact
    cases hfact
  | item :: items, fact, hfact => by
    rw [processItems, ExtractedPage.merge] at hfact
    rcases List.mem_append.1 hfact with hfact | hfact
    · exact processDocument_about pageUrl item fact hfact
    · exact processItems_about pageUrl items fact hfact

theorem processGraph_about (pageUrl : String) : ∀ kvs : List (String × Json), ∀ page,
    processGraph P pageUrl kvs = some page → ∀ fact ∈ page.facts, AboutPage pageUrl fact
  | [], _, hpage => by
    rw [processGraph] at hpage
    cases hpage
  | (name, graph) :: kvs, page, hpage => by
    by_cases hname : name = "@graph"
    · cases graph with
      | arr items =>
        simp only [processGraph, hname, if_true, Option.some.injEq] at hpage
        exact hpage ▸ processItems_about pageUrl items
      | _ => simp [processGraph, hname] at hpage
    · refine processGraph_about pageUrl kvs page ?_
      cases graph <;> simpa [processGraph, hname] using hpage

end

end JsonLd

section extractors

variable {D E : Type} (lib : PageLib D E)

theorem jsonLdFromJson_about (body pageUrl : String) :
    ∀ fact ∈ (lib.jsonLdFromJson P body pageUrl).facts, AboutPage pageUrl fact := by
  intro fact hfact
  rw [PageLib.jsonLdFromJson] at hfact
  split at hfact
  · exact JsonLd.processDocument_about pageUrl _ fact hfact
  · cases hfact

theorem jsonLdFromHtml_about (html pageUrl : String) :
    ∀ fact ∈ (lib.jsonLdFromHtml P html pageUrl).facts, AboutPage pageUrl fact := by
  intro fact hfact
  rw [PageLib.jsonLdFromHtml, ExtractedPage.mem_foldl_merge] at hfact
  rcases hfact with hfact | ⟨page, hpage, hfact⟩
  · cases hfact
  · obtain ⟨el, -, rfl⟩ := List.mem_map.1 hpage
    exact jsonLdFromJson_about lib _ pageUrl fact hfact

theorem a2a_about (body agentUrl : String) :
    ∀ fact ∈ (lib.a2a body agentUrl).facts, AboutAgent agentUrl fact := by
  intro fact hfact
  rw [PageLib.a2a] at hfact
  split at hfact
  · simp only [A2a.cardPage, List.cons_append, List.mem_cons, List.mem_append, List.mem_map] at hfact
    rcases hfact with rfl | ⟨org, -, rfl⟩ | ⟨capability, -, rfl⟩ <;> exact ⟨rfl, by simp⟩
  · cases hfact

theorem ard_about (body siteOrigin : String) : ∀ fact ∈ (lib.ard body siteOrigin).facts,
    fact.predicate ∈ ["instance_of", "operated_by", "provides_capability"] := by
  intro fact hfact
  rw [PageLib.ard] at hfact
  split at hfact
  · rw [ExtractedPage.mem_foldl_merge] at hfact
    rcases hfact with hfact | ⟨page, hpage, hfact⟩
    · cases hfact
    · obtain ⟨resource, -, rfl⟩ := List.mem_map.1 hpage
      simp only [Ard.resourcePage, List.cons_append, List.mem_cons, List.mem_append, List.mem_map] at hfact
      rcases hfact with rfl | ⟨org, -, rfl⟩ | ⟨capability, -, rfl⟩ <;> simp
  · cases hfact

variable {U : Type}

theorem llmsTxt_about (join : U → String → Option U) (toString origin : U → String) (body : String)
    (baseUrl : U) : ∀ fact ∈ (LlmsTxt.parse join toString origin body baseUrl).facts,
      fact.subject = origin baseUrl ∧ fact.predicate = "links_to" := by
  have hstep : ∀ (rows : List Text) (st : LlmsTxt.Parser),
      (∀ fact ∈ st.facts, fact.subject = origin baseUrl ∧ fact.predicate = "links_to") →
      ∀ fact ∈ (rows.foldl (LlmsTxt.Parser.line join toString (origin baseUrl) baseUrl) st).facts,
        fact.subject = origin baseUrl ∧ fact.predicate = "links_to" := by
    intro rows
    induction rows with
    | nil => exact fun st h => h
    | cons row rows ih =>
      refine fun st h => ih _ fun fact hfact => ?_
      rw [LlmsTxt.Parser.line] at hfact
      split at hfact
      · exact h fact hfact
      · rcases List.mem_append.1 hfact with hfact | hfact
        · exact h fact hfact
        · simp only [LlmsTxt.bullet, Option.mem_toList, option_bind_some, option_pure_some] at hfact
          obtain ⟨_, -, _, -, rfl⟩ := hfact
          exact ⟨rfl, rfl⟩
  exact hstep _ _ fun fact hfact => by cases hfact

end extractors

/-! ## Confidence -/

/-- A confidence that is a number is in the unit interval. -/
theorem clampUnit_mem {b : UInt32} {v : ℚ} (h : f32Value (PageLib.clampUnit b) = .finite v) :
    0 ≤ v ∧ v ≤ 1 := by
  have hzero : f32Value 0 = .finite 0 := by decide +kernel
  have hone : f32Value 0x3F800000 = .finite 1 := by decide +kernel
  unfold PageLib.clampUnit at h
  cases hb : f32Value b with
  | finite q =>
    simp only [hb] at h
    split_ifs at h with hneg hbig
    · cases hzero.symm.trans h
      exact ⟨le_rfl, zero_le_one⟩
    · cases hone.symm.trans h
      exact ⟨zero_le_one, le_rfl⟩
    · cases hb.symm.trans h
      exact ⟨not_lt.1 hneg, not_lt.1 hbig⟩
  | posInf =>
    simp only [hb] at h
    cases hone.symm.trans h
    exact ⟨zero_le_one, le_rfl⟩
  | negInf =>
    simp only [hb] at h
    cases hzero.symm.trans h
    exact ⟨le_rfl, zero_le_one⟩
  | nan =>
    simp only [hb] at h
    cases h

/-- What a model's reply is read for has a confidence that was clamped. -/
theorem extractCandidates_clamped {D E Ω : Type} {lib : PageLib D E} {chat : Option (Chat Ω)}
    {text url : String} {ω : Ω} {candidates : List CandidateAssertion} {c : CandidateAssertion}
    (h : (lib.extractCandidates P chat text url ω).1 = .ok candidates) (hc : c ∈ candidates) :
    ∃ b, c.confidence = PageLib.clampUnit b := by
  cases chat with
  | none =>
    cases h
    cases hc
  | some ask =>
    obtain ⟨content, -, rfl⟩ := map_ok.1 h
    obtain ⟨raw, -, rfl⟩ := List.mem_map.1 hc
    exact ⟨raw.confidence, rfl⟩

/-! ## Whose word it is -/

section said

variable {U Ω ε : Type} (P) (net : Internet U Ω) (L : UrlLib U ε) (origin : U → String) (url : U)
  (finalUrl : String)

/-- An assertion of a crawl of `url` that got to `finalUrl`, by its evidence. -/
inductive SaidBy (p : AssertRelationPayload) (q : AddEvidencePayload) : Prop
  | page : q.evidenceType = "web_page" → q.uri = some finalUrl →
      p.extractionMethod = "structured_extraction" →
      p.subjectIdentifier = (P.canonicalizeValue L finalUrl).1 →
      p.predicate ∈ ["instance_of", "repository_at", "operated_by", "related_to"] → SaidBy p q
  | llmsTxt {llmsUrl : U} : net.join url "/llms.txt" = some llmsUrl → q.evidenceType = "documentation" →
      q.uri = some (L.toString llmsUrl) → p.extractionMethod = "structured_extraction" →
      p.subjectIdentifier = (P.canonicalizeValue L (origin llmsUrl)).1 →
      p.predicate = "links_to" → SaidBy p q
  | agentCard {cardUrl : U} : net.join url "/.well-known/agent-card.json" = some cardUrl →
      q.evidenceType = "api_response" → q.uri = some (L.toString cardUrl) →
      p.extractionMethod = "structured_extraction" →
      p.subjectIdentifier = (P.canonicalizeValue L finalUrl).1 →
      p.predicate ∈ ["instance_of", "operated_by", "provides_capability"] → SaidBy p q
  /-- Of any resource. -/
  | ard {ardUrl : U} : net.join url "/.well-known/ard.json" = some ardUrl →
      q.evidenceType = "api_response" → q.uri = some (L.toString ardUrl) →
      p.extractionMethod = "structured_extraction" →
      p.predicate ∈ ["instance_of", "operated_by", "provides_capability"] → SaidBy p q
  /-- Of anything, with a confidence. -/
  | model {b : UInt32} {v : ℚ} : q.evidenceType = "agent_observation" → q.uri = some finalUrl →
      p.extractionMethod = "llm_extraction" → p.actorConfidence = some b → f32Value b = .finite v →
      0 ≤ v → v ≤ 1 → SaidBy p q

end said

section reading

variable {U Ω ε D E : Type} {svc : CrawlerService U Ω ε H} {lib : PageLib D E} {port : U → Option UInt16}
  {chat : Option (Chat Ω)} {url : U} {finalUrl text : String} {e : EvidenceInput} {input : AssertInput}

theorem extractPage_about {contentType body pageUrl : String} :
    ∀ fact ∈ ((svc.reading P lib port chat).extractPage contentType body pageUrl).facts,
      AboutPage pageUrl fact := by
  intro fact hfact
  rw [CrawlerService.extractPage] at hfact
  split_ifs at hfact
  · rcases List.mem_append.1 hfact with hfact | hfact
    · cases hfact
    · exact jsonLdFromHtml_about lib body pageUrl fact hfact
  · exact jsonLdFromJson_about lib body pageUrl fact hfact
  · cases hfact
  · cases hfact

/-- What a commit keeps of an assertion's input. -/
theorem relationPayload_same {L : UrlLib U ε} {auth : AuthContext H} {p : AssertRelationPayload}
    (h : EventPayload.Same (.assertRelation (P.relationPayload L auth input)) (.assertRelation p)) :
    p.subjectIdentifier = (P.canonicalizeValue L input.subject).1 ∧ p.predicate = input.predicate ∧
      p.extractionMethod = (input.extractionMethod.getD .direct).asStr ∧
      input.actorConfidence.map f32Value = p.actorConfidence.map f32Value := by
  obtain ⟨heq, hvalue⟩ := h
  have hsubject := congrArg AssertRelationPayload.subjectIdentifier heq
  have hpredicate := congrArg AssertRelationPayload.predicate heq
  have hmethod := congrArg AssertRelationPayload.extractionMethod heq
  rw [Prims.relationPayload] at hsubject hpredicate hmethod hvalue
  exact ⟨hsubject.symm, hpredicate.symm, hmethod.symm, hvalue⟩

/-- What the crawler finds is said by one of its sources. -/
theorem CrawlerService.Finds.saidBy
    (h : (svc.reading P lib port chat).Finds url finalUrl e text input) {auth : AuthContext H}
    {p : AssertRelationPayload} {q : AddEvidencePayload}
    (hp : EventPayload.Same (.assertRelation (P.relationPayload svc.url auth input)) (.assertRelation p))
    (hfin : (EventPayload.assertRelation p).Finite) (htype : q.evidenceType = e.evidenceType.getD "other")
    (huri : q.uri = e.uri) :
    SaidBy P svc.net svc.url (originOf svc.net port) url finalUrl p q := by
  obtain ⟨hsubject, hpredicate, hmethod, hvalue⟩ := relationPayload_same hp
  cases h with
  | baseline het heu =>
    rw [het] at htype
    exact .page htype (huri.trans heu) hmethod hsubject (by rw [hpredicate]; simp [baselineInput])
  | fact het heu hfact =>
    obtain ⟨habout, hmem⟩ := extractPage_about _ hfact
    rw [het] at htype
    refine .page htype (huri.trans heu) hmethod ?_ (by rw [hpredicate]; exact hmem)
    rw [hsubject, factInput, habout]
  | candidate he heu hanswer hc =>
    obtain ⟨b₀, hb₀⟩ := extractCandidates_clamped hanswer hc
    subst he
    obtain ⟨b, hb, hsame⟩ := Option.map_eq_some_iff.1 hvalue.symm
    have hfinite := hfin b hb
    cases hv : f32Value b with
    | finite v =>
      rw [hsame, hb₀] at hv
      obtain ⟨hle, hle'⟩ := clampUnit_mem hv
      rw [← hb₀, ← hsame] at hv
      exact .model htype (huri.trans heu) hmethod hb hv hle hle'
    | _ =>
      rw [f32IsFinite, hv] at hfinite
      cases hfinite
  | side hside hjoin het heu hfact =>
    rw [het] at htype
    simp only [sides, List.mem_cons, List.not_mem_nil, or_false] at hside
    rcases hside with rfl | rfl | rfl
    · obtain ⟨habout, hlinks⟩ := llmsTxt_about _ _ _ _ _ _ hfact
      refine .llmsTxt hjoin htype (huri.trans heu) hmethod ?_ (hpredicate.trans hlinks)
      rw [hsubject, factInput, habout]
    · refine .ard hjoin htype (huri.trans heu) hmethod ?_
      rw [hpredicate]
      exact ard_about lib _ _ _ hfact
    · obtain ⟨habout, hmem⟩ := a2a_about lib _ _ _ hfact
      refine .agentCard hjoin htype (huri.trans heu) hmethod ?_ (by rw [hpredicate]; exact hmem)
      rw [hsubject, factInput, habout]

end reading

section crawl

variable [DecidableEq H] {U Ω ε D E : Type}

/-- **Whom a crawl believes.**  In any state that a peer gets to, whatever a crawl
    of a site asserts has its evidence, unless the log is full, and the evidence
    is of a source that may say so: the page of itself, the site's `llms.txt` of
    the links of the site, the agent card of the page, an ARD document of any
    resource, and the language model of anything, with a confidence between 0
    and 1. -/
theorem crawl_speaks_for (P : Prims H) (hJ : JsonLaws P) (hinj : Function.Injective P.blake3)
    (lib : PageLib D E) (port : U → Option UInt16) (chat : Option (Chat Ω)) (me : Prims.PeerIdentity)
    (ops : List (CrawlerOp P U Ω ε)) (site : CrawlerService U Ω ε H) (url : U) (ω : Ω) :
    let svc := CrawlerService.reading P { site with identity := me } lib port chat
    let s := (P.crawlerRun me ops).db.store
    let s' := svc.crawlStore P url ω s
    ∃ finalUrl new, s'.events = s.events ++ new ∧
      ∀ row ∈ new, ∀ p, P.rowPayload row = some (.assertRelation p) → maxRows ≤ s'.events.length ∨
        ∃ row' ∈ new, ∃ q, P.rowPayload row' = some (.addEvidence q) ∧
          q.assertionId = P.toHex row.eventId ∧
          SaidBy P site.net site.url (originOf site.net port) url finalUrl p q := by
  intro svc s s'
  obtain ⟨finalUrl, haudit⟩ := CrawlerService.crawlStore_audited hJ hinj (crawlerRun_dbInv hJ hinj me ops)
    (CrawlerService.reading P { site with identity := me } lib port chat) url ω
  obtain ⟨new, hnew, hauditable⟩ := haudit.appended
  refine ⟨finalUrl, new, hnew, fun row hrow p hp => ?_⟩
  refine (hauditable.asserted row hrow p hp).imp_right ?_
  rintro ⟨row', hrow', q, hq, hid, haudited⟩
  obtain ⟨body, hbody⟩ := haudited.hashed
  obtain ⟨e, auth, input, hfinds, hsame, htype, huri⟩ := haudited.found body hbody
  exact ⟨row', hrow', q, hq, hid, hfinds.saidBy hsame haudited.finite htype huri⟩

/-- Libraries that find nothing. -/
def blankLib : PageLib Unit Unit where
  parseDocument _ := ()
  select _ _ := []
  attr _ _ := none
  texts _ := []
  value _ := none
  tree _ := none

/-- A crawler that reads with them, and asks no model. -/
noncomputable def blankCrawler : CrawlerService IdealUrl Unit Unit Bytes :=
  (textCrawler "hi").reading idealOpen blankLib (fun _ => none) none

theorem blank_crawlStore : UnderImpostor (blankCrawler.crawlStore idealOpen privatePage ()
    (impostorStore idealOpen peerB)) :=
  hiCrawler_crawlStore blankCrawler.extractors blankCrawler.env.extract

/-- A crawl of a page that reads "hi". -/
theorem crawl_speaks_for_hi :
    let op : CrawlerOp idealOpen IdealUrl Unit Unit := .db (impostorOp idealOpen peerB)
    let s := (idealOpen.crawlerRun peerA [op]).db.store
    let s' := blankCrawler.crawlStore idealOpen privatePage () s
    ∃ finalUrl row p, row ∈ s'.events ∧ idealOpen.rowPayload row = some (.assertRelation p) ∧
      (maxRows ≤ s'.events.length ∨ ∃ row' ∈ s'.events, ∃ q,
        idealOpen.rowPayload row' = some (.addEvidence q) ∧ q.assertionId = idealOpen.toHex row.eventId ∧
        SaidBy idealOpen (textSite "hi") idealUrl (originOf (textSite "hi") fun _ => none) privatePage
          finalUrl p q) := by
  obtain ⟨finalUrl, new, hnew, hsaid⟩ := crawl_speaks_for idealOpen idealOpen_laws idealOpen_injective blankLib
    (fun _ => none) none peerA [.db (impostorOp idealOpen peerB)] (textCrawler "hi") privatePage ()
  obtain ⟨new', hnew', row, hrow, p, hp, -⟩ := blank_crawlStore.asserted
  obtain rfl : new' = new := List.append_cancel_left (hnew'.symm.trans hnew)
  have hin : ∀ r ∈ new', r ∈ (blankCrawler.crawlStore idealOpen privatePage () (idealOpen.crawlerRun peerA
      [(.db (impostorOp idealOpen peerB) : CrawlerOp idealOpen IdealUrl Unit Unit)]).db.store).events :=
    fun r hr => hnew ▸ List.mem_append_right _ hr
  refine ⟨finalUrl, row, p, hin row hrow, hp, (hsaid row hrow p hp).imp_right ?_⟩
  rintro ⟨row', hrow', q, hq, hid, hsaidBy⟩
  exact ⟨row', hin row' hrow', q, hq, hid, hsaidBy⟩

end crawl

end OpenAgentGraph
