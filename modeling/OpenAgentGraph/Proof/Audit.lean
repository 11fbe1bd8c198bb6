/-
  What a crawl asserts, and on what evidence.

  Whoever has a body with the content hash of an evidence item can find in it
  what the assertion says (`crawl_auditable`).
-/
import OpenAgentGraph.Proof.Attribution

namespace OpenAgentGraph

open Lib Lib.Sending Repo

variable {H : Type} [DecidableEq H] {U Ω ε : Type} {P : Prims H}

/-! ## What is found in a body -/

namespace CrawlerService

variable (svc : CrawlerService U Ω ε H)

/-- The fetches beside the page. -/
def sides (url : U) (finalUrl : String) : List (SideFetch U) :=
  [svc.llmsTxtFetch, svc.ardFetch url, a2aFetch svc finalUrl]

/-- What a crawl of `url` that got to `finalUrl` asserts, with the evidence, for
    what it finds in a text. -/
inductive Finds (url : U) (finalUrl : String) (e : EvidenceInput) (text : String) : AssertInput → Prop
  | baseline {html : Bool} : e.evidenceType = some "web_page" → e.uri = some finalUrl →
      Finds url finalUrl e text (baselineInput finalUrl html e)
  | fact {contentType : String} {fact : ExtractedFact} : e.evidenceType = some "web_page" →
      e.uri = some finalUrl → fact ∈ (svc.extractPage contentType text finalUrl).facts →
      Finds url finalUrl e text (factInput e 0x3F333333 fact)
  | candidate {e₀ : EvidenceInput} {ω : Ω} {candidates : List CandidateAssertion} {c : CandidateAssertion} :
      e = { e₀ with evidenceType := some "agent_observation" } → e₀.uri = some finalUrl →
      (svc.env.extract (svc.extractors.bodyText text llmExtractionMaxChars) finalUrl ω).1 = .ok candidates →
      c ∈ candidates → Finds url finalUrl e text (candidateInput e₀ c)
  | side {side : SideFetch U} {sideUrl : U} {fact : ExtractedFact} : side ∈ svc.sides url finalUrl →
      svc.net.join url side.path = some sideUrl → e.evidenceType = some side.evidenceType →
      e.uri = some (svc.url.toString sideUrl) → fact ∈ (side.extract text sideUrl).facts →
      Finds url finalUrl e text (factInput e side.confidence fact)

variable {svc} {url : U} {finalUrl text : String} {e : EvidenceInput} {input : AssertInput}

omit [DecidableEq H] in
/-- The evidence of an assertion is one item. -/
theorem Finds.evidence_eq (h : svc.Finds url finalUrl e text input) : input.evidence = [e] := by
  cases h with
  | baseline => rfl
  | fact => rfl
  | candidate he => exact congrArg (fun e => [e]) he.symm
  | side => rfl

omit [DecidableEq H] in
theorem Finds.knownType (h : svc.Finds url finalUrl e text input) : e.KnownType := by
  cases h with
  | baseline htype => rw [EvidenceInput.KnownType, htype]; rfl
  | fact htype => rw [EvidenceInput.KnownType, htype]; rfl
  | candidate he => rw [he]; rfl
  | side hside _ htype =>
    rw [EvidenceInput.KnownType, htype]
    simp only [sides, List.mem_cons, List.not_mem_nil, or_false] at hside
    rcases hside with rfl | rfl | rfl <;> rfl

end CrawlerService

/-! ## What the log shows -/

section defs

variable (P) (svc : CrawlerService U Ω ε H) (url : U) (finalUrl : String)

/-- The evidence is of a body in which the crawl found the assertion. -/
structure Audited (p : AssertRelationPayload) (q : AddEvidencePayload) : Prop where
  finite : (EventPayload.assertRelation p).Finite
  hashed : ∃ body, q.contentHash = some (Internet.contentHash P body)
  found : ∀ body, q.contentHash = some (Internet.contentHash P body) → ∃ e auth input,
    svc.Finds url finalUrl e (String.ofList (fromUtf8Lossy body)) input ∧
    EventPayload.Same (.assertRelation (P.relationPayload svc.url auth input)) (.assertRelation p) ∧
    q.evidenceType = e.evidenceType.getD "other" ∧ q.uri = e.uri

/-- The second event is evidence for the assertion that the first one is. -/
def Supports (p : AssertRelationPayload) (row row' : EventRow H) : Prop :=
  ∃ q, P.rowPayload row' = some (.addEvidence q) ∧ q.assertionId = P.toHex row.eventId ∧
    Audited P svc url finalUrl p q

/-- The events of a crawl: every assertion has its evidence, unless the log had
    no room for it, and there is no other evidence. -/
structure Auditable (full : Prop) (new : List (EventRow H)) : Prop where
  asserted : ∀ row ∈ new, ∀ p, P.rowPayload row = some (.assertRelation p) →
    full ∨ ∃ row' ∈ new, Supports P svc url finalUrl p row row'
  evidence : ∀ row' ∈ new, ∀ q, P.rowPayload row' = some (.addEvidence q) →
    ∃ row ∈ new, ∃ p, P.rowPayload row = some (.assertRelation p) ∧ Supports P svc url finalUrl p row row'

end defs

section auditable

variable {svc : CrawlerService U Ω ε H} {url : U} {finalUrl : String} {full full' : Prop}
  {new new' : List (EventRow H)}

omit [DecidableEq H] in
theorem Auditable.append (h : Auditable P svc url finalUrl full new)
    (h' : Auditable P svc url finalUrl full' new') (hfull : full → full') :
    Auditable P svc url finalUrl full' (new ++ new') where
  asserted row hrow p hp := by
    rcases List.mem_append.1 hrow with hrow | hrow
    · exact (h.asserted row hrow p hp).imp hfull fun ⟨r, hr, hs⟩ => ⟨r, List.mem_append_left _ hr, hs⟩
    · exact (h'.asserted row hrow p hp).imp_right fun ⟨r, hr, hs⟩ => ⟨r, List.mem_append_right _ hr, hs⟩
  evidence row hrow q hq := by
    rcases List.mem_append.1 hrow with hrow | hrow
    · obtain ⟨r, hr, hs⟩ := h.evidence row hrow q hq
      exact ⟨r, List.mem_append_left _ hr, hs⟩
    · obtain ⟨r, hr, hs⟩ := h'.evidence row hrow q hq
      exact ⟨r, List.mem_append_right _ hr, hs⟩

omit [DecidableEq H] in
theorem Auditable.nil : Auditable P svc url finalUrl full [] :=
  ⟨fun _ hr => absurd hr List.not_mem_nil, fun _ hr => absurd hr List.not_mem_nil⟩

end auditable

/-! ## Commits -/

section commit

variable {s s' : Store H} {me : Prims.PeerIdentity} {payload : EventPayload} {now : Int64} {id : H}

/-- The event of a commit of the service, as it is read back. -/
theorem commitEvent_reads (hJ : JsonLaws P) (h : P.commitEvent s me payload now = .ok (s', id)) :
    ∃ row p, s'.events = s.events ++ [row] ∧ row.eventId = id ∧ P.rowPayload row = some p ∧
      payload.Same p := by
  obtain ⟨o, hcommit⟩ := commitEvent_ok.1 h
  obtain ⟨row, signed, happ, -, hid, ⟨hpay, -⟩, -⟩ := commit_appended hcommit
  obtain ⟨p, hp, hsame⟩ := happ.stored.rowPayload hJ
  exact ⟨row, p, happ.events_eq, hid, hp, hpay ▸ hsame⟩

theorem declareActor_committed {actorType : ActorType} {name uri : Option String}
    {proof : Option PublicKeyProof} (h : P.declareActor s me actorType name uri proof now = .ok (s', id)) :
    ∃ q eventId, P.commitEvent s me (.actorDeclare q) now = .ok (s', eventId) := by
  simp only [Prims.declareActor, bind_ok] at h
  obtain ⟨-, -, -, -, key, -, ⟨s₁, eventId, o⟩, hcommit, hout⟩ := h
  have hs : s₁ = s' := by
    cases o <;> exact congrArg Prod.fst (pure_ok.1 hout)
  exact ⟨_, eventId, commitEvent_ok.2 ⟨o, hs ▸ GraphError.lift_ok.1 hcommit⟩⟩

omit [DecidableEq H] in
theorem EventPayload.Same.assertRelation_right {p : EventPayload} {q : AssertRelationPayload}
    (h : p.Same (.assertRelation q)) : ∃ q₀, p = .assertRelation q₀ := by
  cases p <;> simp_all [EventPayload.Same]

omit [DecidableEq H] in
/-- A confidence is read back with its value. -/
theorem EventPayload.Same.finite {p : AssertRelationPayload} {q : AssertRelationPayload}
    (h : EventPayload.Same (.assertRelation p) (.assertRelation q))
    (hfin : (EventPayload.assertRelation p).Finite) : (EventPayload.assertRelation q).Finite := by
  intro b hb
  have hvalue := h.2
  rw [hb] at hvalue
  obtain ⟨b', hb', hsame⟩ := Option.map_eq_some_iff.1 hvalue
  rw [f32IsFinite, ← hsame]
  exact hfin b' hb'

omit [DecidableEq H] in
theorem EventPayload.Same.addEvidence_right {p : EventPayload} {q : AddEvidencePayload}
    (h : p.Same (.addEvidence q)) : ∃ q₀, p = .addEvidence q₀ := by
  cases p <;> simp_all [EventPayload.Same]

variable {svc : CrawlerService U Ω ε H} {url : U} {finalUrl : String} {full : Prop}

omit [DecidableEq H] in
/-- An event of another kind. -/
theorem auditable_other {row : EventRow H} {p : EventPayload} (hrow : P.rowPayload row = some p)
    (hsame : payload.Same p) (hassert : ∀ q, payload ≠ .assertRelation q)
    (hevidence : ∀ q, payload ≠ .addEvidence q) : Auditable P svc url finalUrl full [row] where
  asserted r hr q hq := by
    obtain rfl := List.mem_singleton.1 hr
    obtain rfl := Option.some.inj (hrow.symm.trans hq)
    obtain ⟨q₀, hq₀⟩ := hsame.assertRelation_right
    exact absurd hq₀ (hassert q₀)
  evidence r hr q hq := by
    obtain rfl := List.mem_singleton.1 hr
    obtain rfl := Option.some.inj (hrow.symm.trans hq)
    obtain ⟨q₀, hq₀⟩ := hsame.addEvidence_right
    exact absurd hq₀ (hevidence q₀)

end commit

/-! ## One assertion -/

omit [DecidableEq H] in
theorem contentHash_injective (hinj : Function.Injective P.blake3) :
    Function.Injective (Internet.contentHash P) := fun _ _ h =>
  hinj (P.toHex_injective ((String.append_right_inj "blake3:").1 h))

section assert

variable {svc : CrawlerService U Ω ε H} {url : U} {finalUrl : String} {e : EvidenceInput} {body : Bytes}
  {input : AssertInput}

omit [DecidableEq H] in
/-- What is found in a body is audited by evidence with its hash. -/
theorem CrawlerService.Finds.audited (hinj : Function.Injective P.blake3)
    (hfinds : svc.Finds url finalUrl e (String.ofList (fromUtf8Lossy body)) input)
    (hhash : e.contentHash = some (Internet.contentHash P body)) {auth : AuthContext H}
    {p : AssertRelationPayload} {q : AddEvidencePayload} {id : H}
    (hp : EventPayload.Same (.assertRelation (P.relationPayload svc.url auth input)) (.assertRelation p))
    (hfin : (EventPayload.assertRelation p).Finite)
    (hq : EventPayload.Same (.addEvidence (P.evidencePayload id e)) (.addEvidence q)) :
    q.assertionId = P.toHex id ∧ Audited P svc url finalUrl p q := by
  obtain rfl : q = _ := hq
  refine ⟨rfl, hfin, ⟨body, hhash⟩, fun body' hbody' => ?_⟩
  obtain rfl : body' = body := contentHash_injective hinj (Option.some.inj (hbody'.symm.trans hhash))
  exact ⟨e, auth, input, hfinds, hp, rfl, rfl⟩

/-- **One call** of the service leaves an assertion with its evidence, or none of
    them, unless the log is full. -/
theorem assert_auditable (hJ : JsonLaws P) (hinj : Function.Injective P.blake3) {s : Store H}
    (hinv : DbInv P s) (hfinds : svc.Finds url finalUrl e (String.ofList (fromUtf8Lossy body)) input)
    (hhash : e.contentHash = some (Internet.contentHash P body)) (auth : AuthContext H)
    (clock : ℕ → Int64) :
    let s' := (P.assert svc.url s svc.identity auth input clock).1
    DbInv P s' ∧ ∃ new, s'.events = s.events ++ new ∧
      Auditable P svc url finalUrl (maxRows ≤ s'.events.length) new := by
  cases hassert : P.assertRelation svc.url s svc.identity auth input (clock 0) with
  | error err =>
    rw [assert_rejected hassert]
    exact ⟨hinv, [], (List.append_nil _).symm, .nil⟩
  | ok out =>
    obtain ⟨s₁, assertionId⟩ := out
    have hattach := (assertRelation_ok hJ hinj hinv hassert).2
    have hcommit := hassert
    simp only [Prims.assertRelation, bind_ok] at hcommit
    obtain ⟨-, -, -, -, hcommit⟩ := hcommit
    have hfinite := (commitEvent_spec hJ hinj hinv hcommit).2.2.2.1
    obtain ⟨row, p, hevents, rfl, hp, hsame⟩ := commitEvent_reads hJ hcommit
    obtain ⟨q, rfl⟩ : ∃ q, p = .assertRelation q := by
      cases p <;> simp_all [EventPayload.Same]
    have hfin := hsame.finite hfinite
    rw [assert_accepted hassert, hfinds.evidence_eq]
    cases hadd : P.addEvidenceInternal s₁ svc.identity row.eventId e (clock 1) with
    | error err =>
      have hfull : ¬ s₁.events.length < maxRows := fun hroom => by
        obtain ⟨s₂, hok⟩ := attach_known hJ hinj hattach hroom hfinds.knownType svc.identity (clock 1)
        cases hok.symm.trans hadd
      have hleft : (runSteps (fun n s e => P.addEvidenceInternal s svc.identity row.eventId e (clock n)) 1 s₁
          [e]).1 = s₁ := by rw [runSteps, hadd]
      dsimp only
      rw [hleft]
      refine ⟨hattach.db, [row], hevents, fun _ _ _ _ => .inl (not_lt.1 hfull), fun r hr q' hq' => ?_⟩
      obtain rfl := List.mem_singleton.1 hr
      cases hp.symm.trans hq'
    | ok s₂ =>
      have hleft : (runSteps (fun n s e => P.addEvidenceInternal s svc.identity row.eventId e (clock n)) 1 s₁
          [e]).1 = s₂ := by rw [runSteps, hadd]; rfl
      dsimp only
      rw [hleft]
      obtain ⟨⟨s₂', id⟩, hcommit', rfl⟩ := map_ok.1 hadd
      obtain ⟨row', p', hevents', rfl, hp', hsame'⟩ := commitEvent_reads hJ hcommit'
      obtain ⟨q', rfl⟩ : ∃ q', p' = .addEvidence q' := by
        cases p' <;> simp_all [EventPayload.Same]
      have hsupports : Supports P svc url finalUrl q row row' :=
        ⟨q', hp', hfinds.audited hinj hhash hsame hfin hsame'⟩
      refine ⟨(attach_ok hJ hinj hattach hadd).1.db, [row, row'], ?_, fun r hr p hp₀ => ?_, fun r hr q₀ hq₀ => ?_⟩
      · rw [hevents', hevents, List.append_assoc]
        rfl
      · rcases List.mem_pair.1 hr with rfl | rfl
        · cases hp.symm.trans hp₀
          exact .inr ⟨row', by simp, hsupports⟩
        · cases hp'.symm.trans hp₀
      · rcases List.mem_pair.1 hr with rfl | rfl
        · cases hp.symm.trans hq₀
        · exact ⟨row, by simp, q, hp, hsupports⟩

end assert

/-! ## A crawl so far -/

/-- What a crawl from `s₀` has appended so far is auditable. -/
structure AuditInv (P : Prims H) (svc : CrawlerService U Ω ε H) (url : U) (finalUrl : String)
    (s₀ s : Store H) : Prop where
  db : DbInv P s
  appended : ∃ new, s.events = s₀.events ++ new ∧
    Auditable P svc url finalUrl (maxRows ≤ s.events.length) new

section inv

variable {svc : CrawlerService U Ω ε H} {url : U} {finalUrl : String} {s₀ s s' : Store H}

theorem AuditInv.init (h : DbInv P s) : AuditInv P svc url finalUrl s s :=
  ⟨h, [], (List.append_nil _).symm, .nil⟩

theorem AuditInv.append (h : AuditInv P svc url finalUrl s₀ s) (hdb : DbInv P s') {new : List (EventRow H)}
    (hevents : s'.events = s.events ++ new)
    (hnew : Auditable P svc url finalUrl (maxRows ≤ s'.events.length) new) :
    AuditInv P svc url finalUrl s₀ s' := by
  obtain ⟨before, hbefore, haudit⟩ := h.appended
  refine ⟨hdb, before ++ new, by rw [hevents, hbefore, List.append_assoc], haudit.append hnew fun hfull => ?_⟩
  rw [hevents, List.length_append]
  exact hfull.trans (Nat.le_add_right _ _)

/-- A commit of an event of another kind. -/
theorem AuditInv.commit (hJ : JsonLaws P) (hinj : Function.Injective P.blake3)
    (h : AuditInv P svc url finalUrl s₀ s) {me : Prims.PeerIdentity} {payload : EventPayload} {now : Int64}
    {id : H} (hassert : ∀ q, payload ≠ .assertRelation q) (hevidence : ∀ q, payload ≠ .addEvidence q)
    (hcommit : P.commitEvent s me payload now = .ok (s', id)) : AuditInv P svc url finalUrl s₀ s' := by
  obtain ⟨row, p, hevents, -, hrow, hsame⟩ := commitEvent_reads hJ hcommit
  exact h.append (commitEvent_spec hJ hinj h.db hcommit).1 hevents
    (auditable_other hrow hsame hassert hevidence)

end inv

/-! ## The calls of a crawl -/

namespace CrawlerService

variable {svc : CrawlerService U Ω ε H} {url : U} {finalUrl : String} {s₀ : Store H} {J : Store H → Prop}

/-- The hash of a page is that of its body. -/
def Hashed (P : Prims H) (page : Internet.FetchedPage U) : Prop :=
  page.contentHash = Internet.contentHash P page.body

omit [DecidableEq H] in
theorem readPage_hashed {net : Internet U Ω} {config : CrawlerConfig} {response : HttpResponse U}
    {page : Internet.FetchedPage U} (h : net.readPage P config response = .ok page) : Hashed P page := by
  rw [Internet.readPage] at h
  split_ifs at h
  obtain ⟨body, -, rfl⟩ := map_ok.1 h
  rfl

omit [DecidableEq H] in
theorem safeFetch_hashed (net : Internet U Ω) (url : U) (config : CrawlerConfig) :
    Triple (fun _ => True) (net.safeFetch P url config) (fun page _ => Hashed P page) fun _ _ => True := by
  refine Triple.of_loop (fun hop current => ?_) _ _ _ _
  have hthrow : ∀ e : CrawlError, Triple (fun _ => True) (throw e : Program Ω (Sent U) CrawlError
      (Round U (Internet.FetchedPage U))) (fun r _ => ∀ page, r = .done page → Hashed P page)
      fun _ _ => True := fun _ => Triple.of_throw fun _ _ => trivial
  unfold Internet.safeFetchHop
  dsimp only
  split
  · exact hthrow _
  · refine (Triple.any _).bind fun host => (Triple.any _).bind fun port => (Triple.any _).bind fun addrs =>
      (Triple.any _).bind fun client => (Triple.any _).bind fun response => ?_
    split
    · split
      · exact hthrow _
      · refine (Triple.any _).bind fun location => (Triple.any _).bind fun next => ?_
        exact Triple.of_pure fun _ _ page hpage => by cases hpage
    · refine Triple.bind (Q := fun page _ => Hashed P page) ?_ fun page => ?_
      · exact Triple.of_settle (fun page hpage _ _ => readPage_hashed hpage) fun _ _ _ _ => trivial
      · refine Triple.of_pure fun _ hpage page' hpage' => ?_
        cases hpage'
        exact hpage

omit [DecidableEq H] in
/-- A fetch whose outcome is looked at. -/
theorem outcome_fetch_bind {β : Type} {g : Except (CrawlFailure H) (Internet.FetchedPage U) → Call U Ω H β}
    {R : β → Ω × Store H → Prop} {E : CrawlFailure H → Ω × Store H → Prop} (sideUrl : U)
    (hg : ∀ r, (∀ page, r = .ok page → Hashed P page) → Triple (OnSecond J) (g r) R E) :
    Triple (OnSecond J) (outcome (svc.fetch P sideUrl) >>= g) R E := by
  have hfetch : Triple (OnSecond J) (svc.fetch P sideUrl)
      (fun page => OnSecond fun s => Hashed P page ∧ J s) fun _ => OnSecond J :=
    Triple.of_mapError (Triple.of_onFirst (safeFetch_hashed svc.net sideUrl svc.config)
      (fun _ _ hpage hs => ⟨hpage, hs⟩) fun _ _ _ hs => hs)
  have houtcome : Triple (OnSecond J) (outcome (svc.fetch P sideUrl) : Call U Ω H _)
      (fun r x => (∀ page, r = .ok page → Hashed P page) ∧ OnSecond J x) E := by
    refine Triple.of_attempt (hfetch.mono (fun _ h => h) (fun page x h => ⟨?_, h.2⟩) fun e x h => ⟨?_, h⟩)
    · rintro _ ⟨⟩
      exact h.1
    · rintro _ ⟨⟩
  exact houtcome.bind fun r => Triple.of_and (hg r)

/-- The invariant of one crawl. -/
abbrev Kept (P : Prims H) (svc : CrawlerService U Ω ε H) (url : U) (finalUrl : String) (s₀ : Store H) :
    Store H → Prop := AuditInv P svc url finalUrl s₀

variable {auth : AuthContext H} {e : EvidenceInput} {body : Bytes} {input : AssertInput}
  {summary : CrawlSummary}

theorem keeps_assert_found (hJ : JsonLaws P) (hinj : Function.Injective P.blake3)
    (hfinds : svc.Finds url finalUrl e (String.ofList (fromUtf8Lossy body)) input)
    (hhash : e.contentHash = some (Internet.contentHash P body)) :
    Keeps (Kept P svc url finalUrl s₀) (svc.assert P auth input) := by
  have hstep : ∀ s now, Kept P svc url finalUrl s₀ s →
      Kept P svc url finalUrl s₀ (P.assert svc.url s svc.identity auth input now).1 := by
    intro s now hs
    obtain ⟨hdb, new, hevents, hnew⟩ := assert_auditable hJ hinj hs.db hfinds hhash auth now
    exact hs.append hdb hevents hnew
  exact keeps_clock.bind fun now =>
    leads_graph (fun s _ hs _ => hstep s now hs) fun s _ hs _ => hstep s now hs

theorem keeps_assertFact_found (hJ : JsonLaws P) (hinj : Function.Injective P.blake3) {confidence : UInt32}
    {fact : ExtractedFact}
    (hfinds : svc.Finds url finalUrl e (String.ofList (fromUtf8Lossy body)) (factInput e confidence fact))
    (hhash : e.contentHash = some (Internet.contentHash P body)) :
    Keeps (Kept P svc url finalUrl s₀) (svc.assertFact P auth e confidence summary fact) := by
  refine outcome_bind (keeps_assert_found hJ hinj hfinds hhash) fun r => ?_
  cases r with
  | ok id => exact Triple.of_pure fun _ hx => hx
  | error e => exact Triple.of_pure fun _ hx => hx

theorem keeps_assertAlias_found (hJ : JsonLaws P) (hinj : Function.Injective P.blake3)
    (found : ExtractedAlias) :
    Keeps (Kept P svc url finalUrl s₀) (svc.assertAlias P auth summary found) := by
  have hresolve : Keeps (Kept P svc url finalUrl s₀)
      (graph fun s => (s, svc.resolveNodeId P found.nodeIdentifier s) : Call U Ω H H) :=
    leads_graph (fun _ _ hs _ => hs) fun _ _ hs _ => hs
  have halias : Keeps (Kept P svc url finalUrl s₀) (svc.declareExtractedAlias P auth found) := by
    refine hresolve.bind fun nodeId => keeps_clock.bind fun now =>
      leads_graph (fun s u hs hu => ?_) fun s e hs he => ?_
    · obtain ⟨s', hdeclare, heq⟩ := map_ok.1 (transact_ok.1 hu)
      have hfst : s' = _ := congrArg Prod.fst heq
      simp only [Prims.declareAlias, bind_ok] at hdeclare
      obtain ⟨-, -, -, -, ⟨s₁, id⟩, hcommit, hout⟩ := hdeclare
      have hkept : Kept P svc url finalUrl s₀ s₁ :=
        AuditInv.commit hJ hinj hs (fun q hq => by cases hq) (fun q hq => by cases hq) hcommit
      cases hout
      exact hfst ▸ hkept
    · rw [transact_error he]
      exact hs
  refine outcome_bind halias fun r => ?_
  cases r with
  | ok u => exact Triple.of_pure fun _ hx => hx
  | error e => exact Triple.of_pure fun _ hx => hx

theorem keeps_assertExtracted_found (hJ : JsonLaws P) (hinj : Function.Injective P.blake3)
    {page : ExtractedPage} {confidence : UInt32}
    (hfinds : ∀ fact ∈ page.facts,
      svc.Finds url finalUrl e (String.ofList (fromUtf8Lossy body)) (factInput e confidence fact))
    (hhash : e.contentHash = some (Internet.contentHash P body)) :
    Keeps (Kept P svc url finalUrl s₀) (svc.assertExtracted P auth page e confidence summary) :=
  (Triple.of_foldlM (fun _ fact hfact => keeps_assertFact_found hJ hinj (hfinds fact hfact) hhash) summary).bind
    fun summary => Triple.of_foldlM (fun _ found _ => keeps_assertAlias_found hJ hinj found) summary

theorem keeps_sidePage_found (hJ : JsonLaws P) (hinj : Function.Injective P.blake3) {side : SideFetch U}
    (hside : side ∈ svc.sides url finalUrl) :
    Keeps (Kept P svc url finalUrl s₀) (svc.sidePage P auth url side summary) := by
  unfold sidePage
  cases hjoin : svc.net.join url side.path with
  | none => exact Triple.of_pure fun _ hx => hx
  | some sideUrl =>
    refine outcome_fetch_bind sideUrl fun r hpage => ?_
    cases r with
    | error e => exact Triple.of_pure fun _ hx => hx
    | ok page =>
      have hhash := congrArg some (hpage page rfl)
      refine keeps_clock.bind fun now => Triple.bind (keeps_assertExtracted_found hJ hinj
        (fun fact hfact => .side hside hjoin rfl rfl hfact) hhash) fun summary => ?_
      exact Triple.of_pure fun _ hx => hx

/-- An actor that is looked up, or declared. -/
theorem keeps_actorAuth_found (svc : CrawlerService U Ω ε H) (name : String) (actorType : ActorType)
    (hdeclared : ∀ s s' q now id, J s →
      P.commitEvent s svc.identity (.actorDeclare q) now = .ok (s', id) → J s') :
    Leads J (svc.actorAuth P name actorType) (fun _ => J) J := by
  refine leads_actorAuth (fun _ _ hs _ => hs) (fun s now s' id hs _ hdeclare => ?_) fun _ hs => hs
  obtain ⟨q, eventId, hcommit⟩ := declareActor_committed hdeclare
  exact hdeclared s s' q now eventId hs hcommit

theorem kept_declared (hJ : JsonLaws P) (hinj : Function.Injective P.blake3) (s s' : Store H)
    (q : ActorDeclarePayload) (now : Int64) (id : H) (hs : Kept P svc url finalUrl s₀ s)
    (hcommit : P.commitEvent s svc.identity (.actorDeclare q) now = .ok (s', id)) :
    Kept P svc url finalUrl s₀ s' :=
  AuditInv.commit hJ hinj hs (fun q hq => by cases hq) (fun q hq => by cases hq) hcommit

theorem keeps_llmPass_found (hJ : JsonLaws P) (hinj : Function.Injective P.blake3) (html : Bool)
    (huri : e.uri = some finalUrl) (hhash : e.contentHash = some (Internet.contentHash P body)) :
    Keeps (Kept P svc url finalUrl s₀)
      (svc.llmPass P html (String.ofList (fromUtf8Lossy body)) finalUrl e summary) := by
  have hreturn : Keeps (Kept P svc url finalUrl s₀) (pure summary : Call U Ω H CrawlSummary) :=
    Triple.of_pure fun _ hx => hx
  unfold llmPass
  dsimp only
  split_ifs with htext
  · let Answers (r : Except String (List CandidateAssertion)) : Prop := ∃ ω, (svc.env.extract
      (svc.extractors.bodyText (String.ofList (fromUtf8Lossy body)) llmExtractionMaxChars) finalUrl ω).1 = r
    refine Triple.bind (Q := fun r x => Answers r ∧ OnSecond (Kept P svc url finalUrl s₀) x) ?_
      fun r => Triple.of_and fun ⟨ω, hr⟩ => ?_
    · exact Triple.of_onFirst (Q := fun r s => Answers r ∧ Kept P svc url finalUrl s₀ s) (V := Answers)
        (F := fun _ => False) (Triple.of_call fun ω _ => ⟨ω, rfl⟩) (fun _ _ hr hs => ⟨hr, hs⟩)
        fun _ _ h => h.elim
    rcases r with err | ⟨_ | ⟨candidate, candidates⟩⟩
    · exact hreturn
    · exact hreturn
    · refine (keeps_actorAuth_found svc _ _ (kept_declared hJ hinj)).bind fun llmAuth => ?_
      refine Triple.of_foldlM (fun summary c hc => ?_) summary
      refine outcome_bind (keeps_assert_found hJ hinj (.candidate rfl huri hr hc) hhash) fun r => ?_
      cases r with
      | ok id => exact Triple.of_pure fun _ hx => hx
      | error e => exact Triple.of_pure fun _ hx => hx
  · exact hreturn

/-- **Behind the check** of robots.txt: what a crawl appends is auditable. -/
theorem crawlPage_audited (hJ : JsonLaws P) (hinj : Function.Injective P.blake3) :
    Triple (OnSecond fun s => ∀ finalUrl, Kept P svc url finalUrl s₀ s) (svc.crawlPage P auth url)
      (fun _ => OnSecond fun s => ∃ finalUrl, Kept P svc url finalUrl s₀ s)
      fun _ => OnSecond fun s => ∃ finalUrl, Kept P svc url finalUrl s₀ s := by
  have hsome : ∀ {α : Type} {m : Call U Ω H α} {finalUrl : String}, Keeps (Kept P svc url finalUrl s₀) m →
      Triple (OnSecond (Kept P svc url finalUrl s₀)) m (fun _ => OnSecond (Kept P svc url finalUrl s₀))
        fun _ => OnSecond fun s => ∃ finalUrl, Kept P svc url finalUrl s₀ s :=
    fun h => h.mono (fun _ h => h) (fun _ _ h => h) fun _ _ h => ⟨_, h.1⟩
  have hfetch : Triple (OnSecond fun s => ∀ finalUrl, Kept P svc url finalUrl s₀ s) (svc.fetch P url)
      (fun page x => Hashed P page ∧ OnSecond (Kept P svc url (svc.url.toString page.finalUrl) s₀) x)
      fun _ => OnSecond fun s => ∃ finalUrl, Kept P svc url finalUrl s₀ s :=
    Triple.of_mapError (Triple.of_onFirst (Q := fun page s => Hashed P page ∧
      Kept P svc url (svc.url.toString page.finalUrl) s₀ s) (safeFetch_hashed svc.net url svc.config)
      (fun _ _ hpage hs => ⟨hpage, hs _⟩) fun _ _ _ hs => ⟨"", hs _⟩)
  refine hfetch.bind fun page => Triple.of_and fun hpage => ?_
  refine (hsome (keeps_ask _)).bind fun pinned => (hsome keeps_clock).bind fun now => ?_
  have hhash := congrArg some hpage
  refine (hsome (keeps_assert_found hJ hinj (.baseline rfl rfl) hhash)).bind fun _ => ?_
  refine (hsome (keeps_assertExtracted_found hJ hinj (fun fact hfact => .fact rfl rfl hfact) hhash)).bind
    fun summary => ?_
  refine (hsome (keeps_llmPass_found hJ hinj _ rfl hhash)).bind fun summary => ?_
  refine (hsome (keeps_sidePage_found hJ hinj (by simp [sides]))).bind fun summary => ?_
  refine (hsome (keeps_sidePage_found hJ hinj (by simp [sides]))).bind fun summary => ?_
  exact (hsome (keeps_sidePage_found hJ hinj (by simp [sides]))).mono (fun _ h => h) (fun _ _ h => ⟨_, h⟩)
    fun _ _ h => h

/-- **One crawl**: what it appends is auditable. -/
theorem crawlStore_audited (hJ : JsonLaws P) (hinj : Function.Injective P.blake3) {s : Store H}
    (hinv : DbInv P s) (svc : CrawlerService U Ω ε H) (url : U) (ω : Ω) :
    ∃ finalUrl, AuditInv P svc url finalUrl s (svc.crawlStore P url ω s) := by
  have htriple : Triple (OnSecond fun s' => s' = s) (svc.crawl P url)
      (fun _ => OnSecond fun s' => ∃ finalUrl, Kept P svc url finalUrl s s')
      fun _ => OnSecond fun s' => ∃ finalUrl, Kept P svc url finalUrl s s' := by
    have hsome : ∀ {α : Type} {m : Call U Ω H α}, Keeps (fun s' => ∀ finalUrl, Kept P svc url finalUrl s s') m →
        Triple (OnSecond fun s' => ∀ finalUrl, Kept P svc url finalUrl s s') m
          (fun _ => OnSecond fun s' => ∀ finalUrl, Kept P svc url finalUrl s s')
          fun _ => OnSecond fun s' => ∃ finalUrl, Kept P svc url finalUrl s s' :=
      fun h => h.mono (fun _ h => h) (fun _ _ h => h) fun _ _ h => ⟨"", h.1 ""⟩
    have hauth := hsome (keeps_actorAuth_found (P := P) svc crawlerActorName .crawler
      fun s₁ s' q now id hs hcommit finalUrl => kept_declared hJ hinj s₁ s' q now id (hs finalUrl) hcommit)
    refine (hauth.mono (fun x hx => ?_) (fun _ _ h => h) fun _ _ h => h).bind fun auth => ?_
    · rw [OnSecond, show x.2 = s from hx]
      exact fun finalUrl => .init hinv
    refine (hsome (keeps_checkRobots url)).bind fun robots => ?_
    split_ifs
    · exact crawlPage_audited hJ hinj
    · exact Triple.of_throw fun _ hx => ⟨"", hx ""⟩
  obtain ⟨hok, herror⟩ := htriple ((ω, s), []) rfl
  cases hr : (svc.crawl P url ((ω, s), [])).1 with
  | ok summary => exact hok summary hr
  | error e => exact herror e hr

end CrawlerService

/-! ## Runs -/

theorem crawlerRun_dbInv (hJ : JsonLaws P) (hinj : Function.Injective P.blake3) (me : Prims.PeerIdentity)
    (ops : List (CrawlerOp P U Ω ε)) : DbInv P (P.crawlerRun me ops).db.store := by
  induction ops using List.reverseRecOn with
  | nil => exact dbInv_empty
  | append_singleton ops op ih =>
    rw [crawlerRun_append]
    cases op with
    | db op => exact dbRun_dbInv hJ hinj ih [op]
    | crawl svc url ω =>
      obtain ⟨finalUrl, haudit⟩ := CrawlerService.crawlStore_audited hJ hinj ih
        { svc with identity := me } url ω
      exact haudit.db

/-- **A crawl can be audited.**  In any state that a peer gets to, a crawl of any
    site appends events of which each assertion has its evidence behind it,
    unless the log is full, and there is no other evidence.  The content hash of
    an evidence item is that of a body, and what the crawler finds in any body
    with that hash, at the URL of the item, is what the assertion says. -/
theorem crawl_auditable (P : Prims H) (hJ : JsonLaws P) (hinj : Function.Injective P.blake3)
    (me : Prims.PeerIdentity) (ops : List (CrawlerOp P U Ω ε)) (site : CrawlerService U Ω ε H) (url : U)
    (ω : Ω) :
    let svc := { site with identity := me }
    let s := (P.crawlerRun me ops).db.store
    ∃ finalUrl new, (svc.crawlStore P url ω s).events = s.events ++ new ∧
      Auditable P svc url finalUrl (maxRows ≤ (svc.crawlStore P url ω s).events.length) new := by
  intro svc s
  obtain ⟨finalUrl, haudit⟩ := CrawlerService.crawlStore_audited hJ hinj (crawlerRun_dbInv hJ hinj me ops)
    svc url ω
  exact ⟨finalUrl, haudit.appended⟩

/-- A crawl that asserts, of a page that reads "hi". -/
theorem crawl_auditable_hi :
    let op : CrawlerOp idealOpen IdealUrl Unit Unit := .db (impostorOp idealOpen peerB)
    let s := (idealOpen.crawlerRun peerA [op]).db.store
    let s' := (textCrawler "hi").crawlStore idealOpen privatePage () s
    ∃ finalUrl new, s'.events = s.events ++ new ∧
      (∃ row ∈ new, ∃ p, idealOpen.rowPayload row = some (.assertRelation p)) ∧
      Auditable idealOpen (textCrawler "hi") privatePage finalUrl (maxRows ≤ s'.events.length) new := by
  obtain ⟨finalUrl, new, hnew, haudit⟩ := crawl_auditable idealOpen idealOpen_laws idealOpen_injective peerA
    [.db (impostorOp idealOpen peerB)] (textCrawler "hi") privatePage ()
  obtain ⟨new', hnew', row, hrow, p, hp, -⟩ := hi_crawlStore.asserted
  obtain rfl : new' = new := List.append_cancel_left (hnew'.symm.trans hnew)
  exact ⟨finalUrl, new', hnew, ⟨row, hrow, p, hp⟩, haudit⟩

end OpenAgentGraph
