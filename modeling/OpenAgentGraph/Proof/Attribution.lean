/-
  Under whose actors a crawl asserts.

  A crawl looks its actor up by name and type among the actors of all origins.
  If what it finds is an actor that the peer declared itself, or nothing, each
  assertion of the crawl is attributed to such an actor
  (`crawls_attributed`).  A replicated declaration of the name is found as well.
-/
import OpenAgentGraph.Crawler.Run
import OpenAgentGraph.Proof.Assert
import OpenAgentGraph.Proof.Crawl
import OpenAgentGraph.Proof.Identity
import OpenAgentGraph.Proof.Possession

namespace OpenAgentGraph

open Lib Lib.Sending Repo
open scoped List

variable {H : Type} [DecidableEq H] {U Ω ε : Type} {P : Prims H}

/-! ## Own actors -/

section defs

variable (P) (o : H)

/-- An event of the origin declares the actor. -/
def OwnActor (s : Store H) (actorId : H) : Prop :=
  ∃ row ∈ s.events, row.originPeerId = o ∧
    ∃ q, P.rowPayload row = some (.actorDeclare q) ∧ P.actorIdOf row.eventId q.publicKey = actorId

/-- If the event is an assertion, its actor is one that the origin declared. -/
def AttributedRow (s : Store H) (row : EventRow H) : Prop :=
  ∀ p, P.rowPayload row = some (.assertRelation p) → ∃ a, p.actorId = P.toHex a ∧ OwnActor P o s a

/-- An actor that is found by this name and type is one that the origin
    declared. -/
def FindsOwn (order : Table.RowOrder (ActorRow H)) (name : String) (actorType : ActorType)
    (s : Store H) : Prop :=
  ∀ row, findByNameAndType order s.proj name actorType = some row → OwnActor P o s row.actorId

end defs

omit [DecidableEq H] in
theorem OwnActor.mono {o : H} {s s' : Store H} (h : s.events <+: s'.events) {a : H}
    (ha : OwnActor P o s a) : OwnActor P o s' a := by
  obtain ⟨row, hrow, hdeclares⟩ := ha
  exact ⟨row, h.subset hrow, hdeclares⟩

omit [DecidableEq H] in
theorem AttributedRow.mono {o : H} {s s' : Store H} (h : s.events <+: s'.events) {row : EventRow H}
    (hrow : AttributedRow P o s row) : AttributedRow P o s' row := by
  intro p hp
  obtain ⟨a, ha, hown⟩ := hrow p hp
  exact ⟨a, ha, hown.mono h⟩

omit [DecidableEq H] in
theorem FindsOwn.mono {o : H} {order : Table.RowOrder (ActorRow H)} {name : String} {actorType : ActorType}
    {s s' : Store H} (h : FindsOwn P o order name actorType s) (hevents : s.events <+: s'.events)
    (hactors : actorsNamed s'.proj.actors name actorType = actorsNamed s.proj.actors name actorType) :
    FindsOwn P o order name actorType s' := by
  intro row hrow
  rw [findByNameAndType, hactors] at hrow
  exact (h row hrow).mono hevents

/-! ## Commits -/

section commit

variable {s s' : Store H} {me : Prims.PeerIdentity} {payload : EventPayload} {now : Int64} {id : H}

theorem commitEvent_appended (h : P.commitEvent s me payload now = .ok (s', id)) :
    ∃ row signed, Appended P s s' row signed ∧ row.originPeerId = me.peerId P ∧
      signed.unsigned.payload = payload := by
  obtain ⟨o, hcommit⟩ := commitEvent_ok.1 h
  obtain ⟨row, signed, happ, horigin, -, ⟨hpay, -⟩, -⟩ := commit_appended hcommit
  exact ⟨row, signed, happ, horigin, hpay⟩

/-- The actor of an assertion, as the event names it. -/
def EventPayload.asserter : EventPayload → Option String
  | .assertRelation p => some p.actorId
  | _ => none

omit [DecidableEq H] in
theorem EventPayload.asserter_eq_some {p : EventPayload} {t : String} :
    p.asserter = some t ↔ ∃ q, p = .assertRelation q ∧ q.actorId = t := by
  cases p <;> simp [EventPayload.asserter]

omit [DecidableEq H] in
/-- An assertion is read back as one by the same actor. -/
theorem EventPayload.Same.asserter_eq {p p' : EventPayload} (h : p.Same p') : p.asserter = p'.asserter := by
  cases p
  case assertRelation q =>
    cases p'
    case assertRelation q' =>
      obtain ⟨heq, -⟩ := h
      rw [← heq]
      rfl
    all_goals cases h
  all_goals
    cases p' <;> cases h
    all_goals rfl

omit [DecidableEq H] in
/-- A declaration is read back as it was, and nothing else is read as one. -/
theorem EventPayload.Same.actorDeclare_iff {q : ActorDeclarePayload} {p p' : EventPayload}
    (h : p.Same p') : p = .actorDeclare q ↔ p' = .actorDeclare q := by
  cases p <;> cases p' <;> simp_all [EventPayload.Same]

/-- The outcome of a commit is that of the projection of its event. -/
theorem commit_outcome {o : ProjectionOutcome H}
    (h : P.commitLocalEvent s me payload now = .ok (s', id, o)) :
    ∃ events t, P.project events s.proj id t payload = .ok (o, s'.proj) := by
  unfold Prims.commitLocalEvent at h
  cases hnext : Prims.nextOf (getOrigin s.eventOrigins (me.peerId P)) with
  | mk sequence previous =>
    simp only [hnext, bind_ok, orElse_ok, guard_ok, pure_ok, Prod.exists] at h
    obtain ⟨signed, id, hbuild, -, -, -, -, events, -, -, -, o, proj, hproj, h⟩ := h
    cases h
    obtain ⟨hunsigned, -⟩ := buildAndSign_ok hbuild
    rw [hunsigned] at hproj
    exact ⟨events, now, hproj⟩

/-- A declaration without a key is committed, and answered with the actor's id. -/
theorem declareActor_appended (hJ : JsonLaws P) {actorType : ActorType} {name : String}
    (h : P.declareActor s me actorType (some name) none none now = .ok (s', id)) :
    ∃ row signed q r, Appended P s s' row signed ∧ row.originPeerId = me.peerId P ∧
      P.rowPayload row = some (.actorDeclare q) ∧ P.actorIdOf row.eventId q.publicKey = id ∧
      r.actorType = actorType ∧ s'.proj.actors = Table.insertOrIgnore ActorRow.actorId r s.proj.actors := by
  simp only [Prims.declareActor, bind_ok] at h
  obtain ⟨-, -, -, -, key, hkey, ⟨s₁, eventId, o⟩, hcommit, hout⟩ := h
  have hcommit := GraphError.lift_ok.1 hcommit
  cases hkey
  obtain ⟨events, t, hproj⟩ := commit_outcome hcommit
  obtain ⟨actorId, rfl⟩ : ∃ actorId, o = .actorDeclared actorId := by
    simp only [Prims.project, bind_ok, pure_ok] at hproj
    obtain ⟨⟨actorId, g⟩, -, hpair⟩ := hproj
    cases hpair
    exact ⟨actorId, rfl⟩
  cases hout
  have hid : id = P.actorIdOf eventId none := (project_actorDeclare_ok hproj).1
  obtain ⟨row, signed, happ, horigin, hrow, ⟨hpay, -⟩, -⟩ := commit_appended hcommit
  obtain ⟨p, hp, hsame⟩ := happ.stored.rowPayload hJ
  rw [hsame.actorDeclare_iff.1 hpay] at hp
  rcases happ.actors hJ with ⟨-, hno⟩ | ⟨q, r, hq, ⟨-, htype, -⟩, hactors⟩
  · exact absurd hpay (hno _)
  · rw [hpay] at hq
    cases hq
    rw [ActorType.parse_asStr] at htype
    refine ⟨row, signed, _, r, happ, horigin, hp, ?_, (Option.some.inj htype).symm, hactors⟩
    rw [hrow, hid]

end commit

/-! ## What a crawl keeps -/

/-- After a crawl from `s₀` so far: the log is whole, what was appended is
    attributed, and the actors in use are the origin's. -/
structure CrawlInv (P : Prims H) (o : H) (s₀ : Store H) (inUse : List H) (s : Store H) : Prop where
  log : LogInv P s
  appended : ∃ new, s.events = s₀.events ++ new ∧ ∀ row ∈ new, AttributedRow P o s row
  inUse : ∀ a ∈ inUse, OwnActor P o s a

section inv

variable {s₀ s s' : Store H} {inUse : List H} {me : Prims.PeerIdentity} {payload : EventPayload}
  {now : Int64} {id : H}

theorem CrawlInv.init {o : H} (hlog : LogInv P s) (hinUse : ∀ a ∈ inUse, OwnActor P o s a) :
    CrawlInv P o s inUse s :=
  ⟨hlog, ⟨[], (List.append_nil _).symm, fun _ hr => absurd hr List.not_mem_nil⟩, hinUse⟩

theorem CrawlInv.cons {o : H} (h : CrawlInv P o s₀ inUse s) {a : H} (ha : OwnActor P o s a) :
    CrawlInv P o s₀ (a :: inUse) s :=
  ⟨h.log, h.appended, List.forall_mem_cons.2 ⟨ha, h.inUse⟩⟩

theorem CrawlInv.mono {o : H} (h : CrawlInv P o s₀ inUse s) {fewer : List H} (hsub : fewer ⊆ inUse) :
    CrawlInv P o s₀ fewer s :=
  ⟨h.log, h.appended, fun a ha => h.inUse a (hsub ha)⟩

/-- An event is appended that is no assertion by an actor that is not in use. -/
theorem CrawlInv.append {o : H} (h : CrawlInv P o s₀ inUse s) {row : EventRow H} {signed : SignedEvent}
    (happ : Appended P s s' row signed)
    (hrow : ∀ p, P.rowPayload row = some (.assertRelation p) → ∃ a ∈ inUse, p.actorId = P.toHex a) :
    CrawlInv P o s₀ inUse s' := by
  have hext : s.events <+: s'.events := by
    rw [happ.events_eq]
    exact List.prefix_append _ _
  obtain ⟨new, hnew, hall⟩ := h.appended
  refine ⟨⟨happ.logStored h.log.stored, happ.chainInv h.log.chain⟩, ⟨new ++ [row], ?_, ?_⟩,
    fun a ha => (h.inUse a ha).mono hext⟩
  · rw [happ.events_eq, hnew, List.append_assoc]
  · intro r hr
    rcases List.mem_append.1 hr with hr | hr
    · exact (hall r hr).mono hext
    · rw [List.mem_singleton.1 hr]
      intro p hp
      obtain ⟨a, ha, hpa⟩ := hrow p hp
      exact ⟨a, hpa, (h.inUse a ha).mono hext⟩

theorem CrawlInv.commit (hJ : JsonLaws P) (h : CrawlInv P (me.peerId P) s₀ inUse s)
    (hpay : ∀ p, payload = .assertRelation p → ∃ a ∈ inUse, p.actorId = P.toHex a)
    (hcommit : P.commitEvent s me payload now = .ok (s', id)) :
    CrawlInv P (me.peerId P) s₀ inUse s' := by
  obtain ⟨row, signed, happ, -, rfl⟩ := commitEvent_appended hcommit
  refine h.append happ fun p hp => ?_
  obtain ⟨p', hp', hsame⟩ := happ.stored.rowPayload hJ
  obtain rfl : p' = .assertRelation p := Option.some.inj (hp'.symm.trans hp)
  obtain ⟨q, hq, hactor⟩ := EventPayload.asserter_eq_some.1 hsame.asserter_eq
  rw [← hactor]
  exact hpay q hq

/-- The actor that is declared is in use from then on. -/
theorem CrawlInv.declare (hJ : JsonLaws P) (h : CrawlInv P (me.peerId P) s₀ inUse s)
    {actorType : ActorType} {name : String}
    (hdeclare : P.declareActor s me actorType (some name) none none now = .ok (s', id)) :
    CrawlInv P (me.peerId P) s₀ (id :: inUse) s' := by
  obtain ⟨row, signed, q, r, happ, horigin, hp, hid, -⟩ := declareActor_appended hJ hdeclare
  have hinv : CrawlInv P (me.peerId P) s₀ inUse s' :=
    h.append happ fun p hp' => (by rw [hp] at hp'; cases hp')
  refine ⟨hinv.log, hinv.appended, fun a ha => ?_⟩
  rcases List.mem_cons.1 ha with rfl | ha
  · exact ⟨row, by simp [happ.events_eq], horigin, q, hp, hid⟩
  · exact hinv.inUse a ha

/-- A declaration leaves the actors of the other types. -/
theorem actorsNamed_declare (hJ : JsonLaws P) {actorType other : ActorType} {name : String}
    (hdeclare : P.declareActor s me actorType (some name) none none now = .ok (s', id))
    (hne : actorType ≠ other) (otherName : String) :
    actorsNamed s'.proj.actors otherName other = actorsNamed s.proj.actors otherName other := by
  obtain ⟨row, signed, q, r, -, -, -, -, htype, hactors⟩ := declareActor_appended hJ hdeclare
  have hother : ¬ (r.name = some otherName ∧ r.actorType = other) := fun h => hne (htype.symm.trans h.2)
  rw [hactors, Table.insertOrIgnore]
  split_ifs
  · rfl
  · simp [actorsNamed, hother]

/-- What an event other than a declaration leaves. -/
theorem commitEvent_actors (hJ : JsonLaws P) (hpay : ∀ q, payload ≠ .actorDeclare q)
    (hcommit : P.commitEvent s me payload now = .ok (s', id)) :
    s.events <+: s'.events ∧ s'.proj.actors = s.proj.actors := by
  obtain ⟨row, signed, happ, -, rfl⟩ := commitEvent_appended hcommit
  refine ⟨?_, ?_⟩
  · rw [happ.events_eq]
    exact List.prefix_append _ _
  · rcases happ.actors hJ with ⟨hactors, -⟩ | ⟨q, -, hq, -⟩
    · exact hactors
    · exact absurd hq (hpay q)

end inv

/-! ## The calls of a crawl -/

namespace CrawlerService

variable {svc : CrawlerService U Ω ε H} {J : Store H → Prop} {auth : AuthContext H}

/-- What holds behind the commit of the assertion and is kept by the commits of
    its evidence holds in the end. -/
theorem assert_leaves {L : UrlLib U ε} {s s₁ : Store H} {me : Prims.PeerIdentity} {input : AssertInput}
    {clock : ℕ → Int64} {assertionId : H}
    (hassert : P.assertRelation L s me auth input (clock 0) = .ok (s₁, assertionId)) (hs₁ : J s₁)
    (h : ∀ s payload now s' id, J s → (∀ q, payload ≠ .actorDeclare q) →
      (∀ p, payload ≠ .assertRelation p) → P.commitEvent s me payload now = .ok (s', id) → J s') :
    J (P.assert L s me auth input clock).1 := by
  rw [assert_accepted hassert]
  refine runSteps_keeps (fun n s e s' hs hadd => ?_) 1 hs₁ input.evidence
  obtain ⟨⟨s'', id⟩, hcommit, rfl⟩ := map_ok.1 hadd
  exact h s _ _ s'' id hs (fun q hq => by cases hq) (fun p hp => by cases hp) hcommit

omit [DecidableEq H] in
theorem relationPayload_actorId (L : UrlLib U ε) (auth : AuthContext H) (input : AssertInput) :
    (P.relationPayload L auth input).actorId = P.toHex auth.actorId := by
  rw [Prims.relationPayload]

/-- What the commits of the service keep that declare no actor and assert under
    the caller's actor only, its writes keep. -/
theorem keptUnder_of_commit
    (h : ∀ s payload now s' id, J s → (∀ q, payload ≠ .actorDeclare q) →
      (∀ p, payload = .assertRelation p → p.actorId = P.toHex auth.actorId) →
      P.commitEvent s svc.identity payload now = .ok (s', id) → J s') : KeptUnder P svc auth J where
  assert s input now hs := by
    cases hassert : P.assertRelation svc.url s svc.identity auth input (now 0) with
    | error e =>
      rw [assert_rejected hassert]
      exact hs
    | ok out =>
      obtain ⟨s₁, assertionId⟩ := out
      refine assert_leaves hassert ?_ fun s payload now s' id hs hdeclare hassert hcommit =>
        h s payload now s' id hs hdeclare (fun p hp => absurd hp (hassert p)) hcommit
      simp only [Prims.assertRelation, bind_ok] at hassert
      obtain ⟨-, -, -, -, hcommit⟩ := hassert
      refine h s _ _ s₁ assertionId hs (fun q hq => by cases hq) (fun p hp => ?_) hcommit
      rw [← EventPayload.assertRelation.inj hp]
      exact relationPayload_actorId svc.url auth input
  declareAlias s nodeId aliasName aliasType now s' hs hdeclare := by
    simp only [Prims.declareAlias, bind_ok] at hdeclare
    obtain ⟨-, -, -, -, ⟨s₁, id⟩, hcommit, hout⟩ := hdeclare
    cases hout
    exact h s _ _ s₁ id hs (fun q hq => by cases hq) (fun p hp => by cases hp) hcommit

variable {s₀ : Store H}

theorem keptUnder_crawlInv (hJ : JsonLaws P) {inUse : List H} (hauth : auth.actorId ∈ inUse) :
    KeptUnder P svc auth (CrawlInv P (svc.identity.peerId P) s₀ inUse) :=
  keptUnder_of_commit fun _ _ _ _ _ hs _ hpay hcommit =>
    hs.commit hJ (fun p hp => ⟨auth.actorId, hauth, hpay p hp⟩) hcommit

theorem keptUnder_findsOwn (hJ : JsonLaws P) {o : H} {order : Table.RowOrder (ActorRow H)} {name : String}
    {actorType : ActorType} : KeptUnder P svc auth (FindsOwn P o order name actorType) :=
  keptUnder_of_commit fun _ _ _ _ _ hs hpay _ hcommit =>
    have hkept := commitEvent_actors hJ hpay hcommit
    hs.mono hkept.1 (by rw [hkept.2])

theorem KeptUnder.and {K : Store H → Prop} (h : KeptUnder P svc auth J) (h' : KeptUnder P svc auth K) :
    KeptUnder P svc auth fun s => J s ∧ K s where
  assert s input now hs := ⟨h.assert s input now hs.1, h'.assert s input now hs.2⟩
  declareAlias s nodeId aliasName aliasType now s' hs hd :=
    ⟨h.declareAlias s nodeId aliasName aliasType now s' hs.1 hd,
      h'.declareAlias s nodeId aliasName aliasType now s' hs.2 hd⟩

/-- The evidence of a page. -/
def pageEvidence (svc : CrawlerService U Ω ε H) (page : Internet.FetchedPage U)
    (pinned : Except String String) (now : Int64) : EvidenceInput :=
  { evidenceType := some "web_page"
    uri := some (svc.url.toString page.finalUrl)
    contentHash := some page.contentHash
    retrievedAt := some now
    pinnedCid := pinned.toOption }

/-- **A page that is no HTML**: what holds behind the assertion of its node and is
    kept by the writes of the service holds in the end. -/
theorem crawlPage_leaves {url : U} {page : Internet.FetchedPage U} {K : Store H → Prop} {s₀ : Store H}
    (hkept : KeptUnder P svc auth K)
    (hfetch : ∀ w : (Ω × Store H) × List (Sent U), w.1.2 = s₀ →
      ∃ w', svc.fetch P url w = (.ok page, w') ∧ w'.1.2 = s₀)
    (hhtml : isHtml page.contentType = false)
    (hassert : ∀ ω now clock, K (P.assert svc.url s₀ svc.identity auth
      (baselineInput (svc.url.toString page.finalUrl) false
        (svc.pageEvidence page (svc.env.pin page.body ω).1 now)) clock).1) :
    Triple (OnSecond fun s => s = s₀) (svc.crawlPage P auth url) (fun _ => OnSecond K)
      fun _ => OnSecond K := by
  have hkeeps : ∀ {α : Type} {m : Call U Ω H α}, Keeps K m →
      Triple (OnSecond K) m (fun _ => OnSecond K) fun _ => OnSecond K :=
    fun h => h.mono (fun _ h => h) (fun _ _ h => h) fun _ _ h => h.1
  refine Triple.bind (Q := fun page' x => page' = page ∧ x.2 = s₀)
    (Triple.of_ok fun w hw => ?_) fun page' => Triple.of_and ?_
  · obtain ⟨w', hok, hstore⟩ := hfetch w hw
    exact ⟨page, w', hok, rfl, hstore⟩
  rintro rfl
  dsimp only
  rw [hhtml]
  refine Triple.bind (Q := fun pinned x => (∃ ω, pinned = (svc.env.pin page'.body ω).1) ∧ x.2 = s₀)
    (Triple.of_ok fun w hw => ⟨_, _, rfl, ⟨w.1.1, rfl⟩, hw⟩) fun pinned => Triple.of_and ?_
  rintro ⟨ω, rfl⟩
  refine Triple.bind (Q := fun _ => OnSecond fun s => s = s₀) (Triple.of_ok fun w hw => ⟨_, _, rfl, hw⟩)
    fun now => ?_
  refine Triple.bind (Q := fun _ => OnSecond K) ?_ fun _ => ?_
  · refine Triple.bind (Q := fun _ => OnSecond fun s => s = s₀) (Triple.of_ok fun w hw => ⟨_, _, rfl, hw⟩)
      fun clock => ?_
    refine (leads_graph (K := K) (Q := fun _ => K) ?_ ?_).mono (fun _ h => h) (fun _ _ h => h)
      fun _ _ h => h.1
    all_goals
      intro s r hs _
      rw [show s = s₀ from hs]
      exact hassert ω (now 0) clock
  refine (hkeeps (hkept.keeps_assertExtracted _ _ _ _)).bind fun summary => ?_
  rw [llmPass_of_not_html]
  refine Triple.bind (Q := fun _ => OnSecond K) (Triple.of_pure fun _ h => h) fun summary => ?_
  refine (hkeeps (hkept.keeps_sidePage url _ summary)).bind fun summary => ?_
  refine (hkeeps (hkept.keeps_sidePage url _ summary)).bind fun summary => ?_
  exact hkeeps (hkept.keeps_sidePage url _ summary)

theorem crawlStore_leaves {url : U} {ω : Ω} {s₀ : Store H} {K : Store H → Prop} {rules : RobotsRules}
    {w : (Ω × Store H) × List (Sent U)} (hauth : svc.crawlerAuth P ((ω, s₀), []) = (.ok auth, (ω, s₀), []))
    (hrobots : svc.checkRobots P url ((ω, s₀), []) = (.ok rules, w)) (hstore : w.1.2 = s₀)
    (hallowed : rules.isAllowed (svc.url.path url) = true)
    (hpage : Triple (OnSecond fun s => s = s₀) (svc.crawlPage P auth url) (fun _ => OnSecond K)
      fun _ => OnSecond K) : K (svc.crawlStore P url ω s₀) := by
  obtain ⟨hok, herror⟩ := hpage w hstore
  rw [crawlStore, crawl, bind_of_ok hauth, bind_of_ok hrobots, if_pos hallowed]
  cases hr : (svc.crawlPage P auth url w).1 with
  | ok summary => exact hok summary hr
  | error e => exact herror e hr

/-- The actors that a crawl looks up, if there are such, are the peer's own. -/
structure FindsOwnActors (P : Prims H) (svc : CrawlerService U Ω ε H) (s : Store H) : Prop where
  crawler : FindsOwn P (svc.identity.peerId P) svc.actorOrder crawlerActorName .crawler s
  llmExtractor : FindsOwn P (svc.identity.peerId P) svc.actorOrder svc.llmExtractorName .model s

/-- **One crawl** that finds the peer's own actors attributes what it asserts to
    such actors. -/
theorem crawlStore_attributed (hJ : JsonLaws P) {s : Store H} (hlog : LogInv P s)
    (hfinds : FindsOwnActors P svc s) (url : U) (ω : Ω) :
    CrawlInv P (svc.identity.peerId P) s [] (svc.crawlStore P url ω s) := by
  have hcrawler : Leads (fun s' => s' = s) (svc.crawlerAuth P)
      (fun auth s' => CrawlInv P (svc.identity.peerId P) s [auth.actorId] s' ∧
        FindsOwn P (svc.identity.peerId P) svc.actorOrder svc.llmExtractorName .model s')
      (CrawlInv P (svc.identity.peerId P) s []) := by
    refine leads_actorAuth ?_ ?_ ?_
    · rintro _ actor rfl hfind
      exact ⟨.init hlog (by simpa using hfinds.crawler actor hfind), hfinds.llmExtractor⟩
    · intro s₁ now s' id hs _ hdeclare
      rw [hs] at hdeclare
      have hinit : CrawlInv P (svc.identity.peerId P) s [] s := .init hlog (by simp)
      have hinv := hinit.declare hJ hdeclare
      obtain ⟨new, hnew, -⟩ := hinv.appended
      refine ⟨hinv, hfinds.llmExtractor.mono ?_ (actorsNamed_declare hJ hdeclare (by decide) _)⟩
      rw [hnew]
      exact List.prefix_append _ _
    · rintro _ rfl
      exact .init hlog (by simp)
  have hauth : ∀ auth : AuthContext H, Leads
      (fun s' => CrawlInv P (svc.identity.peerId P) s [auth.actorId] s' ∧
        FindsOwn P (svc.identity.peerId P) svc.actorOrder svc.llmExtractorName .model s')
      (svc.llmExtractorAuth P)
      (fun llmAuth => CrawlInv P (svc.identity.peerId P) s [llmAuth.actorId, auth.actorId])
      (CrawlInv P (svc.identity.peerId P) s [auth.actorId]) := by
    intro auth
    refine leads_actorAuth ?_ ?_ fun _ hs => hs.1
    · rintro s' actor ⟨hinv, hllm⟩ hfind
      exact hinv.cons (hllm actor hfind)
    · rintro s' now s'' id ⟨hinv, -⟩ - hdeclare
      exact hinv.declare hJ hdeclare
  have htriple := triple_crawl hcrawler
    (fun auth => (keptUnder_crawlInv hJ List.mem_cons_self).and (keptUnder_findsOwn hJ))
    (fun auth => keptUnder_crawlInv hJ List.mem_cons_self) hauth
    (fun auth llmAuth => keptUnder_crawlInv hJ List.mem_cons_self) (fun _ _ hs => hs.1)
    (fun _ _ _ hs => hs.mono (List.subset_cons_self _ _)) (fun _ _ hs => hs.mono (List.nil_subset _)) url
  obtain ⟨hok, herror⟩ := htriple ((ω, s), []) rfl
  cases hr : (svc.crawl P url ((ω, s), [])).1 with
  | ok summary => exact hok summary hr
  | error e => exact herror e hr

end CrawlerService

/-! ## Runs -/

/-- What the crawls of a peer asserted is attributed to its own actors. -/
def CrawlsAttributed (P : Prims H) (o : H) (st : CrawlingPeer H) : Prop :=
  ∀ row ∈ st.committed, AttributedRow P o st.db.store row

theorem crawlerRun_append (me : Prims.PeerIdentity) (ops : List (CrawlerOp P U Ω ε))
    (op : CrawlerOp P U Ω ε) :
    P.crawlerRun me (ops ++ [op]) = P.crawlerStep me (P.crawlerRun me ops) op := by
  simp [Prims.crawlerRun]

/-- **One step** of a peer whose crawls find its own actors. -/
theorem crawlerStep_attributed (hJ : JsonLaws P) (hinj : Function.Injective P.blake3)
    {me : Prims.PeerIdentity} {st : CrawlingPeer H} (hlog : LogInv P st.db.store)
    (hattributed : CrawlsAttributed P (me.peerId P) st) {op : CrawlerOp P U Ω ε}
    (hfinds : ∀ svc url ω, op = .crawl svc url ω →
      CrawlerService.FindsOwnActors P { svc with identity := me } st.db.store) :
    LogInv P (P.crawlerStep me st op).db.store ∧
      CrawlsAttributed P (me.peerId P) (P.crawlerStep me st op) := by
  cases op with
  | db op =>
    have hkeeps : LogInv P (P.dbStep st.db op).store ∧
        ∀ row ∈ st.committed, AttributedRow P (me.peerId P) (P.dbStep st.db op).store row := by
      refine dbStep_keeps (I := fun s => LogInv P s ∧
        ∀ row ∈ st.committed, AttributedRow P (me.peerId P) s row) op ⟨hlog, hattributed⟩ ?_ ?_ ?_
      · rintro s s' ⟨hs, hrows⟩ hf
        refine ⟨hs.forgets hf, fun row hrow => (hrows row hrow).mono ?_⟩
        rw [hf.eq]
      · rintro s s' ⟨hs, hrows⟩ hp
        refine ⟨hs.peersOnly hp, fun row hrow => (hrows row hrow).mono ?_⟩
        rw [hp.eq]
      · rintro op s s' ⟨hs, hrows⟩ hexec
        have hstep := exec_logStep hJ hinj hs.stored hexec
        exact ⟨hstep.logInv hs, fun row hrow => (hrows row hrow).mono hstep.extends.events⟩
    exact hkeeps
  | crawl svc url ω =>
    have hinv := CrawlerService.crawlStore_attributed hJ hlog (hfinds svc url ω rfl) url ω
    obtain ⟨new, hnew, hall⟩ := hinv.appended
    refine ⟨hinv.log, fun row hrow => ?_⟩
    rcases List.mem_append.1 hrow with hrow | hrow
    · refine (hattributed row hrow).mono ?_
      show _ <+: (CrawlerService.crawlStore P { svc with identity := me } url ω st.db.store).events
      rw [hnew]
      exact List.prefix_append _ _
    · rw [hnew, List.drop_left] at hrow
      exact hall row hrow

/-- **Every run**: if the crawls of a peer find its own actors, or none, in the
    states that they start in, all that they assert is attributed to actors that
    the peer declared. -/
theorem crawls_attributed (hJ : JsonLaws P) (hinj : Function.Injective P.blake3)
    (me : Prims.PeerIdentity) (ops : List (CrawlerOp P U Ω ε))
    (hfinds : ∀ before svc url ω, before ++ [.crawl svc url ω] <+: ops →
      CrawlerService.FindsOwnActors P { svc with identity := me } (P.crawlerRun me before).db.store) :
    CrawlsAttributed P (me.peerId P) (P.crawlerRun me ops) := by
  have hboth : LogInv P (P.crawlerRun me ops).db.store ∧
      CrawlsAttributed P (me.peerId P) (P.crawlerRun me ops) := by
    induction ops using List.reverseRecOn with
    | nil => exact ⟨dbInv_empty.log, fun row hrow => absurd hrow List.not_mem_nil⟩
    | append_singleton ops op ih =>
      obtain ⟨hlog, hattributed⟩ := ih fun before svc url ω hpre =>
        hfinds before svc url ω (hpre.trans (List.prefix_append _ _))
      rw [crawlerRun_append]
      refine crawlerStep_attributed hJ hinj hlog hattributed ?_
      rintro svc url ω rfl
      exact hfinds ops svc url ω List.prefix_rfl
  exact hboth.2

/-! ## An impostor -/

section misattributed

variable {o a : H} {s₁ s s' : Store H} {me : Prims.PeerIdentity} {auth : AuthContext H}

/-- From `s₁` on an assertion by the actor was appended, and the origin has
    declared no actor. -/
structure Misattributed (P : Prims H) (o a : H) (s₁ s : Store H) : Prop where
  asserted : ∃ new, s.events = s₁.events ++ new ∧
    ∃ row ∈ new, ∃ p, P.rowPayload row = some (.assertRelation p) ∧ p.actorId = P.toHex a
  noOwn : ∀ b, ¬ OwnActor P o s b

theorem noOwn_commit (hJ : JsonLaws P) {payload : EventPayload} {now : Int64} {id : H}
    (hno : ∀ b, ¬ OwnActor P o s b) (hpay : ∀ q, payload ≠ .actorDeclare q)
    (hcommit : P.commitEvent s me payload now = .ok (s', id)) : ∀ b, ¬ OwnActor P o s' b := by
  obtain ⟨row, signed, happ, -, rfl⟩ := commitEvent_appended hcommit
  rintro b ⟨r, hr, horigin, q, hq, hid⟩
  rw [happ.events_eq] at hr
  rcases List.mem_append.1 hr with hr | hr
  · exact hno b ⟨r, hr, horigin, q, hq, hid⟩
  · rw [List.mem_singleton.1 hr] at hq
    obtain ⟨p, hp, hsame⟩ := happ.stored.rowPayload hJ
    exact hpay q (hsame.actorDeclare_iff.2 (Option.some.inj (hp.symm.trans hq)))

theorem Misattributed.commit (hJ : JsonLaws P) {payload : EventPayload} {now : Int64} {id : H}
    (h : Misattributed P o a s₁ s) (hpay : ∀ q, payload ≠ .actorDeclare q)
    (hcommit : P.commitEvent s me payload now = .ok (s', id)) : Misattributed P o a s₁ s' := by
  obtain ⟨new, hnew, row, hrow, hassert⟩ := h.asserted
  obtain ⟨rest, hrest⟩ := (commitEvent_actors hJ hpay hcommit).1
  refine ⟨⟨new ++ rest, ?_, row, List.mem_append_left _ hrow, hassert⟩, noOwn_commit hJ h.noOwn hpay hcommit⟩
  rw [← hrest, hnew, List.append_assoc]

theorem Misattributed.keptUnder (hJ : JsonLaws P) {svc : CrawlerService U Ω ε H} :
    CrawlerService.KeptUnder P svc auth (Misattributed P o a s₁) :=
  CrawlerService.keptUnder_of_commit fun _ _ _ _ _ hs hpay _ hcommit => hs.commit hJ hpay hcommit

/-- An assertion under the actor, of which the checks find no fault. -/
theorem assert_misattributed (hJ : JsonLaws P) (hinj : Function.Injective P.blake3) (hinv : DbInv P s)
    (hno : ∀ b, ¬ OwnActor P o s b) {input : AssertInput} (haccepted : Accepted P s auth input)
    (L : UrlLib U ε) (me : Prims.PeerIdentity) (clock : ℕ → Int64) :
    Misattributed P o auth.actorId s (P.assert L s me auth input clock).1 := by
  obtain ⟨s₁, assertionId, hassert⟩ := haccepted.assertRelation_ok hJ hinj hinv L me (clock 0)
  refine CrawlerService.assert_leaves hassert ?_ fun _ _ _ _ _ hs hpay _ hcommit => hs.commit hJ hpay hcommit
  simp only [Prims.assertRelation, bind_ok] at hassert
  obtain ⟨-, -, -, -, hcommit⟩ := hassert
  refine ⟨?_, noOwn_commit hJ hno (fun q hq => by cases hq) hcommit⟩
  obtain ⟨row, signed, happ, -, hpay⟩ := commitEvent_appended hcommit
  obtain ⟨p, hp, hsame⟩ := happ.stored.rowPayload hJ
  rw [hpay] at hsame
  obtain ⟨q, rfl, hactor⟩ := EventPayload.asserter_eq_some.1 hsame.asserter_eq.symm
  rw [CrawlerService.relationPayload_actorId] at hactor
  exact ⟨[row], happ.events_eq, row, List.mem_singleton_self row, q, hp, hactor⟩

omit [DecidableEq H] in
/-- The assertion is among what the crawl has committed. -/
theorem Misattributed.not_attributed (h : Misattributed P o a s₁ s) {db : Database H}
    (committed : List (EventRow H)) :
    ¬ CrawlsAttributed P o ⟨{ db with store := s }, committed ++ s.events.drop s₁.events.length⟩ := by
  obtain ⟨new, hnew, row, hrow, p, hp, -⟩ := h.asserted
  intro hattributed
  have hmem : row ∈ committed ++ s.events.drop s₁.events.length := by
    rw [hnew, List.drop_left]
    exact List.mem_append_right _ hrow
  obtain ⟨b, -, hown⟩ := hattributed row hmem p hp
  exact h.noOwn b hown

end misattributed

section impostor

variable (P) (other : Prims.PeerIdentity)

/-- Another peer declares an actor of the crawler's name and type. -/
def impostorPayload : EventPayload := .actorDeclare ⟨"crawler", some crawlerActorName, none, none⟩

def impostorEvent : SignedEvent := P.eventOf other 1 none 1 impostorPayload

def impostorActor : H := P.actorIdOf (P.idOf (impostorEvent P other)) none

def impostorOp : DbOp P := .sync (.store (.ingest (other.verifyingKey P) (impostorEvent P other) 1))

def impostorStore : Store H := (P.dbRun Database.empty [impostorOp P other]).store

variable {P} {other}

omit [DecidableEq H] in
theorem impostor_effect : P.effect (impostorEvent P other) =
    { actors := [⟨impostorActor P other, .crawler, some crawlerActorName, none, none, .emptyObj, 1⟩] } := rfl

theorem impostorStore_eq (hJ : JsonLaws P) (hinj : Function.Injective P.blake3)
    (hsign : SignsCorrectly P other) : impostorStore P other = appendRow Store.empty
      (P.rowOf (impostorEvent P other) (other.peerId P) none 1) (P.effect (impostorEvent P other)) := by
  have hadm : (P.effect (impostorEvent P other)).Admissible Store.empty.proj := by
    rw [impostor_effect]
    constructor <;> simp
  exact run_ingest hJ hinj [] rfl (by simp [Store.empty, maxRows]) hsign trivial rfl rfl hadm

theorem impostorStore_actors (hJ : JsonLaws P) (hinj : Function.Injective P.blake3)
    (hsign : SignsCorrectly P other) : (impostorStore P other).proj.actors =
      [⟨impostorActor P other, .crawler, some crawlerActorName, none, none, .emptyObj, 1⟩] := by
  rw [impostorStore_eq hJ hinj hsign, impostor_effect]
  rfl

/-- The crawler finds it. -/
theorem impostor_found (hJ : JsonLaws P) (hinj : Function.Injective P.blake3)
    (hsign : SignsCorrectly P other) (order : Table.RowOrder (ActorRow H)) :
    findByNameAndType order (impostorStore P other).proj crawlerActorName .crawler =
      some ⟨impostorActor P other, .crawler, some crawlerActorName, none, none, .emptyObj, 1⟩ := by
  have hnamed : actorsNamed (impostorStore P other).proj.actors crawlerActorName .crawler =
      [⟨impostorActor P other, .crawler, some crawlerActorName, none, none, .emptyObj, 1⟩] := by
    rw [impostorStore_actors hJ hinj hsign]
    rfl
  rw [findByNameAndType, hnamed, List.perm_singleton.1 (order.perm _)]
  rfl

theorem impostor_noOwn (hJ : JsonLaws P) (hinj : Function.Injective P.blake3)
    (hsign : SignsCorrectly P other) {o : H} (hne : o ≠ other.peerId P) :
    ∀ b, ¬ OwnActor P o (impostorStore P other) b := by
  rintro b ⟨row, hrow, horigin, -⟩
  rw [impostorStore_eq hJ hinj hsign] at hrow
  obtain rfl := List.mem_singleton.1 hrow
  exact hne horigin.symm

/-- The assertion of a page's own node, under the actor that was found. -/
theorem impostor_accepted (hJ : JsonLaws P) (hinj : Function.Injective P.blake3)
    (hsign : SignsCorrectly P other) {input : AssertInput} (hvalid : input.validate P = .ok ())
    (hfinite : ∀ b, input.actorConfidence = some b → f32IsFinite b = true) :
    Accepted P (impostorStore P other) ⟨impostorActor P other, [.graphAssert]⟩ input where
  permitted := by simp [AuthContext.require]
  valid := hvalid
  finite := hfinite
  declared := by
    rw [hasActor, impostorStore_actors hJ hinj hsign]
    exact Table.hasKey_iff.2 ⟨_, List.mem_singleton_self _, rfl⟩
  room := by
    rw [impostorStore_eq hJ hinj hsign]
    simp [appendRow, Store.empty, maxRows]

end impostor

section crawl

theorem privatePage_toString : idealUrl.toString privatePage = "https://example.com/private/notes" := rfl

theorem contentHash_hi : Internet.contentHash idealOpen (utf8 "hi") = "blake3:6869" := by
  rw [Internet.contentHash, Prims.toHex, idealOpen, ideal_blake3, ideal_digestBytes]
  decide

/-- The evidence of the page. -/
def hiEvidence (now : Int64) : EvidenceInput :=
  { evidenceType := some "web_page"
    uri := some "https://example.com/private/notes"
    contentHash := some "blake3:6869"
    retrievedAt := some now }

theorem hiEvidence_valid (now : Int64) : (CrawlerService.baselineInput "https://example.com/private/notes"
    false (hiEvidence now)).validate idealOpen = .ok () := rfl

theorem confidence_finite : f32IsFinite 0x3F733333 = true := by decide

theorem isHtml_text : CrawlerService.isHtml "text/plain" = false := by decide

/-- A crawl of peer A asserted under the actor of peer B. -/
abbrev UnderImpostor : Store Bytes → Prop :=
  Misattributed idealOpen (peerA.peerId idealOpen) (impostorActor idealOpen peerB)
    (impostorStore idealOpen peerB)

theorem hi_length : (utf8 "hi").length ≤ ({} : CrawlerConfig).maxResponseBytes := by decide

/-- The text has no rules. -/
theorem hi_allowed (path : String) :
    (RobotsRules.parse idealOpen (String.ofList (fromUtf8Lossy (utf8 "hi"))) ({} : CrawlerConfig).userAgent).isAllowed
      path = true := by
  rw [utf8_eq_flatMap, fromUtf8Lossy_text]
  rfl

/-- A crawler of the text that reads it in its own way. -/
noncomputable def hiCrawler (extractors : PageExtractors IdealUrl)
    (extract : String → String → Unit → Except String (List CandidateAssertion) × Unit) :
    CrawlerService IdealUrl Unit Unit Bytes :=
  { textCrawler "hi" with
    extractors := extractors
    env := { (textCrawler "hi").env with extract := extract } }

section

variable (extractors : PageExtractors IdealUrl)
  (extract : String → String → Unit → Except String (List CandidateAssertion) × Unit)

theorem hiCrawler_fetch (url : IdealUrl) (w : (Unit × Store Bytes) × List (Sent IdealUrl)) : ∃ w',
    (hiCrawler extractors extract).fetch idealOpen url w =
      (.ok ⟨url, "text/plain", utf8 "hi", "blake3:6869"⟩, w') ∧ w'.1.2 = w.1.2 := by
  obtain ⟨w', hfetch, hstore⟩ := textCrawler_fetch hi_length url w
  rw [contentHash_hi] at hfetch
  exact ⟨w', hfetch, hstore⟩

theorem hiCrawler_crawlStore : UnderImpostor ((hiCrawler extractors extract).crawlStore idealOpen
    privatePage () (impostorStore idealOpen peerB)) := by
  have hinv : DbInv idealOpen (impostorStore idealOpen peerB) :=
    dbRun_dbInv idealOpen_laws idealOpen_injective dbInv_empty _
  have hno := impostor_noOwn idealOpen_laws idealOpen_injective (idealOpen_signsCorrectly peerB) peerA_ne_peerB
  have hfind := impostor_found idealOpen_laws idealOpen_injective (idealOpen_signsCorrectly peerB)
    (hiCrawler extractors extract).actorOrder
  obtain ⟨w, hserved, hstore⟩ := hiCrawler_fetch extractors extract
    (idealUrl.setQuery (idealUrl.setPath privatePage "/robots.txt") none)
    (((), impostorStore idealOpen peerB), [])
  refine CrawlerService.crawlStore_leaves (CrawlerService.crawlerAuth_found hfind)
    (CrawlerService.checkRobots_served rfl hserved) hstore (hi_allowed _) ?_
  have hfetch : ∀ w : (Unit × Store Bytes) × List (Sent IdealUrl), w.1.2 = impostorStore idealOpen peerB →
      ∃ w', (hiCrawler extractors extract).fetch idealOpen privatePage w =
        (.ok ⟨privatePage, "text/plain", utf8 "hi", "blake3:6869"⟩, w') ∧
        w'.1.2 = impostorStore idealOpen peerB := by
    intro w hw
    obtain ⟨w', hfetch, hstore⟩ := hiCrawler_fetch extractors extract privatePage w
    exact ⟨w', hfetch, hstore.trans hw⟩
  refine CrawlerService.crawlPage_leaves (Misattributed.keptUnder idealOpen_laws) hfetch isHtml_text
    fun ω now clock => ?_
  have haccepted := impostor_accepted idealOpen_laws idealOpen_injective (idealOpen_signsCorrectly peerB)
    (hiEvidence_valid now) (by rintro _ ⟨⟩; exact confidence_finite)
  exact assert_misattributed idealOpen_laws idealOpen_injective hinv hno haccepted idealUrl peerA clock

end

theorem hi_crawlStore : UnderImpostor ((textCrawler "hi").crawlStore idealOpen privatePage ()
    (impostorStore idealOpen peerB)) :=
  hiCrawler_crawlStore (textCrawler "hi").extractors (textCrawler "hi").env.extract

/-- Peer A ingests a declaration of a crawler by peer B, and then crawls a page:
    it asserts under the actor of peer B. -/
theorem crawl_under_impostor : ¬ CrawlsAttributed idealOpen (peerA.peerId idealOpen)
    (idealOpen.crawlerRun peerA
      [.db (impostorOp idealOpen peerB), .crawl (textCrawler "hi") privatePage ()]) :=
  hi_crawlStore.not_attributed []

omit [DecidableEq H] in
/-- No actor is found in an empty table. -/
theorem findsOwnActors_empty (svc : CrawlerService U Ω ε H) :
    CrawlerService.FindsOwnActors P svc Store.empty := by
  have hnone : ∀ name actorType,
      findByNameAndType svc.actorOrder (Store.empty : Store H).proj name actorType = none := by
    intro name actorType
    have hread : svc.actorOrder.read [] = [] := (svc.actorOrder.perm []).eq_nil
    show (svc.actorOrder.read []).head? = none
    rw [hread]
    rfl
  refine ⟨fun row hrow => ?_, fun row hrow => ?_⟩
  all_goals
    rw [hnone] at hrow
    cases hrow

/-- The first crawl of a peer. -/
theorem crawls_attributed_first : CrawlsAttributed idealOpen (peerA.peerId idealOpen)
    (idealOpen.crawlerRun peerA [.crawl (textCrawler "hi") privatePage ()]) := by
  refine crawls_attributed idealOpen_laws idealOpen_injective peerA _ fun before svc url ω hpre => ?_
  have hlen := hpre.length_le
  rw [List.length_append, List.length_singleton, List.length_singleton] at hlen
  obtain rfl : before = [] := List.length_eq_zero_iff.1 (by omega)
  exact findsOwnActors_empty _

end crawl

end OpenAgentGraph
