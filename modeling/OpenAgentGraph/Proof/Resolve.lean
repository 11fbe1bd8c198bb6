/-
  Termination of gateway resolution in a finite network.

  A relayed query carries its hop budget and path on; a fan-out starts over
  with the whole budget and an empty path.  So a resolution terminates
  exactly when no fan-out leads back to the peer that made it.

  * `Reaches`: the peers whose query peers come to be asked when a query is
    relayed.  `FansOutTo`: one fan-out, and the relays below it.
  * `settles_of_acyclic`: without a cycle every resolution returns.
  * `stuck_of_cycle`: on a cycle, with cold caches and silent upstream
    servers, a resolution never does.
-/
import OpenAgentGraph.Gateway.Network
import OpenAgentGraph.Proof.Gateway

namespace OpenAgentGraph

open Lib Filter

variable {H : Type}

/-! ## Fan-outs below a query -/

namespace Network

variable (net : Network H) (P : Prims H)

/-- The path that a peer hands on. -/
def nextPath (i : Fin net.size) (path : List String) : List String :=
  path ++ [P.peerIdToString ((net.peer i).identity.peerId P)]

/-- A query at `i` with this budget and path may be relayed to `j`, which has
    query peers of its own. -/
inductive Reaches : UInt8 → List String → Fin net.size → Fin net.size → Prop
  | here {hops : UInt8} {path : List String} {i : Fin net.size} (hq : (net.peer i).queryPeers ≠ []) :
      Reaches hops path i i
  | relay {hops : UInt8} {path : List String} {i k j : Fin net.size} {r : RelayPeer H}
      (hq : (net.peer i).queryPeers = []) (hhops : hops ≠ 0) (hr : r ∈ (net.peer i).relayPeers)
      (hpath : P.peerIdToString r.peerId ∉ net.nextPath P i path)
      (hroute : net.route (queryUrl r) = some k)
      (h : Reaches (hops - 1) (net.nextPath P i path) k j) : Reaches hops path i j

theorem Reaches.queryPeers {net : Network H} {P : Prims H} {hops : UInt8} {path : List String}
    {i j : Fin net.size} (h : net.Reaches P hops path i j) : (net.peer j).queryPeers ≠ [] := by
  induction h with
  | here hq => exact hq
  | relay _ _ _ _ _ _ ih => exact ih

/-- A peer that asks nobody passes nothing on. -/
theorem not_reaches {net : Network H} {P : Prims H} {hops : UInt8} {path : List String}
    {i j : Fin net.size} (hq : (net.peer i).queryPeers = []) (hr : (net.peer i).relayPeers = []) :
    ¬ net.Reaches P hops path i j := by
  intro h
  cases h with
  | here hne => exact hne hq
  | relay _ _ hmem _ _ _ =>
    rw [hr] at hmem
    cases hmem

/-- A fan-out of `i` may lead to one of `j`. -/
def FansOutTo (i j : Fin net.size) : Prop :=
  ∃ r ∈ (net.peer i).asked, ∃ k, net.route (queryUrl r) = some k ∧
    net.Reaches P (net.peer i).config.hopsRemaining [] k j

/-- No peer is led back to its own fan-out. -/
def Acyclic : Prop := ∀ i, ¬ Relation.TransGen (net.FansOutTo P) i i

/-- With cold caches, every query of every peer is resolved with finitely many
    queries nested. -/
def Terminates [DecidableEq H] : Prop :=
  ∀ (Ω : Type) (hosts : Fin net.size → Host Ω) (ω : Ω), (∀ i, (hosts i).cache ω = []) →
    ∀ i service hops path, ∃ depth, (net.resolve P hosts depth i service hops path ω).isSome

end Network

/-! ## What a peer waits for -/

section returns

variable {P : Prims H} [DecidableEq H] {Ω : Type} {host : Host Ω} {post : Post Ω}
  {s : GatewayState H} {service : GatewayService} {hops : UInt8} {path : List String}

theorem returns_resolveDirectly (config : GatewayConfig) :
    (host.resolveDirectly config service).Returns := by
  have hup : ∀ servers, (host.queryUpstreams servers).Returns := by
    intro servers
    induction servers with
    | nil => exact Io.returns_pure _
    | cons server servers ih =>
      refine (Io.returns_of _).bind fun r => ?_
      cases r with
      | ok t => exact Io.returns_pure _
      | error e => exact ih
  cases service with
  | ntp =>
    unfold Host.resolveDirectly
    dsimp only
    split
    · exact Io.returns_pure _
    · exact (hup _).bind fun _ => Io.returns_pure _
  | http url =>
    unfold Host.resolveDirectly
    dsimp only
    split
    · exact (Io.returns_of _).bind fun _ => Io.returns_pure _
    · exact Io.returns_pure _

/-- Asking a peer returns if the request does. -/
theorem returns_queryPeer {peer : RelayPeer H}
    (h : ∀ req : GatewayRequest, req.unsigned.hopsRemaining = hops → req.unsigned.path = path →
      (post (queryUrl peer) req).Returns) :
    (P.queryPeer host post s peer service hops path).Returns := by
  refine (Io.returns_of _).bind fun nonce => (Io.returns_of _).bind fun requestedAt =>
    (Io.returns_of _).bind fun sentAt => ?_
  refine (h _ rfl rfl).bind fun response => (Io.returns_of _).bind fun receivedAt => ?_
  cases response with
  | error e => exact Io.returns_pure _
  | ok resp =>
    refine (Io.returns_of _).bind fun now => ?_
    cases P.verifyGatewayResponse resp nonce now with
    | error e => exact Io.returns_pure _
    | ok verifiedPeer =>
      dsimp only
      split
      · exact Io.returns_pure _
      · exact Io.returns_pure _

theorem returns_relayLoop {nextPath : List String} {peers : List (RelayPeer H)}
    (h : ∀ r ∈ peers, P.peerIdToString r.peerId ∉ nextPath → ∀ req : GatewayRequest,
      req.unsigned.hopsRemaining = hops - 1 → req.unsigned.path = nextPath →
      (post (queryUrl r) req).Returns) :
    (P.relayLoop host post s service hops nextPath peers).Returns := by
  induction peers with
  | nil => exact Io.returns_pure _
  | cons r peers ih =>
    have ih := ih fun r' hr' => h r' (by simp [hr'])
    rw [Prims.relayLoop]
    split
    next => exact ih
    next hpath =>
      refine (returns_queryPeer (h r (by simp) hpath)).bind fun o => ?_
      cases o with
      | ok result => exact Io.returns_pure _
      | error e => exact ih

/-- A resolution returns if the requests of its fan-out do; without query
    peers, if the requests of its relay do. -/
theorem returns_resolve
    (hfan : s.queryPeers ≠ [] → ∀ r ∈ s.asked, ∀ req : GatewayRequest,
      req.unsigned.hopsRemaining = s.config.hopsRemaining → req.unsigned.path = [] →
      (post (queryUrl r) req).Returns)
    (hrelay : s.queryPeers = [] → hops ≠ 0 → ∀ r ∈ s.relayPeers,
      P.peerIdToString r.peerId ∉ path ++ [P.peerIdToString (s.identity.peerId P)] →
      ∀ req : GatewayRequest, req.unsigned.hopsRemaining = hops - 1 →
      req.unsigned.path = path ++ [P.peerIdToString (s.identity.peerId P)] →
      (post (queryUrl r) req).Returns) :
    (P.resolveGatewayQuery host post s service hops path).Returns := by
  refine (returns_cacheGet host service).bind fun cached => ?_
  cases cached with
  | some result => exact Io.returns_pure _
  | none =>
    dsimp only
    split
    next hq =>
      have hf : (P.fanoutAndVerify host post s service).Returns := by
        refine (Io.returns_mapM fun r hr => returns_queryPeer (hfan hq r hr)).bind fun outcomes => ?_
        exact Io.returns_get.bind fun _ => Io.returns_pure _
      refine hf.bind fun verified => ?_
      cases verified with
      | error e => exact Io.returns_pure _
      | ok v => exact (returns_cachePut host service v _).bind fun _ => Io.returns_pure _
    next hq =>
      have hrel : (P.relayGatewayQuery host post s service hops path).Returns := by
        unfold Prims.relayGatewayQuery
        split
        next => exact Io.returns_pure _
        next hh => exact returns_relayLoop (hrelay (not_not.1 hq) fun h0 => hh (Or.inl h0))
      have hrest : ∀ k : Option GatewayResult → Io Ω (Except Failure ResolvedQuery),
          (k none).Returns → (∀ result, (k (some result)).Returns) →
          (P.relayGatewayQuery host post s service hops path >>= k).Returns := by
        intro k hnone hsome
        refine hrel.bind fun o => ?_
        cases o with
        | some result => exact hsome result
        | none => exact hnone
      refine (returns_resolveDirectly s.config).bind fun d => ?_
      rcases d with e | (_ | result)
      · exact hrest _ (Io.returns_pure _) fun _ => Io.returns_pure _
      · exact hrest _ (Io.returns_pure _) fun _ => Io.returns_pure _
      · exact Io.returns_pure _

theorem returns_queryInner {req : GatewayRequest}
    (h : (P.resolveGatewayQuery host post s req.unsigned.service req.unsigned.hopsRemaining
      req.unsigned.path).Returns) : (P.queryInner host post s req).Returns := by
  refine (Io.returns_of _).bind fun now => ?_
  cases P.verifyGatewayRequest req now with
  | error e => exact Io.returns_pure _
  | ok p =>
    obtain ⟨requester, nonce⟩ := p
    refine (Io.returns_of _).bind fun allowed => ?_
    split
    · refine h.bind fun r => ?_
      cases r with
      | error e => exact Io.returns_pure _
      | ok resolved => exact (Io.returns_of _).bind fun _ => Io.returns_pure _
    · exact Io.returns_pure _

end returns

/-! ## Without a cycle every resolution returns -/

namespace Network

section settles

variable {net : Network H} {P : Prims H} [DecidableEq H] {Ω : Type} {hosts : Fin net.size → Host Ω}

/-- A query returns at `i`, from every depth on. -/
def Settles (net : Network H) (P : Prims H) (hosts : Fin net.size → Host Ω) (i : Fin net.size)
    (hops : UInt8) (path : List String) : Prop :=
  ∀ᶠ depth in atTop, ∀ service, (net.resolve P hosts depth i service hops path).Returns

theorem returns_post {depth : ℕ} {url : String} {hops : UInt8} {path : List String}
    (h : ∀ k, net.route url = some k → ∀ service,
      (net.resolve P hosts depth k service hops path).Returns)
    {req : GatewayRequest} (hhops : req.unsigned.hopsRemaining = hops) (hpath : req.unsigned.path = path) :
    (net.post (net.serve P hosts (depth + 1)) url req).Returns := by
  unfold Network.post
  cases hroute : net.route url with
  | none => exact Io.returns_pure _
  | some k =>
    subst hhops hpath
    have hk : (net.serve P hosts (depth + 1) k req).Returns := returns_queryInner (h k hroute _)
    refine hk.bind fun o => ?_
    rcases o with (e | _) | resp
    · exact Io.returns_pure _
    · exact Io.returns_pure _
    · exact Io.returns_pure _

/-- Requests to finitely many peers return, if the peers settle. -/
theorem eventually_returns_post {peers : List (RelayPeer H)} {hops : UInt8} {path : List String}
    (h : ∀ r ∈ peers, ∀ k, net.route (queryUrl r) = some k → net.Settles P hosts k hops path) :
    ∀ᶠ depth in atTop, ∀ r ∈ peers, ∀ req : GatewayRequest, req.unsigned.hopsRemaining = hops →
      req.unsigned.path = path → (net.post (net.serve P hosts depth) (queryUrl r) req).Returns := by
  have hall : ∀ᶠ depth in atTop, ∀ r ∈ {r | r ∈ peers}, ∀ k, net.route (queryUrl r) = some k →
      ∀ service, (net.resolve P hosts depth k service hops path).Returns := by
    refine (eventually_all_finite (List.finite_toSet peers)).2 fun r hr => ?_
    cases hroute : net.route (queryUrl r) with
    | none => exact Eventually.of_forall fun _ k hk => by cases hk
    | some k =>
      filter_upwards [h r hr k hroute] with depth hd k' hk'
      cases hk'
      exact hd
  obtain ⟨d, hd⟩ := eventually_atTop.1 hall
  refine eventually_atTop.2 ⟨d + 1, ?_⟩
  intro depth hle r hr req hhops hpath
  obtain ⟨depth, rfl⟩ : ∃ n, depth = n + 1 := ⟨depth - 1, by omega⟩
  exact returns_post (hd depth (by omega) r hr) hhops hpath

/-- A query settles if all the fan-outs below it do. -/
theorem settles_of_reaches (n : ℕ) : ∀ {hops : UInt8} {path : List String} {i : Fin net.size},
    hops.toNat = n →
    (∀ j, net.Reaches P hops path i j → ∀ hops' path', net.Settles P hosts j hops' path') →
    net.Settles P hosts i hops path := by
  induction n with
  | zero =>
    intro hops path i hn h
    by_cases hq : (net.peer i).queryPeers = []
    · refine Eventually.of_forall fun depth service => returns_resolve ?_ ?_
      · intro hne
        exact absurd hq hne
      · intro _ h0
        exact absurd (UInt8.toNat_inj.1 hn) h0
    · exact h i (.here hq) hops path
  | succ n ih =>
    intro hops path i hn h
    by_cases hq : (net.peer i).queryPeers = []
    · have h0 : hops ≠ 0 := by
        rintro rfl
        cases hn
      have hpred : (hops - 1).toNat = n := by
        have h1 : (1 : UInt8) ≤ hops := by
          rw [UInt8.le_iff_toNat_le, hn]
          simp
        rw [UInt8.toNat_sub_of_le _ _ h1, hn]
        rfl
      -- the relay peers that are not on the path settle with the smaller budget
      have hset : ∀ r ∈ (net.peer i).relayPeers.filter
          fun r => P.peerIdToString r.peerId ∉ net.nextPath P i path,
          ∀ k, net.route (queryUrl r) = some k →
            net.Settles P hosts k (hops - 1) (net.nextPath P i path) := by
        intro r hr k hroute
        obtain ⟨hr, hpath⟩ := List.mem_filter.1 hr
        refine ih hpred fun j hj => h j ?_
        exact .relay hq h0 hr (by simpa using hpath) hroute hj
      filter_upwards [eventually_returns_post hset] with depth hd service
      refine returns_resolve ?_ ?_
      · intro hne
        exact absurd hq hne
      · intro _ _ r hr hpath req hh hp
        exact hd r (List.mem_filter.2 ⟨hr, decide_eq_true hpath⟩) req hh hp
    · exact h i (.here hq) hops path

omit [DecidableEq H] in
theorem FansOutTo.wellFounded (h : net.Acyclic P) :
    WellFounded fun j i => net.FansOutTo P i j := by
  have hwf : WellFounded (Relation.TransGen fun j i => net.FansOutTo P i j) := by
    have : IsTrans _ (Relation.TransGen fun j i => net.FansOutTo P i j) :=
      ⟨fun _ _ _ => Relation.TransGen.trans⟩
    have : Std.Irrefl (Relation.TransGen fun j i => net.FansOutTo P i j) :=
      ⟨fun i hi => h i (Relation.transGen_swap.1 hi)⟩
    exact Finite.wellFounded_of_trans_of_irrefl _
  exact hwf.mono fun j i hji => Relation.TransGen.single hji

theorem settles_of_acyclic (h : net.Acyclic P) (i : Fin net.size) (hops : UInt8)
    (path : List String) : net.Settles P hosts i hops path := by
  -- by induction along the fan-outs, for the peers that have query peers
  have hfan : ∀ i, (net.peer i).queryPeers ≠ [] → ∀ hops path, net.Settles P hosts i hops path := by
    intro i
    induction i using (FansOutTo.wellFounded h).induction with
    | _ i ih =>
      intro hq hops path
      have hset : ∀ r ∈ (net.peer i).asked, ∀ k, net.route (queryUrl r) = some k →
          net.Settles P hosts k (net.peer i).config.hopsRemaining [] := by
        intro r hr k hroute
        refine settles_of_reaches _ rfl fun j hj => ?_
        exact ih j ⟨r, hr, k, hroute, hj⟩ hj.queryPeers
      filter_upwards [eventually_returns_post hset] with depth hd service
      refine returns_resolve ?_ ?_
      · intro _
        exact hd
      · intro hnil
        exact absurd hnil hq
  exact settles_of_reaches _ rfl fun j hj => hfan j hj.queryPeers

end settles

end Network

/-! ## Nothing answers -/

section silent

variable {P : Prims H} [DecidableEq H] {Ω : Type} {ω : Ω}

/-- A computation that does not return, or fails and changes nothing. -/
def Io.Fails {ε α : Type} (x : Io Ω (Except ε α)) (ω : Ω) : Prop :=
  x ω = none ∨ ∃ e, x ω = some (.error e, ω)

theorem mapM_fails {α β ε : Type} {f : α → Io Ω (Except ε β)} {xs : List α}
    (h : ∀ x ∈ xs, (f x).Fails ω) :
    xs.mapM f ω = none ∨ ∃ ys, xs.mapM f ω = some (ys, ω) ∧ ∀ y ∈ ys, ∃ e, y = .error e := by
  induction xs with
  | nil => exact Or.inr ⟨[], rfl, by simp⟩
  | cons x xs ih =>
    rw [List.mapM_cons, Io.bind_apply]
    rcases h x (by simp) with hx | ⟨e, hx⟩
    · exact Or.inl (by rw [hx]; rfl)
    · rw [hx]
      simp only [Option.bind_some, Io.bind_apply]
      rcases ih fun z hz => h z (by simp [hz]) with hn | ⟨ys, hys, hall⟩
      · exact Or.inl (by rw [hn]; rfl)
      · rw [hys]
        refine Or.inr ⟨.error e :: ys, rfl, ?_⟩
        intro y hy
        rcases List.mem_cons.1 hy with rfl | hy
        · exact ⟨e, rfl⟩
        · exact hall y hy

theorem mapM_stuck {α β ε : Type} {f : α → Io Ω (Except ε β)} {xs : List α}
    (h : ∀ x ∈ xs, (f x).Fails ω) {x : α} (hx : x ∈ xs) (hstuck : f x ω = none) :
    xs.mapM f ω = none := by
  induction xs with
  | nil => cases hx
  | cons y xs ih =>
    rw [List.mapM_cons, Io.bind_apply]
    rcases List.mem_cons.1 hx with rfl | hx
    · rw [hstuck]
      rfl
    · rcases h y (by simp) with hy | ⟨e, hy⟩
      · rw [hy]
        rfl
      · rw [hy]
        simp only [Option.bind_some, Io.bind_apply, ih (fun z hz => h z (by simp [hz])) hx]
        rfl

/-- Errors alone give no quorum. -/
theorem aggregateQuorum_errors (order : GroupOrder) (service : GatewayService)
    {outcomes : List PeerOutcome} (h : ∀ o ∈ outcomes, ∃ e, o = .error e) (tolerance : Int64)
    (minAgree : ℕ) : ∃ e, aggregateQuorum order service outcomes tolerance minAgree = .error e := by
  cases service with
  | ntp =>
    have hnil : ntpValues outcomes = [] := by
      refine List.filterMap_eq_nil_iff.2 fun o ho => ?_
      obtain ⟨e, rfl⟩ := h o ho
      rfl
    simp only [aggregateQuorum, aggregateNtp, hnil, bestCluster, List.foldl_nil, List.mergeSort_nil]
    split
    · exact ⟨_, rfl⟩
    · exact ⟨_, rfl⟩
  | http url =>
    have hnil : httpGroups outcomes = [] := by
      induction outcomes with
      | nil => rfl
      | cons o outcomes ih =>
        obtain ⟨e, rfl⟩ := h o (by simp)
        exact ih fun o' ho' => h o' (by simp [ho'])
    have hord : order.order [] = [] := List.perm_nil.1 (order.perm [])
    simp only [aggregateQuorum, aggregateHttp, hnil, hord, longestGroup]
    exact ⟨_, rfl⟩

variable {cache : Ω → GatewayCache} {setCache : GatewayCache → Ω → Ω}
  {h : ∀ c ω, cache (setCache c ω) = c} {post : Post Ω} {s : GatewayState H}
  {service : GatewayService} {hops : UInt8} {path : List String}

/-- The request that a peer sends on a host on which nothing happens. -/
def Prims.stillRequest (P : Prims H) (s : GatewayState H) (service : GatewayService) (hops : UInt8)
    (path : List String) : GatewayRequest :=
  P.buildAndSignGatewayRequest s.identity service (List.replicate 32 0) 0 hops path

theorem queryPeer_fails {peer : RelayPeer H}
    (hpost : (post (queryUrl peer) (P.stillRequest s service hops path)).Fails ω) :
    (P.queryPeer (stillHost cache setCache h) post s peer service hops path).Fails ω := by
  rcases hpost with hp | ⟨e, hp⟩
  · refine Or.inl ?_
    simp only [Prims.queryPeer, Io.bind_apply, Io.of_apply, Option.bind_some, stillHost]
    rw [← Prims.stillRequest, hp]
    rfl
  · refine Or.inr ⟨.internal (postErrorText peer e), ?_⟩
    simp only [Prims.queryPeer, Io.bind_apply, Io.of_apply, Option.bind_some, stillHost]
    rw [← Prims.stillRequest, hp]
    rfl

theorem queryPeer_stuck {peer : RelayPeer H}
    (hpost : post (queryUrl peer) (P.stillRequest s service hops path) ω = none) :
    P.queryPeer (stillHost cache setCache h) post s peer service hops path ω = none := by
  simp only [Prims.queryPeer, Io.bind_apply, Io.of_apply, Option.bind_some, stillHost]
  rw [← Prims.stillRequest, hpost]
  rfl

theorem relayLoop_fails {peers : List (RelayPeer H)} {nextPath : List String}
    (hpost : ∀ url req, (post url req).Fails ω) :
    P.relayLoop (stillHost cache setCache h) post s service hops nextPath peers ω = none ∨
      P.relayLoop (stillHost cache setCache h) post s service hops nextPath peers ω
        = some (none, ω) := by
  induction peers with
  | nil => exact Or.inr rfl
  | cons r peers ih =>
    rw [Prims.relayLoop]
    split
    · exact ih
    · rw [Io.bind_apply]
      rcases queryPeer_fails (hpost (queryUrl r) _) with hq | ⟨e, hq⟩
      · exact Or.inl (by rw [hq]; rfl)
      · rw [hq]
        exact ih

theorem relayLoop_stuck {peers : List (RelayPeer H)} {nextPath : List String}
    (hpost : ∀ url req, (post url req).Fails ω) {r : RelayPeer H} (hr : r ∈ peers)
    (hpath : P.peerIdToString r.peerId ∉ nextPath)
    (hstuck : post (queryUrl r) (P.stillRequest s service (hops - 1) nextPath) ω = none) :
    P.relayLoop (stillHost cache setCache h) post s service hops nextPath peers ω = none := by
  induction peers with
  | nil => cases hr
  | cons r' peers ih =>
    rw [Prims.relayLoop]
    rcases List.mem_cons.1 hr with rfl | hr
    · rw [if_neg hpath, Io.bind_apply, queryPeer_stuck hstuck]
      rfl
    · split
      · exact ih hr
      · rw [Io.bind_apply]
        rcases queryPeer_fails (hpost (queryUrl r') _) with hq | ⟨e, hq⟩
        · rw [hq]
          rfl
        · rw [hq]
          exact ih hr

theorem resolve_fails (hcold : cache ω = []) (hpost : ∀ url req, (post url req).Fails ω) :
    (P.resolveGatewayQuery (stillHost cache setCache h) post s service hops path).Fails ω := by
  unfold Io.Fails
  rw [Prims.resolveGatewayQuery, Io.bind_apply, cacheGet_cold _ hcold]
  simp only [Option.bind_some]
  split
  · rw [Io.bind_apply, Prims.fanoutAndVerify, Io.bind_apply]
    rcases mapM_fails fun r _ => queryPeer_fails (h := h) (hpost (queryUrl r)
      (P.stillRequest s service s.config.hopsRemaining [])) with hf | ⟨outcomes, hf, hall⟩
    · exact Or.inl (by rw [Prims.fanout, hf]; rfl)
    · obtain ⟨e, he⟩ := aggregateQuorum_errors ((stillHost cache setCache h).groupOrder ω) service hall
        s.config.ntpToleranceMs s.config.quorumMinAgree
      refine Or.inr ⟨e, ?_⟩
      rw [Prims.fanout, hf]
      simp only [Option.bind_some, Io.bind_apply, Io.get_apply, Io.pure_apply, he]
  · rw [resolveUnverified_still, Prims.relayGatewayQuery]
    split
    · exact Or.inr ⟨_, rfl⟩
    · have hl : P.relayLoop (stillHost cache setCache h) post s service hops
          (path ++ [P.peerIdToString (s.identity.peerId P)]) s.relayPeers ω = none ∨ _ :=
        relayLoop_fails hpost
      rcases hl with hl | hl
      · exact Or.inl (by rw [hl]; rfl)
      · exact Or.inr ⟨_, by rw [hl]; rfl⟩

/-- A fan-out waits for each of its requests. -/
theorem resolve_stuck_fanout (hcold : cache ω = []) (hpost : ∀ url req, (post url req).Fails ω)
    {r : RelayPeer H} (hr : r ∈ s.asked)
    (hstuck : post (queryUrl r) (P.stillRequest s service s.config.hopsRemaining []) ω = none) :
    P.resolveGatewayQuery (stillHost cache setCache h) post s service hops path ω = none := by
  have hq : s.queryPeers ≠ [] := List.ne_nil_of_mem (List.mem_of_mem_take hr)
  have hf : P.fanout (stillHost cache setCache h) post s service ω = none :=
    mapM_stuck (fun r' _ => queryPeer_fails (hpost (queryUrl r') _)) hr (queryPeer_stuck hstuck)
  rw [Prims.resolveGatewayQuery, Io.bind_apply, cacheGet_cold _ hcold]
  simp only [Option.bind_some, if_pos hq, Io.bind_apply, Prims.fanoutAndVerify, hf]
  rfl

/-- A relay waits for each of its requests until one succeeds. -/
theorem resolve_stuck_relay (hcold : cache ω = []) (hpost : ∀ url req, (post url req).Fails ω)
    (hq : s.queryPeers = []) (hhops : hops ≠ 0) {r : RelayPeer H} (hr : r ∈ s.relayPeers)
    (hpath : P.peerIdToString r.peerId ∉ path ++ [P.peerIdToString (s.identity.peerId P)])
    (hstuck : post (queryUrl r) (P.stillRequest s service (hops - 1)
      (path ++ [P.peerIdToString (s.identity.peerId P)])) ω = none) :
    P.resolveGatewayQuery (stillHost cache setCache h) post s service hops path ω = none := by
  have hrel : P.relayGatewayQuery (stillHost cache setCache h) post s service hops path ω = none := by
    rw [Prims.relayGatewayQuery, if_neg (not_or.2 ⟨hhops, List.ne_nil_of_mem hr⟩)]
    exact relayLoop_stuck hpost hr hpath hstuck
  rw [Prims.resolveGatewayQuery, Io.bind_apply, cacheGet_cold _ hcold]
  simp only [Option.bind_some, hq, ne_eq, not_true_eq_false, if_false]
  rw [resolveUnverified_still, hrel]
  rfl

theorem queryInner_fails {req : GatewayRequest} (hres : ∀ service hops path,
    (P.resolveGatewayQuery (stillHost cache setCache h) post s service hops path).Fails ω) :
    (P.queryInner (stillHost cache setCache h) post s req).Fails ω := by
  unfold Io.Fails
  simp only [Prims.queryInner, Io.bind_apply, Io.of_apply, Option.bind_some, stillHost_nowUnix]
  cases P.verifyGatewayRequest req 0 with
  | error e => exact Or.inr ⟨_, rfl⟩
  | ok p =>
    obtain ⟨requester, nonce⟩ := p
    simp only [Io.bind_apply, Io.of_apply, Option.bind_some, stillHost_rateLimiterCheck, if_true]
    rcases hres req.unsigned.service req.unsigned.hopsRemaining req.unsigned.path with hr | ⟨e, hr⟩
    · exact Or.inl (by rw [hr]; rfl)
    · exact Or.inr ⟨e, by rw [hr]; rfl⟩

/-- A request of a peer that signs correctly is resolved. -/
theorem queryInner_stuck {asker : GatewayState H} (hsign : SignsCorrectly P asker.identity)
    (hres : P.resolveGatewayQuery (stillHost cache setCache h) post s service hops path ω = none) :
    P.queryInner (stillHost cache setCache h) post s (P.stillRequest asker service hops path) ω
      = none := by
  have hlen : (List.replicate 32 0 : Bytes).length = 32 := List.length_replicate
  have hver : P.verifyGatewayRequest (P.stillRequest asker service hops path) 0 = _ :=
    verifyGatewayRequest_build hsign service hlen 0 hops path
  simp only [Prims.queryInner, Io.bind_apply, Io.of_apply, Option.bind_some, stillHost_nowUnix, hver,
    stillHost_rateLimiterCheck, if_true]
  rw [show (P.stillRequest asker service hops path).unsigned.service = service from rfl,
    show (P.stillRequest asker service hops path).unsigned.hopsRemaining = hops from rfl,
    show (P.stillRequest asker service hops path).unsigned.path = path from rfl, hres]
  rfl

end silent

/-! ## On a cycle no resolution returns -/

namespace Network

section stuck

variable {net : Network H} {P : Prims H} [DecidableEq H]

/-- Hosts on which nothing happens, each with its own cache. -/
def stillHosts (net : Network H) (i : Fin net.size) : Host (Fin net.size → GatewayCache) :=
  stillHost (fun ω => ω i) (fun c ω => Function.update ω i c) fun c ω => Function.update_self i c ω

/-- Cold caches. -/
def cold (net : Network H) : Fin net.size → GatewayCache := fun _ => []

theorem post_fails {depth : ℕ}
    (h : ∀ i req, (net.serve P net.stillHosts depth i req).Fails net.cold) (url : String)
    (req : GatewayRequest) : (net.post (net.serve P net.stillHosts depth) url req).Fails net.cold := by
  unfold Io.Fails Network.post
  cases net.route url with
  | none => exact Or.inr ⟨_, rfl⟩
  | some i =>
    simp only [Io.bind_apply]
    rcases h i req with hn | ⟨e, he⟩
    · exact Or.inl (by rw [hn]; rfl)
    · cases e with
      | error e => exact Or.inr ⟨_, by rw [he]; rfl⟩
      | panic => exact Or.inr ⟨_, by rw [he]; rfl⟩

theorem serve_fails (depth : ℕ) (i : Fin net.size) (req : GatewayRequest) :
    (net.serve P net.stillHosts depth i req).Fails net.cold := by
  induction depth generalizing i req with
  | zero => exact Or.inl rfl
  | succ depth ih =>
    exact queryInner_fails fun service hops path => resolve_fails rfl (post_fails ih)

/-- A request that is not resolved is not answered. -/
theorem post_stuck (hsign : ∀ i, SignsCorrectly P (net.peer i).identity) {i k : Fin net.size}
    {url : String} (hroute : net.route url = some k) {service : GatewayService} {hops : UInt8}
    {path : List String} {depth : ℕ}
    (h : ∀ d < depth, net.resolve P net.stillHosts d k service hops path net.cold = none) :
    net.post (net.serve P net.stillHosts depth) url (P.stillRequest (net.peer i) service hops path)
      net.cold = none := by
  have hserve : net.serve P net.stillHosts depth k (P.stillRequest (net.peer i) service hops path)
      net.cold = none := by
    cases depth with
    | zero => rfl
    | succ depth => exact queryInner_stuck (hsign i) (h depth (by omega))
  simp only [Network.post, hroute, Io.bind_apply, hserve]
  rfl

/-- A query that is relayed to a fan-out waits for it. -/
theorem stuck_of_reaches (hsign : ∀ i, SignsCorrectly P (net.peer i).identity)
    {service : GatewayService} {hops : UInt8} {path : List String} {i j : Fin net.size}
    (hreach : net.Reaches P hops path i j) {depth : ℕ}
    (h : ∀ d ≤ depth, ∀ hops path, net.resolve P net.stillHosts d j service hops path net.cold = none) :
    net.resolve P net.stillHosts depth i service hops path net.cold = none := by
  induction hreach generalizing depth with
  | here hq => exact h depth le_rfl _ _
  | relay hq hhops hr hpath hroute _ ih =>
    refine resolve_stuck_relay rfl (post_fails (serve_fails depth)) hq hhops hr hpath ?_
    exact post_stuck hsign hroute fun d hd => ih fun d' hd' => h d' (by omega)

/-- Peers that each fan out to another of them never get an answer. -/
theorem stuck_of_forever (hsign : ∀ i, SignsCorrectly P (net.peer i).identity)
    {S : Set (Fin net.size)} (hS : ∀ i ∈ S, ∃ j ∈ S, net.FansOutTo P i j)
    (service : GatewayService) (depth : ℕ) : ∀ i ∈ S, ∀ hops path,
      net.resolve P net.stillHosts depth i service hops path net.cold = none := by
  induction depth using Nat.strong_induction_on with
  | _ depth ih =>
    intro i hi hops path
    obtain ⟨j, hj, r, hr, k, hroute, hreach⟩ := hS i hi
    refine resolve_stuck_fanout rfl (post_fails (serve_fails depth)) hr ?_
    refine post_stuck hsign hroute fun d hd => ?_
    exact stuck_of_reaches hsign hreach fun d' hd' => ih d' (by omega) j hj

theorem stuck_of_cycle (hsign : ∀ i, SignsCorrectly P (net.peer i).identity) {i : Fin net.size}
    (hcycle : Relation.TransGen (net.FansOutTo P) i i) (service : GatewayService) (depth : ℕ)
    (hops : UInt8) (path : List String) :
    net.resolve P net.stillHosts depth i service hops path net.cold = none := by
  refine stuck_of_forever hsign (S := {j | Relation.ReflTransGen (net.FansOutTo P) j i}) ?_ service
    depth i Relation.ReflTransGen.refl hops path
  intro j hj
  rcases Relation.ReflTransGen.cases_head hj with rfl | ⟨k, hjk, hk⟩
  · obtain ⟨k, hik, hk⟩ := Relation.TransGen.head'_iff.1 hcycle
    exact ⟨k, hk, hik⟩
  · exact ⟨k, hk, hjk⟩

/-- Every resolution terminates exactly in the networks in which no fan-out
    leads back to the peer that made it. -/
theorem terminates_iff_acyclic (hsign : ∀ i, SignsCorrectly P (net.peer i).identity) :
    net.Terminates P ↔ net.Acyclic P := by
  constructor
  · intro h i hcycle
    obtain ⟨depth, hd⟩ := h _ net.stillHosts net.cold (fun _ => rfl) i .ntp 0 []
    rw [stuck_of_cycle hsign hcycle] at hd
    cases hd
  · intro h Ω hosts ω _ i service hops path
    have hset : net.Settles P hosts i hops path := settles_of_acyclic h i hops path
    obtain ⟨depth, hd⟩ := hset.exists
    exact ⟨depth, hd service ω⟩

end stuck

/-! ## Two peers -/

section two

noncomputable def toA : RelayPeer Bytes := ⟨"http://a", peerA.peerId idealOpen⟩
noncomputable def toB : RelayPeer Bytes := ⟨"http://b", peerB.peerId idealOpen⟩

def urlA : String := "http://a/oag/gateway/v1/query"
def urlB : String := "http://b/oag/gateway/v1/query"

/-- `peerA` and `peerB`, with these query peers and no relay peers. -/
noncomputable def pair (queries : Fin 2 → List (RelayPeer Bytes)) : Network Bytes where
  size := 2
  peer i := {
    identity := if i = 0 then peerA else peerB
    queryPeers := queries i
    relayPeers := []
    config := {} }
  route url := if url = urlA then some 0 else if url = urlB then some 1 else none

variable (queries : Fin 2 → List (RelayPeer Bytes))

theorem pair_route_toA : (pair queries).route (queryUrl toA) = some (0 : Fin 2) := by
  have hurl : queryUrl toA = urlA := by
    simp only [queryUrl, toA]
    decide
  rw [hurl]
  rfl

theorem pair_route_toB : (pair queries).route (queryUrl toB) = some (1 : Fin 2) := by
  have hurl : queryUrl toB = urlB := by
    simp only [queryUrl, toB]
    decide
  have hne : urlB ≠ urlA := by decide
  rw [hurl]
  show (if urlB = urlA then some (0 : Fin 2) else if urlB = urlB then some 1 else none) = some 1
  rw [if_neg hne, if_pos rfl]

theorem pair_signs (i : Fin (pair queries).size) :
    SignsCorrectly idealOpen ((pair queries).peer i).identity := idealOpen_signsCorrectly _

/-- `peerA` verifies with `peerB`, which asks nobody. -/
noncomputable def oneWay (i : Fin 2) : List (RelayPeer Bytes) := if i = 0 then [toB] else []

theorem oneWay_acyclic : (pair oneWay).Acyclic idealOpen := by
  have hno : ∀ i j, ¬ (pair oneWay).FansOutTo idealOpen i j := by
    rintro i j ⟨r, hr, k, hroute, hreach⟩
    have hrB : r = toB := by
      have hr' : r ∈ oneWay i := List.mem_of_mem_take hr
      unfold oneWay at hr'
      split at hr'
      · exact List.mem_singleton.1 hr'
      · cases hr'
    rw [hrB, pair_route_toB] at hroute
    cases hroute
    exact not_reaches rfl rfl hreach
  intro i hcycle
  obtain ⟨j, hij, -⟩ := Relation.TransGen.head'_iff.1 hcycle
  exact hno i j hij

theorem terminates_iff_acyclic_oneWay :
    ((pair oneWay).Terminates idealOpen ↔ (pair oneWay).Acyclic idealOpen) ∧
      (pair oneWay).Terminates idealOpen := by
  have h := terminates_iff_acyclic (pair_signs oneWay)
  exact ⟨h, h.2 oneWay_acyclic⟩

/-- Each of `peerA` and `peerB` verifies with the other. -/
noncomputable def bothWays (i : Fin 2) : List (RelayPeer Bytes) := if i = 0 then [toB] else [toA]

theorem bothWays_cycle : Relation.TransGen ((pair bothWays).FansOutTo idealOpen)
    (0 : Fin 2) (0 : Fin 2) := by
  have hA : (pair bothWays).FansOutTo idealOpen (0 : Fin 2) (1 : Fin 2) := by
    refine ⟨toB, ?_, (1 : Fin 2), pair_route_toB _, .here ?_⟩
    · exact List.mem_singleton.2 rfl
    · exact List.cons_ne_nil _ _
  have hB : (pair bothWays).FansOutTo idealOpen (1 : Fin 2) (0 : Fin 2) := by
    refine ⟨toA, ?_, (0 : Fin 2), pair_route_toA _, .here ?_⟩
    · exact List.mem_singleton.2 rfl
    · exact List.cons_ne_nil _ _
  exact (Relation.TransGen.single hA).tail hB

/-- Two peers that are each other's query peers never answer: their fan-outs
    start over with the whole hop budget and an empty path. -/
theorem mutual_query_peers_never_return : ¬ (pair bothWays).Terminates idealOpen ∧
    ∀ service depth hops path, (pair bothWays).resolve idealOpen (pair bothWays).stillHosts depth
      (0 : Fin 2) service hops path (pair bothWays).cold = none := by
  have hstuck := stuck_of_cycle (pair_signs bothWays) bothWays_cycle
  refine ⟨?_, hstuck⟩
  intro h
  obtain ⟨depth, hd⟩ := h _ (pair bothWays).stillHosts (pair bothWays).cold (fun _ => rfl)
    (0 : Fin 2) .ntp 8 []
  rw [hstuck] at hd
  cases hd

end two

end Network

end OpenAgentGraph
