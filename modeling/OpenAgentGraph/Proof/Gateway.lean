/-
  The steps of a gateway computation: how an `Io` composes, and that what a
  peer signs passes the checks of the peer it is for.
-/
import OpenAgentGraph.Gateway.Service
import OpenAgentGraph.Proof.Forward

namespace OpenAgentGraph

open Lib

/-! ## Computations -/

namespace Io

variable {Ω α β : Type}

@[simp] theorem bind_apply (x : Io Ω α) (f : α → Io Ω β) (ω : Ω) :
    (x >>= f) ω = (x ω).bind fun p => f p.1 p.2 := rfl

@[simp] theorem pure_apply (a : α) (ω : Ω) : (pure a : Io Ω α) ω = some (a, ω) := rfl

@[simp] theorem of_apply (f : Ω → α × Ω) (ω : Ω) : Io.of f ω = some (f ω) := rfl

@[simp] theorem get_apply (ω : Ω) : (get : Io Ω Ω) ω = some (ω, ω) := rfl

@[simp] theorem modify_apply (f : Ω → Ω) (ω : Ω) :
    (modify f : Io Ω Unit) ω = some ((), f ω) := rfl

/-- A computation that returns from every state. -/
def Returns (x : Io Ω α) : Prop := ∀ ω, (x ω).isSome

theorem returns_pure (a : α) : Returns (pure a : Io Ω α) := fun _ => rfl

theorem returns_of (f : Ω → α × Ω) : Returns (Io.of f) := fun _ => rfl

theorem returns_get : Returns (get : Io Ω Ω) := fun _ => rfl

theorem Returns.bind {x : Io Ω α} {f : α → Io Ω β} (hx : Returns x) (hf : ∀ a, Returns (f a)) :
    Returns (x >>= f) := by
  intro ω
  obtain ⟨p, hp⟩ := Option.isSome_iff_exists.1 (hx ω)
  rw [bind_apply, hp]
  exact hf p.1 p.2

theorem returns_mapM {f : α → Io Ω β} : ∀ {xs : List α}, (∀ x ∈ xs, Returns (f x)) →
    Returns (xs.mapM f)
  | [], _ => by
    rw [List.mapM_nil]
    exact returns_pure _
  | x :: xs, h => by
    rw [List.mapM_cons]
    refine (h x (by simp)).bind fun y => ?_
    refine (returns_mapM fun z hz => h z (by simp [hz])).bind fun ys => ?_
    exact returns_pure _

/-- A value of a list of computations has one entry for each. -/
theorem length_mapM {f : α → Io Ω β} {xs : List α} {ys : List β} {ω ω' : Ω}
    (h : xs.mapM f ω = some (ys, ω')) : ys.length = xs.length := by
  induction xs generalizing ys ω with
  | nil =>
    rw [List.mapM_nil, pure_apply] at h
    cases h
    rfl
  | cons x xs ih =>
    rw [List.mapM_cons, bind_apply] at h
    obtain ⟨⟨y, ω₁⟩, -, h⟩ := Option.bind_eq_some_iff.1 h
    rw [bind_apply] at h
    obtain ⟨⟨zs, ω₂⟩, hzs, h⟩ := Option.bind_eq_some_iff.1 h
    cases h
    simp [ih hzs]

end Io

/-! ## The cache -/

section cache

variable {Ω : Type} (host : Host Ω)

theorem returns_cacheGet (service : GatewayService) : (host.cacheGet service).Returns := by
  refine Io.returns_get.bind fun ω => ?_
  cases (host.cache ω).lookup (GatewayCache.key service) with
  | none => exact Io.returns_pure _
  | some entry => exact (Io.returns_of _).bind fun _ => Io.returns_pure _

theorem returns_cachePut (service : GatewayService) (result : GatewayResult) (ttl : ℕ) :
    (host.cachePut service result ttl).Returns := by
  intro ω
  unfold Host.cachePut
  by_cases h : ttl = 0
  · simp [h]
  · simp [h]

theorem cacheGet_cold {ω : Ω} (h : host.cache ω = []) (service : GatewayService) :
    host.cacheGet service ω = some (none, ω) := by
  simp [Host.cacheGet, h, GatewayCache.lookup]

end cache

/-! ## A host on which nothing happens -/

section still

/-- Clocks that stand still, a limiter that lets everything pass, upstream
    servers that do not answer. -/
def stillHost {Ω : Type} (cache : Ω → GatewayCache) (setCache : GatewayCache → Ω → Ω)
    (h : ∀ c ω, cache (setCache c ω) = c) : Host Ω where
  nowUnix ω := (0, ω)
  instant ω := (0, ω)
  randomBytes32 ω := (List.replicate 32 0, ω)
  length_randomBytes32 _ := List.length_replicate
  rateLimiterCheck _ ω := (true, ω)
  cache := cache
  setCache := setCache
  cache_setCache := h
  groupOrder _ := ⟨id, fun _ => List.Perm.refl _⟩
  queryUpstream _ ω := (.error "unreachable", ω)
  fetchUpstreamHttp _ _ _ ω := (.error (.upstreamBlocked "unreachable"), ω)

variable {Ω : Type} {cache : Ω → GatewayCache} {setCache : GatewayCache → Ω → Ω}
  {h : ∀ c ω, cache (setCache c ω) = c}

@[simp] theorem stillHost_nowUnix (ω : Ω) :
    (stillHost cache setCache h).nowUnix ω = (0, ω) := rfl

@[simp] theorem stillHost_rateLimiterCheck (k : String) (ω : Ω) :
    (stillHost cache setCache h).rateLimiterCheck k ω = (true, ω) := rfl

theorem queryUpstreams_still (servers : List String) (ω : Ω) :
    ∃ e, (stillHost cache setCache h).queryUpstreams servers ω = some (.error e, ω) := by
  induction servers with
  | nil => exact ⟨_, rfl⟩
  | cons server servers ih =>
    obtain ⟨e, he⟩ := ih
    exact ⟨e, he⟩

theorem resolveDirectly_still (config : GatewayConfig) (service : GatewayService) (ω : Ω) :
    (stillHost cache setCache h).resolveDirectly config service ω = some (.ok none, ω) ∨
      ∃ e, (stillHost cache setCache h).resolveDirectly config service ω = some (.error e, ω) := by
  cases service with
  | ntp =>
    by_cases hs : config.ntpUpstreamServers = []
    · exact Or.inl (by simp [Host.resolveDirectly, hs])
    · obtain ⟨e, he⟩ := queryUpstreams_still (h := h) config.ntpUpstreamServers ω
      refine Or.inr ⟨e, ?_⟩
      simp only [Host.resolveDirectly, if_neg hs, Io.bind_apply, he]
      rfl
  | http url =>
    by_cases hu : config.httpAllowUpstream = true
    · refine Or.inr ⟨.upstreamBlocked "unreachable", ?_⟩
      simp only [Host.resolveDirectly, if_pos hu]
      rfl
    · exact Or.inl (by simp [Host.resolveDirectly, hu])

/-- Upstream servers that do not answer leave the relay peers. -/
theorem resolveUnverified_still {H : Type} (P : Prims H) [DecidableEq H] (post : Post Ω)
    (s : GatewayState H) (service : GatewayService) (hops : UInt8) (path : List String) (ω : Ω) :
    P.resolveUnverified (stillHost cache setCache h) post s service hops path ω
      = (P.relayGatewayQuery (stillHost cache setCache h) post s service hops path ω).map
          fun p => (p.1.elim (.error (.error .cannotResolve)) fun r => .ok ⟨r, .relay⟩, p.2) := by
  have hrest : ∀ (k : Option GatewayResult → Io Ω (Except Failure ResolvedQuery)),
      k none = pure (.error (.error .cannotResolve)) → (∀ r, k (some r) = pure (.ok ⟨r, .relay⟩)) →
      (P.relayGatewayQuery (stillHost cache setCache h) post s service hops path >>= k) ω
        = (P.relayGatewayQuery (stillHost cache setCache h) post s service hops path ω).map
          fun p => (p.1.elim (.error (.error .cannotResolve)) fun r => .ok ⟨r, .relay⟩, p.2) := by
    intro k hnone hsome
    rw [Io.bind_apply]
    rcases P.relayGatewayQuery (stillHost cache setCache h) post s service hops path ω with _ | ⟨_ | r, ω'⟩
    · rfl
    · rw [Option.bind_some, hnone]
      rfl
    · rw [Option.bind_some, hsome]
      rfl
  rcases resolveDirectly_still (h := h) s.config service ω with hd | ⟨e, hd⟩
  · rw [Prims.resolveUnverified, Io.bind_apply, hd]
    exact hrest _ rfl fun _ => rfl
  · rw [Prims.resolveUnverified, Io.bind_apply, hd]
    exact hrest _ rfl fun _ => rfl

end still

/-! ## Signed messages -/

section signed

variable {H : Type} {P : Prims H} [DecidableEq H] {identity : Prims.PeerIdentity}

theorem decodeExact_hexEncode (b : Bytes) : decodeExact b.length (hexEncode b) = some b := by
  simp [decodeExact]

@[simp] theorem absDiff_self (t : Int64) : absDiff t t = 0 := by
  rw [absDiff, Int64.sub_self]
  decide

theorem verifySigned_sign (hsign : SignsCorrectly P identity) (domain : String) (m : Bytes)
    (now : Int64) :
    P.verifySigned domain (P.peerIdToString (identity.peerId P))
      (hexEncode (identity.verifyingKey P).bytes) m
      (hexEncode (P.signWithDomain identity domain m)) now now = .ok (identity.peerId P) := by
  have hkey : decodeExact 32 (hexEncode (identity.verifyingKey P).bytes)
      = some (identity.verifyingKey P).bytes := by
    have h := decodeExact_hexEncode (identity.verifyingKey P).bytes
    rwa [P.length_of_validKey _ (identity.verifyingKey P).valid] at h
  have hsig : decodeExact 64 (hexEncode (P.signWithDomain identity domain m))
      = some (P.signWithDomain identity domain m) := by
    have h := decodeExact_hexEncode (P.signWithDomain identity domain m)
    rwa [Prims.signWithDomain, P.length_sign] at h
  have hver : P.verifyWithDomain (identity.verifyingKey P) domain m
      (P.signWithDomain identity domain m) = true := hsign _
  have hskew : ¬ (0 : Int64) > maxClockSkewSeconds := by decide
  simp only [Prims.verifySigned, P.peerIdFromStr_peerIdToString, hkey, hsig, Except.mapError,
    Option.elim, keyFromBytes_bytes, bind, Except.bind, hver, absDiff_self, hskew,
    Prims.PeerIdentity.peerId]
  simp

theorem verifyGatewayRequest_build (hsign : SignsCorrectly P identity) (service : GatewayService)
    {nonce : Bytes} (hnonce : nonce.length = 32) (now : Int64) (hops : UInt8) (path : List String) :
    P.verifyGatewayRequest (P.buildAndSignGatewayRequest identity service nonce now hops path) now
      = .ok (identity.peerId P, nonce) := by
  have hn : decodeExact 32 (hexEncode nonce) = some nonce := hnonce ▸ decodeExact_hexEncode nonce
  simp only [Prims.verifyGatewayRequest, Prims.buildAndSignGatewayRequest,
    verifySigned_sign hsign, hn, Option.elim, bind, Except.bind]
  rfl

theorem verifyGatewayResponse_build (hsign : SignsCorrectly P identity) (result : GatewayResult)
    {nonce : Bytes} (hnonce : nonce.length = 32) (now : Int64) (servedFrom : ServedFrom) :
    P.verifyGatewayResponse (P.buildAndSignGatewayResponse identity result nonce now servedFrom)
      nonce now = .ok (identity.peerId P) := by
  have hn : decodeExact 32 (hexEncode nonce) = some nonce := hnonce ▸ decodeExact_hexEncode nonce
  simp only [Prims.verifyGatewayResponse, Prims.buildAndSignGatewayResponse, hn,
    verifySigned_sign hsign]
  simp

end signed

end OpenAgentGraph
