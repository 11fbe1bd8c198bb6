/-
  The two fetches send requests to validated addresses only, whatever the
  resolver, the servers and the redirects do.
-/
import OpenAgentGraph.Gateway.Upstream
import OpenAgentGraph.Ideal
import OpenAgentGraph.Lib.Except

namespace OpenAgentGraph

open Lib Lib.Sending Internet

variable {U Ω ε H : Type} {net : Internet U Ω} {P : Prims H}

/-- A client that is pinned to some addresses connects to no other. -/
def Internet.Pinned (net : Internet U Ω) : Prop :=
  ∀ client url ω, ∀ addr ∈ (net.send client url ω).1.connected, addr ∈ client.addrs

/-- A request over HTTP to addresses that were validated in its own hop. -/
def Guarded (net : Internet U Ω) (sent : Sent U) : Prop :=
  (net.scheme sent.url = "http" ∨ net.scheme sent.url = "https") ∧
  ∀ addr ∈ sent.connected, addr ∈ sent.resolved ∧ isBlockedIp addr.ip = false

/-! ## The steps of a hop -/

theorem resolveAndValidate_sends {ok : Sent U → Prop} (host : String) (port : UInt16) :
    Sends 0 ok (net.resolveAndValidate host port false) fun addrs =>
      ∀ addr ∈ addrs, isBlockedIp addr.ip = false := by
  unfold resolveAndValidate
  refine Sends.silent_bind (Q := fun _ => True) (Sends.of_call fun _ => trivial) fun r _ => ?_
  refine Sends.silent_bind (Q := fun _ => True) (Sends.of_settle fun _ _ => trivial) fun addrs _ => ?_
  split
  · exact Sends.of_throw
  rw [if_neg Bool.false_ne_true]
  split
  · exact Sends.of_throw
  · rename_i hnone
    refine Sends.of_pure fun addr haddr => ?_
    have := List.find?_eq_none.1 hnone addr haddr
    simpa using this

theorem buildPinnedClient_sends {ok : Sent U → Prop} (host : String) (addrs : List SocketAddr)
    (config : CrawlerConfig) :
    Sends 0 ok (net.buildPinnedClient host addrs config) fun client => client.addrs = addrs := by
  unfold buildPinnedClient
  refine Sends.silent_bind (Q := fun _ => True) (Sends.of_call fun _ => trivial) fun r _ => ?_
  refine Sends.silent_bind (Q := fun _ => True) (Sends.of_settle fun _ _ => trivial) fun _ _ => ?_
  exact Sends.of_pure rfl

theorem sendRequest_sends (hpin : net.Pinned) {client : PinnedClient} {url : U}
    {resolved : List SocketAddr} (hscheme : net.scheme url = "http" ∨ net.scheme url = "https")
    (hresolved : ∀ addr ∈ client.addrs, addr ∈ resolved)
    (hvalid : ∀ addr ∈ resolved, isBlockedIp addr.ip = false) :
    Sends 1 (Guarded net) (net.sendRequest client url resolved) fun _ => True := by
  unfold sendRequest
  refine Sends.silent_bind (Q := fun exchange => ∀ addr ∈ exchange.connected, addr ∈ client.addrs)
    (Sends.of_call fun ω => hpin client url ω) fun exchange hex => ?_
  refine (Sends.of_record ?_).bind fun _ _ => Sends.of_settle fun _ _ => trivial
  exact ⟨hscheme, fun addr haddr => ⟨hresolved addr (hex addr haddr),
    hvalid addr (hresolved addr (hex addr haddr))⟩⟩

theorem readBody_length {max : Nat} {failed : String → ε} {tooLarge : ε}
    {chunks : List (Except String Bytes)} {body out : Bytes} (hbody : body.length ≤ max)
    (h : readBody max failed tooLarge body chunks = .ok out) : out.length ≤ max := by
  induction chunks generalizing body with
  | nil =>
    cases h
    exact hbody
  | cons chunk chunks ih =>
    cases chunk with
    | error e => cases h
    | ok chunk =>
      rw [readBody] at h
      split at h
      · cases h
      · rename_i hfits
        exact ih (Nat.not_lt.1 hfits) h

theorem mem_of_mem_preferIpv4 {addrs : List SocketAddr} {addr : SocketAddr}
    (h : addr ∈ preferIpv4 addrs) : addr ∈ addrs := by
  unfold preferIpv4 at h
  split at h
  · rename_i hfind
    rw [List.mem_singleton.1 h]
    exact List.mem_of_find?_eq_some hfind
  · exact h

theorem readPage_length {config : CrawlerConfig} {response : HttpResponse U} {page : FetchedPage U}
    (h : net.readPage P config response = .ok page) :
    page.body.length ≤ config.maxResponseBytes := by
  unfold readPage at h
  dsimp only at h
  split at h
  · cases h
  split at h
  · cases h
  split at h
  · cases h
  obtain ⟨body, hbody, rfl⟩ := map_ok.1 h
  exact readBody_length (Nat.zero_le _) hbody

/-- The body of a result of the gateway. -/
def GatewayResult.body? : GatewayResult → Option Bytes
  | .ntp _ => none
  | .http _ _ body _ => some body

theorem readUpstream_length {max : Nat} {response : HttpResponse U} {result : GatewayResult}
    (h : readUpstream P max response = .ok result) : ∀ body ∈ result.body?, body.length ≤ max := by
  unfold readUpstream at h
  split at h
  · cases h
  · obtain ⟨body, hbody, rfl⟩ := map_ok.1 h
    rintro _ ⟨⟩
    exact readBody_length (Nat.zero_le _) hbody

/-! ## One hop -/

theorem scheme_of_guard {url : U} (h : ¬ (net.scheme url ≠ "http" ∧ net.scheme url ≠ "https")) :
    net.scheme url = "http" ∨ net.scheme url = "https" := by
  by_cases hhttp : net.scheme url = "http"
  · exact Or.inl hhttp
  · exact Or.inr (by_contra fun hhttps => h ⟨hhttp, hhttps⟩)

theorem safeFetchHop_sends (hpin : net.Pinned) {config : CrawlerConfig}
    (hguard : config.allowPrivateNetworks = false) (hop : Nat) (current : U) :
    Sends 1 (Guarded net) (net.safeFetchHop P config hop current) fun r =>
      ∀ page, r = .done page → page.body.length ≤ config.maxResponseBytes := by
  unfold safeFetchHop
  dsimp only
  split
  · exact Sends.of_throw.mono (Nat.zero_le 1) fun _ h => h
  rename_i hscheme
  refine Sends.silent_bind Sends.of_okOr fun host _ => ?_
  refine Sends.silent_bind Sends.of_okOr fun port _ => ?_
  rw [hguard]
  refine Sends.silent_bind (resolveAndValidate_sends host port) fun addrs hvalid => ?_
  refine Sends.silent_bind (buildPinnedClient_sends host addrs config) fun client hclient => ?_
  refine ((sendRequest_sends hpin (scheme_of_guard hscheme) (by rw [hclient]; exact fun _ h => h)
    hvalid).of_mapError.bind (l := 0) fun response _ => ?_)
  split
  · split
    · exact Sends.of_throw
    · refine Sends.silent_bind Sends.of_okOr fun location _ => ?_
      refine Sends.silent_bind Sends.of_okOr fun next _ => ?_
      exact Sends.of_pure fun page h => (by cases h)
  · refine Sends.silent_bind (Sends.of_settle fun page hpage => hpage) fun page hpage => ?_
    refine Sends.of_pure ?_
    rintro _ ⟨⟩
    exact readPage_length hpage

theorem fetchUpstreamHop_sends (hpin : net.Pinned) (max hop : Nat) (current : U) :
    Sends 1 (Guarded net) (net.fetchUpstreamHop P false max hop current) fun r =>
      ∀ result, r = .done result → ∀ body ∈ result.body?, body.length ≤ max := by
  unfold fetchUpstreamHop
  dsimp only
  split
  · exact Sends.of_throw.mono (Nat.zero_le 1) fun _ h => h
  rename_i hscheme
  refine Sends.silent_bind Sends.of_okOr fun host _ => ?_
  refine Sends.silent_bind Sends.of_okOr fun port _ => ?_
  refine Sends.silent_bind (resolveAndValidate_sends host port).of_mapError fun resolved hvalid => ?_
  refine Sends.silent_bind (buildPinnedClient_sends host _ _).of_mapError fun client hclient => ?_
  refine ((sendRequest_sends hpin (scheme_of_guard hscheme) ?_ hvalid).of_mapError.bind (l := 0)
    fun response _ => ?_)
  · rw [hclient]
    exact fun addr => mem_of_mem_preferIpv4
  split
  · split
    · exact Sends.of_throw
    · refine Sends.silent_bind Sends.of_okOr fun location _ => ?_
      refine Sends.silent_bind Sends.of_okOr fun next _ => ?_
      exact Sends.of_pure fun page h => (by cases h)
  · refine Sends.silent_bind (Sends.of_settle fun result hresult => hresult) fun result hresult => ?_
    refine Sends.of_pure ?_
    rintro _ ⟨⟩
    exact readUpstream_length hresult

/-! ## Whole fetches -/

/-- **Both fetches are guarded**: whatever the resolver answers and wherever
    the redirects lead, each sends six requests at most, over HTTP and to
    addresses validated in the same hop, and returns no more than the cap. -/
theorem fetches_guarded (net : Internet U Ω) (P : Prims H) (hpin : net.Pinned) (ω : Ω) :
    (∀ (url : U) (config : CrawlerConfig), config.allowPrivateNetworks = false →
      ((net.safeFetch P url config) (ω, [])).2.2.length ≤ 6 ∧
      (∀ sent ∈ ((net.safeFetch P url config) (ω, [])).2.2, Guarded net sent) ∧
      ∀ page, ((net.safeFetch P url config) (ω, [])).1 = .ok page →
        page.body.length ≤ config.maxResponseBytes) ∧
    ∀ (url : String) (max : Nat),
      ((net.fetchUpstreamHttp P url false max) (ω, [])).2.2.length ≤ 6 ∧
      (∀ sent ∈ ((net.fetchUpstreamHttp P url false max) (ω, [])).2.2, Guarded net sent) ∧
      ∀ result, ((net.fetchUpstreamHttp P url false max) (ω, [])).1 = .ok result →
        ∀ body ∈ result.body?, body.length ≤ max := by
  constructor
  · intro url config hguard
    have hsends : Sends 6 (Guarded net) (net.safeFetch P url config) fun page =>
        page.body.length ≤ config.maxResponseBytes :=
      Sends.of_loop (fun hop current => safeFetchHop_sends hpin hguard hop current) 6 0 url
    obtain ⟨new, hnew, hlen, hok, hres⟩ := hsends (ω, [])
    rw [hnew]
    exact ⟨hlen, hok, hres⟩
  · intro url max
    have hsends : Sends 6 (Guarded net) (net.fetchUpstreamHttp P url false max) fun result =>
        ∀ body ∈ result.body?, body.length ≤ max :=
      Sends.silent_bind (Q := fun _ => True) (Sends.of_settle fun _ _ => trivial) fun current _ =>
        Sends.of_loop (fun hop current => fetchUpstreamHop_sends hpin max hop current) 6 0 current
    obtain ⟨new, hnew, hlen, hok, hres⟩ := hsends (ω, [])
    rw [hnew]
    exact ⟨hlen, hok, hres⟩

/-- One site, which answers every request. -/
def oneSite : Internet String Unit where
  parse url := .ok url
  scheme _ := "http"
  hostStr _ := some "example.com"
  portOrKnownDefault _ := some 80
  join _ location := some location
  statusError status _ := toString status
  lookupHost _ port _ := (.ok [⟨.v4 ⟨93, 184, 216, 34⟩, port⟩], ())
  build _ _ := (.ok (), ())
  send client url _ := (⟨client.addrs.take 1, .ok
    ⟨200, none, some "text/plain", none, some 2, url, [.ok [104, 105]]⟩⟩, ())

theorem oneSite_pinned : oneSite.Pinned := fun _ _ _ _ h => List.mem_of_mem_take h

theorem fetches_guarded_oneSite :
    ((oneSite.safeFetch idealOpen "http://example.com/" {}) ((), [])).2.2.length ≤ 6 :=
  ((fetches_guarded oneSite idealOpen oneSite_pinned ()).1 "http://example.com/" {} rfl).1

end OpenAgentGraph
