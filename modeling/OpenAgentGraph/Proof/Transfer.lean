/-
  Relayed fetches end, and never come back to a server.

  * `fetchWithReceiptInner_congr`: a server that answers a request sends no
    other requests than its `Attempt`s.
  * `relay_terminates`: along the attempts the hops decrease and no server
    occurs twice; a request with `n` hops is answered within `n + 1` nested
    requests.
-/
import OpenAgentGraph.Proof.Gateway
import OpenAgentGraph.Transfer.Service

namespace OpenAgentGraph

open Lib

variable {H : Type}

/-! ## The requests a server sends -/

/-- The path of the requests that a server sends on: its own id is the last. -/
def nextRelayPath (P : Prims H) (s : TransferState H) (req : TransferRequest) : List String :=
  req.unsigned.relayPath ++ [P.peerIdToString (s.identity.peerId P)]

/-- A request that a server may send on while it answers `req`. -/
def Attempt (P : Prims H) (s : TransferState H) (req : TransferRequest) (peer : RelayPeer H)
    (req' : TransferRequest) : Prop :=
  req.unsigned.relayHopsRemaining ≠ 0 ∧ peer ∈ s.relayPeers ∧
    P.peerIdToString peer.peerId ∉ nextRelayPath P s req ∧
    ∃ nonce requestedAt, req' = P.buildAndSignRequest s.identity req.unsigned.cid nonce requestedAt
      (req.unsigned.relayHopsRemaining - 1) (nextRelayPath P s req)

section requests

variable {P : Prims H} [DecidableEq H] {Ω : Type} {host : TransferHost H Ω} {post post' : TransferPost Ω}
  {s : TransferState H}

theorem fetchAndVerify_congr {peer : RelayPeer H} {cid : String} {hops : UInt8} {path : List String}
    (h : ∀ nonce requestedAt, post (fetchUrl peer) (P.buildAndSignRequest s.identity cid nonce requestedAt hops path)
      = post' (fetchUrl peer) (P.buildAndSignRequest s.identity cid nonce requestedAt hops path)) :
    P.fetchAndVerify host post s peer cid hops path = P.fetchAndVerify host post' s peer cid hops path := by
  rw [Prims.fetchAndVerify, Prims.fetchAndVerify]
  refine bind_congr fun nonce => bind_congr fun requestedAt => ?_
  simp only [h nonce requestedAt]

theorem relayFetchLoop_congr {cid : String} {hops : UInt8} {path : List String} {peers : List (RelayPeer H)}
    (h : ∀ peer ∈ peers, P.peerIdToString peer.peerId ∉ path → ∀ nonce requestedAt,
      post (fetchUrl peer) (P.buildAndSignRequest s.identity cid nonce requestedAt (hops - 1) path)
        = post' (fetchUrl peer) (P.buildAndSignRequest s.identity cid nonce requestedAt (hops - 1) path)) :
    P.relayFetchLoop host post s cid hops path peers = P.relayFetchLoop host post' s cid hops path peers := by
  induction peers with
  | nil => rfl
  | cons peer peers ih =>
    have ih' := ih fun p hp => h p (by simp [hp])
    rw [Prims.relayFetchLoop, Prims.relayFetchLoop, ih']
    by_cases hin : P.peerIdToString peer.peerId ∈ path
    · rw [if_pos hin, if_pos hin]
    · rw [if_neg hin, if_neg hin, fetchAndVerify_congr (h peer (by simp) hin)]

theorem relayFetch_congr {req : TransferRequest}
    (h : ∀ peer req', Attempt P s req peer req' → post (fetchUrl peer) req' = post' (fetchUrl peer) req') :
    P.relayFetch host post s req = P.relayFetch host post' s req := by
  rw [Prims.relayFetch, Prims.relayFetch]
  by_cases hno : req.unsigned.relayHopsRemaining = 0 ∨ s.relayPeers = []
  · rw [if_pos hno, if_pos hno]
  · rw [if_neg hno, if_neg hno]
    refine relayFetchLoop_congr ?_
    intro peer hpeer hpath nonce requestedAt
    exact h peer _ ⟨fun h0 => hno (Or.inl h0), hpeer, hpath, nonce, requestedAt, rfl⟩

/-- The answer to a request depends on the network through its attempts only. -/
theorem fetchWithReceiptInner_congr {req : TransferRequest}
    (h : ∀ peer req', Attempt P s req peer req' → post (fetchUrl peer) req' = post' (fetchUrl peer) req') :
    P.fetchWithReceiptInner host post s req = P.fetchWithReceiptInner host post' s req := by
  have hlocal : ∀ fetch, P.localOrRelay host post s fetch req = P.localOrRelay host post' s fetch req := by
    intro fetch
    rw [Prims.localOrRelay, Prims.localOrRelay, relayFetch_congr h]
  rw [Prims.fetchWithReceiptInner, Prims.fetchWithReceiptInner]
  simp only [hlocal]

theorem returns_fetchAndVerify {peer : RelayPeer H} {cid : String} {hops : UInt8} {path : List String}
    (h : ∀ nonce requestedAt,
      (post (fetchUrl peer) (P.buildAndSignRequest s.identity cid nonce requestedAt hops path)).Returns) :
    (P.fetchAndVerify host post s peer cid hops path).Returns := by
  rw [Prims.fetchAndVerify]
  refine (Io.returns_of _).bind fun nonce => (Io.returns_of _).bind fun requestedAt => ?_
  refine (h nonce requestedAt).bind fun response => ?_
  rcases response with e | response
  · exact Io.returns_pure _
  · dsimp only
    split
    · exact Io.returns_pure _
    · refine (Io.returns_of _).bind fun now => ?_
      split
      · exact Io.returns_pure _
      · split
        · exact Io.returns_pure _
        · refine (Io.returns_of _).bind fun recorded => ?_
          rcases recorded with e | _
          · exact Io.returns_pure _
          · exact Io.returns_pure _

theorem returns_relayFetchLoop {cid : String} {hops : UInt8} {path : List String} {peers : List (RelayPeer H)}
    (h : ∀ peer ∈ peers, P.peerIdToString peer.peerId ∉ path → ∀ nonce requestedAt,
      (post (fetchUrl peer) (P.buildAndSignRequest s.identity cid nonce requestedAt (hops - 1) path)).Returns) :
    (P.relayFetchLoop host post s cid hops path peers).Returns := by
  induction peers with
  | nil => exact Io.returns_pure _
  | cons peer peers ih =>
    have ih' := ih fun p hp => h p (by simp [hp])
    rw [Prims.relayFetchLoop]
    by_cases hin : P.peerIdToString peer.peerId ∈ path
    · rw [if_pos hin]
      exact ih'
    · rw [if_neg hin]
      refine (returns_fetchAndVerify (h peer (by simp) hin)).bind fun outcome => ?_
      rcases outcome with e | verified
      · exact ih'
      · exact Io.returns_pure _

theorem returns_localOrRelay {req : TransferRequest} (fetch : String → Ω → Except IpfsError Bytes × Ω)
    (h : ∀ peer req', Attempt P s req peer req' → (post (fetchUrl peer) req').Returns) :
    (P.localOrRelay host post s fetch req).Returns := by
  have hrelay : (P.relayFetch host post s req).Returns := by
    rw [Prims.relayFetch]
    by_cases hno : req.unsigned.relayHopsRemaining = 0 ∨ s.relayPeers = []
    · rw [if_pos hno]
      exact Io.returns_pure _
    · rw [if_neg hno]
      refine returns_relayFetchLoop ?_
      intro peer hpeer hpath nonce requestedAt
      exact h peer _ ⟨fun h0 => hno (Or.inl h0), hpeer, hpath, nonce, requestedAt, rfl⟩
  rw [Prims.localOrRelay]
  refine (Io.returns_of _).bind fun answer => ?_
  split
  · exact Io.returns_pure _
  · exact Io.returns_pure _
  · refine hrelay.bind fun relayed => ?_
    rcases relayed with _ | verified
    · dsimp only
      split
      · exact Io.returns_pure _
      · exact Io.returns_pure _
    · exact Io.returns_pure _

theorem returns_fetchWithReceiptInner {req : TransferRequest}
    (h : ∀ peer req', Attempt P s req peer req' → (post (fetchUrl peer) req').Returns) :
    (P.fetchWithReceiptInner host post s req).Returns := by
  rw [Prims.fetchWithReceiptInner]
  refine (Io.returns_of _).bind fun now => ?_
  split
  · exact Io.returns_pure _
  · refine (Io.returns_of _).bind fun allowed => ?_
    split
    · split
      · exact Io.returns_pure _
      · next fetch _ =>
        refine (returns_localOrRelay fetch h).bind fun content => ?_
        split
        · exact Io.returns_pure _
        · refine (Io.returns_of _).bind fun nonce => (Io.returns_of _).bind fun recorded => ?_
          rcases recorded with e | _
          · exact Io.returns_pure _
          · dsimp only
            split
            · exact Io.returns_pure _
            · exact Io.returns_pure _
    · exact Io.returns_pure _

end requests

/-! ## Chains of relayed fetches -/

namespace TransferNetwork

variable (net : TransferNetwork H) (P : Prims H)

/-- One server, answering a request, sends a request to another. -/
def Relays (x y : Fin net.size × TransferRequest) : Prop :=
  ∃ peer, Attempt P (net.peer x.1) x.2 peer y.2 ∧ net.route (fetchUrl peer) = some y.1

/-- The servers that are asked in turn, each with the request it gets. -/
def IsChainFrom (i : Fin net.size) (req : TransferRequest)
    (chain : List (Fin net.size × TransferRequest)) : Prop :=
  chain.head? = some (i, req) ∧ chain.IsChain (net.Relays P)

/-- Each configured relay address serves the configured peer id. -/
def Honest : Prop :=
  ∀ i, ∀ peer ∈ (net.peer i).relayPeers, ∀ j, net.route (fetchUrl peer) = some j →
    (net.peer j).identity.peerId P = peer.peerId

variable {net P}

theorem Relays.hops_lt {x y : Fin net.size × TransferRequest} (h : net.Relays P x y) :
    y.2.unsigned.relayHopsRemaining < x.2.unsigned.relayHopsRemaining := by
  obtain ⟨peer, ⟨h0, -, -, nonce, requestedAt, heq⟩, -⟩ := h
  rw [heq]
  change x.2.unsigned.relayHopsRemaining - 1 < x.2.unsigned.relayHopsRemaining
  have hpos : x.2.unsigned.relayHopsRemaining.toNat ≠ 0 := fun h => h0 (UInt8.toNat_inj.1 h)
  have hle : (1 : UInt8) ≤ x.2.unsigned.relayHopsRemaining := by
    rw [UInt8.le_iff_toNat_le, UInt8.toNat_one]
    omega
  rw [UInt8.lt_iff_toNat_lt, UInt8.toNat_sub_of_le _ _ hle, UInt8.toNat_one]
  omega

theorem Relays.path_eq {x y : Fin net.size × TransferRequest} (h : net.Relays P x y) :
    y.2.unsigned.relayPath = nextRelayPath P (net.peer x.1) x.2 := by
  obtain ⟨peer, ⟨-, -, -, nonce, requestedAt, heq⟩, -⟩ := h
  rw [heq]
  rfl

theorem Relays.not_mem_path (hnet : net.Honest P) {x y : Fin net.size × TransferRequest}
    (h : net.Relays P x y) :
    P.peerIdToString ((net.peer y.1).identity.peerId P) ∉ nextRelayPath P (net.peer x.1) x.2 := by
  obtain ⟨peer, ⟨-, hpeer, hpath, -⟩, hroute⟩ := h
  rw [hnet x.1 peer hpeer y.1 hroute]
  exact hpath

/-- The servers after `x` are not on the path that `x` sends on. -/
theorem not_mem_path_of_chain (hnet : net.Honest P) {x : Fin net.size × TransferRequest}
    {rest : List (Fin net.size × TransferRequest)} (h : (x :: rest).IsChain (net.Relays P)) :
    ∀ y ∈ rest, P.peerIdToString ((net.peer y.1).identity.peerId P)
      ∉ nextRelayPath P (net.peer x.1) x.2 := by
  induction rest generalizing x with
  | nil => simp
  | cons y rest ih =>
    obtain ⟨hxy, hrest⟩ := List.isChain_cons_cons.1 h
    intro z hz
    rcases List.mem_cons.1 hz with rfl | hz
    · exact hxy.not_mem_path hnet
    · intro hmem
      refine ih hrest z hz ?_
      rw [nextRelayPath, hxy.path_eq]
      exact List.mem_append_left _ hmem

theorem chain_nodup (hnet : net.Honest P) {chain : List (Fin net.size × TransferRequest)}
    (h : chain.IsChain (net.Relays P)) : (chain.map Prod.fst).Nodup := by
  induction chain with
  | nil => simp
  | cons x rest ih =>
    refine List.nodup_cons.2 ⟨?_, ih h.tail⟩
    intro hmem
    obtain ⟨y, hy, heq⟩ := List.mem_map.1 hmem
    refine not_mem_path_of_chain hnet h y hy ?_
    rw [heq]
    exact List.mem_append_right _ (List.mem_singleton.2 rfl)

theorem chain_hops {chain : List (Fin net.size × TransferRequest)}
    (h : chain.IsChain (net.Relays P)) :
    (chain.map fun x => x.2.unsigned.relayHopsRemaining).Pairwise (· > ·) := by
  refine List.isChain_iff_pairwise.1 ?_
  rw [List.isChain_map]
  exact h.imp fun x y hxy => hxy.hops_lt

theorem chain_length {x : Fin net.size × TransferRequest}
    {rest : List (Fin net.size × TransferRequest)} (h : (x :: rest).IsChain (net.Relays P)) :
    rest.length ≤ x.2.unsigned.relayHopsRemaining.toNat := by
  induction rest generalizing x with
  | nil => simp
  | cons y rest ih =>
    obtain ⟨hxy, hrest⟩ := List.isChain_cons_cons.1 h
    have hlt : y.2.unsigned.relayHopsRemaining.toNat < x.2.unsigned.relayHopsRemaining.toNat := hxy.hops_lt
    have hlen := ih hrest
    rw [List.length_cons]
    omega

/-! ## Nested requests -/

section nested

variable {Ω : Type}

theorem returns_post {serve : Fin net.size → TransferRequest → Io Ω (Except TransferError TransferResponse)}
    {url : String} {req : TransferRequest} (h : ∀ j, net.route url = some j → (serve j req).Returns) :
    (net.post serve url req).Returns := by
  rw [post]
  cases hroute : net.route url with
  | none => exact Io.returns_pure _
  | some j =>
    refine (h j hroute).bind fun answer => ?_
    rcases answer with e | resp
    · exact Io.returns_pure _
    · exact Io.returns_pure _

variable [DecidableEq H] {hosts : Fin net.size → TransferHost H Ω}

theorem serve_returns (depth : ℕ) (i : Fin net.size) (req : TransferRequest)
    (h : req.unsigned.relayHopsRemaining.toNat < depth) : (net.serve P hosts depth i req).Returns := by
  induction depth generalizing i req with
  | zero => omega
  | succ depth ih =>
    rw [serve]
    refine returns_fetchWithReceiptInner ?_
    intro peer req' hatt
    refine returns_post ?_
    intro j hroute
    have hlt : req'.unsigned.relayHopsRemaining.toNat < req.unsigned.relayHopsRemaining.toNat :=
      Relays.hops_lt (x := (i, req)) (y := (j, req')) ⟨peer, hatt, hroute⟩
    exact ih j req' (by omega)

/-- More depth than a request has hops changes nothing. -/
theorem serve_eq (depth depth' : ℕ) (i : Fin net.size) (req : TransferRequest)
    (h : req.unsigned.relayHopsRemaining.toNat < depth)
    (h' : req.unsigned.relayHopsRemaining.toNat < depth') :
    net.serve P hosts depth i req = net.serve P hosts depth' i req := by
  induction depth generalizing depth' i req with
  | zero => omega
  | succ depth ih =>
    cases depth' with
    | zero => omega
    | succ depth' =>
      rw [serve, serve]
      refine fetchWithReceiptInner_congr ?_
      intro peer req' hatt
      rw [post, post]
      cases hroute : net.route (fetchUrl peer) with
      | none => rfl
      | some j =>
        have hlt : req'.unsigned.relayHopsRemaining.toNat < req.unsigned.relayHopsRemaining.toNat :=
          Relays.hops_lt (x := (i, req)) (y := (j, req')) ⟨peer, hatt, hroute⟩
        simp only [ih depth' j req' (by omega) (by omega)]

end nested

/-! ## Termination -/

/-- What holds of all attempts below a request `req` to the server `i`. -/
structure RelayTerminates (net : TransferNetwork H) (P : Prims H) [DecidableEq H] (i : Fin net.size)
    (req : TransferRequest) : Prop where
  hops : ∀ chain, net.IsChainFrom P i req chain →
    (chain.map fun x => x.2.unsigned.relayHopsRemaining).Pairwise (· > ·)
  distinct : ∀ chain, net.IsChainFrom P i req chain → (chain.map Prod.fst).Nodup
  depth : ∀ chain, net.IsChainFrom P i req chain →
    chain.length ≤ req.unsigned.relayHopsRemaining.toNat + 1
  finite : {servers | ∃ chain, net.IsChainFrom P i req chain ∧ chain.map Prod.fst = servers}.Finite
  /-- The chains are those of the code: its answer does not depend on other
      requests than these attempts. -/
  attempts : ∀ (Ω : Type) (host : TransferHost H Ω) (post post' : TransferPost Ω),
    (∀ peer req', Attempt P (net.peer i) req peer req' →
      post (fetchUrl peer) req' = post' (fetchUrl peer) req') →
    P.fetchWithReceiptInner host post (net.peer i) req = P.fetchWithReceiptInner host post' (net.peer i) req
  /-- Every run is complete within that depth. -/
  returns : ∀ (Ω : Type) (hosts : Fin net.size → TransferHost H Ω),
    (net.serve P hosts (req.unsigned.relayHopsRemaining.toNat + 1) i req).Returns ∧
      ∀ depth, req.unsigned.relayHopsRemaining.toNat + 1 ≤ depth →
        net.serve P hosts depth i req
          = net.serve P hosts (req.unsigned.relayHopsRemaining.toNat + 1) i req

theorem IsChainFrom.length_le {i : Fin net.size} {req : TransferRequest}
    {chain : List (Fin net.size × TransferRequest)} (h : net.IsChainFrom P i req chain) :
    chain.length ≤ req.unsigned.relayHopsRemaining.toNat + 1 := by
  obtain ⟨hhead, hchain⟩ := h
  cases chain with
  | nil => simp
  | cons x rest =>
    cases hhead
    exact Nat.add_le_add_right (chain_length hchain) 1

/-- **Relayed fetches terminate without revisiting a server.** -/
theorem relay_terminates [DecidableEq H] (hnet : net.Honest P) (i : Fin net.size) (req : TransferRequest) :
    RelayTerminates net P i req where
  hops := by
    intro chain h
    exact chain_hops h.2
  distinct := by
    intro chain h
    exact chain_nodup hnet h.2
  depth := by
    intro chain h
    exact h.length_le
  finite := by
    refine (List.finite_length_le (Fin net.size) (req.unsigned.relayHopsRemaining.toNat + 1)).subset ?_
    rintro servers ⟨chain, h, rfl⟩
    simpa using h.length_le
  attempts := by
    intro Ω host post post' h
    exact fetchWithReceiptInner_congr h
  returns := by
    intro Ω hosts
    refine ⟨serve_returns _ i req (Nat.lt_succ_self _), ?_⟩
    intro depth hdepth
    exact serve_eq _ _ i req hdepth (Nat.lt_succ_self _)

/-- Two servers that relay to each other. -/
noncomputable def loopPeer : Fin 2 → TransferState Bytes
  | 0 => ⟨peerA, [⟨"http://b", peerB.peerId idealOpen⟩]⟩
  | 1 => ⟨peerB, [⟨"http://a", peerA.peerId idealOpen⟩]⟩

def loopRoute (url : String) : Option (Fin 2) :=
  if url = "http://a/oag/transfer/v1/fetch" then some ⟨0, Nat.zero_lt_two⟩
  else if url = "http://b/oag/transfer/v1/fetch" then some ⟨1, Nat.one_lt_two⟩ else none

noncomputable def loop : TransferNetwork Bytes := ⟨2, loopPeer, loopRoute⟩

theorem loop_honest : loop.Honest idealOpen := by
  have ha : loopRoute (trimEndSlashes "http://a" ++ "/oag/transfer/v1/fetch") = some 0 := by decide
  have hb : loopRoute (trimEndSlashes "http://b" ++ "/oag/transfer/v1/fetch") = some 1 := by decide
  change ∀ i : Fin 2, ∀ peer ∈ (loopPeer i).relayPeers, ∀ j : Fin 2, loopRoute (fetchUrl peer) = some j →
    (loopPeer j).identity.peerId idealOpen = peer.peerId
  intro i peer hpeer j hroute
  match i with
  | 0 =>
    obtain rfl := List.mem_singleton.1 hpeer
    rw [fetchUrl, hb] at hroute
    cases hroute
    rfl
  | 1 =>
    obtain rfl := List.mem_singleton.1 hpeer
    rw [fetchUrl, ha] at hroute
    cases hroute
    rfl

theorem relay_terminates_loop : RelayTerminates loop idealOpen (0 : Fin 2)
    (idealOpen.buildAndSignRequest peerC "cid" (List.replicate 32 0) 0 3 []) :=
  relay_terminates loop_honest _ _

end TransferNetwork

end OpenAgentGraph
