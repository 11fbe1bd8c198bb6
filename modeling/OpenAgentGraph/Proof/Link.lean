/-
  The responses that the calls of a link return.

  * `LinkInv`: what is under way towards the server belongs to the last call's
    request, and what a waiting call has yet to read belongs to the response
    to it;
  * `linkStep_inv`: every step keeps it, as long as a call is made on a quiet
    link only;
  * `responses_match_requests`: a call that returns a response returns the
    server's response to its request.
-/
import OpenAgentGraph.Events.Envelope
import OpenAgentGraph.Ideal
import OpenAgentGraph.Proof.Reassembly
import OpenAgentGraph.Reticulum.Link

namespace OpenAgentGraph

open Lib
open scoped List

/-! ## Chunks -/

theorem takeChunks_flatten {n : ℕ} (hn : 0 < n) (count : ℕ) (b : Bytes) (h : b.length ≤ count) :
    (takeChunks n count b).flatten = b := by
  induction count generalizing b with
  | zero => rw [List.eq_nil_of_length_eq_zero (Nat.le_zero.1 h)]; rfl
  | succ count ih =>
    by_cases hb : b = []
    · simp [takeChunks, hb]
    · have hpos := List.length_pos_iff.2 hb
      have hrest : (b.drop n).length ≤ count := by
        rw [List.length_drop]
        omega
      rw [takeChunks, if_neg hb, List.flatten_cons, ih _ hrest, List.take_append_drop]

@[simp] theorem chunks_flatten (b : Bytes) : (chunks chunkSize b).flatten = b :=
  takeChunks_flatten (by decide) _ b le_rfl

theorem flatten_take_prefix {α : Type} (n : ℕ) (l : List (List α)) :
    (l.take n).flatten <+: l.flatten := by
  obtain ⟨t, ht⟩ := List.take_prefix n l
  exact ⟨t.flatten, by rw [← List.flatten_append, ht]⟩

/-- What is sent of a message is a prefix of it. -/
theorem sent_prefix (n : ℕ) (framed : Bytes) : ((chunks chunkSize framed).take n).flatten <+: framed := by
  have h := flatten_take_prefix n (chunks chunkSize framed)
  rwa [chunks_flatten] at h

/-- A message of at most one chunk. -/
theorem chunks_of_small {b : Bytes} (hb : b ≠ []) (h : b.length ≤ chunkSize) :
    chunks chunkSize b = [b] := by
  have hpos := List.length_pos_iff.2 hb
  obtain ⟨count, hcount⟩ := Nat.exists_eq_add_of_lt hpos
  rw [chunks, show b.length = count + 1 by omega, takeChunks, if_neg hb, List.take_of_length_le h,
    List.drop_of_length_le h]
  cases count <;> simp [takeChunks]

/-! ## Encoding -/

variable {H : Type} {P : Prims H}

theorem readRnRequest_toJson (request : RnRequest) :
    readRnRequest request.toJson.canon = .ok request := by
  cases request with
  | hello => simp [RnRequest.toJson, Json.canon, readRnRequest]
  | peers => simp [RnRequest.toJson, Json.canon, readRnRequest]
  | events originHex lo hi =>
    have hreads : Reads (Json.obj [("origin_hex", .str originHex), ("from", .num (.ofUInt64 lo)),
        ("to", .num (.ofUInt64 hi))]).canon [("origin_hex", .str originHex),
        ("from", .num (.ofUInt64 lo)), ("to", .num (.ofUInt64 hi))] :=
      reads_canon (by simp only [List.map_cons, List.map_nil]; decide)
    simp only [reads_cons, reads_nil, and_true] at hreads
    obtain ⟨h₁, h₂, h₃⟩ := hreads
    have hobj : (RnRequest.events originHex lo hi).toJson.canon
        = .obj [("Events", (Json.obj [("origin_hex", .str originHex), ("from", .num (.ofUInt64 lo)),
            ("to", .num (.ofUInt64 hi))]).canon)] := by
      simp only [RnRequest.toJson]
      rw [Json.canon]
      rfl
    rw [hobj]
    simp only [readRnRequest]
    rw [Read.str_eq h₁, Read.num_eq h₂ (Number.toUInt64?_ofUInt64 _),
      Read.num_eq h₃ (Number.toUInt64?_ofUInt64 _)]
    rfl

theorem decodeRequest_write (hJ : JsonLaws P) (request : RnRequest) :
    P.decodeRequest (P.toVec.write request.toJson) = .ok request := by
  rw [Prims.decodeRequest, decodeMessage, hJ.toVec.fromSlice_write, ok_bind, readRnRequest_toJson]
  rfl

/-- A response, and what a client reads from its encoding. -/
def ReadsAs (P : Prims H) (order : MapOrder) (response r : RnResponse) : Prop :=
  ∃ json, response.toJson P.toVec order = .ok json ∧ P.decodeResponse (P.toVec.write json) = .ok r

theorem encodeResponse_ok {order : MapOrder} {response : RnResponse} {framed : Bytes}
    (h : P.encodeResponse order response = .ok framed) :
    ∃ json, response.toJson P.toVec order = .ok json ∧
      (P.toVec.write json).length ≤ maxMessageBytes ∧ framed = frame (P.toVec.write json) := by
  obtain ⟨bytes, hbytes, hsize, rfl⟩ := encodeMessage_ok h
  obtain ⟨json, hjson, rfl⟩ := map_ok.1 hbytes
  exact ⟨json, hjson, hsize, rfl⟩

theorem encodeRequest_ok {request : RnRequest} {framed : Bytes}
    (h : P.encodeRequest request = .ok framed) :
    (P.toVec.write request.toJson).length ≤ maxMessageBytes ∧
      framed = frame (P.toVec.write request.toJson) := by
  obtain ⟨bytes, hbytes, hsize, rfl⟩ := encodeMessage_ok h
  obtain rfl := Except.ok.inj hbytes
  exact ⟨hsize, rfl⟩

/-! ## The invariant -/

/-- The bytes that the server has yet to make a request of. -/
def LinkState.upstream (st : LinkState) : Bytes :=
  st.server.buffer ++ (st.toServer.map Prod.snd).flatten

/-- Nothing of an earlier call is under way, buffered or unread. -/
def LinkState.Quiet (st : LinkState) : Prop :=
  st.toServer = [] ∧ st.server.buffer = [] ∧ st.toClient = []

/-- The server handled the request of the call, and `r` is how its response reads. -/
def LinkState.Answered (P : Prims H) (order : MapOrder) (st : LinkState) (call : ℕ)
    (r : RnResponse) : Prop :=
  ∃ request response, st.asked[call]? = some request ∧ (call, request, response) ∈ st.handled ∧
    ReadsAs P order response r

/-- What a waiting call has yet to read is empty, or the rest of the response
    to its request. -/
def LinkState.Awaits (P : Prims H) (order : MapOrder) (st : LinkState) (call : ℕ)
    (unread : Bytes) : Prop :=
  unread = [] ∨ st.upstream = [] ∧ ∃ request response json,
    (call, request, response) ∈ st.handled ∧ response.toJson P.toVec order = .ok json ∧
      (P.toVec.write json).length ≤ maxMessageBytes ∧ unread <+: frame (P.toVec.write json)

structure LinkInv (P : Prims H) (order : MapOrder) (st : LinkState) : Prop where
  tags : ∀ p ∈ st.toServer, p.1 + 1 = st.asked.length
  upstream : st.upstream = [] ∨ ∃ request, st.asked.getLast? = some request ∧
    (P.toVec.write request.toJson).length ≤ maxMessageBytes ∧
      st.upstream <+: frame (P.toVec.write request.toJson)
  downstream : ∀ call r, st.client = .waiting call r →
    call + 1 = st.asked.length ∧ st.Awaits P order call (r.buffer ++ st.toClient.flatten)
  handled : ∀ call request response, (call, request, response) ∈ st.handled →
    st.asked[call]? = some request
  returned : ∀ call r, (call, .ok r) ∈ st.returned → st.Answered P order call r

theorem linkInv_init {order : MapOrder} : LinkInv P order {} where
  tags := List.forall_mem_nil _
  upstream := Or.inl rfl
  downstream := fun _ _ h => by cases h
  handled := fun _ _ _ h => by cases h
  returned := fun _ _ h => by cases h

/-- The log of the server grows and the calls stay. -/
theorem LinkState.Answered.mono {order : MapOrder} {st st' : LinkState} {call : ℕ} {r : RnResponse}
    (h : st.Answered P order call r) (hasked : st.asked <+: st'.asked)
    (hhandled : ∀ e ∈ st.handled, e ∈ st'.handled) : st'.Answered P order call r := by
  obtain ⟨request, response, hcall, hmem, hreads⟩ := h
  refine ⟨request, response, ?_, hhandled _ hmem, hreads⟩
  obtain ⟨rest, hrest⟩ := hasked
  obtain ⟨hlt, heq⟩ := List.getElem?_eq_some_iff.1 hcall
  rw [← hrest, List.getElem?_append_left hlt, hcall]

/-- A call that fails returns no response. -/
theorem LinkInv.answered_of_failed {order : MapOrder} {st st' : LinkState} (h : LinkInv P order st)
    (hasked : st.asked <+: st'.asked) (hhandled : ∀ e ∈ st.handled, e ∈ st'.handled) {call : ℕ}
    {e : ReticulumError} {c : ℕ} {r : RnResponse}
    (hmem : (c, .ok r) ∈ st.returned ++ [(call, .error e)]) : st'.Answered P order c r := by
  rcases List.mem_append.1 hmem with hmem | hmem
  · exact (h.returned c r hmem).mono hasked hhandled
  · simp at hmem

/-- Bytes move from the link into the buffer of the server. -/
theorem LinkInv.buffer_upstream {order : MapOrder} {st : LinkState} (h : LinkInv P order st)
    {p : ℕ × Bytes} {rest : List (ℕ × Bytes)} (hto : st.toServer = p :: rest) {r : Reassembler}
    (heq : r.buffer ++ (rest.map Prod.snd).flatten = st.upstream) :
    LinkInv P order { st with toServer := rest, server := r } := by
  have hup : LinkState.upstream { st with toServer := rest, server := r } = st.upstream := heq
  refine ⟨fun p hp => h.tags p (hto ▸ List.mem_cons_of_mem _ hp), ?_, ?_, h.handled, fun c r hmem =>
    (h.returned c r hmem).mono List.prefix_rfl fun _ he => he⟩
  · rw [hup]
    exact h.upstream
  · intro c r hwait
    obtain ⟨hc, hawaits⟩ := h.downstream c r hwait
    refine ⟨hc, ?_⟩
    unfold LinkState.Awaits at hawaits ⊢
    rw [hup]
    exact hawaits

/-- Bytes move from the link into the buffer of the waiting call. -/
theorem LinkInv.buffer_downstream {order : MapOrder} {st : LinkState} (h : LinkInv P order st)
    {call : ℕ} {r r' : Reassembler} (hclient : st.client = .waiting call r) {rest : List Bytes}
    (heq : r'.buffer ++ rest.flatten = r.buffer ++ st.toClient.flatten) :
    LinkInv P order { st with toClient := rest, client := .waiting call r' } := by
  obtain ⟨hcall, hawaits⟩ := h.downstream call r hclient
  refine ⟨h.tags, h.upstream, ?_, h.handled, fun c r hmem =>
    (h.returned c r hmem).mono List.prefix_rfl fun _ he => he⟩
  rintro c r'' hwait
  obtain ⟨rfl, rfl⟩ := ClientState.waiting.inj hwait
  refine ⟨hcall, ?_⟩
  rw [heq]
  exact hawaits

theorem getElem?_of_last {asked : List RnRequest} {call : ℕ} {request : RnRequest}
    (hcall : call + 1 = asked.length) (hlast : asked.getLast? = some request) :
    asked[call]? = some request := by
  rw [List.getLast?_eq_getElem?] at hlast
  rw [← hlast]
  congr 1
  omega

/-! ## Steps -/

section step

variable [DecidableEq H] {server : RnServer H} {st : LinkState}

omit [DecidableEq H] in
/-- A call on a quiet link. -/
theorem sendRequest_inv (h : LinkInv P server.mapOrder st) (hquiet : st.Quiet)
    (hidle : st.client = .idle) (request : RnRequest) (packets : ℕ) :
    LinkInv P server.mapOrder (P.sendRequest st request packets) := by
  obtain ⟨hto, hbuf, hclient⟩ := hquiet
  have hasked : st.asked <+: st.asked ++ [request] := List.prefix_append _ _
  have hhandled : ∀ call q response, (call, q, response) ∈ st.handled →
      (st.asked ++ [request])[call]? = some q := by
    intro call q response hmem
    have hcall := h.handled call q response hmem
    obtain ⟨hlt, -⟩ := List.getElem?_eq_some_iff.1 hcall
    rw [List.getElem?_append_left hlt, hcall]
  unfold Prims.sendRequest
  cases hframed : P.encodeRequest request with
  | error e =>
    refine ⟨?_, Or.inl ?_, ?_, hhandled, ?_⟩
    · simp [hto]
    · simp [LinkState.upstream, hto, hbuf]
    · intro call r hwait
      simp [hidle] at hwait
    · intro call r hmem
      refine h.answered_of_failed ?_ ?_ hmem
      · exact hasked
      · exact fun _ he => he
  | ok framed =>
    obtain ⟨hsize, rfl⟩ := encodeRequest_ok hframed
    have hup : st.server.buffer ++ (((st.toServer ++ ((chunks chunkSize
        (frame (P.toVec.write request.toJson))).take packets).map fun c =>
          (st.asked.length, c)).map Prod.snd).flatten)
        <+: frame (P.toVec.write request.toJson) := by
      rw [hto, hbuf, List.nil_append, List.nil_append, List.map_map]
      have hid : (Prod.snd ∘ fun c : Bytes => (st.asked.length, c)) = id := rfl
      rw [hid, List.map_id]
      exact sent_prefix _ _
    have hupstream : ∃ q, (st.asked ++ [request]).getLast? = some q ∧
        (P.toVec.write q.toJson).length ≤ maxMessageBytes ∧
        st.server.buffer ++ (((st.toServer ++ ((chunks chunkSize
          (frame (P.toVec.write request.toJson))).take packets).map fun c =>
            (st.asked.length, c)).map Prod.snd).flatten) <+: frame (P.toVec.write q.toJson) :=
      ⟨request, by simp, hsize, hup⟩
    have htags : ∀ p ∈ st.toServer ++ ((chunks chunkSize
        (frame (P.toVec.write request.toJson))).take packets).map fun c => (st.asked.length, c),
        p.1 + 1 = (st.asked ++ [request]).length := by
      intro p hp
      rw [hto, List.nil_append] at hp
      obtain ⟨c, -, rfl⟩ := List.mem_map.1 hp
      simp
    simp only
    by_cases hcut : packets < (chunks chunkSize (frame (P.toVec.write request.toJson))).length
    · rw [if_pos hcut]
      refine ⟨htags, Or.inr hupstream, ?_, hhandled, ?_⟩
      · intro call r hwait
        simp [hidle] at hwait
      · intro call r hmem
        refine h.answered_of_failed ?_ ?_ hmem
        · exact hasked
        · exact fun _ he => he
    · rw [if_neg hcut]
      refine ⟨htags, Or.inr hupstream, ?_, hhandled, ?_⟩
      · rintro call r hwait
        obtain ⟨rfl, rfl⟩ := ClientState.waiting.inj hwait
        refine ⟨by simp, Or.inl ?_⟩
        simp [hclient]
      · intro call r hmem
        exact (h.returned call r hmem).mono hasked fun _ he => he

/-- The response to the last request goes on its way. -/
theorem answerMessage_inv (hJ : JsonLaws P) (h : LinkInv P server.mapOrder st) {call : ℕ}
    {request : RnRequest} (hcall : call + 1 = st.asked.length)
    (hlast : st.asked.getLast? = some request) (hup : st.upstream = [])
    (hnew : ∀ call r, st.client = .waiting call r → r.buffer ++ st.toClient.flatten = [])
    (s : Store H) (allowed : Bool) (packets : ℕ) :
    LinkInv P server.mapOrder (P.answerMessage server st call (P.toVec.write request.toJson) s allowed
      packets) := by
  simp only [Prims.answerMessage, decodeRequest_write hJ]
  generalize hresp : Prims.Reticulum.rateLimitedHandleRequest P server.texts server.selfPeerId
    server.selfPublicKey s allowed request = response
  have hhandled : ∀ c q resp, (c, q, resp) ∈ st.handled ++ [(call, request, response)] →
      st.asked[c]? = some q := by
    intro c q resp hmem
    rcases List.mem_append.1 hmem with hmem | hmem
    · exact h.handled c q resp hmem
    · obtain ⟨rfl, rfl, rfl⟩ : c = call ∧ q = request ∧ resp = response := by simpa using hmem
      exact getElem?_of_last hcall hlast
  have hgrow : ∀ e ∈ st.handled, e ∈ st.handled ++ [(call, request, response)] := fun e he =>
    List.mem_append_left _ he
  cases hframed : P.encodeResponse server.mapOrder response with
  | error e =>
    refine ⟨h.tags, Or.inl hup, ?_, hhandled, fun c r hmem => ?_⟩
    · intro c r hwait
      exact ⟨(h.downstream c r hwait).1, Or.inl (hnew c r hwait)⟩
    · exact (h.returned c r hmem).mono List.prefix_rfl hgrow
  | ok framed =>
    obtain ⟨json, hjson, hsize, rfl⟩ := encodeResponse_ok hframed
    refine ⟨h.tags, Or.inl hup, ?_, hhandled, fun c r hmem => ?_⟩
    · intro c r hwait
      have hc := (h.downstream c r hwait).1
      obtain rfl : c = call := by omega
      refine ⟨hc, Or.inr ⟨hup, request, response, json, List.mem_append_right _ (List.mem_cons_self ..),
        hjson, hsize, ?_⟩⟩
      obtain ⟨hbuf, hempty⟩ := List.append_eq_nil_iff.1 (hnew c r hwait)
      rw [hbuf, List.nil_append, List.flatten_append, hempty, List.nil_append]
      exact sent_prefix _ _
    · exact (h.returned c r hmem).mono List.prefix_rfl hgrow

/-- A chunk reaches the server. -/
theorem serverData_inv (hJ : JsonLaws P) (h : LinkInv P server.mapOrder st) (s : Store H)
    (allowed : Bool) (packets : ℕ) :
    LinkInv P server.mapOrder (P.serverData server st s allowed packets) := by
  unfold Prims.serverData
  cases hto : st.toServer with
  | nil => exact h
  | cons p rest =>
    obtain ⟨call, chunk⟩ := p
    have hstream : st.upstream = st.server.buffer ++ chunk ++ (rest.map Prod.snd).flatten := by
      rw [LinkState.upstream, hto, List.map_cons, List.flatten_cons, List.append_assoc]
    have htags : ∀ p ∈ rest, p.1 + 1 = st.asked.length := fun p hp =>
      h.tags p (hto ▸ List.mem_cons_of_mem _ hp)
    have hcall : call + 1 = st.asked.length := h.tags (call, chunk) (hto ▸ List.mem_cons_self ..)
    rcases h.upstream with hnil | ⟨request, hlast, hsize, t, ht⟩
    · rw [hstream] at hnil
      obtain ⟨hbuf, hrest⟩ := List.append_eq_nil_iff.1 hnil
      simp only [push_nil hbuf]
      refine h.buffer_upstream hto ?_
      rw [hstream, hbuf]
    · rw [hstream, List.append_assoc] at ht
      rcases push_frame hsize (ht.trans (List.append_nil _).symm) with ⟨-, hpush⟩ | ⟨left, hpush, hleft⟩
      · simp only [hpush]
        exact h.buffer_upstream hto hstream.symm
      · -- the request is complete, and nothing is left behind it
        simp only [hpush]
        obtain ⟨rfl, hafter⟩ := List.append_eq_nil_iff.1 hleft
        obtain ⟨hrest, rfl⟩ := List.append_eq_nil_iff.1 hafter
        have hup : LinkState.upstream { st with toServer := rest, server := ⟨[]⟩ } = [] := by
          simp only [LinkState.upstream, hrest, List.append_nil]
        have hnonempty : st.upstream ≠ [] := by
          intro hnil
          rw [hstream] at hnil
          rw [← List.append_assoc, List.append_nil, hnil] at ht
          have hlen := congrArg List.length ht
          simp [lenPrefixBytes] at hlen
          omega
        have hunread : ∀ c r, st.client = .waiting c r → r.buffer ++ st.toClient.flatten = [] := by
          intro c r hwait
          exact (h.downstream c r hwait).2.resolve_right fun hcon => hnonempty hcon.1
        refine answerMessage_inv hJ ⟨htags, Or.inl hup, ?_, h.handled, fun c r hmem =>
          (h.returned c r hmem).mono List.prefix_rfl fun _ he => he⟩ hcall hlast hup hunread s allowed
          packets
        intro c r hwait
        exact ⟨(h.downstream c r hwait).1, Or.inl (hunread c r hwait)⟩

omit [DecidableEq H] in
/-- A chunk reaches the client. -/
theorem clientData_inv (h : LinkInv P server.mapOrder st) :
    LinkInv P server.mapOrder (P.clientData st) := by
  unfold Prims.clientData
  cases hclient : st.client with
  | idle => exact h
  | waiting call reassembler =>
    cases hto : st.toClient with
    | nil => exact h
    | cons chunk rest =>
      obtain ⟨-, hawaits⟩ := h.downstream call reassembler hclient
      have hstream : reassembler.buffer ++ st.toClient.flatten
          = reassembler.buffer ++ chunk ++ rest.flatten := by
        rw [hto, List.flatten_cons, List.append_assoc]
      rcases hawaits with hnil | ⟨hup, request, response, json, hmem, hjson, hsize, t, ht⟩
      · rw [hstream] at hnil
        obtain ⟨hbuf, hrest⟩ := List.append_eq_nil_iff.1 hnil
        simp only [push_nil hbuf]
        refine h.buffer_downstream hclient ?_
        rw [hstream, hbuf]
      · rw [hstream, List.append_assoc] at ht
        rcases push_frame hsize (ht.trans (List.append_nil _).symm) with ⟨-, hpush⟩ | ⟨left, hpush, -⟩
        · simp only [hpush]
          exact h.buffer_downstream hclient hstream.symm
        · simp only [hpush]
          refine ⟨h.tags, h.upstream, fun c r hwait => (by cases hwait), h.handled, ?_⟩
          intro c r hret
          rcases List.mem_append.1 hret with hret | hret
          · exact (h.returned c r hret).mono List.prefix_rfl fun _ he => he
          · obtain ⟨rfl, hdec⟩ : c = call ∧ .ok r = (P.decodeResponse (P.toVec.write json)).mapError
                fun _ => ReticulumError.framing := by simpa using hret
            exact ⟨request, response, h.handled _ _ _ hmem, hmem, json, hjson,
              mapError_ok.1 hdec.symm⟩

/-- **Every step keeps the invariant, as long as a call is made on a quiet link
    only.** -/
theorem linkStep_inv (hJ : JsonLaws P) (h : LinkInv P server.mapOrder st) (op : LinkOp H)
    (hquiet : ∀ request packets, op = .sendRequest request packets → st.client = .idle → st.Quiet) :
    LinkInv P server.mapOrder (P.linkStep server st op) := by
  cases op with
  | sendRequest request packets =>
    simp only [Prims.linkStep]
    cases hclient : st.client with
    | idle => exact sendRequest_inv h (hquiet _ _ rfl hclient) hclient request packets
    | waiting call r => exact h
  | serverData s allowed packets => exact serverData_inv hJ h s allowed packets
  | clientData => exact clientData_inv h
  | timeout =>
    simp only [Prims.linkStep]
    cases hclient : st.client with
    | idle => exact h
    | waiting call r =>
      refine ⟨h.tags, h.upstream, fun c r hwait => (by cases hwait), h.handled, fun c r hmem => ?_⟩
      rcases List.mem_append.1 hmem with hmem | hmem
      · exact (h.returned c r hmem).mono List.prefix_rfl fun _ he => he
      · simp at hmem

end step

/-! ## Main result -/

/-- **A call that returns a response returns the server's response to its
    request**, in every run whose calls are made on a quiet link. -/
theorem responses_match_requests [DecidableEq H] (hJ : JsonLaws P) (server : RnServer H)
    (ops : List (LinkOp H))
    (hquiet : ∀ before request packets after, ops = before ++ .sendRequest request packets :: after →
      (P.linkRun server before).client = .idle → (P.linkRun server before).Quiet) :
    ∀ call r, (call, .ok r) ∈ (P.linkRun server ops).returned →
      (P.linkRun server ops).Answered P server.mapOrder call r := by
  have hinv : LinkInv P server.mapOrder (P.linkRun server ops) := by
    induction ops using List.reverseRecOn with
    | nil => exact linkInv_init
    | append_singleton ops op ih =>
      have hbefore : LinkInv P server.mapOrder (P.linkRun server ops) := by
        refine ih fun before request packets after heq => ?_
        refine hquiet before request packets (after ++ [op]) ?_
        rw [heq, List.append_assoc, List.cons_append]
      have hrun : P.linkRun server (ops ++ [op]) = P.linkStep server (P.linkRun server ops) op := by
        simp only [Prims.linkRun, List.foldl_append, List.foldl_cons, List.foldl_nil]
      rw [hrun]
      refine linkStep_inv hJ hbefore op ?_
      rintro request packets rfl hidle
      exact hquiet ops request packets [] rfl hidle
  exact hinv.returned

/-! ## Messages of one chunk -/

section small

variable [DecidableEq H] {server : RnServer H}

theorem push_whole {m : Bytes} (hsize : m.length ≤ maxMessageBytes) :
    ({} : Reassembler).push (frame m) = ({}, .ok (some m)) := by
  have hstream : ({} : Reassembler).buffer ++ frame m ++ [] = frame m ++ [] := rfl
  rcases push_frame hsize hstream with ⟨hshort, -⟩ | ⟨left, hpush, hleft⟩
  · simp at hshort
  · rw [List.append_nil] at hleft
    rw [hpush, hleft]

theorem chunks_frame {m : Bytes} (hsmall : m.length ≤ 1396) : chunks chunkSize (frame m) = [frame m] := by
  refine chunks_of_small ?_ ?_
  · intro h
    have hlen := congrArg List.length h
    simp [lenPrefixBytes] at hlen
  · simp only [length_frame, lenPrefixBytes, chunkSize]
    omega

theorem encodeMessage_small {α : Type} {toVec : α → Except SerdeError Bytes} {msg : α} {m : Bytes}
    (h : toVec msg = .ok m) (hsmall : m.length ≤ 1396) : encodeMessage toVec msg = .ok (frame m) := by
  have hsize : ¬ maxMessageBytes < m.length := by
    simp only [maxMessageBytes]
    omega
  simp only [encodeMessage, h, if_neg hsize]

omit [DecidableEq H] in
theorem sendRequest_small (st : LinkState) {request : RnRequest}
    (hsmall : (P.toVec.write request.toJson).length ≤ 1396) :
    P.sendRequest st request 1 = { st with
      asked := st.asked ++ [request]
      toServer := st.toServer ++ [(st.asked.length, frame (P.toVec.write request.toJson))]
      client := .waiting st.asked.length {} } := by
  have henc : P.encodeRequest request = .ok (frame (P.toVec.write request.toJson)) :=
    encodeMessage_small rfl hsmall
  simp only [Prims.sendRequest, henc, chunks_frame hsmall, List.length_singleton, lt_irrefl, if_false]
  rfl

/-- The server answers the request at the head of what is under way. -/
theorem serverData_small (hJ : JsonLaws P) {st : LinkState} {call : ℕ} {request : RnRequest}
    {rest : List (ℕ × Bytes)} (hbuf : st.server = {})
    (hto : st.toServer = (call, frame (P.toVec.write request.toJson)) :: rest)
    (hsmall : (P.toVec.write request.toJson).length ≤ 1396) (s : Store H) {response : RnResponse}
    (hresp : Prims.Reticulum.handleRequest P server.texts server.selfPeerId server.selfPublicKey s
      request = response) {json : Json} (hjson : response.toJson P.toVec server.mapOrder = .ok json)
    (hjsonSmall : (P.toVec.write json).length ≤ 1396) :
    P.serverData server st s true 1 = { st with
      toServer := rest
      handled := st.handled ++ [(call, request, response)]
      toClient := st.toClient ++ [frame (P.toVec.write json)] } := by
  have hsize : (P.toVec.write request.toJson).length ≤ maxMessageBytes := by
    simp only [maxMessageBytes]
    omega
  have henc : P.encodeResponse server.mapOrder response = .ok (frame (P.toVec.write json)) :=
    encodeMessage_small (by rw [hjson]; rfl) hjsonSmall
  simp only [Prims.serverData, hto, hbuf, push_whole hsize, Prims.answerMessage,
    decodeRequest_write hJ, Prims.Reticulum.rateLimitedHandleRequest, if_true, hresp, henc,
    chunks_frame hjsonSmall]
  rfl

omit [DecidableEq H] in
/-- The client reads a response of one chunk. -/
theorem clientData_small {st : LinkState} {call : ℕ} {m : Bytes} {rest : List Bytes}
    (hclient : st.client = .waiting call {}) (hto : st.toClient = frame m :: rest)
    (hsmall : m.length ≤ 1396) {r : RnResponse} (hdec : P.decodeResponse m = .ok r) :
    P.clientData st = { st with
      toClient := rest
      client := .idle
      returned := st.returned ++ [(call, .ok r)] } := by
  have hsize : m.length ≤ maxMessageBytes := by
    simp only [maxMessageBytes]
    omega
  simp only [Prims.clientData, hclient, hto, push_whole hsize, hdec]
  rfl

end small

/-! ## A late response -/

/-- The JSON text of a list of no peers. -/
def noPeersJson : Json := .obj [("Peers", .obj [("peers", .arr [])])]

theorem decodeResponse_noPeers (hJ : JsonLaws P) :
    P.decodeResponse (P.toVec.write noPeersJson) = .ok (.peers []) := by
  rw [Prims.decodeResponse, decodeMessage, hJ.toVec.fromSlice_write, ok_bind]
  rfl

/-- A server that knows no peer. -/
noncomputable def emptyServer : RnServer Bytes where
  selfPeerId := peerA.peerId idealOpen
  selfPublicKey := (peerA.verifyingKey idealOpen).bytes
  mapOrder := ⟨id, fun m => .refl m⟩
  texts := ⟨fun _ => "", fun _ => ""⟩

theorem peersRequest_small : (idealOpen.toVec.write RnRequest.peers.toJson).length ≤ 1396 := by
  simp only [idealOpen, ideal_toVec, jsonBytes, utf8_ofList]
  decide +kernel

theorem helloRequest_small : (idealOpen.toVec.write RnRequest.hello.toJson).length ≤ 1396 := by
  simp only [idealOpen, ideal_toVec, jsonBytes, utf8_ofList]
  decide +kernel

theorem noPeersJson_small : (idealOpen.toVec.write noPeersJson).length ≤ 1396 := by
  simp only [idealOpen, ideal_toVec, jsonBytes, utf8_ofList]
  decide +kernel

theorem handleRequest_noPeers [DecidableEq H] (t : LibraryTexts) (selfPeerId : H)
    (selfPublicKey : Bytes) :
    Prims.Reticulum.handleRequest P t selfPeerId selfPublicKey Store.empty .peers = .peers [] := by
  simp only [Prims.Reticulum.handleRequest, Prims.Reticulum.handlePeers, Repo.listPeers, Store.empty,
    List.mergeSort_nil, List.mapM_nil]
  rfl

theorem serverData_noPeers {st : LinkState} {call : ℕ} {rest : List (ℕ × Bytes)}
    (hbuf : st.server = {})
    (hto : st.toServer = (call, frame (idealOpen.toVec.write RnRequest.peers.toJson)) :: rest) :
    idealOpen.serverData emptyServer st Store.empty true 1 = { st with
      toServer := rest
      handled := st.handled ++ [(call, .peers, .peers [])]
      toClient := st.toClient ++ [frame (idealOpen.toVec.write noPeersJson)] } :=
  serverData_small idealOpen_laws hbuf hto peersRequest_small Store.empty
    (handleRequest_noPeers _ _ _) rfl noPeersJson_small

theorem clientData_noPeers {st : LinkState} {call : ℕ} {rest : List Bytes}
    (hclient : st.client = .waiting call {})
    (hto : st.toClient = frame (idealOpen.toVec.write noPeersJson) :: rest) :
    idealOpen.clientData st = { st with
      toClient := rest
      client := .idle
      returned := st.returned ++ [(call, .ok (.peers []))] } :=
  clientData_small hclient hto noPeersJson_small (decodeResponse_noPeers idealOpen_laws)

/-- A client asks for the peers; the server answers; the client reads the answer. -/
def peersCall (H : Type) : List (LinkOp H) :=
  [.sendRequest .peers 1, .serverData Store.empty true 1, .clientData]

theorem peersCall_run : idealOpen.linkRun emptyServer (peersCall Bytes) = {
    asked := [.peers]
    handled := [(0, .peers, .peers [])]
    returned := [(0, .ok (.peers []))] } := by
  simp only [Prims.linkRun, peersCall, List.foldl_cons, List.foldl_nil, Prims.linkStep]
  rw [sendRequest_small _ peersRequest_small, serverData_noPeers rfl rfl, clientData_noPeers rfl rfl]
  rfl

theorem responses_match_requests_peers :
    (idealOpen.linkRun emptyServer (peersCall Bytes)).Answered idealOpen emptyServer.mapOrder 0
      (.peers []) := by
  refine responses_match_requests idealOpen_laws emptyServer (peersCall Bytes) ?_ 0 (.peers []) ?_
  · intro before request packets after heq _
    rcases before with _ | ⟨op, _ | ⟨op', _ | ⟨op'', rest⟩⟩⟩
    · exact ⟨rfl, rfl, rfl⟩
    · simp [peersCall] at heq
    · simp [peersCall] at heq
    · simp [peersCall] at heq
  · rw [peersCall_run]
    exact List.mem_cons_self ..

/-- The call for the peers times out, and the next call reads its response. -/
def lateLinkOps (H : Type) : List (LinkOp H) :=
  [.sendRequest .peers 1, .timeout, .sendRequest .hello 1, .serverData Store.empty true 1, .clientData]

theorem lateLinkOps_run : idealOpen.linkRun emptyServer (lateLinkOps Bytes) = {
    toServer := [(1, frame (idealOpen.toVec.write RnRequest.hello.toJson))]
    asked := [.peers, .hello]
    handled := [(0, .peers, .peers [])]
    returned := [(0, .error .responseTimeout), (1, .ok (.peers []))] } := by
  simp only [Prims.linkRun, lateLinkOps, List.foldl_cons, List.foldl_nil, Prims.linkStep]
  rw [sendRequest_small _ peersRequest_small]
  simp only []
  rw [sendRequest_small _ helloRequest_small, serverData_noPeers rfl rfl, clientData_noPeers rfl rfl]
  rfl

theorem late_response_returned :
    let st := idealOpen.linkRun emptyServer (lateLinkOps Bytes)
    st.asked[1]? = some .hello ∧ (1, .ok (.peers [])) ∈ st.returned ∧
      ¬ st.Answered idealOpen emptyServer.mapOrder 1 (.peers []) := by
  intro st
  have hst : st = _ := lateLinkOps_run
  rw [hst]
  refine ⟨rfl, by simp, ?_⟩
  rintro ⟨request, response, -, hmem, -⟩
  simp at hmem

end OpenAgentGraph
