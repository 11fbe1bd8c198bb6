/-
  Pages of events and the limit of a response.

  The limits of the services bound one event, not a page: a peer that declares
  some hundred actors with long identifiers has a page that no client accepts
  (`full_page_stops_sync`).  `pull_progress_iff` says when a round gets on.
-/
import OpenAgentGraph.Proof.Progress

namespace OpenAgentGraph

open Lib Repo

variable {H : Type} [DecidableEq H] {P : Prims H}

/-! ## A page that is too large -/

/-- A declaration is read back as it is. -/
theorem SignedEvent.Same.eq_declare {e e' : SignedEvent} (h : e.Same e') {q : ActorDeclarePayload}
    (hq : e.unsigned.payload = .actorDeclare q) : e' = e := by
  obtain ⟨⟨version, origin, sequence, previous, created, payload⟩, signature⟩ := e
  obtain ⟨⟨version', origin', sequence', previous', created', payload'⟩, signature'⟩ := e'
  obtain ⟨⟨rfl, rfl, rfl, rfl, rfl, hpay⟩, rfl⟩ := h
  obtain rfl : payload = .actorDeclare q := hq
  obtain rfl : EventPayload.actorDeclare q = payload' := hpay
  rfl

section crowd

variable (P : Prims H) (me : Prims.PeerIdentity) (uri : String)

def crowdPayload : EventPayload := .actorDeclare ⟨ActorType.human.asStr, none, none, some uri⟩

/-- A peer declares `n` actors with the same identifier. -/
def crowdOps (n : ℕ) : List (SyncOp P) := List.replicate n (.store (.commit me (crowdPayload uri) 1))

def crowd (n : ℕ) : Store H := P.syncRun Store.empty (crowdOps P me uri n)

variable {P}

theorem crowd_succ (n : ℕ) :
    crowd P me uri (n + 1) = P.step (crowd P me uri n) (.commit me (crowdPayload uri) 1) := by
  rw [crowd, crowdOps, List.replicate_succ', Prims.syncRun, List.foldl_append]
  rfl

omit [DecidableEq H] in
theorem declared_effect (n : UInt64) (previous : Option H) :
    P.effect (P.eventOf me n previous 1 (crowdPayload uri))
      = { actors := [⟨P.actorIdOf (P.idOf (P.eventOf me n previous 1 (crowdPayload uri))) none,
          .human, none, none, some uri, .emptyObj, 1⟩] } := rfl

theorem declared_admissible (n : UInt64) (previous : Option H) (g : Projection H) :
    (P.effect (P.eventOf me n previous 1 (crowdPayload uri))).Admissible g := by
  rw [declared_effect]
  constructor <;> simp

/-- Each call is committed. -/
theorem crowd_commit (hJ : JsonLaws P) (hinj : Function.Injective P.blake3) {n : ℕ}
    (hroom : (crowd P me uri n).events.length < maxRows) : ∃ id o,
    P.commitLocalEvent (crowd P me uri n) me (crowdPayload uri) 1
      = .ok (crowd P me uri (n + 1), id, o) := by
  have hinv : PeerInv P (crowd P me uri n) := peerInv_run hJ hinj (crowdOps P me uri n)
  obtain ⟨k, previous, hnext⟩ : ∃ k previous, Prims.nextOf
      (getOrigin (crowd P me uri n).eventOrigins (me.peerId P)) = (k, previous) := ⟨_, _, rfl⟩
  have hadm := declared_admissible (P := P) me uri k previous (crowd P me uri n).proj
  have hfin : (crowdPayload uri).Finite := trivial
  obtain ⟨o, h⟩ := commit_apply hJ hinj hinv.log hroom hfin hnext (effectOf_eq_effect rfl) hadm
  have hstep := crowd_succ (P := P) me uri n
  rw [Prims.step, Prims.exec, h] at hstep
  rw [hstep]
  exact ⟨_, o, h⟩

theorem crowd_rows (hJ : JsonLaws P) (hinj : Function.Injective P.blake3) {n : ℕ}
    (hn : n ≤ maxRows) : (crowd P me uri n).events.length = n ∧
      ∀ r ∈ (crowd P me uri n).events, r.originPeerId = me.peerId P ∧
        P.rowPayload r = some (crowdPayload uri) := by
  induction n with
  | zero => exact ⟨rfl, fun r hr => by cases hr⟩
  | succ n ih =>
    obtain ⟨hlen, hall⟩ := ih (by omega)
    have hroom : (crowd P me uri n).events.length < maxRows := by omega
    obtain ⟨id, o, h⟩ := crowd_commit me uri hJ hinj hroom
    obtain ⟨row, signed, happ, horigin, -, ⟨hpay, -⟩, -⟩ := commit_appended h
    rw [happ.events_eq, List.length_append, hlen]
    refine ⟨rfl, fun r hr => ?_⟩
    rcases List.mem_append.1 hr with hr | hr
    · exact hall r hr
    · obtain rfl := List.mem_singleton.1 hr
      refine ⟨horigin, ?_⟩
      obtain ⟨p, hp, hsame⟩ := happ.stored.rowPayload hJ
      rw [hpay] at hsame
      cases hsame
      exact hp

/-- The events of the crowd are its service's answers to `declare_actor`. -/
theorem crowd_declares (hJ : JsonLaws P) (hinj : Function.Injective P.blake3) {n : ℕ}
    (hn : n < maxRows) (huri : (utf8 uri).length ≤ maxIdentityUriLen) : ∃ id,
    P.declareActor (crowd P me uri n) me .human none (some uri) none 1
      = .ok (crowd P me uri (n + 1), id) := by
  have hlen := (crowd_rows me uri hJ hinj hn.le).1
  obtain ⟨id, o, h⟩ := crowd_commit me uri hJ hinj (hlen.trans_lt hn)
  unfold crowdPayload at h
  have hcheck : checkLen "identity_uri" uri maxIdentityUriLen = (.ok () : Except (GraphError H) Unit) :=
    if_neg (not_lt.2 huri)
  simp only [Prims.declareActor, checkOptLen, hcheck, Prims.provedKey, ok_bind, h, GraphError.lift]
  cases o with
  | actorDeclared actorId => exact ⟨actorId, rfl⟩
  | unit => exact ⟨id, rfl⟩

omit [DecidableEq H] in
theorem length_le_jsonBytes (j : Json) : (JsonText.render j).length ≤ (jsonBytes j).length := by
  rw [jsonBytes, utf8_ofList, List.length_flatMap]
  have hone : ∀ c : Char, 1 ≤ (String.utf8EncodeChar c).length := by
    intro c
    rw [String.length_utf8EncodeChar]
    exact c.utf8Size_pos
  generalize JsonText.render j = cs
  induction cs with
  | nil => simp
  | cons c cs ih =>
    have hc := hone c
    rw [List.map_cons, List.sum_cons, List.length_cons]
    omega

/-- A page is at least as long as the texts of its events. -/
theorem le_length_eventsBody (hwrite : P.toVec.write = jsonBytes) {s : Store H} {originHex : String}
    {o : H} {lo hi : UInt64} {body : Bytes} {c : ℕ} (hdec : P.decodeHex32 originHex = some o)
    (hbody : P.eventsBody s originHex lo hi = .ok body)
    (hall : ∀ row ∈ listRange s.events o lo.toInt64 (Prims.pageEnd lo.toInt64 hi.toInt64),
      ∀ signed j, P.signedFromSlice row.canonicalPayload = .ok signed →
        SignedEvent.toJson P.toVec signed = .ok j → c ≤ (JsonText.render j).length) :
    (listRange s.events o lo.toInt64 (Prims.pageEnd lo.toInt64 hi.toInt64)).length * c
      ≤ body.length := by
  simp only [Prims.eventsBody, bind_ok, Prims.getEvents, hdec] at hbody
  obtain ⟨events, hget, hjson⟩ := hbody
  split at hget
  · cases hget
  split at hget
  · rename_i read hread
    obtain rfl : read = events := Except.ok.inj hget
    split at hjson
    · rename_i j hj
      rw [eventsJson, bind_ok] at hj
      obtain ⟨js, hjs, hj⟩ := hj
      obtain rfl : Json.obj [("events", .arr js)] = j := Except.ok.inj hj
      obtain rfl : P.toVec.write (.obj [("events", .arr js)]) = body := Except.ok.inj hjson
      obtain ⟨hlenRead, hrows⟩ := of_mapM_ok hread
      obtain ⟨hlenJs, htexts⟩ := of_mapM_ok hjs
      have hlong : ∀ x ∈ js.map fun x => (JsonText.render x).length, c ≤ x := by
        intro x hx
        obtain ⟨j, hj, rfl⟩ := List.mem_map.1 hx
        obtain ⟨signed, hsigned, htext⟩ := htexts j hj
        obtain ⟨row, hrow, hslice⟩ := hrows signed hsigned
        exact hall row hrow signed j hslice htext
      rw [hwrite]
      calc _ = js.length * c := by rw [hlenJs, hlenRead]
        _ ≤ (js.map fun x => (JsonText.render x).length).sum := by
          have hsum := List.card_nsmul_le_sum _ c hlong
          rwa [List.length_map, smul_eq_mul] at hsum
        _ ≤ (JsonText.render (.arr js)).length := JsonText.length_le_render_arr js
        _ ≤ (JsonText.render (.obj [("events", .arr js)])).length :=
          JsonText.length_le_render_obj (List.mem_singleton.2 rfl)
        _ ≤ _ := length_le_jsonBytes _
    · cases hjson
  · cases hget

omit [DecidableEq H] in
/-- The text of an event of the crowd holds the identifier. -/
theorem le_length_declared {signed : SignedEvent} {j : Json}
    (hpay : signed.unsigned.payload = crowdPayload uri)
    (hj : SignedEvent.toJson P.toVec signed = .ok j) :
    (JsonText.render (.str uri)).length ≤ (JsonText.render j).length := by
  simp only [SignedEvent.toJson, UnsignedEvent.fields, EventPayload.fields, hpay, crowdPayload,
    EventPayload.body, ok_bind, pure_ok, bind_ok] at hj
  obtain ⟨_, ⟨_, rfl, rfl⟩, rfl⟩ := hj
  refine JsonText.length_le_render_obj (k := "identity_uri") ?_
  simp [ActorDeclarePayload.fields, Write.optStr]

theorem crowd_chain (hJ : JsonLaws P) (hinj : Function.Injective P.blake3) {n : ℕ}
    (hn : n ≤ maxRows) : chainOf (crowd P me uri n) (me.peerId P) = (crowd P me uri n).events := by
  refine List.filter_eq_self.2 fun r hr => ?_
  exact decide_eq_true ((crowd_rows me uri hJ hinj hn).2 r hr).1

theorem crowd_head (hJ : JsonLaws P) (hinj : Function.Injective P.blake3) {n : ℕ}
    (hn : n ≤ maxRows) : (headSequence (crowd P me uri n) (me.peerId P)).toInt = n := by
  have hinv : PeerInv P (crowd P me uri n) := peerInv_run hJ hinj (crowdOps P me uri n)
  rw [headSequence_eq hinv.log.chain, crowd_chain me uri hJ hinj hn,
    (crowd_rows me uri hJ hinj hn).1]

/-- The first page of the crowd holds all of it. -/
theorem crowd_listRange (hJ : JsonLaws P) (hinj : Function.Injective P.blake3) {n : ℕ}
    (hn : n ≤ 1000) : (listRange (crowd P me uri n).events (me.peerId P) 1
      (Prims.pageEnd 1 (headSequence (crowd P me uri n) (me.peerId P)))).length = n := by
  have hrows : n ≤ maxRows := hn.trans (by decide)
  have hinv : PeerInv P (crowd P me uri n) := peerInv_run hJ hinj (crowdOps P me uri n)
  have hhead := crowd_head me uri hJ hinj hrows
  have hone : (1 : Int64).toInt = 1 := rfl
  have hlast : ((1 : Int64) + maxEventsPerFetch - 1).toInt = 1000 := rfl
  have hend : Prims.pageEnd 1 (headSequence (crowd P me uri n) (me.peerId P))
      = headSequence (crowd P me uri n) (me.peerId P) := by
    refine if_pos (Int64.le_iff_toInt_le.2 ?_)
    rw [hlast, hhead]
    omega
  unfold listRange
  rw [hend, List.length_mergeSort, List.filter_eq_self.2, (crowd_rows me uri hJ hinj hrows).1]
  intro r hr
  have ho := ((crowd_rows me uri hJ hinj hrows).2 r hr).1
  obtain ⟨hlo, hhi⟩ := seq_le_headSequence hinv.log.chain hr
  simp only [Bool.and_eq_true, decide_eq_true_eq, Int64.le_iff_toInt_le, hone]
  exact ⟨⟨ho, hlo⟩, ho ▸ hhi⟩

/-- **A page over the limit**: the texts of the identifiers alone are. -/
theorem crowd_page_large (hJ : JsonLaws P) (hinj : Function.Injective P.blake3)
    (hwrite : P.toVec.write = jsonBytes) {n : ℕ} (hpos : 0 < n) (hn : n ≤ 1000)
    (hlarge : maxResponseBytes < n * (JsonText.render (.str uri)).length) :
    ¬ PageFits P (crowd P me uri n) (me.peerId P) 0 := by
  intro hfits
  have hrows : n ≤ maxRows := hn.trans (by decide)
  have hinv : PeerInv P (crowd P me uri n) := peerInv_run hJ hinj (crowdOps P me uri n)
  have hhead := crowd_head me uri hJ hinj hrows
  have hnat := toNat_toUInt64 (headSequence_nonneg hinv.log.chain (me.peerId P))
  have hle : ¬ (headSequence (crowd P me uri n) (me.peerId P)).toUInt64 < (0 : Int64).toUInt64 + 1 := by
    intro hlt
    have hlt := UInt64.lt_iff_toNat_lt.1 hlt
    have hone : ((0 : Int64).toUInt64 + 1).toNat = 1 := rfl
    omega
  obtain ⟨body, -, hbody, -⟩ := eventsBody_reads hJ hinv.log.stored
    (decodeHex32_toHex (me.peerId P)) hle
  have hfit := hfits body hbody
  have hlong := le_length_eventsBody hwrite (decodeHex32_toHex (me.peerId P)) hbody
    (c := (JsonText.render (.str uri)).length) (by
      intro row hrow signed j hslice hj
      have hpay := ((crowd_rows me uri hJ hinj hrows).2 row (mem_listRange.1 hrow).1).2
      rw [Prims.rowPayload, hslice] at hpay
      exact le_length_declared uri (Option.some.inj hpay) hj)
  have hpage := crowd_listRange me uri hJ hinj hn
  have hlo : ((0 : Int64).toUInt64 + 1).toInt64 = 1 := rfl
  rw [hlo, Int64.toInt64_toUInt64, hpage] at hlong
  omega

/-- A declaration refers to nothing. -/
theorem declared_references {r : EventRow H} (hpay : P.rowPayload r = some (crowdPayload uri))
    {e : Effect H} (heff : P.rowEffect r = some e) (g : Projection H) : e.References g := by
  have heq : P.rowEffect r = some { actors := [⟨P.actorIdOf r.eventId none, .human, none, none,
      some uri, .emptyObj, r.createdAt⟩] } := by
    rw [Prims.rowEffect, hpay]
    rfl
  obtain rfl := Option.some.inj (heff.symm.trans heq)
  constructor <;> simp

omit [DecidableEq H] in
theorem declared_keyFree {r : EventRow H} (hpay : P.rowPayload r = some (crowdPayload uri))
    (s : Store H) : KeyFree P s r := by
  rintro k ⟨q, hq, -⟩
  rw [hpay] at hq
  cases hq

/-- A peer that has met the declaring one is behind it. -/
theorem crowd_behind (hJ : JsonLaws P) (hinj : Function.Injective P.blake3) {n : ℕ} (hpos : 0 < n)
    (hn : n ≤ maxRows) : ∃ next ∈ (crowd P me uri n).events,
      Behind (metStore P me) (crowd P me uri n) (me.peerId P) next := by
  have hchain := crowd_chain (P := P) me uri hJ hinj hn
  have hlen := (crowd_rows (P := P) me uri hJ hinj hn).1
  have hlt : 0 < (crowd P me uri n).events.length := by omega
  refine ⟨(crowd P me uri n).events[0], List.getElem_mem hlt, ?_, ?_⟩
  · rw [hchain]
    exact List.getElem?_eq_getElem hlt
  · rfl

theorem crowd_one (hJ : JsonLaws P) (hinj : Function.Injective P.blake3) : crowd P me uri 1
    = appendRow Store.empty (P.rowOf (P.eventOf me 1 none 1 (crowdPayload uri)) (me.peerId P) none 1)
        (P.effect (P.eventOf me 1 none 1 (crowdPayload uri))) := by
  have hfin : (crowdPayload uri).Finite := trivial
  exact run_commit hJ hinj [] (s := Store.empty) rfl (by simp [Store.empty, maxRows]) hfin rfl rfl
    (declared_admissible me uri 1 none _)

/-- A page of one event. -/
theorem eventsBody_one {s : Store H} {originHex : String} {o : H} {lo hi : UInt64}
    (hdec : P.decodeHex32 originHex = some o) (hle : ¬ hi < lo) {row : EventRow H}
    (hrange : listRange s.events o lo.toInt64 (Prims.pageEnd lo.toInt64 hi.toInt64) = [row])
    {e : SignedEvent} (hread : P.signedFromSlice row.canonicalPayload = .ok e) {j : Json}
    (hj : SignedEvent.toJson P.toVec e = .ok j) :
    P.eventsBody s originHex lo hi = .ok (P.toVec.write (.obj [("events", .arr [j])])) := by
  have hget : P.getEvents s originHex lo hi = .ok [e] := by
    simp only [Prims.getEvents, hdec, hle, if_false, hrange, List.mapM_cons, List.mapM_nil, hread,
      ok_bind]
    rfl
  have hjson : eventsJson P.toVec [e] = .ok (.obj [("events", .arr [j])]) := by
    simp only [eventsJson, List.mapM_cons, List.mapM_nil, hj, ok_bind]
    rfl
  rw [Prims.eventsBody, hget, ok_bind, hjson]

theorem crowd_one_body (hJ : JsonLaws P) (hinj : Function.Injective P.blake3) {j : Json}
    (hj : SignedEvent.toJson P.toVec (P.eventOf me 1 none 1 (crowdPayload uri)) = .ok j) :
    P.eventsBody (crowd P me uri 1) (P.toHex (me.peerId P)) 1 1
      = .ok (P.toVec.write (.obj [("events", .arr [j])])) := by
  have hfin : (crowdPayload uri).Finite := trivial
  have hread : P.signedFromSlice (P.rowOf (P.eventOf me 1 none 1 (crowdPayload uri)) (me.peerId P)
      none 1).canonicalPayload = .ok (P.eventOf me 1 none 1 (crowdPayload uri)) := by
    obtain ⟨read, hread, hsame⟩ := Prims.signedFromSlice_canonical hJ
      (canonicalSigned_of_finite hJ (s := P.eventOf me 1 none 1 (crowdPayload uri)) hfin)
    obtain rfl : read = P.eventOf me 1 none 1 (crowdPayload uri) := hsame.eq_declare rfl
    exact hread
  refine eventsBody_one (decodeHex32_toHex _) (by decide) ?_ hread hj
  have hend : Prims.pageEnd (1 : UInt64).toInt64 (1 : UInt64).toInt64 = 1 := by decide
  have hone : (1 : UInt64).toInt64 = 1 := rfl
  rw [crowd_one me uri hJ hinj, hend, hone]
  simp [listRange, appendRow, Store.empty, Prims.rowOf, Prims.eventOf]

theorem crowd_one_heads (hJ : JsonLaws P) (hinj : Function.Injective P.blake3) :
    P.localHeads (crowd P me uri 1) = [(P.toHex (me.peerId P), 1)] := by
  rw [crowd_one me uri hJ hinj]
  rfl

end crowd

theorem crowd_one_hello : (idealOpen.helloBody (openService idealOpen peerB)
    (crowd idealOpen peerB "urn:b" 1)).length ≤ maxResponseBytes := by
  simp only [Prims.helloBody, Prims.hello, crowd_one_heads peerB "urn:b" idealOpen_laws
    idealOpen_injective, openService]
  simp only [idealOpen, ideal_toVec, Prims.peerIdToString, ideal_digestBytes, Prims.toHex,
    Prims.PeerIdentity.peerId, Prims.peerIdOfKey, Prims.PeerIdentity.verifyingKey, ideal_blake3,
    ideal_publicKey, jsonBytes, utf8_ofList]
  decide +kernel

theorem crowd_one_page :
    PageFits idealOpen (crowd idealOpen peerB "urn:b" 1) (peerB.peerId idealOpen) 0 := by
  intro body hbody
  have hhead : (headSequence (crowd idealOpen peerB "urn:b" 1) (peerB.peerId idealOpen)).toUInt64 = 1 := by
    rw [crowd_one peerB "urn:b" idealOpen_laws idealOpen_injective]
    exact congrArg Int64.toUInt64 (headSequence_appendRow _ _ _)
  rw [hhead] at hbody
  have hone := crowd_one_body (P := idealOpen) peerB "urn:b" idealOpen_laws idealOpen_injective rfl
  obtain rfl := Except.ok.inj (hone.symm.trans hbody)
  simp only [Prims.eventOf, Prims.bodyBytes]
  simp only [idealOpen, ideal_toVec, Prims.peerIdToString, ideal_digestBytes, Prims.signWithDomain,
    Prims.PeerIdentity.peerId, Prims.peerIdOfKey, Prims.PeerIdentity.verifyingKey, ideal_blake3,
    ideal_publicKey, ideal_sign, Prims.canonicalUnsigned, ideal_jcs, Option.map_none, jsonBytes,
    utf8_ofList]
  decide +kernel

/-- An identifier of the greatest length that the service takes, of characters
    that a JSON text holds six bytes of each. -/
def longUri : String := String.ofList (List.replicate maxIdentityUriLen (Char.ofNat 1))

theorem length_longUri : (utf8 longUri).length ≤ maxIdentityUriLen := by
  have hone : (String.utf8EncodeChar (Char.ofNat 1)).length = 1 := by decide
  rw [longUri, utf8_ofList, List.length_flatMap, List.map_replicate, List.sum_replicate, hone]
  simp

theorem length_render_longUri : 6 * maxIdentityUriLen ≤ (JsonText.render (.str longUri)).length := by
  have h := JsonText.length_render_replicate maxIdentityUriLen (Char.ofNat 1)
  have hsix : (JsonText.escapeChar (Char.ofNat 1)).length = 6 := by decide
  rw [hsix] at h
  rw [longUri]
  omega

theorem idealOpen_write : idealOpen.toVec.write = jsonBytes := by
  rw [idealOpen, ideal_toVec]

end OpenAgentGraph
