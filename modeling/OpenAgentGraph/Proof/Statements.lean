/-
  What the holder of a key has said.

  A key signs statements of eight kinds, each after the domain of its kind: the
  events of its origin, proofs that an actor holds it, and what a peer says of
  itself, asks of another one, or answers.

  * `fields_canon`: canonical JSON keeps every field of a message;
  * `message_alike`: a message is that of one statement, and of one kind;
  * `only_said`: what any part of the program accepts under the key, the holder
    has said, as a statement of that kind.
-/
import OpenAgentGraph.Lib.Domains
import OpenAgentGraph.Proof.Framing
import OpenAgentGraph.Proof.Freshness
import OpenAgentGraph.Proof.Possession
import OpenAgentGraph.Proof.Progress
import OpenAgentGraph.Proof.Receive

namespace OpenAgentGraph

open Lib Repo Write

variable {H : Type}

/-! ## Statements -/

inductive StatementKind
  | event | keyProof | presence | cluster
  | gatewayRequest | gatewayResponse | transferRequest | transferReceipt
  deriving DecidableEq

def StatementKind.domain : StatementKind → String
  | event => Prims.eventIdPrefix
  | keyProof => actorKeyProofDomain
  | presence => presenceDomain
  | cluster => clusterDomain
  | gatewayRequest => gatewayRequestDomain
  | gatewayResponse => gatewayResponseDomain
  | transferRequest => transferRequestDomain
  | transferReceipt => transferReceiptDomain

/-- What a key signs. -/
inductive Statement
  | event (unsigned : UnsignedEvent)
  | keyProof (actorType : ActorType) (name identityUri : Option String)
  | presence (unsigned : UnsignedPresenceHeartbeat)
  | cluster (unsigned : UnsignedClusterDeclaration)
  | gatewayRequest (unsigned : UnsignedGatewayRequest)
  | gatewayResponse (unsigned : UnsignedGatewayResponse)
  | transferRequest (unsigned : UnsignedTransferRequest)
  | transferReceipt (unsigned : UnsignedTransferReceipt)

def Statement.kind : Statement → StatementKind
  | event _ => .event
  | keyProof .. => .keyProof
  | presence _ => .presence
  | cluster _ => .cluster
  | gatewayRequest _ => .gatewayRequest
  | gatewayResponse _ => .gatewayResponse
  | transferRequest _ => .transferRequest
  | transferReceipt _ => .transferReceipt

def Statement.toJson (w : Serializer) : Statement → Except SerdeError Json
  | event u => u.toJson w
  | keyProof actorType name identityUri => .ok (actorKeyProofMessage actorType name identityUri)
  | presence u => .ok u.toJson
  | cluster u => .ok u.toJson
  | gatewayRequest u => .ok u.toJson
  | gatewayResponse u => .ok u.toJson
  | transferRequest u => .ok u.toJson
  | transferReceipt u => .ok (.obj u.members)

/-- The bytes after the domain. -/
def Statement.canonical (P : Prims H) (s : Statement) : Except SerdeError Bytes :=
  P.jcs.write <$> s.toJson P.jcs

/-- Statements that are the same but for what JSON does not tell apart: of
    events, those with the same JSON. -/
def Statement.Alike (w : Serializer) : Statement → Statement → Prop
  | event u, event u' => u.fields w = u'.fields w
  | s, s' => s = s'

/-! ## Domains -/

theorem domain_prefixFree : PrefixFree fun k : StatementKind => utf8 k.domain := by
  intro k k' h
  cases k <;> cases k' <;> first | rfl | exact absurd h (by decide)

/-! ## Canonical JSON keeps the fields -/

/-- **Objects with the same distinct keys** and the same canonical form have
    the same values. -/
theorem fields_canon {fs fs' : List (String × Json)} (h : (Json.obj fs).canon = (Json.obj fs').canon)
    (hkeys : fs.map Prod.fst = fs'.map Prod.fst) (hnd : (fs.map Prod.fst).Nodup) :
    fs.map (fun e => e.2.canon) = fs'.map (fun e => e.2.canon) := by
  have hvalues : ∀ {gs : List (String × Json)}, (gs.map Prod.fst).Nodup →
      (gs.map (fun e => e.2.canon)).map some = (gs.map Prod.fst).map (Json.obj gs).canon.get? := by
    intro gs hgs
    rw [List.map_map, List.map_map]
    refine List.map_congr_left fun e he => ?_
    exact (reads_canon hgs e he).symm
  refine List.map_injective_iff.2 (Option.some_injective Json) ?_
  rw [hvalues hnd, hvalues (hkeys ▸ hnd), hkeys, h]

theorem canon_str (s : String) : (Json.str s).canon = .str s := by rw [Json.canon]

theorem canon_num (n : Number) : (Json.num n).canon = .num n := by rw [Json.canon]

theorem i64_inj {a b : Int64} : i64 a = i64 b ↔ a = b := by
  refine ⟨fun h => ?_, congrArg i64⟩
  have h' := congrArg Number.toInt64? (Json.num.inj h)
  rwa [Number.toInt64?_ofInt64, Number.toInt64?_ofInt64, Option.some.injEq] at h'

theorem ofUInt16_inj {a b : UInt16} : Number.ofUInt16 a = Number.ofUInt16 b ↔ a = b := by
  refine ⟨fun h => ?_, congrArg Number.ofUInt16⟩
  have h' := congrArg Number.toUInt16? h
  rwa [Number.toUInt16?_ofUInt16, Number.toUInt16?_ofUInt16, Option.some.injEq] at h'

theorem canon_i64 (n : Int64) : (i64 n).canon = i64 n := canon_num _

theorem canon_optStr (o : Option String) : (optStr o).canon = optStr o := by
  cases o with
  | none => rw [optStr, Option.elim_none, Json.canon]
  | some s => exact canon_str s

theorem optStr_inj {o o' : Option String} : optStr o = optStr o' ↔ o = o' := by
  cases o <;> cases o' <;> simp [optStr]

/-- An array of leaves is as it was. -/
theorem canon_arr {α : Type} {f : α → Json} (hf : ∀ a, (f a).canon = f a) (xs : List α) :
    (Json.arr (xs.map f)).canon = .arr (xs.map f) := by
  have hlist : Json.canonList (xs.map f) = xs.map f := by
    induction xs with
    | nil => rw [List.map_nil, Json.canonList]
    | cons x xs ih => rw [List.map_cons, Json.canonList, hf, ih]
  rw [Json.canon, hlist]

theorem arr_inj {α : Type} {f : α → Json} (hf : Function.Injective f) {xs ys : List α} :
    Json.arr (xs.map f) = Json.arr (ys.map f) ↔ xs = ys :=
  ⟨fun h => List.map_injective_iff.2 hf (Json.arr.inj h), fun h => by rw [h]⟩

/-! ## The messages -/

theorem PresenceStatus.asStr_injective : Function.Injective PresenceStatus.asStr := by
  intro a b h
  cases a <;> cases b <;> simp_all [asStr]

theorem UnsignedPresenceHeartbeat.eq_of_canon {u u' : UnsignedPresenceHeartbeat}
    (h : u.toJson.canon = u'.toJson.canon) : u = u' := by
  have hfields := fields_canon h rfl (by simp)
  simp only [List.map_cons, List.map_nil, canon_str, canon_i64, List.cons.injEq, Json.str.injEq,
    i64_inj, PresenceStatus.asStr_injective.eq_iff, and_true] at hfields
  obtain ⟨h₁, h₂, h₃, h₄, h₅⟩ := hfields
  cases u
  cases u'
  congr

theorem UnsignedClusterDeclaration.eq_of_canon {u u' : UnsignedClusterDeclaration}
    (h : u.toJson.canon = u'.toJson.canon) : u = u' := by
  have hfields := fields_canon h rfl (by simp)
  simp only [List.map_cons, List.map_nil, canon_str, canon_i64, List.cons.injEq, Json.str.injEq,
    i64_inj, and_true] at hfields
  obtain ⟨h₁, h₂, h₃, h₄⟩ := hfields
  cases u
  cases u'
  congr

theorem GatewayService.canon_toJson (s : GatewayService) : s.toJson.canon = s.toJson := by
  cases s <;> rfl

theorem GatewayService.toJson_injective : Function.Injective GatewayService.toJson := by
  intro s s' h
  cases s <;> cases s' <;> simp_all [toJson]

theorem ServedFrom.canon_toJson (s : ServedFrom) : s.toJson.canon = s.toJson := by
  cases s <;> rfl

theorem ServedFrom.toJson_injective : Function.Injective ServedFrom.toJson := by
  intro s s' h
  cases s <;> cases s' <;> simp_all [toJson]

theorem UnsignedGatewayRequest.eq_of_canon {u u' : UnsignedGatewayRequest}
    (h : u.toJson.canon = u'.toJson.canon) : u = u' := by
  have hfields := fields_canon h rfl (by simp)
  simp only [List.map_cons, List.map_nil, canon_str, canon_i64, canon_num, canon_arr canon_str,
    GatewayService.canon_toJson, List.cons.injEq, Json.str.injEq, Json.num.injEq, i64_inj,
    ofUInt16_inj, arr_inj (f := Json.str) (fun _ _ => Json.str.inj), GatewayService.toJson_injective.eq_iff,
    and_true] at hfields
  obtain ⟨h₁, h₂, h₃, h₄, h₅, h₆, h₇⟩ := hfields
  cases u
  cases u'
  congr
  exact UInt8.toUInt16_inj.1 h₆

theorem canon_single (k : String) (v : Json) : (Json.obj [(k, v)]).canon = .obj [(k, v.canon)] := by
  simp [Json.canon, Json.canonFields, Json.insertWith]

theorem byteJson_injective : Function.Injective fun b : UInt8 => Json.num (.ofUInt16 b.toUInt16) :=
  fun _ _ h => UInt8.toUInt16_inj.1 (ofUInt16_inj.1 (Json.num.inj h))

theorem GatewayResult.eq_of_canon {r r' : GatewayResult} (h : r.toJson.canon = r'.toJson.canon) :
    r = r' := by
  cases r with
  | ntp t =>
    cases r' with
    | ntp t' =>
      simp only [toJson, canon_single, canon_i64, Json.obj.injEq, List.cons.injEq, Prod.mk.injEq,
        i64_inj, true_and, and_true] at h
      rw [h]
    | http => simp [toJson, canon_single] at h
  | http status contentHash body cacheControl =>
    cases r' with
    | ntp => simp [toJson, canon_single] at h
    | http status' contentHash' body' cacheControl' =>
      simp only [toJson, canon_single, Json.obj.injEq, List.cons.injEq, Prod.mk.injEq, true_and,
        and_true] at h
      have hfields := fields_canon h (by simp) (by simp)
      simp only [List.map_cons, List.map_nil, canon_str, canon_num, canon_optStr, List.cons.injEq,
        Json.str.injEq, Json.num.injEq, ofUInt16_inj, optStr_inj, and_true] at hfields
      obtain ⟨hstatus, hhash, hbody, hcache⟩ := hfields
      have hcanon : ∀ bs : Bytes, (Json.arr (bs.map fun b => .num (.ofUInt16 b.toUInt16))).canon
          = .arr (bs.map fun b => .num (.ofUInt16 b.toUInt16)) := canon_arr fun b => canon_num _
      rw [hcanon, hcanon] at hbody
      have hbody := (arr_inj byteJson_injective).1 hbody
      rw [hstatus, hhash, hbody, hcache]

theorem UnsignedGatewayResponse.eq_of_canon {u u' : UnsignedGatewayResponse}
    (h : u.toJson.canon = u'.toJson.canon) : u = u' := by
  have hfields := fields_canon h rfl (by simp)
  simp only [List.map_cons, List.map_nil, canon_str, canon_i64, ServedFrom.canon_toJson,
    List.cons.injEq, Json.str.injEq, i64_inj, ServedFrom.toJson_injective.eq_iff, and_true] at hfields
  obtain ⟨h₁, h₂, h₃, h₄, h₅, h₆⟩ := hfields
  have hresult := GatewayResult.eq_of_canon h₁
  cases u
  cases u'
  congr

theorem UnsignedTransferRequest.eq_of_canon {u u' : UnsignedTransferRequest}
    (h : u.toJson.canon = u'.toJson.canon) : u = u' := by
  have hfields := fields_canon h rfl (by simp)
  simp only [List.map_cons, List.map_nil, canon_str, canon_i64, canon_num, canon_arr canon_str,
    List.cons.injEq, Json.str.injEq, Json.num.injEq, i64_inj, ofUInt16_inj,
    arr_inj (f := Json.str) (fun _ _ => Json.str.inj), and_true] at hfields
  obtain ⟨h₁, h₂, h₃, h₄, h₅, h₆, h₇⟩ := hfields
  have hhops := UInt8.toUInt16_inj.1 h₆
  cases u
  cases u'
  congr

theorem UnsignedTransferReceipt.eq_of_canon {u u' : UnsignedTransferReceipt}
    (h : (Json.obj u.members).canon = (Json.obj u'.members).canon) : u = u' := by
  have hfields := fields_canon h rfl (by simp [members])
  simp only [members, List.map_cons, List.map_nil, canon_str, canon_i64, List.cons.injEq,
    Json.str.injEq, i64_inj, and_true] at hfields
  obtain ⟨h₁, h₂, h₃, h₄, h₅, h₆, h₇, h₈⟩ := hfields
  cases u
  cases u'
  congr

theorem actorKeyProofMessage_inj {actorType actorType' : ActorType}
    {name identityUri name' identityUri' : Option String}
    (h : (actorKeyProofMessage actorType name identityUri).canon
      = (actorKeyProofMessage actorType' name' identityUri').canon) :
    actorType = actorType' ∧ name = name' ∧ identityUri = identityUri' := by
  have hfields := fields_canon h rfl (by simp)
  simp only [List.map_cons, List.map_nil, canon_str, canon_optStr, List.cons.injEq, Json.str.injEq,
    optStr_inj, and_true] at hfields
  obtain ⟨htype, hname, huri⟩ := hfields
  refine ⟨?_, hname, huri⟩
  have hparse := congrArg ActorType.parse htype
  rwa [ActorType.parse_asStr, ActorType.parse_asStr, Option.some.injEq] at hparse

/-! ## One message, one statement -/

section statements

variable {P : Prims H}

theorem canon_of_write (hJ : JsonLaws P) {j j' : Json} (h : P.jcs.write j = P.jcs.write j') :
    j.canon = j'.canon := by
  have hread := congrArg P.fromSlice h
  rw [hJ.jcs.fromSlice_write, hJ.jcs.fromSlice_write] at hread
  exact Except.ok.inj hread

/-- **Statements of a kind with one message** are the same. -/
theorem Statement.alike_of_canonical (hJ : JsonLaws P) {s s' : Statement} (hkind : s.kind = s'.kind)
    {b : Bytes} (h : s.canonical P = .ok b) (h' : s'.canonical P = .ok b) : s.Alike P.jcs s' := by
  have hcanon : ∀ {j j' : Json}, P.jcs.write <$> (Except.ok j : Except SerdeError Json) = .ok b →
      P.jcs.write <$> (Except.ok j' : Except SerdeError Json) = .ok b → j.canon = j'.canon := by
    intro j j' hj hj'
    exact canon_of_write hJ (Except.ok.inj (hj.trans hj'.symm))
  cases s <;> cases s' <;> try cases hkind
  case event.event.refl u u' => exact fields_of_body hJ h h'
  case keyProof.keyProof.refl actorType name uri actorType' name' uri' =>
    obtain ⟨rfl, rfl, rfl⟩ := actorKeyProofMessage_inj (hcanon h h')
    rfl
  case presence.presence.refl u u' =>
    exact congrArg presence (UnsignedPresenceHeartbeat.eq_of_canon (hcanon h h'))
  case cluster.cluster.refl u u' =>
    exact congrArg cluster (UnsignedClusterDeclaration.eq_of_canon (hcanon h h'))
  case gatewayRequest.gatewayRequest.refl u u' =>
    exact congrArg gatewayRequest (UnsignedGatewayRequest.eq_of_canon (hcanon h h'))
  case gatewayResponse.gatewayResponse.refl u u' =>
    exact congrArg gatewayResponse (UnsignedGatewayResponse.eq_of_canon (hcanon h h'))
  case transferRequest.transferRequest.refl u u' =>
    exact congrArg transferRequest (UnsignedTransferRequest.eq_of_canon (hcanon h h'))
  case transferReceipt.transferReceipt.refl u u' =>
    exact congrArg transferReceipt (UnsignedTransferReceipt.eq_of_canon (hcanon h h'))

/-! ## What verifies -/

/-- Under the key only messages of these statements verify: its holder has
    signed no others, and no one else can. -/
def OnlySigned (P : Prims H) (key : P.VerifyingKey) (said : Set Statement) : Prop :=
  ∀ m sig, P.verify key.bytes m sig = true →
    ∃ s ∈ said, ∃ b, s.canonical P = .ok b ∧ m = utf8 s.kind.domain ++ b

/-- The statement was said, or one that JSON does not tell from it. -/
def Said (P : Prims H) (said : Set Statement) (s : Statement) : Prop :=
  ∃ s' ∈ said, s'.Alike P.jcs s

variable {key : P.VerifyingKey} {said : Set Statement}

theorem OnlySigned.verified (hJ : JsonLaws P) (h : OnlySigned P key said) {s : Statement} {b sig : Bytes}
    (hb : s.canonical P = .ok b) (hver : P.verifyWithDomain key s.kind.domain b sig = true) :
    Said P said s := by
  have honly : ∀ m, (∃ sig, P.verify key.bytes m sig = true) →
      ∃ k body, (∃ s ∈ said, s.kind = k ∧ s.canonical P = .ok body) ∧
        m = utf8 (StatementKind.domain k) ++ body := by
    rintro m ⟨sig, hm⟩
    obtain ⟨s, hs, b, hb, rfl⟩ := h m sig hm
    exact ⟨s.kind, b, ⟨s, hs, rfl, hb⟩, rfl⟩
  obtain ⟨s', hs', hkind, hb'⟩ := domain_prefixFree.accepted honly ⟨sig, hver⟩
  exact ⟨s', hs', Statement.alike_of_canonical hJ hkind hb' hb⟩

/-- What a peer says of itself, asks or answers. -/
theorem OnlySigned.signedBy (hJ : JsonLaws P) (hinj : Function.Injective P.blake3)
    (h : OnlySigned P key said) {s : Statement} {b : Bytes} (hb : s.canonical P = .ok b)
    {peerIdText publicKeyText signatureText : String}
    (hsigned : P.SignedBy s.kind.domain peerIdText publicKeyText b signatureText (P.peerIdOfKey key)) :
    Said P said s := by
  obtain ⟨key', sig, -, hkey, -, -, hver⟩ := hsigned
  obtain rfl := peerIdOfKey_injective hinj hkey
  exact h.verified hJ hb hver

/-! ## Events of the key's origin -/

variable [DecidableEq H]

/-- Every stored event of the key's origin is signed with the key. -/
def OriginSigned (P : Prims H) (key : P.VerifyingKey) (s : Store H) : Prop :=
  ∀ row ∈ s.events, row.originPeerId = P.peerIdOfKey key → SignedBy P key row

omit [DecidableEq H] in
theorem Receives.originSigned (hinj : Function.Injective P.blake3) {s s' : Store H}
    (h : Receives P s s') (hs : OriginSigned P key s) : OriginSigned P key s' := by
  intro row hrow horigin
  rcases h.events row hrow with hrow | ⟨key', hkey'⟩
  · exact hs row hrow horigin
  · obtain rfl := peerIdOfKey_injective hinj (hkey'.origin.trans horigin)
    exact hkey'

/-- A transaction of a peer keeps it, unless it commits in the key's name. -/
theorem exec_originSigned (hJ : JsonLaws P) (hinj : Function.Injective P.blake3) {s s' : Store H}
    (hlog : LogStored P s) (hs : OriginSigned P key s) {op : Op P}
    (hother : ∀ identity payload t, op = .commit identity payload t →
      identity.peerId P ≠ P.peerIdOfKey key) (hexec : P.exec s op = some s') :
    OriginSigned P key s' := by
  cases exec_logStep hJ hinj hlog hexec with
  | commit happ horigin _ =>
    intro r hr hr'
    rw [happ.events_eq] at hr
    rcases List.mem_append.1 hr with hr | hr
    · exact hs r hr hr'
    · obtain rfl := List.mem_singleton.1 hr
      exact absurd (horigin.symm.trans hr') (hother _ _ _ rfl)
  | known => exact hs
  | forked hver horigin hat hne hfork =>
    exact (ingest_receives hJ hinj hlog hexec).originSigned hinj hs
  | applied happ hver horigin => exact (ingest_receives hJ hinj hlog hexec).originSigned hinj hs
  | rebuild hr =>
    rw [rebuild_ok hr]
    exact hs
  | redactEvidence hr =>
    obtain ⟨-, -, rfl⟩ := redactEvidence_ok hr
    exact hs
  | redactActor hr =>
    obtain ⟨-, -, rfl⟩ := redactActor_ok hr
    exact hs

/-- What a peer does that is not in the key's name keeps it. -/
theorem syncStep_originSigned (hJ : JsonLaws P) (hinj : Function.Injective P.blake3) {s : Store H}
    (hlog : LogStored P s) (hs : OriginSigned P key s) {op : SyncOp P}
    (hother : ∀ identity payload t, op = .store (.commit identity payload t) →
      identity.peerId P ≠ P.peerIdOfKey key) : OriginSigned P key (P.syncStep s op) := by
  cases op with
  | store op =>
    rw [Prims.syncStep, Prims.step]
    cases hexec : P.exec s op with
    | none => exact hs
    | some s' =>
      refine exec_originSigned hJ hinj hlog hs ?_ hexec
      rintro identity payload t rfl
      exact hother identity payload t rfl
  | push svc events now =>
    exact (syncStep_receives hJ hinj hlog (.push svc events now) trivial).originSigned hinj hs
  | pull svc address remote now =>
    exact (syncStep_receives hJ hinj hlog (.pull svc address remote now) trivial).originSigned hinj hs
  | reticulumPull order target remote now =>
    exact (syncStep_receives hJ hinj hlog (.reticulumPull order target remote now)
      trivial).originSigned hinj hs

theorem syncRun_originSigned (hJ : JsonLaws P) (hinj : Function.Injective P.blake3)
    (ops : List (SyncOp P))
    (hother : ∀ identity payload t, .store (.commit identity payload t) ∈ ops →
      identity.peerId P ≠ P.peerIdOfKey key) : OriginSigned P key (P.syncRun Store.empty ops) := by
  induction ops using List.reverseRecOn with
  | nil =>
    intro row hrow
    cases hrow
  | append_singleton ops op ih =>
    have hrun : P.syncRun Store.empty (ops ++ [op]) = P.syncStep (P.syncRun Store.empty ops) op := by
      rw [Prims.syncRun, List.foldl_append]
      rfl
    rw [hrun]
    refine syncStep_originSigned hJ hinj (peerInv_run hJ hinj ops).log.stored ?_ ?_
    · exact ih fun identity payload t h => hother identity payload t (List.mem_append_left _ h)
    · rintro identity payload t rfl
      exact hother identity payload t (List.mem_append_right _ (List.mem_singleton_self _))

omit [DecidableEq H] in
theorem signedBy_signed {identity : Prims.PeerIdentity} {domain : String} {m : Bytes}
    (hver : P.verifyWithDomain (identity.verifyingKey P) domain m (P.signWithDomain identity domain m)
      = true) :
    P.SignedBy domain (P.peerIdToString (identity.peerId P))
      (hexEncode (identity.verifyingKey P).bytes) m (hexEncode (P.signWithDomain identity domain m))
      (identity.peerId P) := by
  refine ⟨identity.verifyingKey P, _, P.peerIdFromStr_peerIdToString _, rfl, ?_, ?_, hver⟩
  · have h := decodeExact_hexEncode (identity.verifyingKey P).bytes
    rwa [P.length_of_validKey _ (identity.verifyingKey P).valid] at h
  · have h := decodeExact_hexEncode (P.signWithDomain identity domain m)
    rwa [Prims.signWithDomain, P.length_sign] at h

omit [DecidableEq H] in
/-- What is stored as an event of the key's origin, its holder has said. -/
theorem OnlySigned.event (hJ : JsonLaws P) (h : OnlySigned P key said) {row : EventRow H}
    (hrow : SignedBy P key row) : ∃ signed, P.signedFromSlice row.canonicalPayload = .ok signed ∧
      Said P said (.event signed.unsigned) := by
  obtain ⟨signed, hread, hver⟩ := hrow.reread
  obtain ⟨u, sig, hu, -, -, hok⟩ := (verify_ok.1 hver).signature
  exact ⟨signed, hread, h.verified hJ (s := .event signed.unsigned) hu hok⟩

/-! ## Main result -/

/-- What is accepted under the key, its holder has said, as a statement of the
    kind that it is accepted as. -/
structure OnlySaid (P : Prims H) (key : P.VerifyingKey) (said : Set Statement) : Prop where
  /-- The events of the key's origin, in the store of any other peer. -/
  events : ∀ ops : List (SyncOp P), (∀ identity payload t, .store (.commit identity payload t) ∈ ops →
      identity.peerId P ≠ P.peerIdOfKey key) →
    ∀ row ∈ (P.syncRun Store.empty ops).events, row.originPeerId = P.peerIdOfKey key →
      ∃ signed, P.signedFromSlice row.canonicalPayload = .ok signed ∧
        Said P said (.event signed.unsigned)
  /-- The declaration of an actor that holds the key. -/
  declared : ∀ s me actorType name identityUri (proof : PublicKeyProof) now r,
    P.declareActor s me actorType name identityUri (some proof) now = .ok r →
      proof.publicKey = key.bytes → Said P said (.keyProof actorType name identityUri)
  presence : ∀ m now, P.verifyPresence m now = .ok (P.peerIdOfKey key) →
    Said P said (.presence m.unsigned)
  cluster : ∀ m now, P.verifyCluster m now = .ok (P.peerIdOfKey key) →
    Said P said (.cluster m.unsigned)
  gatewayRequest : ∀ m now nonce, P.verifyGatewayRequest m now = .ok (P.peerIdOfKey key, nonce) →
    Said P said (.gatewayRequest m.unsigned)
  gatewayResponse : ∀ m nonce now, P.verifyGatewayResponse m nonce now = .ok (P.peerIdOfKey key) →
    Said P said (.gatewayResponse m.unsigned)
  transferRequest : ∀ m now nonce, P.verifyRequest m now = .ok (P.peerIdOfKey key, nonce) →
    Said P said (.transferRequest m.unsigned)
  transferReceipt : ∀ m cid nonce now, P.verifyReceipt m cid nonce now = .ok (P.peerIdOfKey key) →
    Said P said (.transferReceipt m.unsigned)

/-- **Only what was said** is accepted, where no other message verifies. -/
theorem only_said (P : Prims H) (hJ : JsonLaws P) (hinj : Function.Injective P.blake3)
    (key : P.VerifyingKey) (said : Set Statement) (honly : OnlySigned P key said) :
    OnlySaid P key said where
  events := by
    intro ops hother row hrow horigin
    exact honly.event hJ (syncRun_originSigned hJ hinj ops hother row hrow horigin)
  declared := by
    rintro s me actorType name identityUri ⟨bytes, sig⟩ now ⟨s', id⟩ h rfl
    obtain ⟨text, hproved, -⟩ := declareActor_ok h
    rw [Prims.provedKey, keyFromBytes_bytes] at hproved
    dsimp only at hproved
    split at hproved
    · next hver => exact honly.verified hJ (s := .keyProof actorType name identityUri) rfl hver
    · cases hproved
  presence := by
    intro m now h
    exact honly.signedBy hJ hinj (s := .presence m.unsigned) rfl (verifyStatement_eq_ok.1 h).1
  cluster := by
    intro m now h
    exact honly.signedBy hJ hinj (s := .cluster m.unsigned) rfl (verifyStatement_eq_ok.1 h).1
  gatewayRequest := by
    intro m now nonce h
    obtain ⟨peerId, hsigned, h⟩ := bind_ok.1 h
    obtain ⟨nonce', -, h⟩ := bind_ok.1 h
    obtain ⟨rfl, -⟩ := Prod.mk.inj (pure_ok.1 h)
    exact honly.signedBy hJ hinj (s := .gatewayRequest m.unsigned) rfl (verifySigned_eq_ok.1 hsigned).1
  gatewayResponse := by
    intro m nonce now h
    rw [Prims.verifyGatewayResponse] at h
    split at h
    · cases h
    · exact honly.signedBy hJ hinj (s := .gatewayResponse m.unsigned) rfl (verifySigned_eq_ok.1 h).1
  transferRequest := by
    intro m now nonce h
    obtain ⟨peerId, hsigned, h⟩ := bind_ok.1 h
    obtain ⟨nonce', -, h⟩ := bind_ok.1 h
    obtain ⟨rfl, -⟩ := Prod.mk.inj (pure_ok.1 h)
    exact honly.signedBy hJ hinj (s := .transferRequest m.unsigned) rfl
      (verifyTransfer_eq_ok.1 hsigned).1
  transferReceipt := by
    intro m cid nonce now h
    rw [Prims.verifyReceipt] at h
    split at h
    · cases h
    split at h
    · cases h
    obtain ⟨peerId, hsigned, h⟩ := bind_ok.1 h
    obtain ⟨nonce', -, h⟩ := bind_ok.1 h
    split at h
    · cases h
    obtain rfl := pure_ok.1 h
    exact honly.signedBy hJ hinj (s := .transferReceipt m.unsigned) rfl
      (verifyTransfer_eq_ok.1 hsigned).1

end statements

/-! ## A key that has signed one heartbeat -/

/-- Peer A's heartbeat at the time 1030. -/
noncomputable def heartbeatA : UnsignedPresenceHeartbeat :=
  (idealOpen.buildAndSignPresence peerA .online 1000 1030).unsigned

/-- The ideal libraries where only that heartbeat was signed. -/
noncomputable def idealHeartbeat : Prims Bytes :=
  ideal fun _ m => decide (m = utf8 presenceDomain ++ jsonBytes heartbeatA.toJson.canon)

theorem idealHeartbeat_onlySigned :
    OnlySigned idealHeartbeat (peerA.verifyingKey idealHeartbeat) {.presence heartbeatA} := by
  intro m sig hver
  rw [idealHeartbeat, ideal_verify, Bool.and_eq_true] at hver
  refine ⟨.presence heartbeatA, rfl, jsonBytes heartbeatA.toJson.canon, ?_, of_decide_eq_true hver.1⟩
  rw [idealHeartbeat, Statement.canonical, ideal_jcs]
  rfl

theorem idealHeartbeat_unsigned :
    (idealHeartbeat.buildAndSignPresence peerA .online 1000 1030).unsigned = heartbeatA := by
  simp only [heartbeatA, Prims.buildAndSignPresence, Prims.peerIdToString, Prims.PeerIdentity.peerId,
    Prims.peerIdOfKey, Prims.PeerIdentity.verifyingKey, idealHeartbeat, idealOpen, ideal_digestBytes,
    ideal_blake3, ideal_publicKey]

theorem idealHeartbeat_verifies : idealHeartbeat.verifyPresence
    (idealHeartbeat.buildAndSignPresence peerA .online 1000 1030) 1030
      = .ok (peerA.peerId idealHeartbeat) := by
  refine verifyStatement_eq_ok.2 ⟨signedBy_signed ?_, by decide⟩
  rw [idealHeartbeat_unsigned]
  simp [Prims.verifyWithDomain, Prims.signWithDomain, idealHeartbeat, Prims.PeerIdentity.verifyingKey]

/-- Its signature verifies, for this heartbeat and nothing else. -/
theorem only_said_heartbeat : Said idealHeartbeat {.presence heartbeatA}
    (.presence (idealHeartbeat.buildAndSignPresence peerA .online 1000 1030).unsigned) :=
  (only_said idealHeartbeat (idealJsonLaws _) (ideal_blake3_injective _) _ _
    idealHeartbeat_onlySigned).presence _ 1030 idealHeartbeat_verifies

end OpenAgentGraph
