/-
  Framing an honest origin.

  The id of an event is a hash of the whole envelope, in which the signature
  stands as hexadecimal text; verification looks at the bytes that the text
  decodes to.  Two texts of one signature, in lower and in upper case, give
  one event two ids, and the second arrival counts as a fork.  With signatures
  in lower case, no run of ingestions records a fork of an honest origin.
-/
import OpenAgentGraph.Proof.Forward

namespace OpenAgentGraph

open Lib Repo

variable {H : Type} {P : Prims H}

/-! ## The origin -/

/-- The bodies that an origin has signed: no signature of another verifies, a
    body has one signature, and a sequence number one body. -/
structure HonestOrigin (P : Prims H) (key : P.VerifyingKey) (bodies : Set Bytes) : Prop where
  unforgeable : ∀ b sig, P.verifyWithDomain key Prims.eventIdPrefix b sig = true → b ∈ bodies
  nonMalleable : ∀ b sig sig', P.verifyWithDomain key Prims.eventIdPrefix b sig = true →
    P.verifyWithDomain key Prims.eventIdPrefix b sig' = true → sig = sig'
  onePerSequence : ∀ u u' b b', P.canonicalUnsigned u = .ok b → P.canonicalUnsigned u' = .ok b' →
    b ∈ bodies → b' ∈ bodies → u.sequence = u'.sequence → b = b'

/-! ## Bodies and ids -/

/-- Events with one canonical body have the same fields. -/
theorem fields_of_body (hJ : JsonLaws P) {u u' : UnsignedEvent} {b : Bytes}
    (h : P.canonicalUnsigned u = .ok b) (h' : P.canonicalUnsigned u' = .ok b) :
    u.fields P.jcs = u'.fields P.jcs := by
  have hread : ∀ {u : UnsignedEvent}, P.canonicalUnsigned u = .ok b →
      ∃ v, (do P.readUnsigned (← P.fromSlice b)) = .ok v ∧ u.Same v := by
    intro u h
    simp only [Prims.canonicalUnsigned, UnsignedEvent.toJson, map_ok] at h
    obtain ⟨_, ⟨fs, hfs, rfl⟩, rfl⟩ := h
    have hnd : (fs.map Prod.fst).Nodup := by
      have hall := Prims.nodup_keys .null hfs
      rw [List.map_append] at hall
      exact (List.nodup_append.1 hall).1
    obtain ⟨v, hv, hsame⟩ := Prims.readUnsigned_eq hJ.jcs (Prims.finite_of_fields hJ hfs) hfs
      (reads_canon hnd)
    refine ⟨v, ?_, hsame⟩
    rw [hJ.jcs.fromSlice_write]
    exact hv
  obtain ⟨v, hv, hsame⟩ := hread h
  obtain ⟨v', hv', hsame'⟩ := hread h'
  obtain rfl : v = v' := Except.ok.inj (hv.symm.trans hv')
  exact (hsame.fields_eq hJ.jcs).trans (hsame'.fields_eq hJ.jcs).symm

/-- Verified events with one body and one signature text have one id. -/
theorem id_of_body (hJ : JsonLaws P) {key key' : P.VerifyingKey} {e e' : SignedEvent} {id id' : H}
    {b : Bytes} (h : Verified P key e id) (h' : Verified P key' e' id')
    (hb : P.canonicalUnsigned e.unsigned = .ok b) (hb' : P.canonicalUnsigned e'.unsigned = .ok b)
    (hsig : e.signature = e'.signature) : id = id' := by
  obtain ⟨c, hc, rfl⟩ := h.derived
  obtain ⟨c', hc', rfl⟩ := h'.derived
  have hcc : P.canonicalSigned e = P.canonicalSigned e' := by
    simp only [Prims.canonicalSigned, SignedEvent.toJson, fields_of_body hJ hb hb', hsig]
  rw [hc, hc'] at hcc
  rw [Except.ok.inj hcc]

/-- **Lower-case signatures**: verified events of one body have one id. -/
theorem id_of_lower (hJ : JsonLaws P) {key : P.VerifyingKey} {bodies : Set Bytes}
    (hhon : HonestOrigin P key bodies) {e e' : SignedEvent} {id id' : H} {b : Bytes}
    (h : Verified P key e id) (h' : Verified P key e' id')
    (hb : P.canonicalUnsigned e.unsigned = .ok b) (hb' : P.canonicalUnsigned e'.unsigned = .ok b)
    (hl : isLowerText e.signature) (hl' : isLowerText e'.signature) : id = id' := by
  refine id_of_body hJ h h' hb hb' ?_
  obtain ⟨u, sig, hu, hsig, -, hver⟩ := h.signature
  obtain ⟨u', sig', hu', hsig', -, hver'⟩ := h'.signature
  obtain rfl : b = u := Except.ok.inj (hb.symm.trans hu)
  obtain rfl : b = u' := Except.ok.inj (hb'.symm.trans hu')
  obtain rfl := hhon.nonMalleable b sig sig' hver hver'
  rw [← hexEncode_of_lower hsig hl, ← hexEncode_of_lower hsig' hl']

/-- An honest origin's events at one sequence number have one id. -/
theorem id_of_sequence (hJ : JsonLaws P) {key : P.VerifyingKey} {bodies : Set Bytes}
    (hhon : HonestOrigin P key bodies) {e e' : SignedEvent} {id id' : H}
    (h : Verified P key e id) (h' : Verified P key e' id')
    (hseq : e.unsigned.sequence = e'.unsigned.sequence)
    (hl : isLowerText e.signature) (hl' : isLowerText e'.signature) : id = id' := by
  obtain ⟨b, sig, hb, -, -, hver⟩ := h.signature
  obtain ⟨b', sig', hb', -, -, hver'⟩ := h'.signature
  have hbb := hhon.onePerSequence _ _ _ _ hb hb' (hhon.unforgeable _ _ hver)
    (hhon.unforgeable _ _ hver') hseq
  exact id_of_lower hJ hhon h h' hb (hbb ▸ hb') hl hl'

theorem toInt64_injective : Function.Injective UInt64.toInt64 := by
  intro a b h
  have h' := congrArg Int64.toUInt64 h
  simpa using h'

/-! ## Runs of ingestions -/

variable [DecidableEq H]

/-- One call of `ingest_remote_event`. -/
structure Call (P : Prims H) where
  key : P.VerifyingKey
  signed : SignedEvent
  receivedAt : Int64

def Call.op (c : Call P) : Op P := .ingest c.key c.signed c.receivedAt

/-- No fork of the origin is on record. -/
structure Unframed (s : Store H) (origin : H) : Prop where
  forks : ∀ f ∈ s.peerForks, f.peerId ≠ origin
  flag : ∀ r ∈ s.peers, r.peerId = origin → r.forked = false

/-- The stored events of the origin were verified, with signatures in lower case. -/
def OriginStored (P : Prims H) (key : P.VerifyingKey) (s : Store H) : Prop :=
  ∀ row ∈ s.events, row.originPeerId = P.peerIdOfKey key → ∃ signed, Stored P row signed ∧
    Verified P key signed row.eventId ∧ isLowerText signed.signature

omit [DecidableEq H] in
/-- With an ideal hash a peer id belongs to one key. -/
theorem key_eq (hinj : Function.Injective P.blake3) {key key' : P.VerifyingKey}
    (h : P.peerIdOfKey key = P.peerIdOfKey key') : key = key' := by
  cases key
  cases key'
  cases hinj h
  rfl

theorem mem_markForked {peers : List (PeerRow H)} {o o' : H} {b : Bytes} {t : Int64} {r : PeerRow H}
    (hne : o' ≠ o) (hr : r ∈ markForked (upsertPeer peers o' b none t) o') (hro : r.peerId = o) :
    r ∈ peers := by
  obtain ⟨r₁, hr₁, rfl⟩ := Table.mem_updateWhere.1 hr
  have hid : r₁.peerId = o := by
    split at hro <;> exact hro
  have hne₁ : r₁.peerId ≠ o' := by rw [hid]; exact hne.symm
  simp only [hne₁, decide_false, Bool.false_eq_true, if_false]
  rcases Table.mem_upsert.1 hr₁ with ⟨z, hz, rfl⟩ | ⟨rfl, -⟩
  · by_cases hzo : z.peerId = o'
    · simp only [hzo, if_true] at hne₁
      exact absurd rfl hne₁
    · simp only [hzo, if_false]
      exact hz
  · exact absurd rfl hne₁

theorem unframed_step (hJ : JsonLaws P) (hinj : Function.Injective P.blake3) {key : P.VerifyingKey}
    {bodies : Set Bytes} (hhon : HonestOrigin P key bodies) {s s' : Store H} {c : Call P}
    (hlower : P.peerIdOfKey c.key = P.peerIdOfKey key → isLowerText c.signed.signature)
    (hst : OriginStored P key s) (hun : Unframed s (P.peerIdOfKey key))
    (h : LogStep P s c.op s') : OriginStored P key s' ∧ Unframed s' (P.peerIdOfKey key) := by
  obtain ⟨ckey, csigned, ct⟩ := c
  cases h with
  | known => exact ⟨hst, hun⟩
  | @forked _ _ _ eventId existing _ hver horigin hfind hne hfork =>
    obtain ⟨json, rfl⟩ := recordFork_ok hfork
    have hother : P.peerIdOfKey ckey ≠ P.peerIdOfKey key := by
      intro heq
      obtain rfl := key_eq hinj heq
      -- the stored event and the offered one verify at the same sequence
      obtain ⟨row, hrow, ho, hseq, rfl⟩ := findEventIdAt_eq_some hfind
      obtain ⟨signed, hstored, hver₀, hl₀⟩ := hst row hrow ho
      have hsame : signed.unsigned.sequence = csigned.unsigned.sequence :=
        toInt64_injective (hstored.sequence.symm.trans hseq)
      exact hne (id_of_sequence hJ hhon hver₀ hver hsame hl₀ (hlower rfl))
    refine ⟨hst, ?_, ?_⟩
    · intro f hf
      rcases Table.mem_insertOrIgnore.1 hf with hf | ⟨rfl, -⟩
      · exact hun.forks f hf
      · exact hother
    · intro r hr hro
      exact hun.flag r (mem_markForked hother hr hro) hro
  | @applied _ _ _ _ row happ hver ho =>
    refine ⟨?_, ?_, ?_⟩
    · intro r hr hro
      rw [happ.events_eq] at hr
      rcases List.mem_append.1 hr with hr | hr
      · exact hst r hr hro
      · obtain rfl : r = row := by simpa using hr
        have hkey := ho.symm.trans hro
        obtain rfl := key_eq hinj hkey
        exact ⟨csigned, happ.stored, hver, hlower rfl⟩
    · rw [happ.eq]; exact hun.forks
    · rw [happ.eq]; exact hun.flag

/-- **No framing.**  Whatever is offered, under whatever keys and in whatever
    order, an origin that signs one body per sequence number is never recorded
    as forked, as long as the signatures of the events offered under its key
    are in lower case; and two such events of one body have one id. -/
theorem no_framing (P : Prims H) (hJ : JsonLaws P) (hinj : Function.Injective P.blake3)
    (key : P.VerifyingKey) (bodies : Set Bytes) (hhon : HonestOrigin P key bodies)
    (calls : List (Call P))
    (hlower : ∀ c ∈ calls, P.peerIdOfKey c.key = P.peerIdOfKey key → isLowerText c.signed.signature) :
    Unframed (P.run Store.empty (calls.map Call.op)) (P.peerIdOfKey key) ∧
    ∀ c ∈ calls, ∀ c' ∈ calls, c.key = key → c'.key = key →
      P.canonicalUnsigned c.signed.unsigned = P.canonicalUnsigned c'.signed.unsigned →
      ∀ id id', P.verifyAndDeriveId c.signed key = .ok id →
        P.verifyAndDeriveId c'.signed key = .ok id' → id = id' := by
  constructor
  · have hall : LogInv P (P.run Store.empty (calls.map Call.op)) ∧
        OriginStored P key (P.run Store.empty (calls.map Call.op)) ∧
        Unframed (P.run Store.empty (calls.map Call.op)) (P.peerIdOfKey key) := by
      refine P.run_induction
        (I := fun s => LogInv P s ∧ OriginStored P key s ∧ Unframed s (P.peerIdOfKey key)) _
        ⟨⟨fun _ hr => (by cases hr), chainInv_empty⟩, fun _ hr => (by cases hr),
          fun _ hf => (by cases hf), fun _ hr => (by cases hr)⟩ ?_
      rintro op hop s s' ⟨hlog, hst, hun⟩ hexec
      obtain ⟨c, hc, rfl⟩ := List.mem_map.1 hop
      have hstep := exec_logStep hJ hinj hlog.stored hexec
      exact ⟨hstep.logInv hlog, unframed_step hJ hinj hhon (hlower c hc) hst hun hstep⟩
    exact hall.2.2
  · intro c hc c' hc' hkey hkey' hbody id id' hver hver'
    have hv := verify_ok.1 hver
    have hv' := verify_ok.1 hver'
    obtain ⟨b, -, hb, -, -, -⟩ := hv.signature
    exact id_of_lower hJ hhon hv hv' hb (hbody ▸ hb) (hlower c hc (by rw [hkey]))
      (hlower c' hc' (by rw [hkey']))

/-! ## An event and its upper-case copy -/

omit [DecidableEq H] in
/-- The signature text is part of the id. -/
theorem idOf_ne (hJ : JsonLaws P) (hinj : Function.Injective P.blake3) {e e' : SignedEvent}
    (hfin : e.unsigned.payload.Finite) (hfin' : e'.unsigned.payload.Finite)
    (hsig : e.signature ≠ e'.signature) : P.idOf e ≠ P.idOf e' := by
  intro heq
  obtain ⟨r, hsame, hsame'⟩ := same_of_idOf_eq hJ hinj hfin hfin' heq
  exact hsig (hsame.signature.trans hsame'.signature.symm)

/-- A declaration and a verified copy of another id are a fork. -/
theorem framed_by_copy (hJ : JsonLaws P) (hinj : Function.Injective P.blake3)
    {identity : Prims.PeerIdentity} {copy : SignedEvent}
    (hu : copy.unsigned = (declareEvent P identity).unsigned)
    (hver : Verified P (identity.verifyingKey P) (declareEvent P identity)
      (P.idOf (declareEvent P identity)))
    (hver' : Verified P (identity.verifyingKey P) copy (P.idOf copy))
    (hne : P.idOf (declareEvent P identity) ≠ P.idOf copy) :
    let s := P.run Store.empty [.ingest (identity.verifyingKey P) (declareEvent P identity) 5,
      .ingest (identity.verifyingKey P) copy 6]
    (∃ f ∈ s.peerForks, f.peerId = identity.peerId P) ∧
      ∃ r ∈ s.peers, r.peerId = identity.peerId P ∧ r.forked = true := by
  intro s
  have horigin : P.peerIdFromStr (declareEvent P identity).unsigned.originPeer
      = .ok (P.peerIdOfKey (identity.verifyingKey P)) := P.peerIdFromStr_peerIdToString _
  obtain ⟨o, h₁⟩ := ingest_apply (s := Store.empty) hJ hinj
    ⟨fun _ hr => (by cases hr), chainInv_empty⟩ (by simp [Store.empty, maxRows]) 5 hver horigin rfl
    rfl rfl (declare_admissible identity _)
  have hfind : findEventIdAt (appendRow Store.empty (P.rowOf (declareEvent P identity)
      (P.peerIdOfKey (identity.verifyingKey P)) none 5) (P.effect (declareEvent P identity))).events
      (P.peerIdOfKey (identity.verifyingKey P)) copy.unsigned.sequence.toInt64
        = some (P.idOf (declareEvent P identity)) := by
    rw [hu]
    simp [findEventIdAt, Table.find, appendRow, Store.empty, Prims.rowOf]
  have hfin : copy.unsigned.payload.Finite := by rw [hu]; trivial
  have hprev : P.parsePreviousEvent copy.unsigned.previousEvent = .ok none := by rw [hu]; rfl
  obtain ⟨json, h₂⟩ := ingest_fork hJ 6 hfin hver' (hu ▸ horigin) hprev hfind hne
  have hs : s = _ := (congrArg (fun s => P.step s _) (P.step_ingest h₁)).trans (P.step_ingest h₂)
  rw [hs]
  refine ⟨⟨_, List.mem_singleton_self _, rfl⟩, ?_⟩
  exact ⟨⟨identity.peerId P, (identity.verifyingKey P).bytes, none, 6, some 6, true⟩,
    by simp [appendRow, Store.empty, markForked, upsertPeer, Table.upsert, Table.updateWhere,
      Table.hasKey, Prims.PeerIdentity.peerId], rfl, rfl⟩

/-- The body of peer A's declaration. -/
noncomputable def oneBody : Bytes := idealOpen.bodyBytes (declareEvent idealOpen peerA).unsigned

/-- The ideal libraries in which that body is all that was ever signed. -/
noncomputable def idealOne : Prims Bytes :=
  ideal fun _ m => decide (m = utf8 Prims.eventIdPrefix ++ oneBody)

theorem idealOne_laws : JsonLaws idealOne := idealJsonLaws _

theorem idealOne_injective : Function.Injective idealOne.blake3 := ideal_blake3_injective _

theorem idealOne_honest (key : idealOne.VerifyingKey) : HonestOrigin idealOne key {oneBody} := by
  have hverify : ∀ b sig, idealOne.verifyWithDomain key Prims.eventIdPrefix b sig = true →
      b = oneBody ∧ sig = idealSignature key.bytes (utf8 Prims.eventIdPrefix ++ b) := by
    intro b sig h
    simp only [Prims.verifyWithDomain, idealOne, ideal_verify, Bool.and_eq_true,
      decide_eq_true_eq] at h
    exact ⟨List.append_cancel_left h.1, h.2⟩
  constructor
  · intro b sig h
    exact (hverify b sig h).1
  · intro b sig sig' h h'
    rw [(hverify b sig h).2, (hverify b sig' h').2]
  · intro u u' b b' _ _ hb hb' _
    exact hb.trans hb'.symm

theorem oneBody_eq : idealOne.bodyBytes (declareEvent idealOne peerA).unsigned = oneBody := by
  have hunsigned : (declareEvent idealOne peerA).unsigned = (declareEvent idealOpen peerA).unsigned := by
    simp [declareEvent, Prims.eventOf, Prims.peerIdToString, Prims.PeerIdentity.peerId,
      Prims.peerIdOfKey, Prims.PeerIdentity.verifyingKey, idealOne, idealOpen]
  rw [hunsigned, oneBody]
  simp [Prims.bodyBytes, Prims.canonicalUnsigned, idealOne, idealOpen]

/-- The declaration's signature. -/
noncomputable def oneSignature : Bytes := idealSignature (idealPublicKey peerA.signingKey)
  (utf8 Prims.eventIdPrefix ++ oneBody)

/-- The declaration again, its signature in upper case. -/
noncomputable def upperEvent : SignedEvent :=
  { declareEvent idealOne peerA with signature := hexUpper oneSignature }

theorem declare_signature : (declareEvent idealOne peerA).signature = hexEncode oneSignature := by
  have hsign : idealOne.signWithDomain peerA Prims.eventIdPrefix oneBody = oneSignature := by
    simp [Prims.signWithDomain, idealOne, oneSignature]
  rw [← hsign, ← oneBody_eq]
  rfl

/-- The first digit of the signature is a letter. -/
theorem upper_ne_lower : hexEncode oneSignature ≠ hexUpper oneSignature := by
  intro h
  have hbytes := congrArg utf8 h
  rw [utf8_hexEncode, utf8_hexUpper] at hbytes
  have hhead := congrArg List.head? hbytes
  simp [oneSignature, idealSignature, idealPublicKey, peerA, hexEncodeBytes] at hhead
  revert hhead
  decide

theorem one_verified {e : SignedEvent} (hu : e.unsigned = (declareEvent idealOne peerA).unsigned)
    (hsig : hexDecode e.signature = .ok oneSignature) :
    Verified idealOne (peerA.verifyingKey idealOne) e (idealOne.idOf e) := by
  have hfin : e.unsigned.payload.Finite := by rw [hu]; trivial
  refine ⟨⟨oneBody, oneSignature, ?_, hsig, ?_, ?_⟩, _, canonicalSigned_of_finite idealOne_laws hfin,
    rfl⟩
  · rw [← oneBody_eq, ← hu]
    exact canonicalUnsigned_of_finite idealOne_laws hfin
  · simp [oneSignature, idealSignature]
    omega
  · simp [Prims.verifyWithDomain, idealOne, Prims.PeerIdentity.verifyingKey, oneSignature]

/-- Peer A's declaration, offered and offered again. -/
noncomputable def repeatedCalls : List (Call idealOne) :=
  [⟨peerA.verifyingKey idealOne, declareEvent idealOne peerA, 5⟩,
    ⟨peerA.verifyingKey idealOne, declareEvent idealOne peerA, 6⟩]

theorem no_framing_repeated :
    Unframed (idealOne.run Store.empty (repeatedCalls.map Call.op)) (peerA.peerId idealOne) ∧
    ∀ c ∈ repeatedCalls, ∀ c' ∈ repeatedCalls, c.key = peerA.verifyingKey idealOne →
      c'.key = peerA.verifyingKey idealOne →
      idealOne.canonicalUnsigned c.signed.unsigned = idealOne.canonicalUnsigned c'.signed.unsigned →
      ∀ id id', idealOne.verifyAndDeriveId c.signed (peerA.verifyingKey idealOne) = .ok id →
        idealOne.verifyAndDeriveId c'.signed (peerA.verifyingKey idealOne) = .ok id' → id = id' := by
  refine no_framing idealOne idealOne_laws idealOne_injective (peerA.verifyingKey idealOne) {oneBody}
    (idealOne_honest _) repeatedCalls ?_
  intro c hc _
  simp only [repeatedCalls, List.mem_cons, List.not_mem_nil, or_false] at hc
  rcases hc with rfl | rfl
  · rw [declare_signature]; exact isLowerText_hexEncode _
  · rw [declare_signature]; exact isLowerText_hexEncode _

/-- Peer A's declaration, then a relay's copy in upper case. -/
noncomputable def framingCalls : List (Call idealOne) :=
  [⟨peerA.verifyingKey idealOne, declareEvent idealOne peerA, 5⟩,
    ⟨peerA.verifyingKey idealOne, upperEvent, 6⟩]

/-- Peer A has signed one body in its life; the copy is recorded as a fork and
    A is flagged. -/
theorem framed_by_upper_case :
    HonestOrigin idealOne (peerA.verifyingKey idealOne) {oneBody} ∧
    (∃ f ∈ (idealOne.run Store.empty (framingCalls.map Call.op)).peerForks,
      f.peerId = peerA.peerId idealOne) ∧
    (∃ r ∈ (idealOne.run Store.empty (framingCalls.map Call.op)).peers,
      r.peerId = peerA.peerId idealOne ∧ r.forked = true) := by
  have hfirst : Verified idealOne (peerA.verifyingKey idealOne) (declareEvent idealOne peerA)
      (idealOne.idOf (declareEvent idealOne peerA)) :=
    one_verified rfl (by rw [declare_signature]; exact hexDecode_hexEncode _)
  have hsecond : Verified idealOne (peerA.verifyingKey idealOne) upperEvent
      (idealOne.idOf upperEvent) := one_verified rfl (hexDecode_hexUpper _)
  have hne : idealOne.idOf (declareEvent idealOne peerA) ≠ idealOne.idOf upperEvent := by
    refine idOf_ne idealOne_laws idealOne_injective trivial trivial ?_
    rw [declare_signature]
    exact upper_ne_lower
  exact ⟨idealOne_honest _, framed_by_copy idealOne_laws idealOne_injective rfl hfirst hsecond hne⟩

end OpenAgentGraph
