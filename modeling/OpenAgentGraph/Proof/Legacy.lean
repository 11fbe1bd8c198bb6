/-
  Events from before the fields `pinned_cid` and `metadata` existed.

  The older writer left the two keys out; the reader defaults them.  But
  verification writes the event that was read again, now with the two keys as
  null, and derives the id from that text: an old `ADD_EVIDENCE` event reads
  and does not keep its id.  Every other old event verifies as before.
-/
import OpenAgentGraph.Proof.Forward

namespace OpenAgentGraph

open Lib Write

variable {H : Type} {P : Prims H}

/-! ## The older writer -/

/-- The fields of evidence before `pinned_cid` and `metadata`. -/
def AddEvidencePayload.legacyFields (p : AddEvidencePayload) : List (String × Json) :=
  [("assertion_id", .str p.assertionId), ("evidence_type", .str p.evidenceType),
    ("uri", optStr p.uri), ("title", optStr p.title), ("excerpt", optStr p.excerpt),
    ("content_hash", optStr p.contentHash), ("observed_at", optI64 p.observedAt),
    ("retrieved_at", optI64 p.retrievedAt)]

def EventPayload.legacyBody (w : Serializer) : EventPayload → Except SerdeError (List (String × Json))
  | addEvidence p => .ok p.legacyFields
  | p => p.body w

def UnsignedEvent.legacyFields (w : Serializer) (u : UnsignedEvent) :
    Except SerdeError (List (String × Json)) := do
  let body ← u.payload.legacyBody w
  return [("version", .num (.ofUInt16 u.version)), ("origin_peer", .str u.originPeer),
    ("sequence", .num (.ofUInt64 u.sequence)), ("previous_event", optStr u.previousEvent),
    ("created_at", i64 u.createdAt)] ++ ("event_type", .str u.payload.typeStr) :: body

namespace Prims

variable (P : Prims H)

/-- The bytes that the older version signed. -/
def legacyUnsigned (u : UnsignedEvent) : Except SerdeError Bytes :=
  (fun fs => P.jcs.write (.obj fs)) <$> u.legacyFields P.jcs

/-- The bytes that the older version stored and sent. -/
def legacySigned (s : SignedEvent) : Except SerdeError Bytes :=
  (fun fs => P.jcs.write (.obj (fs ++ [("signature", .str s.signature)]))) <$>
    s.unsigned.legacyFields P.jcs

end Prims

/-- An event of the older version: it has no pinned CID and no metadata, its
    signature covers its bytes, and its id is the hash of them. -/
structure LegacyEvent (P : Prims H) (key : P.VerifyingKey) (e : SignedEvent) (bytes : Bytes)
    (eventId : H) : Prop where
  absent : ∀ p, e.unsigned.payload = .addEvidence p → p.pinnedCid = none ∧ p.metadata = none
  signature : ∃ u sig, P.legacyUnsigned e.unsigned = .ok u ∧ hexDecode e.signature = .ok sig ∧
    sig.length = 64 ∧ P.verifyWithDomain key Prims.eventIdPrefix u sig = true
  written : P.legacySigned e = .ok bytes
  derived : eventId = P.eventIdOf bytes

/-- The event that the older version built. -/
def Prims.legacyEvent (P : Prims H) (identity : Prims.PeerIdentity) (u : UnsignedEvent) :
    SignedEvent :=
  ⟨u, hexEncode (P.signWithDomain identity eventIdPrefix ((P.legacyUnsigned u).toOption.getD []))⟩

/-! ## Events without evidence -/

/-- Off evidence the two writers agree. -/
theorem legacyFields_eq {w : Serializer} {u : UnsignedEvent}
    (h : ∀ p, u.payload ≠ .addEvidence p) : u.legacyFields w = u.fields w := by
  have hbody : u.payload.legacyBody w = u.payload.body w := by
    cases hp : u.payload with
    | addEvidence p => exact absurd hp (h p)
    | _ => rfl
  unfold UnsignedEvent.legacyFields UnsignedEvent.fields EventPayload.fields
  rw [hbody]
  cases u.payload.body w <;> rfl

theorem legacyFields_of_finite {w : Serializer} (hw : w.Law P) {u : UnsignedEvent}
    (h : u.payload.Finite) : ∃ fs, u.legacyFields w = .ok fs := by
  by_cases hev : ∃ p, u.payload = .addEvidence p
  · obtain ⟨p, hp⟩ := hev
    simp only [UnsignedEvent.legacyFields, hp, EventPayload.legacyBody]
    exact ⟨_, rfl⟩
  · rw [legacyFields_eq fun p hp => hev ⟨p, hp⟩]
    exact fields_of_finite hw h

/-- What the older version built is a legacy event. -/
theorem legacyEvent_legacy (hJ : JsonLaws P) {identity : Prims.PeerIdentity}
    (hsign : SignsCorrectly P identity) {u : UnsignedEvent} (hfin : u.payload.Finite)
    (habsent : ∀ p, u.payload = .addEvidence p → p.pinnedCid = none ∧ p.metadata = none) :
    ∃ bytes, LegacyEvent P (identity.verifyingKey P) (P.legacyEvent identity u) bytes
      (P.eventIdOf bytes) := by
  obtain ⟨fs, hfs⟩ := legacyFields_of_finite hJ.jcs hfin
  have hu : P.legacyUnsigned u = .ok (P.jcs.write (.obj fs)) := by
    rw [Prims.legacyUnsigned, hfs]
    rfl
  have hs : P.legacySigned (P.legacyEvent identity u)
      = .ok (P.jcs.write (.obj (fs ++ [("signature", .str (P.legacyEvent identity u).signature)])))
      := by
    rw [Prims.legacySigned, show (P.legacyEvent identity u).unsigned = u from rfl, hfs]
    rfl
  refine ⟨_, habsent, ⟨_, _, hu, hexDecode_hexEncode _, P.length_sign _ _, ?_⟩, hs, rfl⟩
  rw [hu]
  exact hsign _

theorem LegacyEvent.verified {key : P.VerifyingKey} {e : SignedEvent} {bytes : Bytes} {eventId : H}
    (h : LegacyEvent P key e bytes eventId) (hne : ∀ p, e.unsigned.payload ≠ .addEvidence p) :
    P.canonicalSigned e = .ok bytes ∧ Verified P key e eventId := by
  have hsigned : P.canonicalSigned e = .ok bytes := by
    rw [← h.written, Prims.canonicalSigned, Prims.legacySigned, SignedEvent.toJson,
      legacyFields_eq hne]
    cases e.unsigned.fields P.jcs <;> rfl
  have hunsigned : P.canonicalUnsigned e.unsigned = P.legacyUnsigned e.unsigned := by
    rw [Prims.canonicalUnsigned, Prims.legacyUnsigned, UnsignedEvent.toJson, legacyFields_eq hne]
    cases e.unsigned.fields P.jcs <;> rfl
  obtain ⟨u, sig, hu, hsig⟩ := h.signature
  exact ⟨hsigned, ⟨u, sig, hunsigned.trans hu, hsig⟩, bytes, hsigned, h.derived⟩

/-! ## Evidence -/

theorem typeStr_addEvidence {p : EventPayload} (h : p.typeStr = "ADD_EVIDENCE") :
    ∃ q, p = .addEvidence q := by
  cases p with
  | addEvidence q => exact ⟨q, rfl⟩
  | _ => simp [EventPayload.typeStr] at h

/-- What a current event is written as names its type, and has the new keys. -/
theorem current_keys (hJ : JsonLaws P) {s : SignedEvent} {c : Bytes} {j : Json}
    (hc : P.canonicalSigned s = .ok c) (hj : P.fromSlice c = .ok j) :
    j.get? "event_type" = some (.str s.unsigned.payload.typeStr) ∧
      ∀ q, s.unsigned.payload = .addEvidence q → j.get? "pinned_cid" = some (optStr q.pinnedCid) := by
  obtain ⟨j', hj', rfl⟩ := Prims.canonicalSigned_ok hc
  obtain ⟨fs, hfs, rfl⟩ := Prims.toJson_ok hj'
  obtain rfl : _ = j := Except.ok.inj ((hJ.jcs.fromSlice_write _).symm.trans hj)
  have hreads := reads_canon (Prims.nodup_keys (.str s.signature) hfs)
  obtain ⟨payload, hpayload, rfl⟩ := Prims.fields_eq hfs
  obtain ⟨body, hbody, rfl⟩ := Prims.payloadFields_eq hpayload
  constructor
  · exact hreads ("event_type", .str s.unsigned.payload.typeStr) (by simp)
  · intro q hq
    rw [hq] at hbody
    cases hbody
    have hmem := hreads ("pinned_cid", optStr q.pinnedCid) (by simp [AddEvidencePayload.fields])
    rw [hmem]
    cases q.pinnedCid <;> rfl

theorem legacy_nodup (p : AddEvidencePayload) (a b c d e f g : Json) :
    (([("version", a), ("origin_peer", b), ("sequence", c), ("previous_event", d),
      ("created_at", e)] ++ ("event_type", f) :: p.legacyFields ++ [("signature", g)]).map
      Prod.fst).Nodup := by
  simp only [AddEvidencePayload.legacyFields, List.map_append, List.map_cons, List.map_nil]
  decide

/-- What old evidence is written as names its type, and has no such key. -/
theorem legacy_keys (hJ : JsonLaws P) {s : SignedEvent} {c : Bytes} {j : Json}
    {p : AddEvidencePayload} (hp : s.unsigned.payload = .addEvidence p)
    (hc : P.legacySigned s = .ok c) (hj : P.fromSlice c = .ok j) :
    j.get? "event_type" = some (.str "ADD_EVIDENCE") ∧ j.get? "pinned_cid" = none := by
  simp only [Prims.legacySigned, UnsignedEvent.legacyFields, hp, EventPayload.legacyBody, map_ok,
    bind_ok, pure_ok, EventPayload.typeStr] at hc
  obtain ⟨fs, ⟨body, hbody, rfl⟩, rfl⟩ := hc
  cases hbody
  obtain rfl : _ = j := Except.ok.inj ((hJ.jcs.fromSlice_write _).symm.trans hj)
  constructor
  · rw [Json.get?_canon _ _ (legacy_nodup ..)]
    rfl
  · rw [Json.get?_canon _ _ (legacy_nodup ..)]
    rfl

/-- Old evidence does not keep its id: what is read is written with the new keys. -/
theorem legacy_refused (hJ : JsonLaws P) (hinj : Function.Injective P.blake3)
    {key : P.VerifyingKey} {e : SignedEvent} {bytes : Bytes} {eventId : H}
    (h : LegacyEvent P key e bytes eventId) {p : AddEvidencePayload}
    (hp : e.unsigned.payload = .addEvidence p) {s : SignedEvent}
    (hread : P.signedFromSlice bytes = .ok s) : P.verifyAndDeriveId s key ≠ .ok eventId := by
  intro hver
  obtain ⟨c, hc, hid⟩ := (verify_ok.1 hver).derived
  have hbytes : bytes = c := P.derive_injective hinj _ (h.derived.symm.trans hid)
  subst hbytes
  simp only [Prims.signedFromSlice, bind_ok] at hread
  obtain ⟨j, hj, -⟩ := hread
  obtain ⟨htag, hcid⟩ := legacy_keys hJ hp h.written hj
  obtain ⟨htag', hcid'⟩ := current_keys hJ hc hj
  rw [htag, Option.some.injEq, Json.str.injEq] at htag'
  obtain ⟨q, hq⟩ := typeStr_addEvidence htag'.symm
  rw [hcid' q hq] at hcid
  cases hcid

/-- **Legacy events.**  An event that was signed before the two fields existed
    is read and verifies with the id it was signed under if and only if it is
    not an `ADD_EVIDENCE` event. -/
theorem legacy_verifies_iff (P : Prims H) (hJ : JsonLaws P) (hinj : Function.Injective P.blake3)
    (key : P.VerifyingKey) (e : SignedEvent) (bytes : Bytes) (eventId : H)
    (h : LegacyEvent P key e bytes eventId) :
    (∃ s, P.signedFromSlice bytes = .ok s ∧ P.verifyAndDeriveId s key = .ok eventId) ↔
      ∀ p, e.unsigned.payload ≠ .addEvidence p := by
  constructor
  · rintro ⟨s, hread, hver⟩ p hp
    exact legacy_refused hJ hinj h hp hread hver
  · intro hne
    obtain ⟨hc, hver⟩ := h.verified hne
    obtain ⟨s, hread, hsame⟩ := Prims.signedFromSlice_canonical hJ hc
    exact ⟨s, hread, verify_ok.2 (hsame.verified hJ hver)⟩

/-- An old declaration of an actor still verifies. -/
theorem legacy_verifies_iff_declare : ∃ bytes,
    LegacyEvent idealOpen (peerA.verifyingKey idealOpen)
      (idealOpen.legacyEvent peerA (declareEvent idealOpen peerA).unsigned) bytes
      (idealOpen.eventIdOf bytes) ∧
    ∃ s, idealOpen.signedFromSlice bytes = .ok s ∧
      idealOpen.verifyAndDeriveId s (peerA.verifyingKey idealOpen)
        = .ok (idealOpen.eventIdOf bytes) := by
  obtain ⟨bytes, h⟩ := legacyEvent_legacy idealOpen_laws (idealOpen_signsCorrectly peerA)
    (u := (declareEvent idealOpen peerA).unsigned) trivial (fun p hp => (by cases hp))
  exact ⟨bytes, h, (legacy_verifies_iff idealOpen idealOpen_laws idealOpen_injective _ _ _ _ h).2
    fun p hp => by cases hp⟩

/-- Old evidence, for the assertion right before it. -/
def legacyEvidence (P : Prims H) (assertionId : H) : UnsignedEvent :=
  ⟨currentVersion, P.peerIdToString (peerA.peerId P), 3, some (P.toHex assertionId), 1,
    .addEvidence ⟨P.toHex assertionId, "manual", none, none, none, none, none, none, none, none⟩⟩

/-- **Old evidence is refused**: no event read from its bytes verifies with its id. -/
theorem legacy_evidence_refused : ¬ ∀ (key : idealOpen.VerifyingKey) (e : SignedEvent)
    (bytes eventId : Bytes), LegacyEvent idealOpen key e bytes eventId →
      ∃ s, idealOpen.signedFromSlice bytes = .ok s ∧
        idealOpen.verifyAndDeriveId s key = .ok eventId := by
  intro h
  obtain ⟨bytes, hlegacy⟩ := legacyEvent_legacy idealOpen_laws (idealOpen_signsCorrectly peerA)
    (u := legacyEvidence idealOpen (idealOpen.blake3 [1])) trivial
    (fun p hp => (by cases hp; exact ⟨rfl, rfl⟩))
  obtain ⟨s, hread, hver⟩ := h _ _ _ _ hlegacy
  exact legacy_refused idealOpen_laws idealOpen_injective hlegacy rfl hread hver

end OpenAgentGraph
