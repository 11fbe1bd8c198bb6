/-
  Reading an event back from its canonical bytes.

  `signedFromSlice_canonical`: the event read back is the one written, but for
  what JSON cannot tell apart (`Same`): an `f32` is kept by its numeric value,
  and optional metadata that is the JSON value null reads as absent.  Such
  events have the same canonical bytes (`Same.canonicalSigned_eq`).
-/
import OpenAgentGraph.Events.Payload

namespace OpenAgentGraph

open Lib Write

/-! ## Events with the same JSON value -/

/-- Optional metadata, null counted as absent. -/
def metadataValue : Option JsonValue → Option JsonValue
  | some ⟨.null, _⟩ => none
  | o => o

/-- Payloads that JSON does not tell apart. -/
def EventPayload.Same : EventPayload → EventPayload → Prop
  | .assertRelation p, .assertRelation p' =>
    { p with actorConfidence := p'.actorConfidence } = p' ∧
      p.actorConfidence.map f32Value = p'.actorConfidence.map f32Value
  | .addEvidence p, .addEvidence p' =>
    p' = { p with metadata := metadataValue p.metadata }
  | p, p' => p = p'

/-- The confidence of an assertion, if any, is a finite number. -/
def EventPayload.Finite : EventPayload → Prop
  | .assertRelation p => ∀ b, p.actorConfidence = some b → f32IsFinite b = true
  | _ => True

structure UnsignedEvent.Same (u u' : UnsignedEvent) : Prop where
  version : u.version = u'.version
  originPeer : u.originPeer = u'.originPeer
  sequence : u.sequence = u'.sequence
  previousEvent : u.previousEvent = u'.previousEvent
  createdAt : u.createdAt = u'.createdAt
  payload : u.payload.Same u'.payload

structure SignedEvent.Same (s s' : SignedEvent) : Prop where
  unsigned : s.unsigned.Same s'.unsigned
  signature : s.signature = s'.signature

theorem EventPayload.Same.typeStr_eq {p p' : EventPayload} (h : p.Same p') :
    p.typeStr = p'.typeStr := by
  cases p <;> cases p' <;> first | rfl | (simp [EventPayload.Same] at h)

/-! ## Reading single fields -/

/-- `j` holds the given fields, in the form a reader builds them. -/
def Reads (j : Json) (fs : List (String × Json)) : Prop := ∀ e ∈ fs, j.get? e.1 = some e.2.canon

theorem reads_canon {fs : List (String × Json)} (h : (fs.map Prod.fst).Nodup) :
    Reads (Json.obj fs).canon fs := by
  intro e he
  rw [Json.get?_canon _ _ h]
  have hlookup : fs.lookup e.1 = some e.2 := by
    induction fs with
    | nil => cases he
    | cons kv fs ih =>
      obtain ⟨hnot, hnd⟩ := List.nodup_cons.1 h
      rcases List.mem_cons.1 he with rfl | he
      · simp [List.lookup]
      · have hne : e.1 ≠ kv.1 := by
          intro heq
          exact hnot (List.mem_map.2 ⟨e, he, heq⟩)
        simp only [List.lookup, beq_eq_false_iff_ne.2 hne]
        exact ih hnd he
  rw [hlookup]
  rfl

theorem Reads.mono {j : Json} {fs fs' : List (String × Json)} (h : Reads j fs)
    (hsub : ∀ e ∈ fs', e ∈ fs) : Reads j fs' := fun e he => h e (hsub e he)

@[simp] theorem reads_nil (j : Json) : Reads j [] := fun _ he => by cases he

@[simp] theorem reads_cons (j : Json) (e : String × Json) (fs : List (String × Json)) :
    Reads j (e :: fs) ↔ j.get? e.1 = some e.2.canon ∧ Reads j fs := by
  simp [Reads]

theorem reads_append (j : Json) (fs fs' : List (String × Json)) :
    Reads j (fs ++ fs') ↔ Reads j fs ∧ Reads j fs' := by
  simp only [Reads, List.mem_append]
  constructor
  · exact fun h => ⟨fun e he => h e (Or.inl he), fun e he => h e (Or.inr he)⟩
  · rintro ⟨h, h'⟩ e (he | he)
    · exact h e he
    · exact h' e he

namespace Read

theorem str_eq {j : Json} {k s : String} (h : j.get? k = some (Json.str s).canon) :
    Read.str j k = .ok s := by
  simp [Read.str, h, Json.canon]

theorem opt_str {j : Json} {k : String} {o : Option String} (h : j.get? k = some (optStr o).canon) :
    Read.opt asStr j k = .ok o := by
  cases o <;> simp [Read.opt, h, optStr, Json.canon, asStr]

theorem opt_i64 {j : Json} {k : String} {o : Option Int64} (h : j.get? k = some (optI64 o).canon) :
    Read.opt asI64 j k = .ok o := by
  cases o <;> simp [Read.opt, h, optI64, i64, Json.canon, asI64]

theorem num_eq {α : Type} {f : Number → Option α} {j : Json} {k : String} {n : Number} {a : α}
    (h : j.get? k = some (Json.num n).canon) (hf : f n = some a) : Read.num f j k = .ok a := by
  rw [Json.canon] at h
  simp only [Read.num, h, hf]

theorem canonList_str (ss : List String) : Json.canonList (ss.map .str) = ss.map .str := by
  induction ss with
  | nil => rfl
  | cons s ss ih => rw [List.map_cons, Json.canonList, ih, Json.canon]

theorem strs_eq {j : Json} {k : String} {ss : List String}
    (h : j.get? k = some (Json.arr (ss.map .str)).canon) : Read.strs j k = .ok ss := by
  have hm : (ss.map Json.str).mapM asStr = some ss := by
    clear h
    induction ss with
    | nil => rfl
    | cons s ss ih => rw [List.map_cons, List.mapM_cons, ih]; rfl
  simp [Read.strs, h, Json.canon, canonList_str, hm]

theorem opt_value {j : Json} {k : String} {o : Option JsonValue}
    (h : j.get? k = some (optValue o).canon) :
    Read.opt (fun v => some (JsonValue.ofJson v)) j k = .ok (metadataValue o) := by
  cases o with
  | none => simp [Read.opt, h, optValue, Json.canon, metadataValue]
  | some v =>
    have hv : (optValue (some v)).canon = v.val := v.canonical
    rw [hv] at h
    obtain ⟨val, hval⟩ := v
    cases val with
    | null => simp [Read.opt, h, metadataValue]
    | _ => simp [Read.opt, h, metadataValue, JsonValue.ofJson, hval]

end Read

/-! ## Reading payloads -/

variable {H : Type}

namespace Prims

variable (P : Prims H)

theorem readAddEvidence_eq {j : Json} {p : AddEvidencePayload} (h : Reads j p.fields) :
    readAddEvidence j = .ok { p with metadata := metadataValue p.metadata } := by
  simp only [AddEvidencePayload.fields, reads_cons, reads_nil, and_true] at h
  obtain ⟨h₁, h₂, h₃, h₄, h₅, h₆, h₇, h₈, h₉, h₁₀⟩ := h
  rw [readAddEvidence, Read.str_eq h₁, Read.str_eq h₂, Read.opt_str h₃, Read.opt_str h₄,
    Read.opt_str h₅, Read.opt_str h₆, Read.opt_i64 h₇, Read.opt_i64 h₈, Read.opt_str h₉,
    Read.opt_value h₁₀]
  rfl

theorem readVerifyAssertion_eq {j : Json} {p : VerifyAssertionPayload} (h : Reads j p.fields) :
    readVerifyAssertion j = .ok p := by
  simp only [VerifyAssertionPayload.fields, reads_cons, reads_nil, and_true] at h
  obtain ⟨h₁, h₂, h₃, h₄⟩ := h
  rw [readVerifyAssertion, Read.str_eq h₁, Read.str_eq h₂, Read.str_eq h₃,
    Read.num_eq h₄ (Number.toInt64?_ofInt64 _)]
  rfl

theorem readDisputeAssertion_eq {j : Json} {p : DisputeAssertionPayload} (h : Reads j p.fields) :
    readDisputeAssertion j = .ok p := by
  simp only [DisputeAssertionPayload.fields, reads_cons, reads_nil, and_true] at h
  obtain ⟨h₁, h₂, h₃⟩ := h
  rw [readDisputeAssertion, Read.str_eq h₁, Read.str_eq h₂, Read.opt_str h₃]
  rfl

theorem readRetractAssertion_eq {j : Json} {p : RetractAssertionPayload} (h : Reads j p.fields) :
    readRetractAssertion j = .ok p := by
  simp only [RetractAssertionPayload.fields, reads_cons, reads_nil, and_true] at h
  obtain ⟨h₁, h₂, h₃⟩ := h
  rw [readRetractAssertion, Read.str_eq h₁, Read.str_eq h₂, Read.opt_str h₃]
  rfl

theorem readSupersedeAssertion_eq {j : Json} {p : SupersedeAssertionPayload}
    (h : Reads j p.fields) : readSupersedeAssertion j = .ok p := by
  simp only [SupersedeAssertionPayload.fields, reads_cons, reads_nil, and_true] at h
  obtain ⟨h₁, h₂, h₃⟩ := h
  rw [readSupersedeAssertion, Read.str_eq h₁, Read.str_eq h₂, Read.str_eq h₃]
  rfl

theorem readActorDeclare_eq {j : Json} {p : ActorDeclarePayload} (h : Reads j p.fields) :
    readActorDeclare j = .ok p := by
  simp only [ActorDeclarePayload.fields, reads_cons, reads_nil, and_true] at h
  obtain ⟨h₁, h₂, h₃, h₄⟩ := h
  rw [readActorDeclare, Read.str_eq h₁, Read.opt_str h₂, Read.opt_str h₃, Read.opt_str h₄]
  rfl

theorem readActorKeyAdd_eq {j : Json} {p : ActorKeyAddPayload} (h : Reads j p.fields) :
    readActorKeyAdd j = .ok p := by
  simp only [ActorKeyAddPayload.fields, reads_cons, reads_nil, and_true] at h
  obtain ⟨h₁, h₂, h₃⟩ := h
  rw [readActorKeyAdd, Read.str_eq h₁, Read.str_eq h₂, Read.strs_eq h₃]
  rfl

theorem readActorKeyRevoke_eq {j : Json} {p : ActorKeyRevokePayload} (h : Reads j p.fields) :
    readActorKeyRevoke j = .ok p := by
  simp only [ActorKeyRevokePayload.fields, reads_cons, reads_nil, and_true] at h
  obtain ⟨h₁, h₂⟩ := h
  rw [readActorKeyRevoke, Read.str_eq h₁, Read.str_eq h₂]
  rfl

theorem readNodeAlias_eq {j : Json} {p : NodeAliasPayload} (h : Reads j p.fields) :
    readNodeAlias j = .ok p := by
  simp only [NodeAliasPayload.fields, reads_cons, reads_nil, and_true] at h
  obtain ⟨h₁, h₂, h₃⟩ := h
  rw [readNodeAlias, Read.str_eq h₁, Read.str_eq h₂, Read.str_eq h₃]
  rfl

variable {P}

/-- An optional confidence reads back with its numeric value. -/
theorem opt_f32 {w : Serializer} (hw : w.Law P) {j c : Json} {k : String} {o : Option UInt32}
    (hfin : ∀ b, o = some b → f32IsFinite b = true) (hc : optF32 w o = .ok c)
    (h : j.get? k = some c.canon) :
    ∃ o', Read.opt P.asF32 j k = .ok o' ∧ o.map f32Value = o'.map f32Value := by
  cases o with
  | none =>
    cases hc
    exact ⟨none, by simp [Read.opt, h, Json.canon], rfl⟩
  | some b =>
    obtain ⟨n, hn, hval⟩ := hw.f32_finite b (hfin b rfl)
    obtain rfl : Json.num n = c := Except.ok.inj (hn.symm.trans hc)
    refine ⟨some (P.f32OfNumber n), by simp [Read.opt, h, Json.canon, asF32], ?_⟩
    simp [hval]

theorem readAssertRelation_eq {w : Serializer} (hw : w.Law P) {j : Json} {p : AssertRelationPayload}
    {fs : List (String × Json)} (hfin : ∀ b, p.actorConfidence = some b → f32IsFinite b = true)
    (hfs : p.fields w = .ok fs) (h : Reads j fs) :
    ∃ p', P.readAssertRelation j = .ok p' ∧
      (EventPayload.assertRelation p).Same (.assertRelation p') := by
  unfold AssertRelationPayload.fields at hfs
  cases hc : optF32 w p.actorConfidence with
  | error e => rw [hc] at hfs; cases hfs
  | ok c =>
    rw [hc] at hfs
    cases hfs
    simp only [reads_cons, reads_nil, and_true] at h
    obtain ⟨h₁, h₂, h₃, h₄, h₅, h₆, h₇, h₈, h₉⟩ := h
    obtain ⟨o', ho', hval⟩ := opt_f32 hw hfin hc h₇
    refine ⟨{ p with actorConfidence := o' }, ?_, rfl, hval⟩
    rw [readAssertRelation, Read.str_eq h₁, Read.str_eq h₂, Read.str_eq h₃, Read.str_eq h₄,
      Read.str_eq h₅, Read.str_eq h₆, ho', Read.opt_i64 h₈, Read.str_eq h₉]
    rfl

/-- The payload of a written event reads back. -/
theorem readPayload_eq {w : Serializer} (hw : w.Law P) {j : Json} {p : EventPayload}
    {fs : List (String × Json)} (hfin : p.Finite) (hfs : p.fields w = .ok fs) (h : Reads j fs) :
    ∃ p', P.readPayload j = .ok p' ∧ p.Same p' := by
  cases hb : p.body w with
  | error e => rw [EventPayload.fields, hb] at hfs; cases hfs
  | ok body =>
    rw [EventPayload.fields, hb] at hfs
    obtain rfl : ("event_type", Json.str p.typeStr) :: body = fs := Except.ok.inj hfs
    rw [reads_cons] at h
    obtain ⟨htag, hbody⟩ := h
    have htag' := Read.str_eq htag
    cases p with
    | assertRelation p =>
      obtain ⟨p', hp', hsame⟩ := readAssertRelation_eq hw hfin hb hbody
      refine ⟨.assertRelation p', ?_, hsame⟩
      rw [readPayload, htag']
      change EventPayload.assertRelation <$> P.readAssertRelation j = _
      rw [hp']
      rfl
    | addEvidence p =>
      cases hb
      refine ⟨.addEvidence { p with metadata := metadataValue p.metadata }, ?_, rfl⟩
      rw [readPayload, htag']
      change EventPayload.addEvidence <$> readAddEvidence j = _
      rw [readAddEvidence_eq hbody]
      rfl
    | verifyAssertion p =>
      cases hb
      refine ⟨_, ?_, rfl⟩
      rw [readPayload, htag']
      change EventPayload.verifyAssertion <$> readVerifyAssertion j = _
      rw [readVerifyAssertion_eq hbody]
      rfl
    | disputeAssertion p =>
      cases hb
      refine ⟨_, ?_, rfl⟩
      rw [readPayload, htag']
      change EventPayload.disputeAssertion <$> readDisputeAssertion j = _
      rw [readDisputeAssertion_eq hbody]
      rfl
    | retractAssertion p =>
      cases hb
      refine ⟨_, ?_, rfl⟩
      rw [readPayload, htag']
      change EventPayload.retractAssertion <$> readRetractAssertion j = _
      rw [readRetractAssertion_eq hbody]
      rfl
    | supersedeAssertion p =>
      cases hb
      refine ⟨_, ?_, rfl⟩
      rw [readPayload, htag']
      change EventPayload.supersedeAssertion <$> readSupersedeAssertion j = _
      rw [readSupersedeAssertion_eq hbody]
      rfl
    | actorDeclare p =>
      cases hb
      refine ⟨_, ?_, rfl⟩
      rw [readPayload, htag']
      change EventPayload.actorDeclare <$> readActorDeclare j = _
      rw [readActorDeclare_eq hbody]
      rfl
    | actorKeyAdd p =>
      cases hb
      refine ⟨_, ?_, rfl⟩
      rw [readPayload, htag']
      change EventPayload.actorKeyAdd <$> readActorKeyAdd j = _
      rw [readActorKeyAdd_eq hbody]
      rfl
    | actorKeyRevoke p =>
      cases hb
      refine ⟨_, ?_, rfl⟩
      rw [readPayload, htag']
      change EventPayload.actorKeyRevoke <$> readActorKeyRevoke j = _
      rw [readActorKeyRevoke_eq hbody]
      rfl
    | nodeAlias p =>
      cases hb
      refine ⟨_, ?_, rfl⟩
      rw [readPayload, htag']
      change EventPayload.nodeAlias <$> readNodeAlias j = _
      rw [readNodeAlias_eq hbody]
      rfl

/-! ## Reading the envelope -/

/-- The keys of a payload's own fields. -/
def payloadKeys : EventPayload → List String
  | .assertRelation _ => ["subject_identifier", "subject_type", "predicate", "object_identifier",
      "object_type", "actor_id", "actor_confidence", "observed_at", "extraction_method"]
  | .addEvidence _ => ["assertion_id", "evidence_type", "uri", "title", "excerpt", "content_hash",
      "observed_at", "retrieved_at", "pinned_cid", "metadata"]
  | .verifyAssertion _ => ["assertion_id", "observer_actor_id", "result", "observed_at"]
  | .disputeAssertion _ => ["disputed_assertion_id", "disputing_actor_id", "reason"]
  | .retractAssertion _ => ["retracted_assertion_id", "actor_id", "reason"]
  | .supersedeAssertion _ => ["old_assertion_id", "new_assertion_id", "actor_id"]
  | .actorDeclare _ => ["actor_type", "name", "public_key", "identity_uri"]
  | .actorKeyAdd _ => ["actor_id", "key_hash", "permissions"]
  | .actorKeyRevoke _ => ["actor_id", "key_hash"]
  | .nodeAlias _ => ["node_id", "alias", "alias_type"]

theorem map_fst_body {w : Serializer} {p : EventPayload} {body : List (String × Json)}
    (h : p.body w = .ok body) : body.map Prod.fst = payloadKeys p := by
  cases p with
  | assertRelation p =>
    simp only [EventPayload.body, AssertRelationPayload.fields] at h
    cases hc : optF32 w p.actorConfidence with
    | error e => rw [hc] at h; cases h
    | ok c => rw [hc] at h; cases h; rfl
  | _ => cases h; rfl

/-- The fields of an unsigned event, taken apart. -/
theorem fields_eq {w : Serializer} {u : UnsignedEvent} {fs : List (String × Json)}
    (h : u.fields w = .ok fs) :
    ∃ payload, u.payload.fields w = .ok payload ∧
      fs = [("version", .num (.ofUInt16 u.version)), ("origin_peer", .str u.originPeer),
        ("sequence", .num (.ofUInt64 u.sequence)), ("previous_event", optStr u.previousEvent),
        ("created_at", i64 u.createdAt)] ++ payload := by
  unfold UnsignedEvent.fields at h
  cases hp : u.payload.fields w with
  | error e => rw [hp] at h; cases h
  | ok payload => rw [hp] at h; cases h; exact ⟨payload, rfl, rfl⟩

theorem payloadFields_eq {w : Serializer} {p : EventPayload} {fs : List (String × Json)}
    (h : p.fields w = .ok fs) :
    ∃ body, p.body w = .ok body ∧ fs = ("event_type", .str p.typeStr) :: body := by
  unfold EventPayload.fields at h
  cases hb : p.body w with
  | error e => rw [hb] at h; cases h
  | ok body => rw [hb] at h; cases h; exact ⟨body, rfl, rfl⟩

/-- The envelope's keys and the payload's are distinct, for every payload. -/
theorem nodup_keys {w : Serializer} {u : UnsignedEvent} {fs : List (String × Json)} (sig : Json)
    (h : u.fields w = .ok fs) : ((fs ++ [("signature", sig)]).map Prod.fst).Nodup := by
  obtain ⟨payload, hpayload, rfl⟩ := fields_eq h
  obtain ⟨body, hbody, rfl⟩ := payloadFields_eq hpayload
  have hkeys := map_fst_body hbody
  simp only [List.map_append, List.map_cons, List.map_nil, hkeys]
  cases u.payload <;> (simp only [payloadKeys]; decide)

theorem readUnsigned_eq {w : Serializer} (hw : w.Law P) {j : Json} {u : UnsignedEvent}
    {fs : List (String × Json)} (hfin : u.payload.Finite) (hfs : u.fields w = .ok fs)
    (h : Reads j fs) : ∃ u', P.readUnsigned j = .ok u' ∧ u.Same u' := by
  obtain ⟨payload, hpayload, rfl⟩ := fields_eq hfs
  rw [reads_append] at h
  obtain ⟨henv, hpay⟩ := h
  simp only [reads_cons, reads_nil, and_true] at henv
  obtain ⟨h₁, h₂, h₃, h₄, h₅⟩ := henv
  obtain ⟨p', hp', hsame⟩ := readPayload_eq hw hfin hpayload hpay
  refine ⟨{ u with payload := p' }, ?_, ⟨rfl, rfl, rfl, rfl, rfl, hsame⟩⟩
  rw [readUnsigned, Read.num_eq h₁ (Number.toUInt16?_ofUInt16 _), Read.str_eq h₂,
    Read.num_eq h₃ (Number.toUInt64?_ofUInt64 _), Read.opt_str h₄,
    Read.num_eq h₅ (Number.toInt64?_ofInt64 _), hp']
  rfl

theorem toJson_ok {w : Serializer} {s : SignedEvent} {j : Json} (h : s.toJson w = .ok j) :
    ∃ fs, s.unsigned.fields w = .ok fs ∧ j = .obj (fs ++ [("signature", .str s.signature)]) := by
  unfold SignedEvent.toJson at h
  cases hfs : s.unsigned.fields w with
  | error e => rw [hfs] at h; cases h
  | ok fs => rw [hfs] at h; cases h; exact ⟨fs, rfl, rfl⟩

/-- A written event reads back. -/
theorem readSigned_eq {w : Serializer} (hw : w.Law P) {s : SignedEvent} {j : Json}
    (hfin : s.unsigned.payload.Finite) (h : s.toJson w = .ok j) :
    ∃ s', P.readSigned j.canon = .ok s' ∧ s.Same s' := by
  obtain ⟨fs, hfs, rfl⟩ := toJson_ok h
  have hreads := reads_canon (nodup_keys (.str s.signature) hfs)
  rw [reads_append] at hreads
  obtain ⟨hfields, hsig⟩ := hreads
  rw [reads_cons] at hsig
  obtain ⟨u', hu', hsame⟩ := readUnsigned_eq hw hfin hfs hfields
  refine ⟨{ unsigned := u', signature := s.signature }, ?_, ⟨hsame, rfl⟩⟩
  rw [readSigned, hu', Read.str_eq hsig.1]
  rfl

/-! ## The canonical bytes -/

/-- Canonical bytes exist for finite confidences only. -/
theorem finite_of_fields (hJ : JsonLaws P) {u : UnsignedEvent} {fs : List (String × Json)}
    (h : u.fields P.jcs = .ok fs) : u.payload.Finite := by
  obtain ⟨payload, hpayload, -⟩ := fields_eq h
  obtain ⟨body, hbody, -⟩ := payloadFields_eq hpayload
  cases hp : u.payload with
  | assertRelation p =>
    intro b hb
    by_contra hnot
    obtain ⟨e, he⟩ := hJ.jcs_nonFinite b (by simpa using hnot)
    rw [hp] at hbody
    simp only [EventPayload.body, AssertRelationPayload.fields, hb, optF32, he] at hbody
    cases hbody
  | _ => trivial

theorem canonicalSigned_ok {s : SignedEvent} {b : Bytes} (h : P.canonicalSigned s = .ok b) :
    ∃ j, s.toJson P.jcs = .ok j ∧ b = P.jcs.write j := by
  unfold canonicalSigned at h
  cases hj : s.toJson P.jcs with
  | error e => rw [hj] at h; cases h
  | ok j => rw [hj] at h; cases h; exact ⟨j, rfl, rfl⟩

/-- **Reading back.**  The event read from canonical bytes is the one that was
    written, up to what JSON cannot tell apart. -/
theorem signedFromSlice_canonical (hJ : JsonLaws P) {s : SignedEvent} {b : Bytes}
    (h : P.canonicalSigned s = .ok b) : ∃ s', P.signedFromSlice b = .ok s' ∧ s.Same s' := by
  obtain ⟨j, hj, rfl⟩ := canonicalSigned_ok h
  obtain ⟨fs, hfs, -⟩ := toJson_ok hj
  obtain ⟨s', hs', hsame⟩ := readSigned_eq hJ.jcs (finite_of_fields hJ hfs) hj
  refine ⟨s', ?_, hsame⟩
  rw [signedFromSlice, hJ.jcs.fromSlice_write]
  exact hs'

end Prims

/-! ## Events with one value have one text -/

theorem optValue_metadataValue (o : Option JsonValue) : optValue (metadataValue o) = optValue o := by
  cases o with
  | none => rfl
  | some v =>
    obtain ⟨val, hval⟩ := v
    cases val <;> rfl

theorem optF32_congr {P : Prims H} {w : Serializer} (hw : w.Law P) {o o' : Option UInt32}
    (h : o.map f32Value = o'.map f32Value) : optF32 w o = optF32 w o' := by
  cases o with
  | none =>
    cases o' with
    | none => rfl
    | some b' => cases h
  | some b =>
    cases o' with
    | none => cases h
    | some b' => exact hw.f32_value b b' (Option.some.inj h)

theorem EventPayload.Same.body_eq {P : Prims H} {w : Serializer} (hw : w.Law P)
    {p p' : EventPayload} (h : p.Same p') : p.body w = p'.body w := by
  cases p with
  | assertRelation p =>
    cases p' with
    | assertRelation p' =>
      obtain ⟨hp, hval⟩ := h
      rw [← hp]
      simp only [body, AssertRelationPayload.fields, optF32_congr hw hval]
    | _ => cases h
  | addEvidence p =>
    cases p' with
    | addEvidence p' =>
      obtain rfl : p' = _ := h
      simp only [body, AddEvidencePayload.fields, optValue_metadataValue]
    | _ => cases h
  | _ =>
    cases p' <;> cases h
    rfl

theorem UnsignedEvent.Same.fields_eq {P : Prims H} {w : Serializer} (hw : w.Law P)
    {u u' : UnsignedEvent} (h : u.Same u') : u.fields w = u'.fields w := by
  simp only [fields, EventPayload.fields, h.version, h.originPeer, h.sequence, h.previousEvent,
    h.createdAt, h.payload.body_eq hw, h.payload.typeStr_eq]

theorem SignedEvent.Same.canonicalUnsigned_eq {P : Prims H} (hJ : JsonLaws P) {s s' : SignedEvent}
    (h : s.Same s') : P.canonicalUnsigned s.unsigned = P.canonicalUnsigned s'.unsigned := by
  simp only [Prims.canonicalUnsigned, UnsignedEvent.toJson, h.unsigned.fields_eq hJ.jcs]

theorem SignedEvent.Same.canonicalSigned_eq {P : Prims H} (hJ : JsonLaws P) {s s' : SignedEvent}
    (h : s.Same s') : P.canonicalSigned s = P.canonicalSigned s' := by
  simp only [Prims.canonicalSigned, SignedEvent.toJson, h.unsigned.fields_eq hJ.jcs, h.signature]

end OpenAgentGraph
