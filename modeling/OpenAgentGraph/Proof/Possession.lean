/-
  Possession of actor keys.

  `declare_actor` checks that the caller holds the key it names; the projector
  stores the key of a replicated declaration as it stands.  A row is the
  declaration that came first, so a key is proven in every state of a run
  just when no replicated declaration creates a row for a key whose holder
  produced no proof (`actor_keys_proven_iff`).
-/
import OpenAgentGraph.Graph.Actors
import OpenAgentGraph.Proof.Database

namespace OpenAgentGraph

open Lib Repo
open scoped List

variable {H : Type} {P : Prims H}

/-! ## Proofs and rows -/

/-- The bytes that a possession proof signs. -/
def Prims.proofBytes (P : Prims H) (actorType : ActorType) (name identityUri : Option String) :
    Bytes := P.jcs.write (actorKeyProofMessage actorType name identityUri)

/-- A possession proof that verifies was produced by the key's holder. -/
def Unforgeable (P : Prims H) (Produced : Bytes → Bytes → Prop) : Prop :=
  ∀ (key : P.VerifyingKey) m sig, P.verifyWithDomain key actorKeyProofDomain m sig = true →
    Produced key.bytes m

section proven

variable (P) (Produced : Bytes → Bytes → Prop)

/-- The holder of the row's key produced a proof over its columns; of a
    redacted identity URI, over the one that was declared. -/
def ProvenRow (s : Store H) (r : ActorRow H) : Prop :=
  ∀ k, r.publicKey = some k → ∃ uri, Produced k (P.proofBytes r.actorType r.name uri) ∧
    (r.identityUri = uri ∨
      r.identityUri = none ∧ ∃ d ∈ s.actorRedactions, d.actorId = r.actorId)

/-- Every key of the actors table is proven, and no other gives assurance. -/
structure ActorKeysProven (s : Store H) : Prop where
  rows : ∀ r ∈ s.proj.actors, ProvenRow P Produced s r
  assurance : ∀ r ∈ s.proj.actors,
    identityAssuranceScore r = 0x3F800000 ∨ identityAssuranceScore r = 0x3F333333 →
    ∃ k uri, r.publicKey = some k ∧ Produced k (P.proofBytes r.actorType r.name uri)

end proven

/-- Only a key gives an assurance of 0.7 or 1.0. -/
theorem publicKey_of_assurance {r : ActorRow H}
    (h : identityAssuranceScore r = 0x3F800000 ∨ identityAssuranceScore r = 0x3F333333) :
    ∃ k, r.publicKey = some k := by
  cases hk : r.publicKey with
  | some k => exact ⟨k, rfl⟩
  | none =>
    cases hu : r.identityUri with
    | none => simp [identityAssuranceScore, hk, hu] at h
    | some u => simp [identityAssuranceScore, hk, hu] at h

theorem actorKeysProven_iff {Produced : Bytes → Bytes → Prop} {s : Store H} :
    ActorKeysProven P Produced s ↔ ∀ r ∈ s.proj.actors, ProvenRow P Produced s r := by
  refine ⟨fun h => h.rows, fun h => ⟨h, fun r hr hscore => ?_⟩⟩
  obtain ⟨k, hk⟩ := publicKey_of_assurance hscore
  obtain ⟨uri, hproduced, -⟩ := h r hr k hk
  exact ⟨k, uri, hk, hproduced⟩

/-! ## The rows of an event -/

/-- The row that a declaration asks for. -/
def Declares (P : Prims H) (eventId : H) (p : ActorDeclarePayload) (r : ActorRow H) : Prop :=
  r.actorId = P.actorIdOf eventId p.publicKey ∧ ActorType.parse p.actorType = some r.actorType ∧
    r.name = p.name ∧ Prims.declaredKey p.publicKey = some r.publicKey ∧ r.identityUri = p.identityUri

theorem Declares.unique {eventId : H} {p : ActorDeclarePayload} {r r' : ActorRow H}
    (h : Declares P eventId p r) (h' : Declares P eventId p r') :
    r.actorId = r'.actorId ∧ r.actorType = r'.actorType ∧ r.name = r'.name ∧
      r.publicKey = r'.publicKey ∧ r.identityUri = r'.identityUri := by
  obtain ⟨hid, htype, hname, hkey, huri⟩ := h
  obtain ⟨hid', htype', hname', hkey', huri'⟩ := h'
  exact ⟨hid.trans hid'.symm, Option.some.inj (htype.symm.trans htype'), hname.trans hname'.symm,
    Option.some.inj (hkey.symm.trans hkey'), huri.trans huri'.symm⟩

theorem effectOf_actors {eventId : H} {createdAt : Int64} {p : EventPayload} {e : Effect H}
    (h : P.effectOf eventId createdAt p = some e) :
    (e.actors = [] ∧ ∀ q, p ≠ .actorDeclare q) ∨
      ∃ q r, p = .actorDeclare q ∧ e.actors = [r] ∧ Declares P eventId q r := by
  cases p <;>
    simp only [Prims.effectOf, Prims.relationEffect, Prims.evidenceEffect, Prims.verifyEffect,
      Prims.disputeEffect, Prims.retractEffect, Prims.supersedeEffect, Prims.actorEffect,
      Prims.keyAddEffect, Prims.keyRevokeEffect, Prims.aliasEffect, option_bind_some,
      option_pure_some] at h
  case actorDeclare q =>
    obtain ⟨actorType, htype, key, hkey, rfl⟩ := h
    exact .inr ⟨q, _, rfl, rfl, rfl, htype, rfl, hkey, rfl⟩
  all_goals
    refine .inl ⟨?_, fun q hq => by cases hq⟩
    grind

/-! ## Local declarations -/

theorem declaredKey_hexEncode (key : P.VerifyingKey) :
    Prims.declaredKey (some (hexEncode key.bytes)) = some (some key.bytes) := by
  have hparse : Prims.parsePublicKey (hexEncode key.bytes) = .ok key.bytes := by
    simp only [Prims.parsePublicKey, hexDecode_hexEncode, orElse, ok_bind, VerifyingKey_length key,
      if_true]
    rfl
  simp only [Prims.declaredKey, hparse]
  rfl

/-- A key that `declare_actor` accepts comes with a proof. -/
theorem provedKey_ok {Produced : Bytes → Bytes → Prop} (hforge : Unforgeable P Produced)
    {actorType : ActorType} {name uri : Option String} {proof : Option PublicKeyProof} {text : String}
    (h : P.provedKey actorType name uri proof = .ok (some text)) :
    ∃ k, Prims.declaredKey (some text) = some (some k) ∧
      Produced k (P.proofBytes actorType name uri) := by
  cases proof with
  | none => cases h
  | some proof =>
    simp only [Prims.provedKey] at h
    split at h
    · cases h
    · next key hkey =>
      split at h
      · next hver =>
        cases h
        have hbytes : key.bytes = proof.publicKey := by
          unfold Prims.keyFromBytes at hkey
          split at hkey
          · cases hkey
            rfl
          · cases hkey
        rw [← hbytes]
        exact ⟨key.bytes, declaredKey_hexEncode key, hforge key _ _ hver⟩
      · cases h

variable [DecidableEq H]

theorem declareActor_ok {s s' : Store H} {me : Prims.PeerIdentity} {actorType : ActorType}
    {name uri : Option String} {proof : Option PublicKeyProof} {now : Int64} {id : H}
    (h : P.declareActor s me actorType name uri proof now = .ok (s', id)) :
    ∃ key, P.provedKey actorType name uri proof = .ok key ∧
      P.exec s (.commit me (.actorDeclare ⟨actorType.asStr, name, key, uri⟩) now) = some s' := by
  simp only [Prims.declareActor, bind_ok] at h
  obtain ⟨-, -, -, -, key, hkey, ⟨s₁, eventId, o⟩, hcommit, hout⟩ := h
  have hcommit := GraphError.lift_ok.1 hcommit
  refine ⟨key, hkey, ?_⟩
  have hs : s₁ = s' := by
    cases o with
    | actorDeclared actorId => exact congrArg Prod.fst (pure_ok.1 hout)
    | unit => exact congrArg Prod.fst (pure_ok.1 hout)
  rw [Prims.exec, hcommit, ← hs]
  rfl

/-! ## One step -/

/-- An appended declaration adds the row it asks for, if the actor has none. -/
theorem Appended.actors (hJ : JsonLaws P) {s s' : Store H} {row : EventRow H} {signed : SignedEvent}
    (h : Appended P s s' row signed) :
    (s'.proj.actors = s.proj.actors ∧ ∀ q, signed.unsigned.payload ≠ .actorDeclare q) ∨
    ∃ q r, signed.unsigned.payload = .actorDeclare q ∧ Declares P row.eventId q r ∧
      s'.proj.actors = Table.insertOrIgnore ActorRow.actorId r s.proj.actors := by
  obtain ⟨e, heff, -, -, hproj⟩ := h.effect hJ
  have hactors : s'.proj.actors = addAll ActorRow.actorId e.actors s.proj.actors := by rw [hproj]; rfl
  rcases effectOf_actors heff with ⟨hnil, hno⟩ | ⟨q, r, hpay, hr, hdecl⟩
  · rw [hactors, hnil]
    exact .inl ⟨rfl, hno⟩
  · rw [hactors, hr]
    exact .inr ⟨q, r, hpay, hdecl, rfl⟩

variable {Produced : Bytes → Bytes → Prop}

/-- Every key of the table is proven. -/
def AllProven (P : Prims H) (Produced : Bytes → Bytes → Prop) (s : Store H) : Prop :=
  ∀ r ∈ s.proj.actors, ProvenRow P Produced s r

omit [DecidableEq H] in
theorem AllProven.congr {s s' : Store H} (h : AllProven P Produced s)
    (hactors : s'.proj.actors = s.proj.actors)
    (hredactions : s'.actorRedactions = s.actorRedactions) : AllProven P Produced s' := by
  intro r hr
  rw [hactors] at hr
  intro k hk
  rw [hredactions]
  exact h r hr k hk

theorem Appended.allProven (hJ : JsonLaws P) {s s' : Store H} {row : EventRow H}
    {signed : SignedEvent} (h : Appended P s s' row signed) (hall : AllProven P Produced s)
    (hnew : ∀ q r, signed.unsigned.payload = .actorDeclare q → Declares P row.eventId q r →
      hasActor s.proj r.actorId = false → ∀ k, r.publicKey = some k →
      Produced k (P.proofBytes r.actorType r.name r.identityUri)) : AllProven P Produced s' := by
  have hredactions : s'.actorRedactions = s.actorRedactions := by rw [h.eq]
  rcases h.actors hJ with ⟨hactors, -⟩ | ⟨q, r, hpay, hdecl, hactors⟩
  · exact hall.congr hactors hredactions
  · by_cases hhas : ∃ y ∈ s.proj.actors, y.actorId = r.actorId
    · rw [Table.insertOrIgnore_of_mem hhas] at hactors
      exact hall.congr hactors hredactions
    · rw [Table.insertOrIgnore_of_not_mem hhas] at hactors
      intro r' hr' k hk
      rw [hactors, List.mem_append, List.mem_singleton] at hr'
      rcases hr' with hr' | rfl
      · rw [hredactions]
        exact hall r' hr' k hk
      · refine ⟨_, hnew q r' hpay hdecl ?_ k hk, .inl rfl⟩
        exact Table.hasKey_eq_false.2 fun y hy hid => hhas ⟨y, hy, hid⟩

/-- A redacted row is proven by the proof it had. -/
theorem AllProven.redact {s s' : Store H} (hall : AllProven P Produced s) {auth : AuthContext H}
    {actorId : H} {reason : Option String} {now : Int64}
    (h : P.redactActorIdentityUri s auth actorId reason now = .ok s') : AllProven P Produced s' := by
  obtain ⟨-, -, rfl⟩ := redactActor_ok h
  intro r hr k hk
  obtain ⟨z, hz, rfl⟩ := Table.mem_updateWhere.1 hr
  by_cases hid : z.actorId = actorId
  · rw [if_pos (decide_eq_true hid)] at hk ⊢
    obtain ⟨uri, hproduced, -⟩ := hall z hz k hk
    exact ⟨uri, hproduced, .inr ⟨rfl, ⟨actorId, now, reason⟩, by simp, hid.symm⟩⟩
  · rw [if_neg (by simpa using hid)] at hk ⊢
    obtain ⟨uri, hproduced, huri | ⟨hnone, d, hd, hdid⟩⟩ := hall z hz k hk
    · exact ⟨uri, hproduced, .inl huri⟩
    · exact ⟨uri, hproduced, .inr ⟨hnone, d, List.mem_append_left _ hd, hdid⟩⟩

/-- A verified event that is the next one of its origin. -/
structure Continues (P : Prims H) (s : Store H) (key : P.VerifyingKey) (signed : SignedEvent) :
    Prop where
  verified : Verified P key signed (P.idOf signed)
  origin : P.peerIdFromStr signed.unsigned.originPeer = .ok (P.peerIdOfKey key)
  next : ∃ previous, P.parsePreviousEvent signed.unsigned.previousEvent = .ok previous ∧
    Prims.nextOf (getOrigin s.eventOrigins (P.peerIdOfKey key)) = (signed.unsigned.sequence, previous)
  room : s.events.length < maxRows

/-- The operation replicates a declaration that is the first of its actor, for
    a key whose holder produced no proof of it. -/
def ActorOp.Unproven (Produced : Bytes → Bytes → Prop) (s : Store H) : ActorOp P → Prop
  | .ingest key signed _ => Continues P s key signed ∧
    ∃ q r k, signed.unsigned.payload = .actorDeclare q ∧ Declares P (P.idOf signed) q r ∧
      hasActor s.proj r.actorId = false ∧ r.publicKey = some k ∧
      ¬ Produced k (P.proofBytes r.actorType r.name r.identityUri)
  | _ => False

theorem ingest_allProven (hJ : JsonLaws P) (hinj : Function.Injective P.blake3) {s s' : Store H}
    (hlog : LogStored P s) (hall : AllProven P Produced s) {key : P.VerifyingKey}
    {signed : SignedEvent} {receivedAt : Int64}
    (hok : ¬ ActorOp.Unproven Produced s (.ingest key signed receivedAt))
    (h : P.exec s (.ingest key signed receivedAt) = some s') : AllProven P Produced s' := by
  cases exec_logStep hJ hinj hlog h with
  | known => exact hall
  | forked _ _ _ _ hfork =>
    obtain ⟨json, rfl⟩ := recordFork_ok hfork
    exact hall.congr rfl rfl
  | @applied _ _ _ _ row happ hver horigin =>
    have hid := hver.idOf_eq
    have hnext := happ.next
    rw [horigin] at hnext
    have hcontinues : Continues P s key signed :=
      ⟨hid ▸ hver, horigin ▸ happ.stored.origin, ⟨_, happ.stored.previous, hnext⟩, happ.room⟩
    refine happ.allProven hJ hall fun q r hpay hdecl hhas k hk => ?_
    by_contra hno
    exact hok ⟨hcontinues, q, r, k, hpay, hid ▸ hdecl, hhas, hk, hno⟩

/-- A local declaration is proven by the proof that it was checked with. -/
theorem declare_allProven (hJ : JsonLaws P) (hinj : Function.Injective P.blake3)
    (hforge : Unforgeable P Produced) {s s' : Store H} (hlog : LogStored P s)
    (hall : AllProven P Produced s) {me : Prims.PeerIdentity} {actorType : ActorType}
    {name uri : Option String} {proof : Option PublicKeyProof} {now : Int64} {id : H}
    (h : P.declareActor s me actorType name uri proof now = .ok (s', id)) :
    AllProven P Produced s' := by
  obtain ⟨text, hkey, hexec⟩ := declareActor_ok h
  cases exec_logStep hJ hinj hlog hexec with
  | @commit _ _ _ _ row signed happ _ hpay =>
    refine happ.allProven hJ hall fun q r hq hdecl _ k hk => ?_
    obtain rfl := EventPayload.actorDeclare.inj (hpay.symm.trans hq)
    obtain ⟨-, htype, hname, hdeclared, huri⟩ := hdecl
    rw [ActorType.parse_asStr] at htype
    obtain rfl := Option.some.inj htype
    rw [hname, huri]
    cases text with
    | none =>
      rw [hk] at hdeclared
      cases hdeclared
    | some text =>
      obtain ⟨k', hk', hproduced⟩ := provedKey_ok hforge hkey
      rw [hk'] at hdeclared
      rw [← Option.some.inj hdeclared] at hk
      rw [← Option.some.inj hk]
      exact hproduced

/-- **One step**: keys stay proven unless a declaration is replicated without. -/
theorem actorExec_allProven (hJ : JsonLaws P) (hinj : Function.Injective P.blake3)
    (hforge : Unforgeable P Produced) {s s' : Store H} (hinv : DbInv P s)
    (hall : AllProven P Produced s) {me : Prims.PeerIdentity} {op : ActorOp P}
    (hok : ¬ op.Unproven Produced s) (h : P.actorExec me s op = some s') :
    AllProven P Produced s' := by
  cases op with
  | declare actorType name uri proof now =>
    obtain ⟨⟨s₁, id⟩, hdeclare, rfl⟩ := Option.map_eq_some_iff.1 h
    exact declare_allProven hJ hinj hforge hinv.log.stored hall (toOption_eq_some.1 hdeclare)
  | call payload other now =>
    have hexec : P.exec s (.commit me payload now) = some s' := h
    cases exec_logStep hJ hinj hinv.log.stored hexec with
    | commit happ _ hpay =>
      refine happ.allProven hJ hall fun q _ hq _ _ _ _ => ?_
      exact absurd (hpay.symm.trans hq) (other q)
  | ingest key signed receivedAt => exact ingest_allProven hJ hinj hinv.log.stored hall hok h
  | rebuild =>
    have hexec : P.exec s .rebuild = some s' := h
    cases exec_logStep hJ hinj hinv.log.stored hexec with
    | rebuild hrebuild =>
      rw [hinv.replay.rebuild] at hrebuild
      cases hrebuild
      exact hall
  | redactEvidence auth evidenceId reason now =>
    obtain ⟨-, -, rfl⟩ := redactEvidence_ok (toOption_eq_some.1 h)
    exact hall.congr rfl rfl
  | redactActor auth actorId reason now => exact hall.redact (toOption_eq_some.1 h)

/-! ## Runs -/

/-- An operation through the service is one on the store. -/
theorem actorExec_exec {s s' : Store H} {me : Prims.PeerIdentity} {op : ActorOp P}
    (h : P.actorExec me s op = some s') : ∃ op' : Op P, P.exec s op' = some s' := by
  cases op with
  | declare actorType name uri proof now =>
    obtain ⟨⟨s₁, id⟩, hdeclare, rfl⟩ := Option.map_eq_some_iff.1 h
    obtain ⟨key, -, hexec⟩ := declareActor_ok (toOption_eq_some.1 hdeclare)
    exact ⟨_, hexec⟩
  | call payload other now => exact ⟨.commit me payload now, h⟩
  | ingest key signed receivedAt => exact ⟨.ingest key signed receivedAt, h⟩
  | rebuild => exact ⟨.rebuild, h⟩
  | redactEvidence auth evidenceId reason now => exact ⟨.redactEvidence auth evidenceId reason now, h⟩
  | redactActor auth actorId reason now => exact ⟨.redactActor auth actorId reason now, h⟩

theorem actorRun_append (me : Prims.PeerIdentity) (s : Store H) (ops : List (ActorOp P))
    (op : ActorOp P) : P.actorRun me s (ops ++ [op]) = P.actorStep me (P.actorRun me s ops) op := by
  simp [Prims.actorRun]

theorem actorRun_one {me : Prims.PeerIdentity} {s s' : Store H} {op : ActorOp P}
    (h : P.actorExec me s op = some s') : P.actorRun me s [op] = s' := by
  simp [Prims.actorRun, Prims.actorStep, h]

theorem actorRun_dbInv (hJ : JsonLaws P) (hinj : Function.Injective P.blake3)
    (me : Prims.PeerIdentity) (ops : List (ActorOp P)) :
    DbInv P (P.actorRun me Store.empty ops) := by
  induction ops using List.reverseRecOn with
  | nil => exact dbInv_empty
  | append_singleton ops op ih =>
    rw [actorRun_append, Prims.actorStep]
    cases h : P.actorExec me (P.actorRun me Store.empty ops) op with
    | none => exact ih
    | some s' =>
      obtain ⟨op', hexec⟩ := actorExec_exec h
      exact exec_dbInv hJ hinj ih hexec

theorem actorRun_allProven (hJ : JsonLaws P) (hinj : Function.Injective P.blake3)
    (hforge : Unforgeable P Produced) (me : Prims.PeerIdentity) (ops : List (ActorOp P))
    (hok : ∀ before op, before ++ [op] <+: ops →
      ¬ op.Unproven Produced (P.actorRun me Store.empty before)) :
    AllProven P Produced (P.actorRun me Store.empty ops) := by
  induction ops using List.reverseRecOn with
  | nil => exact fun r hr => absurd hr List.not_mem_nil
  | append_singleton ops op ih =>
    have hinv := actorRun_dbInv hJ hinj me ops
    have hall := ih fun before op' hpre => hok before op' (hpre.trans (List.prefix_append _ _))
    rw [actorRun_append, Prims.actorStep]
    cases h : P.actorExec me (P.actorRun me Store.empty ops) op with
    | none => exact hall
    | some s' => exact actorExec_allProven hJ hinj hforge hinv hall (hok ops op List.prefix_rfl) h

/-! ## Replicated declarations -/

/-- A redacted actor has a row. -/
theorem ReplayInv.redacted_hasActor {s : Store H} (h : ReplayInv P s) {d : ActorRedactionRow H}
    (hd : d ∈ s.actorRedactions) : hasActor s.proj d.actorId = true := by
  obtain ⟨g, -, hrows, hproj⟩ := h.built
  obtain ⟨y, hy, hid⟩ := hrows.actors _ (List.mem_map_of_mem hd)
  have hmap : s.proj.actors.map ActorRow.actorId = g.actors.map ActorRow.actorId := by
    rw [hproj, redactAll_eq]
    exact map_clearIds ActorRow.actorId clearActor (fun _ => rfl) _ _
  have hmem : d.actorId ∈ s.proj.actors.map ActorRow.actorId := by
    rw [hmap, ← hid]
    exact List.mem_map_of_mem hy
  obtain ⟨r, hr, hrid⟩ := List.mem_map.1 hmem
  exact Table.hasKey_iff.2 ⟨r, hr, hrid⟩

/-- A declaration that continues its origin's chain is applied. -/
theorem Continues.declared (hJ : JsonLaws P) (hinj : Function.Injective P.blake3) {s : Store H}
    (hinv : DbInv P s) {key : P.VerifyingKey} {signed : SignedEvent} (h : Continues P s key signed)
    {q : ActorDeclarePayload} {r : ActorRow H} (hpay : signed.unsigned.payload = .actorDeclare q)
    (hdecl : Declares P (P.idOf signed) q r) (hhas : hasActor s.proj r.actorId = false)
    (receivedAt : Int64) :
    ∃ s' r', P.exec s (.ingest key signed receivedAt) = some s' ∧ Declares P (P.idOf signed) q r' ∧
      r' ∈ s'.proj.actors ∧ s'.actorRedactions = s.actorRedactions := by
  obtain ⟨hid, htype, hname, hkey, huri⟩ := hdecl
  obtain ⟨previous, hprev, hnext⟩ := h.next
  let r' : ActorRow H := ⟨P.actorIdOf (P.idOf signed) q.publicKey, r.actorType, q.name, r.publicKey,
    q.identityUri, .emptyObj, signed.unsigned.createdAt⟩
  have heff : P.effectOf (P.idOf signed) signed.unsigned.createdAt signed.unsigned.payload
      = some { actors := [r'] } := by
    rw [hpay]
    simp only [Prims.effectOf, Prims.actorEffect, htype, hkey]
    rfl
  have hadm : Effect.Admissible { actors := [r'] } s.proj := by constructor <;> simp
  obtain ⟨o, hingest⟩ := ingest_apply hJ hinj hinv.log h.room receivedAt h.verified h.origin hprev
    hnext heff hadm
  refine ⟨appendRow s (P.rowOf signed (P.peerIdOfKey key) previous receivedAt) { actors := [r'] }, r',
    by rw [Prims.exec, hingest]; rfl, ⟨rfl, htype, rfl, hkey, rfl⟩, ?_, rfl⟩
  change r' ∈ Table.insertOrIgnore ActorRow.actorId r' s.proj.actors
  rw [Table.insertOrIgnore_of_not_mem]
  · simp
  · rintro ⟨y, hy, hy'⟩
    exact Table.hasKey_eq_false.1 hhas y hy (hy'.trans hid.symm)

/-- The row of an unproven declaration is one whose key is not proven. -/
theorem not_allProven_of_unproven (hJ : JsonLaws P) (hinj : Function.Injective P.blake3)
    {s : Store H} (hinv : DbInv P s) {me : Prims.PeerIdentity} {op : ActorOp P}
    (h : op.Unproven Produced s) : ¬ AllProven P Produced (P.actorStep me s op) := by
  cases op with
  | ingest key signed receivedAt =>
    obtain ⟨hcontinues, q, r, k, hpay, hdecl, hhas, hk, hno⟩ := h
    obtain ⟨s', r', hexec, hdecl', hmem, hredactions⟩ :=
      hcontinues.declared hJ hinj hinv hpay hdecl hhas receivedAt
    obtain ⟨hid, htype, hname, hkey, huri⟩ := hdecl.unique hdecl'
    intro hall
    rw [Prims.actorStep, Prims.actorExec, hexec] at hall
    obtain ⟨uri, hproduced, heq | ⟨-, d, hd, hdid⟩⟩ := hall r' hmem k (hkey ▸ hk)
    · rw [htype, hname, huri, heq] at hno
      exact hno hproduced
    -- the actor of a new row was not redacted
    · change d ∈ s'.actorRedactions at hd
      rw [hredactions] at hd
      have hrow := hinv.replay.redacted_hasActor hd
      rw [hdid, ← hid, hhas] at hrow
      cases hrow
  | declare actorType name uri proof now => exact h.elim
  | call payload other now => exact h.elim
  | rebuild => exact h.elim
  | redactEvidence auth evidenceId reason now => exact h.elim
  | redactActor auth actorId reason now => exact h.elim

/-- **When actor keys are proven.**  Every state of a run has proven keys only,
    just when no replicated declaration of the run creates a row for a key
    whose holder produced no proof of it. -/
theorem actor_keys_proven_iff (P : Prims H) (hJ : JsonLaws P) (hinj : Function.Injective P.blake3)
    (Produced : Bytes → Bytes → Prop) (hforge : Unforgeable P Produced) (me : Prims.PeerIdentity)
    (ops : List (ActorOp P)) :
    (∀ before, before <+: ops → ActorKeysProven P Produced (P.actorRun me Store.empty before)) ↔
      ∀ before op, before ++ [op] <+: ops →
        ¬ op.Unproven Produced (P.actorRun me Store.empty before) := by
  constructor
  · intro h before op hpre hunproven
    have hafter := actorKeysProven_iff.1 (h _ hpre)
    rw [actorRun_append] at hafter
    exact not_allProven_of_unproven hJ hinj (actorRun_dbInv hJ hinj me before) hunproven hafter
  · intro h before hpre
    refine actorKeysProven_iff.2 (actorRun_allProven hJ hinj hforge me before ?_)
    exact fun before' op hpre' => h before' op (hpre'.trans hpre)

/-! ## A proven declaration -/

/-- A caller that proves its key gets an actor with it. -/
theorem declareActor_proved (hJ : JsonLaws P) (hinj : Function.Injective P.blake3)
    (me : Prims.PeerIdentity) {key : P.VerifyingKey} {signature : Bytes} {actorType : ActorType}
    (hver : P.verifyWithDomain key actorKeyProofDomain (P.proofBytes actorType none none) signature
      = true) (now : Int64) :
    ∃ r ∈ (P.actorRun me Store.empty [.declare actorType none none
      (some ⟨key.bytes, signature⟩) now]).proj.actors, r.publicKey = some key.bytes := by
  let payload : EventPayload := .actorDeclare ⟨actorType.asStr, none, some (hexEncode key.bytes), none⟩
  let event := P.eventOf me 1 none now payload
  let r : ActorRow H := ⟨P.actorIdOf (P.idOf event) (some (hexEncode key.bytes)), actorType, none,
    some key.bytes, none, .emptyObj, now⟩
  have hproved : P.provedKey actorType none none (some ⟨key.bytes, signature⟩)
      = .ok (some (hexEncode key.bytes)) := by
    have hkey : P.keyFromBytes key.bytes = some key := by
      simp [Prims.keyFromBytes, key.valid]
    rw [Prims.proofBytes] at hver
    simp only [Prims.provedKey, hkey, hver, if_true]
  have heff : P.effectOf (P.idOf event) now payload = some { actors := [r] } := by
    simp only [payload, Prims.effectOf, Prims.actorEffect, ActorType.parse_asStr,
      declaredKey_hexEncode]
    rfl
  have hadm : Effect.Admissible { actors := [r] } (Store.empty : Store H).proj := by
    constructor <;> simp
  have hfin : payload.Finite := trivial
  obtain ⟨o, hcommit⟩ := commit_apply hJ hinj dbInv_empty.log (by simp [Store.empty, maxRows]) hfin
    (by rfl) heff hadm
  have hok : ∃ id, P.declareActor Store.empty me actorType none none
      (some ⟨key.bytes, signature⟩) now = .ok (appendRow Store.empty
        (P.rowOf event (me.peerId P) none now) { actors := [r] }, id) := by
    simp only [Prims.declareActor, checkOptLen, ok_bind, hproved, payload, hcommit, GraphError.lift]
    cases o with
    | actorDeclared actorId => exact ⟨actorId, rfl⟩
    | unit => exact ⟨_, rfl⟩
  obtain ⟨id, hid⟩ := hok
  have hexec : P.actorExec me Store.empty (.declare actorType none none
      (some ⟨key.bytes, signature⟩) now) = some (appendRow Store.empty
        (P.rowOf event (me.peerId P) none now) { actors := [r] }) := by
    rw [Prims.actorExec, hid]
    rfl
  rw [actorRun_one hexec]
  exact ⟨r, List.mem_singleton_self r, rfl⟩

/-! ## One holder -/

/-- Peer A signs what it is asked to, every other key signs events only. -/
noncomputable def idealHolder : Prims Bytes :=
  ideal fun key m => (utf8 Prims.eventIdPrefix).isPrefixOf m || decide (key = idealPublicKey peerA.signingKey)

/-- The proofs of peer A. -/
def byPeerA (key : Bytes) (_ : Bytes) : Prop := key = idealPublicKey peerA.signingKey

theorem idealHolder_laws : JsonLaws idealHolder := idealJsonLaws _

theorem idealHolder_injective : Function.Injective idealHolder.blake3 := ideal_blake3_injective _

/-- A possession proof is no event. -/
theorem idealHolder_unforgeable : Unforgeable idealHolder byPeerA := by
  intro key m sig h
  have hdomain : (utf8 Prims.eventIdPrefix).isPrefixOf (utf8 actorKeyProofDomain ++ m) = false := by
    rw [utf8_eq_flatMap, utf8_eq_flatMap]
    rfl
  simp only [Prims.verifyWithDomain, idealHolder, ideal_verify, hdomain, Bool.false_or,
    Bool.and_eq_true, decide_eq_true_eq] at h
  exact h.1

theorem idealHolder_signsEvents (i : Prims.PeerIdentity) (m : Bytes) :
    idealHolder.verifyWithDomain (i.verifyingKey idealHolder) Prims.eventIdPrefix m
      (idealHolder.signWithDomain i Prims.eventIdPrefix m) = true := by
  simp [Prims.verifyWithDomain, Prims.signWithDomain, Prims.PeerIdentity.verifyingKey, idealHolder]

theorem peerA_signs (domainPrefix : String) (m : Bytes) :
    idealHolder.verifyWithDomain (peerA.verifyingKey idealHolder) domainPrefix m
      (idealHolder.signWithDomain peerA domainPrefix m) = true := by
  simp [Prims.verifyWithDomain, Prims.signWithDomain, Prims.PeerIdentity.verifyingKey, idealHolder]

/-- Peer A declares an actor with its key. -/
noncomputable def provedOps : List (ActorOp idealHolder) :=
  [.declare .human none none (some ⟨(peerA.verifyingKey idealHolder).bytes,
    idealHolder.signWithDomain peerA actorKeyProofDomain (idealHolder.proofBytes .human none none)⟩) 1]

theorem actor_keys_proven_iff_declared :
    let s := idealHolder.actorRun peerA Store.empty provedOps
    (∃ r ∈ s.proj.actors, r.publicKey = some (peerA.verifyingKey idealHolder).bytes) ∧
      ActorKeysProven idealHolder byPeerA s := by
  refine ⟨declareActor_proved idealHolder_laws idealHolder_injective peerA (peerA_signs _ _) 1, ?_⟩
  refine (actor_keys_proven_iff idealHolder idealHolder_laws idealHolder_injective byPeerA
    idealHolder_unforgeable peerA _).2 ?_ _ List.prefix_rfl
  -- nothing is ingested
  intro before op hpre
  have hmem := hpre.subset (List.mem_append_right before (List.mem_singleton_self op))
  obtain rfl := List.mem_singleton.1 hmem
  exact fun h => h

/-- Peer B declares an actor with the key of peer C. -/
noncomputable def borrowedEvent : SignedEvent :=
  idealHolder.eventOf peerB 1 none 1
    (.actorDeclare ⟨"human", none, some (hexEncode (peerC.verifyingKey idealHolder).bytes), none⟩)

theorem borrowedEvent_continues :
    Continues idealHolder Store.empty (peerB.verifyingKey idealHolder) borrowedEvent := by
  have hfin : borrowedEvent.unsigned.payload.Finite := trivial
  refine ⟨⟨⟨_, _, canonicalUnsigned_of_finite idealHolder_laws hfin, hexDecode_hexEncode _,
    idealHolder.length_sign _ _, ?_⟩, _, canonicalSigned_of_finite idealHolder_laws hfin, rfl⟩,
    ?_, ⟨none, rfl, rfl⟩, by simp [Store.empty, maxRows]⟩
  · exact idealHolder_signsEvents peerB _
  · exact idealHolder.peerIdFromStr_peerIdToString _

/-- Peer C signed nothing, and an actor has its key and an assurance of 0.7. -/
theorem actor_key_borrowed :
    let s := idealHolder.actorRun peerA Store.empty
      [.ingest (peerB.verifyingKey idealHolder) borrowedEvent 1]
    let key := (peerC.verifyingKey idealHolder).bytes
    Unforgeable idealHolder byPeerA ∧ (∀ m, ¬ byPeerA key m) ∧
      (∃ r ∈ s.proj.actors, r.publicKey = some key ∧ identityAssuranceScore r = 0x3F333333) ∧
      ¬ ActorKeysProven idealHolder byPeerA s := by
  intro s key
  let r : ActorRow Bytes := ⟨idealHolder.actorIdOf (idealHolder.idOf borrowedEvent)
    (some (hexEncode key)), .human, none, some key, none, .emptyObj, 1⟩
  have hdecl : Declares idealHolder (idealHolder.idOf borrowedEvent)
      ⟨"human", none, some (hexEncode key), none⟩ r :=
    ⟨rfl, rfl, rfl, declaredKey_hexEncode (peerC.verifyingKey idealHolder), rfl⟩
  have hnever : ∀ m, ¬ byPeerA key m := by
    intro m hm
    have hne : idealPublicKey peerC.signingKey ≠ idealPublicKey peerA.signingKey := by decide
    refine hne (Eq.trans ?_ hm)
    simp only [key, Prims.PeerIdentity.verifyingKey, idealHolder, ideal_publicKey]
  obtain ⟨s', r', hexec, hdecl', hmem, -⟩ := borrowedEvent_continues.declared idealHolder_laws
    idealHolder_injective dbInv_empty rfl hdecl rfl 1
  obtain ⟨-, -, -, hkey, huri⟩ := hdecl.unique hdecl'
  have hs : s = s' := actorRun_one hexec
  have hkey : r'.publicKey = some key := hkey.symm
  have huri : r'.identityUri = none := huri.symm
  refine ⟨idealHolder_unforgeable, hnever, ⟨r', hs ▸ hmem, hkey, ?_⟩, fun h => ?_⟩
  · simp [identityAssuranceScore, hkey, huri]
  · obtain ⟨uri, hproduced, -⟩ := h.rows r' (hs ▸ hmem) key hkey
    exact hnever _ hproduced

end OpenAgentGraph
