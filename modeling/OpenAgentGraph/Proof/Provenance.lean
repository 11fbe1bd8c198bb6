/-
  The provenance of an event.

  The endpoint verifies the stored bytes again, under the key that is on file
  for the origin.  Every stored event was verified once, under the origin's own
  key, so that the answer is that of the key on file (`KeyOnFile`): valid where
  it is the origin's, unknown where there is none.
-/
import OpenAgentGraph.Proof.Binding
import OpenAgentGraph.Proof.History
import OpenAgentGraph.Proof.Progress

namespace OpenAgentGraph

open Lib Repo

variable {H : Type} [DecidableEq H] {P : Prims H}

/-! ## Runs of the database -/

theorem dbRun_allSigned (hJ : JsonLaws P) (hinj : Function.Injective P.blake3)
    (hsign : ∀ identity, SignsCorrectly P identity) (ops : List (DbOp P)) :
    DbInv P (P.dbRun Database.empty ops).store ∧ AllSigned P (P.dbRun Database.empty ops).store := by
  refine dbRun_induction (I := fun s => DbInv P s ∧ AllSigned P s) ops
    ⟨dbInv_empty, fun _ hr => absurd hr List.not_mem_nil⟩ ?_ ?_ ?_
  · rintro s s' ⟨hinv, hall⟩ hf
    refine ⟨hinv.forgets hf, ?_⟩
    rw [hf.eq]
    exact hall
  · rintro s s' ⟨hinv, hall⟩ hp
    refine ⟨hinv.peersOnly hp, ?_⟩
    rw [hp.eq]
    exact hall
  · rintro op s s' ⟨hinv, hall⟩ hexec
    exact ⟨exec_dbInv hJ hinj hinv hexec, exec_allSigned hJ hinj hsign hinv.log.stored hall hexec⟩

/-! ## The key on file -/

/-- The key that the peer has on file for an origin: its own, or that of the
    origin's row. -/
def KeyOnFile (P : Prims H) (s : Store H) (me : Prims.PeerIdentity) (o : H) (key : P.VerifyingKey) :
    Prop :=
  if o = me.peerId P then key = me.verifyingKey P
  else ∃ r, Table.find PeerRow.peerId o s.peers = some r ∧ P.keyFromBytes r.publicKey = some key

/-- The origin is the peer itself, or has a row. -/
def HasKeyOnFile (P : Prims H) (s : Store H) (me : Prims.PeerIdentity) (o : H) : Prop :=
  o = me.peerId P ∨ KnownPeer s.peers o

theorem provenanceKey_ok {s : Store H} (hlen : KeyLengths s.peers) {me : Prims.PeerIdentity} {o : H}
    {key : Option P.VerifyingKey} (h : P.provenanceKey s me o = .ok key) :
    (∀ k, key = some k ↔ KeyOnFile P s me o k) ∧ (key.isSome = true ↔ HasKeyOnFile P s me o) := by
  rw [Prims.provenanceKey] at h
  by_cases hme : o = me.peerId P
  · rw [if_pos hme] at h
    obtain rfl := pure_ok.1 h
    refine ⟨fun k => ?_, iff_of_true rfl (.inl hme)⟩
    rw [KeyOnFile, if_pos hme, Option.some.injEq, eq_comm]
  · rw [if_neg hme] at h
    simp only [KeyOnFile, if_neg hme]
    cases hfind : Table.find PeerRow.peerId o s.peers with
    | none =>
      have hnone : getPeer s.peers o = .ok none := by simp only [getPeer, hfind]
      rw [hnone] at h
      obtain rfl := pure_ok.1 h
      refine ⟨by simp, iff_of_false (by simp) ?_⟩
      rintro (heq | ⟨r, hr, hro⟩)
      · exact hme heq
      · exact Table.find_eq_none.1 hfind r hr hro
    | some r =>
      rw [getPeer_of_find hlen hfind] at h
      simp only [GraphError.lift, ok_bind] at h
      split at h
      · next k hk =>
        obtain rfl := pure_ok.1 h
        exact ⟨by simp [hk], iff_of_true rfl (.inr ⟨r, Table.find_eq_some hfind⟩)⟩
      · cases h

/-- A row that is bound holds a key, the origin's. -/
theorem provenanceKey_bound {s : Store H} (hlen : KeyLengths s.peers) (me : Prims.PeerIdentity)
    {o : H} (hbound : ∀ r ∈ s.peers, r.peerId = o → r.Bound P) :
    ∃ key, P.provenanceKey s me o = .ok key ∧ ∀ k, key = some k → P.peerIdOfKey k = o := by
  rw [Prims.provenanceKey]
  by_cases hme : o = me.peerId P
  · rw [if_pos hme]
    refine ⟨_, rfl, fun k hk => ?_⟩
    rw [← Option.some.inj hk, hme]
    rfl
  · rw [if_neg hme]
    cases hfind : Table.find PeerRow.peerId o s.peers with
    | none =>
      have hnone : getPeer s.peers o = .ok none := by simp only [getPeer, hfind]
      rw [hnone]
      exact ⟨none, rfl, fun k hk => by cases hk⟩
    | some r =>
      obtain ⟨hr, hro⟩ := Table.find_eq_some hfind
      obtain ⟨k, hk, hid⟩ := hbound r hr hro
      rw [getPeer_of_find hlen hfind]
      simp only [GraphError.lift, ok_bind, hk]
      refine ⟨some k, rfl, fun k' hk' => ?_⟩
      rw [← Option.some.inj hk', ← hid, hro]

/-! ## The answer -/

omit [DecidableEq H] in
/-- What a key on file is worth: it verifies the event that the row stores. -/
theorem Stored.verified_iff {row : EventRow H} {signed : SignedEvent}
    (h : Stored P row signed) {key : P.VerifyingKey} :
    P.verifyAndDeriveId signed key = .ok row.eventId ↔
      ∃ u, P.canonicalUnsigned signed.unsigned = .ok u ∧ row.signature.length = 64 ∧
        P.verifyWithDomain key Prims.eventIdPrefix u row.signature = true := by
  rw [verify_ok]
  constructor
  · intro hver
    obtain ⟨u, sig, hu, hsig, hlen, hok⟩ := hver.signature
    obtain rfl : sig = row.signature := Except.ok.inj (hsig.symm.trans h.signature)
    exact ⟨u, hu, hlen, hok⟩
  · rintro ⟨u, hu, hlen, hok⟩
    exact ⟨⟨u, _, hu, h.signature, hlen, hok⟩, _, h.canonical, h.eventId⟩

theorem getEventProvenance_row {s : Store H} (me : Prims.PeerIdentity) {row : EventRow H}
    {signed : SignedEvent} (hfind : Table.find EventRow.eventId row.eventId s.events = some row)
    (hread : P.signedFromSlice row.canonicalPayload = .ok signed) (hst : Stored P row signed) :
    P.getEventProvenance s me row.eventId = (P.provenanceKey s me row.originPeerId).map fun key =>
      some ⟨row.eventId, P.peerIdToString row.originPeerId, row.eventType, row.createdAt,
        (P.signatureFlags signed row.eventId key).1, (P.signatureFlags signed row.eventId key).2⟩ := by
  simp only [Prims.getEventProvenance, hfind, hread, hst.origin, orElse, GraphError.lift, ok_bind]
  cases P.provenanceKey s me row.originPeerId with
  | error e => rfl
  | ok key => rfl

theorem signatureFlags_known (signed : SignedEvent) (id : H) (key : Option P.VerifyingKey) :
    (P.signatureFlags signed id key).2 = key.isSome := by
  cases key with
  | none => rfl
  | some k =>
    simp only [Prims.signatureFlags]
    split
    · rfl
    · rfl

theorem signatureFlags_valid {signed : SignedEvent} {id : H} {key : Option P.VerifyingKey} :
    (P.signatureFlags signed id key).1 = true ↔
      ∃ k, key = some k ∧ P.verifyAndDeriveId signed k = .ok id := by
  cases key with
  | none => simp [Prims.signatureFlags]
  | some k =>
    simp only [Prims.signatureFlags]
    split
    · next derived hok => simp [hok]
    · next e herr => simp [herr]

/-- What is read back from a stored row, and the answer it gives. -/
theorem getEventProvenance_held {s : Store H} (hJ : JsonLaws P) (hinv : DbInv P s)
    (hall : AllSigned P s) (me : Prims.PeerIdentity) {id : H} {row : EventRow H}
    (hfind : Table.find EventRow.eventId id s.events = some row) :
    row ∈ s.events ∧ row.eventId = id ∧ ∃ key signed u, P.peerIdOfKey key = row.originPeerId ∧
      Stored P row signed ∧ P.canonicalUnsigned signed.unsigned = .ok u ∧
      P.verifyAndDeriveId signed key = .ok id ∧
      P.getEventProvenance s me id = (P.provenanceKey s me row.originPeerId).map fun key =>
        some ⟨id, P.peerIdToString row.originPeerId, row.eventType, row.createdAt,
          (P.signatureFlags signed id key).1, (P.signatureFlags signed id key).2⟩ := by
  obtain ⟨hrow, rfl⟩ := Table.find_eq_some hfind
  obtain ⟨key, hsigned⟩ := hall row hrow
  obtain ⟨signed, hread, hver⟩ := hsigned.reread
  obtain ⟨signed₀, hst₀⟩ := hinv.log.stored row hrow
  obtain ⟨signed', hread', -, hst⟩ := hst₀.reread hJ
  obtain rfl : signed' = signed := Except.ok.inj (hread'.symm.trans hread)
  obtain ⟨u, hu, -⟩ := hst.verified_iff.1 hver
  exact ⟨hrow, rfl, key, signed', u, hsigned.origin, hst, hu, hver,
    getEventProvenance_row me hfind hread hst⟩

/-- **Provenance is exact.**  In every reachable database an event that is not
    held has no provenance; the answer for one that is held names its origin,
    knows a key exactly if the origin is the peer itself or has a row, and calls
    the signature valid exactly if the key on file verifies it.  Where the rows
    of the origin are bound to their keys, that is whenever a key is known. -/
theorem provenance_exact (P : Prims H) (hJ : JsonLaws P) (hinj : Function.Injective P.blake3)
    (hsign : ∀ identity, SignsCorrectly P identity) (ops : List (DbOp P)) (me : Prims.PeerIdentity)
    (id : H) :
    let s := (P.dbRun Database.empty ops).store
    ((∀ row ∈ s.events, row.eventId ≠ id) → P.getEventProvenance s me id = .ok none) ∧
    (∀ answer, P.getEventProvenance s me id = .ok (some answer) →
      ∃ row ∈ s.events, ∃ signed u, row.eventId = id ∧ Stored P row signed ∧
        P.canonicalUnsigned signed.unsigned = .ok u ∧ answer.eventId = id ∧
        answer.originPeer = P.peerIdToString row.originPeerId ∧
        answer.eventType = signed.unsigned.payload.typeStr ∧
        answer.createdAt = signed.unsigned.createdAt ∧
        (answer.originKeyKnown = true ↔ HasKeyOnFile P s me row.originPeerId) ∧
        (answer.signatureValid = true ↔ ∃ key, KeyOnFile P s me row.originPeerId key ∧
          P.verifyWithDomain key Prims.eventIdPrefix u row.signature = true)) ∧
    ∀ row ∈ s.events, row.eventId = id → (∀ r ∈ s.peers, r.peerId = row.originPeerId → r.Bound P) →
      ∃ answer, P.getEventProvenance s me id = .ok (some answer) ∧
        answer.signatureValid = answer.originKeyKnown := by
  intro s
  obtain ⟨hinv, hall⟩ := dbRun_allSigned hJ hinj hsign ops
  refine ⟨?_, ?_, ?_⟩
  · intro hnone
    rw [Prims.getEventProvenance, Table.find_eq_none.2 hnone]
  · intro answer hanswer
    cases hfind : Table.find EventRow.eventId id s.events with
    | none =>
      rw [Prims.getEventProvenance, hfind] at hanswer
      cases hanswer
    | some row =>
      obtain ⟨hrow, hid, author, signed, u, -, hst, hu, hver, heq⟩ :=
        getEventProvenance_held hJ hinv hall me hfind
      have hlen : row.signature.length = 64 := by
        rw [← hid] at hver
        obtain ⟨-, -, hlen, -⟩ := hst.verified_iff.1 hver
        exact hlen
      rw [heq] at hanswer
      cases hkey : P.provenanceKey s me row.originPeerId with
      | error e =>
        rw [hkey] at hanswer
        cases hanswer
      | ok key =>
        rw [hkey] at hanswer
        obtain rfl := Option.some.inj (Except.ok.inj hanswer)
        obtain ⟨hfile, hhas⟩ := provenanceKey_ok hinv.lengths hkey
        refine ⟨row, hrow, signed, u, hid, hst, hu, rfl, rfl, hst.eventType, hst.createdAt, ?_, ?_⟩
        · rw [signatureFlags_known]
          exact hhas
        · simp only [signatureFlags_valid, hfile]
          refine exists_congr fun k => and_congr_right fun _ => ?_
          rw [← hid, hst.verified_iff]
          constructor
          · rintro ⟨u', hu', -, hok⟩
            rwa [Except.ok.inj (hu.symm.trans hu')]
          · intro hok
            exact ⟨u, hu, hlen, hok⟩
  · intro row hrow hid hbound
    cases hfind : Table.find EventRow.eventId id s.events with
    | none => exact absurd hid (Table.find_eq_none.1 hfind row hrow)
    | some row' =>
      obtain ⟨hrow', hid', key, signed, -, horigin, -, -, hver, heq⟩ :=
        getEventProvenance_held hJ hinv hall me hfind
      have hsent := hinv.log.stored.sent_eq hJ hinj hinv.log.stored hrow' hrow (hid'.trans hid.symm)
      have hsame : row'.originPeerId = row.originPeerId := by rw [EventRow.eq_of_sent hsent]
      rw [← hsame] at hbound
      obtain ⟨file, hfile, hpeer⟩ := provenanceKey_bound hinv.lengths me hbound
      rw [hfile] at heq
      refine ⟨_, heq, ?_⟩
      cases file with
      | none => rfl
      | some k =>
        -- the key on file and the one that verified the event are of one peer
        obtain rfl : k = key := peerIdOfKey_injective hinj ((hpeer k rfl).trans horigin.symm)
        rw [signatureFlags_known, signatureFlags_valid.2 ⟨k, rfl, hver⟩]
        rfl

theorem relatedStore_held (P : Prims H) (ada : Prims.PeerIdentity) (t t' : Int64) :
    (relatedStore P ada t t').peers = [] ∧
      ∃ row ∈ (relatedStore P ada t t').events, row.eventId = P.idOf (relateEvent P ada) :=
  ⟨rfl, _, List.mem_append_right _ (List.mem_singleton_self _), rfl⟩

/-- Ada's own two events, on a database. -/
def relateOps (P : Prims H) (ada : Prims.PeerIdentity) : List (DbOp P) :=
  [.sync (.store (.commit ada declarePayload 1)),
    .sync (.store (.commit ada (relatePayload P ada) 2))]

theorem run_relateOps (hJ : JsonLaws P) (hinj : Function.Injective P.blake3)
    (ada : Prims.PeerIdentity) :
    (P.dbRun Database.empty (relateOps P ada)).store = relatedStore P ada 1 2 :=
  run_related hJ hinj

/-- Ada's own assertion, asked of her peer. -/
theorem provenance_exact_related :
    ∃ answer, idealOpen.getEventProvenance
        (idealOpen.dbRun Database.empty (relateOps idealOpen peerA)).store peerA
        (idealOpen.idOf (relateEvent idealOpen peerA)) = .ok (some answer) ∧
      answer.signatureValid = answer.originKeyKnown := by
  have hrun := run_relateOps idealOpen_laws idealOpen_injective peerA
  obtain ⟨hpeers, row, hrow, hid⟩ := relatedStore_held idealOpen peerA 1 2
  refine (provenance_exact idealOpen idealOpen_laws idealOpen_injective idealOpen_signsCorrectly
    (relateOps idealOpen peerA) peerA _).2.2 row ?_ hid ?_
  · rw [hrun]
    exact hrow
  · rw [hrun, hpeers]
    intro r hr
    cases hr

end OpenAgentGraph
