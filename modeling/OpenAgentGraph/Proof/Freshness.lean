/-
  The freshness check of the signed messages.

  Every verifier compares `(timestamp - now).abs()` with the allowed skew, in
  arithmetic that wraps around.

  * `absDiff_le_skew_iff`: what the comparison accepts, in exact integers;
  * `…_accepts`: a verifier accepts the messages that are correctly signed,
    pass its further checks and pass the comparison;
  * `freshness_iff`: a verifier accepts fresh messages only, unless the
    difference wraps into the window.
-/
import OpenAgentGraph.Lib.Checked
import OpenAgentGraph.Proof.Gateway
import OpenAgentGraph.Sync.Presence
import OpenAgentGraph.Transfer.Wire

namespace OpenAgentGraph

open Lib

/-! ## The comparison -/

/-- The exact difference of the two times is within the allowed skew. -/
def Fresh (time now : Int64) : Prop := |time.toInt - now.toInt| ≤ 300

/-- The difference is the one whose absolute value is negative, or it wraps
    around to a small positive one. -/
def WrapsIntoWindow (time now : Int64) : Prop :=
  time.toInt - now.toInt = -2 ^ 63 ∨ time.toInt - now.toInt ≤ 300 - 2 ^ 64

theorem absDiff_le_skew_iff {time now : Int64} (hnow : 0 ≤ now) :
    absDiff time now ≤ maxClockSkewSeconds ↔ Fresh time now ∨ WrapsIntoWindow time now := by
  have hnow0 : 0 ≤ now.toInt := by simpa using Int64.le_iff_toInt_le.1 hnow
  have ht := inI64_toInt time
  have hn := inI64_toInt now
  have hskew : maxClockSkewSeconds.toInt = 300 := by decide
  unfold Fresh WrapsIntoWindow
  rw [Int64.le_iff_toInt_le, hskew, absDiff, abs_le]
  unfold InI64 at ht hn
  rcases toInt_sub_cases time now with ⟨hin, hsub⟩ | ⟨hover, -⟩ | ⟨hunder, hsub⟩
  · by_cases hmin : time.toInt - now.toInt = -2 ^ 63
    · rw [toInt_abs_min (hsub.trans hmin)]
      omega
    · rw [toInt_abs_exact (hsub ▸ hmin), hsub, abs_le]
      unfold InI64 at hin
      omega
  · omega
  · have hne : (time - now).toInt ≠ -2 ^ 63 := by omega
    rw [toInt_abs_exact hne, hsub, abs_le]
    omega

theorem Fresh.not_wraps {time now : Int64} (h : Fresh time now) : ¬ WrapsIntoWindow time now := by
  unfold Fresh at h
  rw [abs_le] at h
  unfold WrapsIntoWindow
  omega

/-- A verifier that makes the comparison, and accepts when the rest is in
    order, accepts fresh messages only as long as the difference does not wrap
    into the window. -/
theorem only_fresh_iff {accepted rest : Prop} {time now : Int64} (hnow : 0 ≤ now)
    (h : accepted ↔ rest ∧ absDiff time now ≤ maxClockSkewSeconds) :
    (accepted → Fresh time now) ↔ (¬ WrapsIntoWindow time now ∨ ¬ rest) := by
  rw [h, absDiff_le_skew_iff hnow]
  constructor
  · intro hfresh
    by_cases hrest : rest
    · refine Or.inl fun hwraps => ?_
      exact (hfresh ⟨hrest, Or.inr hwraps⟩).not_wraps hwraps
    · exact Or.inr hrest
  · rintro (hnot | hnot) ⟨hrest, hwithin⟩
    · exact hwithin.resolve_right hnot
    · exact absurd hrest hnot

/-! ## The signature -/

section signed

variable {H : Type} (P : Prims H)

/-- The message is signed with the key that the peer id is derived from. -/
def Prims.SignedBy (domain peerIdText publicKeyText : String) (message : Bytes)
    (signatureText : String) (peerId : H) : Prop :=
  ∃ (key : P.VerifyingKey) (signature : Bytes), P.peerIdFromStr peerIdText = .ok peerId ∧
    peerId = P.peerIdOfKey key ∧ decodeExact 32 publicKeyText = some key.bytes ∧
    decodeExact 64 signatureText = some signature ∧
    P.verifyWithDomain key domain message signature = true

variable [DecidableEq H]

/-- The checks that every verifier has a copy of, over its own errors. -/
def Prims.signedChecks {E : Type} (badPeerId : Prims.PeerIdParseError → E)
    (badKey mismatch badEncoding badSignature skew : E)
    (domain peerIdText publicKeyText : String) (message : Bytes) (signatureText : String)
    (time now : Int64) : Except E H := do
  let peerId ← (P.peerIdFromStr peerIdText).mapError badPeerId
  let bytes ← (decodeExact 32 publicKeyText).elim (.error badKey) .ok
  let key ← (P.keyFromBytes bytes).elim (.error badKey) .ok
  if peerId ≠ P.peerIdOfKey key then .error mismatch
  else
    let signature ← (decodeExact 64 signatureText).elim (.error badEncoding) .ok
    if !P.verifyWithDomain key domain message signature then .error badSignature
    else if absDiff time now > maxClockSkewSeconds then .error skew
    else .ok peerId

variable {P} {domain peerIdText publicKeyText signatureText : String} {message : Bytes}
  {time now : Int64} {peerId : H}

theorem signedChecks_eq_ok {E : Type} {e₁ : Prims.PeerIdParseError → E} {e₂ e₃ e₄ e₅ e₆ : E} :
    P.signedChecks e₁ e₂ e₃ e₄ e₅ e₆ domain peerIdText publicKeyText message signatureText time now
        = .ok peerId ↔
      P.SignedBy domain peerIdText publicKeyText message signatureText peerId ∧
        absDiff time now ≤ maxClockSkewSeconds := by
  simp only [Prims.signedChecks, bind_ok, mapError_ok, elim_ok]
  constructor
  · rintro ⟨id, hid, bytes, hbytes, key, hkey, h⟩
    by_cases hpair : id = P.peerIdOfKey key
    · rw [if_neg (not_not.2 hpair), bind_ok] at h
      obtain ⟨signature, hsig, h⟩ := h
      by_cases hver : P.verifyWithDomain key domain message signature = true
      · simp only [hver, Bool.not_true, Bool.false_eq_true, if_false] at h
        by_cases hskew : absDiff time now > maxClockSkewSeconds
        · rw [if_pos hskew] at h
          cases h
        · rw [if_neg hskew] at h
          obtain rfl := Except.ok.inj h
          obtain rfl := keyFromBytes_eq_some hkey
          exact ⟨⟨key, signature, hid, hpair, hbytes, elim_ok.1 hsig, hver⟩, Int64.not_lt.1 hskew⟩
      · simp only [hver, Bool.not_false, if_true] at h
        cases h
    · rw [if_pos hpair] at h
      cases h
  · rintro ⟨⟨key, signature, hid, hpair, hbytes, hsig, hver⟩, hskew⟩
    refine ⟨peerId, hid, key.bytes, hbytes, key, keyFromBytes_bytes key, ?_⟩
    rw [if_neg (not_not.2 hpair), bind_ok]
    refine ⟨signature, elim_ok.2 hsig, ?_⟩
    simp only [hver, Bool.not_true, Bool.false_eq_true, if_false, if_neg (Int64.not_lt.2 hskew)]

theorem verifyStatement_eq_ok :
    P.verifyStatement domain peerIdText publicKeyText message signatureText time now = .ok peerId ↔
      P.SignedBy domain peerIdText publicKeyText message signatureText peerId ∧
        absDiff time now ≤ maxClockSkewSeconds :=
  signedChecks_eq_ok

theorem verifySigned_eq_ok :
    P.verifySigned domain peerIdText publicKeyText message signatureText time now = .ok peerId ↔
      P.SignedBy domain peerIdText publicKeyText message signatureText peerId ∧
        absDiff time now ≤ maxClockSkewSeconds :=
  signedChecks_eq_ok

theorem verifyTransfer_eq_ok :
    P.verifyTransfer domain peerIdText publicKeyText message signatureText time now = .ok peerId ↔
      P.SignedBy domain peerIdText publicKeyText message signatureText peerId ∧
        absDiff time now ≤ maxClockSkewSeconds :=
  signedChecks_eq_ok

end signed

/-! ## The verifiers -/

section verifiers

variable {H : Type} (P : Prims H)

def PresenceHeartbeat.CorrectlySigned (m : PresenceHeartbeat) : Prop :=
  ∃ peerId, P.SignedBy presenceDomain m.unsigned.peerId m.unsigned.publicKey
    (P.jcs.write m.unsigned.toJson) m.signature peerId

def ClusterDeclaration.CorrectlySigned (m : ClusterDeclaration) : Prop :=
  ∃ peerId, P.SignedBy clusterDomain m.unsigned.peerId m.unsigned.publicKey
    (P.jcs.write m.unsigned.toJson) m.signature peerId

def GatewayRequest.CorrectlySigned (m : GatewayRequest) : Prop :=
  ∃ peerId, P.SignedBy gatewayRequestDomain m.unsigned.requesterPeerId
    m.unsigned.requesterPublicKey (P.jcs.write m.unsigned.toJson) m.signature peerId

def GatewayResponse.CorrectlySigned (m : GatewayResponse) : Prop :=
  ∃ peerId, P.SignedBy gatewayResponseDomain m.unsigned.responderPeerId
    m.unsigned.responderPublicKey (P.jcs.write m.unsigned.toJson) m.signature peerId

def TransferRequest.CorrectlySigned (m : TransferRequest) : Prop :=
  ∃ peerId, P.SignedBy transferRequestDomain m.unsigned.clientPeerId m.unsigned.clientPublicKey
    (P.jcs.write m.unsigned.toJson) m.signature peerId

def TransferReceipt.CorrectlySigned (m : TransferReceipt) : Prop :=
  ∃ peerId, P.SignedBy transferReceiptDomain m.unsigned.serverPeerId m.unsigned.serverPublicKey
    (P.jcs.write (.obj m.unsigned.members)) m.serverSignature peerId

/-- The receipt is of this exchange, and its hash is right. -/
def TransferReceipt.Matches (m : TransferReceipt) (expectedCid : String)
    (expectedClientNonce : Bytes) : Prop :=
  m.unsigned.cid = expectedCid ∧
    decodeExact 32 m.unsigned.clientNonce = some expectedClientNonce ∧
    ∃ serverNonce, decodeExact 32 m.unsigned.serverNonce = some serverNonce ∧
      P.mutualReceiptHash expectedClientNonce serverNonce m.unsigned.contentHash
        = m.unsigned.receiptHash

variable {P} [DecidableEq H] {now : Int64}

theorem signedBy_sign {identity : Prims.PeerIdentity} (hsign : SignsCorrectly P identity)
    (domain : String) (m : Bytes) :
    P.SignedBy domain (P.peerIdToString (identity.peerId P))
      (hexEncode (identity.verifyingKey P).bytes) m
      (hexEncode (P.signWithDomain identity domain m)) (identity.peerId P) :=
  (verifySigned_eq_ok.1 (verifySigned_sign hsign domain m 0)).1

theorem buildAndSignPresence_correctlySigned {identity : Prims.PeerIdentity}
    (hsign : SignsCorrectly P identity) (status : PresenceStatus) (sessionStartedAt timestamp : Int64) :
    (P.buildAndSignPresence identity status sessionStartedAt timestamp).CorrectlySigned P :=
  ⟨_, signedBy_sign hsign _ _⟩

theorem verifyPresence_accepts (m : PresenceHeartbeat) :
    (∃ peerId, P.verifyPresence m now = .ok peerId) ↔
      m.CorrectlySigned P ∧ absDiff m.unsigned.timestamp now ≤ maxClockSkewSeconds := by
  simp only [Prims.verifyPresence, verifyStatement_eq_ok, PresenceHeartbeat.CorrectlySigned,
    exists_and_right]

theorem verifyCluster_accepts (m : ClusterDeclaration) :
    (∃ peerId, P.verifyCluster m now = .ok peerId) ↔
      m.CorrectlySigned P ∧ absDiff m.unsigned.timestamp now ≤ maxClockSkewSeconds := by
  simp only [Prims.verifyCluster, verifyStatement_eq_ok, ClusterDeclaration.CorrectlySigned,
    exists_and_right]

/-- A request is accepted with its signer and its nonce. -/
theorem exists_signed_nonce {α β γ : Type} {signed : α → Prop} {decodes : β → Prop} {near : Prop}
    {f : α → β → γ} :
    (∃ r peerId, (signed peerId ∧ near) ∧ ∃ nonce, decodes nonce ∧ f peerId nonce = r) ↔
      ((∃ peerId, signed peerId) ∧ ∃ nonce, decodes nonce) ∧ near := by
  constructor
  · rintro ⟨r, peerId, ⟨hsigned, hnear⟩, nonce, hnonce, -⟩
    exact ⟨⟨⟨peerId, hsigned⟩, nonce, hnonce⟩, hnear⟩
  · rintro ⟨⟨⟨peerId, hsigned⟩, nonce, hnonce⟩, hnear⟩
    exact ⟨_, peerId, ⟨hsigned, hnear⟩, nonce, hnonce, rfl⟩

theorem verifyGatewayRequest_accepts (m : GatewayRequest) :
    (∃ r, P.verifyGatewayRequest m now = .ok r) ↔
      (m.CorrectlySigned P ∧ (decodeExact 32 m.unsigned.nonce).isSome) ∧
        absDiff m.unsigned.requestedAt now ≤ maxClockSkewSeconds := by
  simp only [Prims.verifyGatewayRequest, bind_ok, elim_ok, pure_ok, verifySigned_eq_ok,
    GatewayRequest.CorrectlySigned, Option.isSome_iff_exists]
  exact exists_signed_nonce

theorem verifyGatewayResponse_accepts (m : GatewayResponse) (expectedNonce : Bytes) :
    (∃ r, P.verifyGatewayResponse m expectedNonce now = .ok r) ↔
      (m.CorrectlySigned P ∧ decodeExact 32 m.unsigned.nonce = some expectedNonce) ∧
        absDiff m.unsigned.resolvedAt now ≤ maxClockSkewSeconds := by
  unfold Prims.verifyGatewayResponse
  by_cases hnonce : decodeExact 32 m.unsigned.nonce = some expectedNonce
  · simp only [hnonce, ne_eq, not_true, if_false, verifySigned_eq_ok,
      GatewayResponse.CorrectlySigned, exists_and_right, and_true]
  · simp [hnonce]

theorem verifyRequest_accepts (m : TransferRequest) :
    (∃ r, P.verifyRequest m now = .ok r) ↔
      (m.CorrectlySigned P ∧ (decodeExact 32 m.unsigned.clientNonce).isSome) ∧
        absDiff m.unsigned.requestedAt now ≤ maxClockSkewSeconds := by
  simp only [Prims.verifyRequest, bind_ok, elim_ok, pure_ok, verifyTransfer_eq_ok,
    TransferRequest.CorrectlySigned, Option.isSome_iff_exists]
  exact exists_signed_nonce

theorem verifyReceipt_accepts (m : TransferReceipt) (expectedCid : String)
    (expectedClientNonce : Bytes) :
    (∃ r, P.verifyReceipt m expectedCid expectedClientNonce now = .ok r) ↔
      (m.CorrectlySigned P ∧ m.Matches P expectedCid expectedClientNonce) ∧
        absDiff m.unsigned.servedAt now ≤ maxClockSkewSeconds := by
  unfold Prims.verifyReceipt TransferReceipt.Matches
  by_cases hcid : m.unsigned.cid = expectedCid
  · by_cases hnonce : decodeExact 32 m.unsigned.clientNonce = some expectedClientNonce
    · simp only [hcid, hnonce, ne_eq, not_true, if_false, bind_ok, elim_ok, verifyTransfer_eq_ok,
        TransferReceipt.CorrectlySigned, true_and]
      constructor
      · rintro ⟨r, peerId, ⟨hsigned, hskew⟩, serverNonce, hserver, h⟩
        by_cases hhash : P.mutualReceiptHash expectedClientNonce serverNonce m.unsigned.contentHash
            = m.unsigned.receiptHash
        · exact ⟨⟨⟨peerId, hsigned⟩, serverNonce, hserver, hhash⟩, hskew⟩
        · rw [if_pos hhash] at h
          cases h
      · rintro ⟨⟨⟨peerId, hsigned⟩, serverNonce, hserver, hhash⟩, hskew⟩
        refine ⟨peerId, peerId, ⟨hsigned, hskew⟩, serverNonce, hserver, ?_⟩
        rw [if_neg (not_not.2 hhash)]
        rfl
    · simp [hcid, hnonce]
  · simp [hcid]

end verifiers

/-! ## Main result -/

/-- **A verifier accepts fresh messages only, unless the difference wraps into
    the window** (and the message passes the verifier's further checks). -/
theorem freshness_iff {H : Type} [DecidableEq H] (P : Prims H) {now : Int64} (hnow : 0 ≤ now) :
    (∀ m : PresenceHeartbeat, m.CorrectlySigned P →
      (((∃ r, P.verifyPresence m now = .ok r) → Fresh m.unsigned.timestamp now) ↔
        ¬ WrapsIntoWindow m.unsigned.timestamp now)) ∧
    (∀ m : ClusterDeclaration, m.CorrectlySigned P →
      (((∃ r, P.verifyCluster m now = .ok r) → Fresh m.unsigned.timestamp now) ↔
        ¬ WrapsIntoWindow m.unsigned.timestamp now)) ∧
    (∀ m : GatewayRequest, m.CorrectlySigned P →
      (((∃ r, P.verifyGatewayRequest m now = .ok r) → Fresh m.unsigned.requestedAt now) ↔
        ¬ WrapsIntoWindow m.unsigned.requestedAt now ∨
          ¬ (decodeExact 32 m.unsigned.nonce).isSome)) ∧
    (∀ (m : GatewayResponse) (expectedNonce : Bytes), m.CorrectlySigned P →
      (((∃ r, P.verifyGatewayResponse m expectedNonce now = .ok r) →
          Fresh m.unsigned.resolvedAt now) ↔
        ¬ WrapsIntoWindow m.unsigned.resolvedAt now ∨
          decodeExact 32 m.unsigned.nonce ≠ some expectedNonce)) ∧
    (∀ m : TransferRequest, m.CorrectlySigned P →
      (((∃ r, P.verifyRequest m now = .ok r) → Fresh m.unsigned.requestedAt now) ↔
        ¬ WrapsIntoWindow m.unsigned.requestedAt now ∨
          ¬ (decodeExact 32 m.unsigned.clientNonce).isSome)) ∧
    (∀ (m : TransferReceipt) (expectedCid : String) (expectedClientNonce : Bytes),
      m.CorrectlySigned P →
      (((∃ r, P.verifyReceipt m expectedCid expectedClientNonce now = .ok r) →
          Fresh m.unsigned.servedAt now) ↔
        ¬ WrapsIntoWindow m.unsigned.servedAt now ∨
          ¬ m.Matches P expectedCid expectedClientNonce)) := by
  refine ⟨?_, ?_, ?_, ?_, ?_, ?_⟩
  · intro m hsigned
    rw [only_fresh_iff hnow (verifyPresence_accepts m)]
    simp only [hsigned, not_true, or_false]
  · intro m hsigned
    rw [only_fresh_iff hnow (verifyCluster_accepts m)]
    simp only [hsigned, not_true, or_false]
  · intro m hsigned
    rw [only_fresh_iff hnow (verifyGatewayRequest_accepts m)]
    simp only [hsigned, true_and]
  · intro m expectedNonce hsigned
    rw [only_fresh_iff hnow (verifyGatewayResponse_accepts m expectedNonce)]
    simp only [hsigned, true_and, ne_eq]
  · intro m hsigned
    rw [only_fresh_iff hnow (verifyRequest_accepts m)]
    simp only [hsigned, true_and]
  · intro m expectedCid expectedClientNonce hsigned
    rw [only_fresh_iff hnow (verifyReceipt_accepts m expectedCid expectedClientNonce)]
    simp only [hsigned, true_and]

/-- A heartbeat of the year 2023. -/
noncomputable def heartbeat2023 (timestamp : Int64) : PresenceHeartbeat :=
  idealOpen.buildAndSignPresence peerA .online 1700000000 timestamp

theorem heartbeat2023_correctlySigned (timestamp : Int64) :
    (heartbeat2023 timestamp).CorrectlySigned idealOpen :=
  buildAndSignPresence_correctlySigned (idealOpen_signsCorrectly peerA) _ _ _

theorem freshness_iff_heartbeat :
    (heartbeat2023 1700000000).CorrectlySigned idealOpen ∧
    (((∃ r, idealOpen.verifyPresence (heartbeat2023 1700000000) 1700000200 = .ok r) →
        Fresh 1700000000 1700000200) ↔ ¬ WrapsIntoWindow 1700000000 1700000200) :=
  ⟨heartbeat2023_correctlySigned _,
    (freshness_iff idealOpen (by decide : (0 : Int64) ≤ 1700000200)).1 _
      (heartbeat2023_correctlySigned _)⟩

/-- A heartbeat that is `2 ^ 63` seconds old is accepted. -/
theorem ancient_heartbeat_accepted :
    (heartbeat2023 (Int64.minValue + 1700000000)).CorrectlySigned idealOpen ∧
    (∃ r, idealOpen.verifyPresence (heartbeat2023 (Int64.minValue + 1700000000)) 1700000000 = .ok r) ∧
    ¬ Fresh (Int64.minValue + 1700000000) 1700000000 := by
  have hwraps : WrapsIntoWindow (Int64.minValue + 1700000000) 1700000000 := Or.inl (by decide)
  have hsigned := heartbeat2023_correctlySigned (Int64.minValue + 1700000000)
  refine ⟨hsigned, (verifyPresence_accepts _).2 ⟨hsigned, ?_⟩, fun h => h.not_wraps hwraps⟩
  exact (absDiff_le_skew_iff (by decide)).2 (Or.inr hwraps)

end OpenAgentGraph
