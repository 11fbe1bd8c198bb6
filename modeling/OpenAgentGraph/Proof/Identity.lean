/-
  The id of a declared actor.

  It is the hash of a text: the public key as it is written, or the id of the
  declaring event.  So a key has one actor for each way to write it in upper
  and lower case, and a key may be written like the id of an event.
-/
import OpenAgentGraph.Proof.Possession

namespace OpenAgentGraph

open Lib

variable {H : Type} {P : Prims H}

/-- The declaration carries a public key of these bytes. -/
def ActorDeclarePayload.CarriesKey (p : ActorDeclarePayload) (k : Bytes) : Prop :=
  ∃ text, p.publicKey = some text ∧ Prims.parsePublicKey text = .ok k

/-- One actor, as it should be: the declarations carry the same key, or are one
    event without a key. -/
def SameActor (i₁ i₂ : H) (p₁ p₂ : ActorDeclarePayload) : Prop :=
  (∃ k, p₁.CarriesKey k ∧ p₂.CarriesKey k) ∨
    (i₁ = i₂ ∧ p₁.publicKey = none ∧ p₂.publicKey = none)

/-- Keys that differ in case at most are written alike, and a key is not written
    like the id of the other event, where that one has no key. -/
structure WrittenApart (P : Prims H) (i₁ i₂ : H) (p₁ p₂ : ActorDeclarePayload) : Prop where
  keys : ∀ t₁ t₂, p₁.publicKey = some t₁ → p₂.publicKey = some t₂ → SameButCase t₁ t₂ → t₁ = t₂
  left : ∀ t, p₁.publicKey = some t → p₂.publicKey = none → t ≠ P.toHex i₂
  right : ∀ t, p₂.publicKey = some t → p₁.publicKey = none → t ≠ P.toHex i₁

/-! ## What a declaration yields -/

theorem parsePublicKey_ok {s : String} {k : Bytes} (h : Prims.parsePublicKey s = .ok k) :
    hexDecode s = .ok k := by
  simp only [Prims.parsePublicKey, bind_ok, orElse_ok] at h
  obtain ⟨bytes, hbytes, hlen⟩ := h
  split at hlen
  · cases hlen
    exact hbytes
  · cases hlen

theorem project_actorDeclare_ok [DecidableEq H] {events : List (EventRow H)} {g g' : Projection H} {i a : H}
    {t : Int64} {p : ActorDeclarePayload}
    (h : P.project events g i t (.actorDeclare p) = .ok (.actorDeclared a, g')) :
    a = P.actorIdOf i p.publicKey ∧ ∀ text, p.publicKey = some text → ∃ k, p.CarriesKey k := by
  obtain ⟨actorType, name, publicKey, identityUri⟩ := p
  simp only [Prims.project, Prims.projectActorDeclare, bind_ok, pure_ok] at h
  obtain ⟨⟨a', g₁⟩, ⟨type, -, hdeclared⟩, hout⟩ := h
  cases hout
  cases publicKey with
  | none =>
    cases hdeclared
    refine ⟨rfl, ?_⟩
    intro text htext
    cases htext
  | some text =>
    simp only [bind_ok, map_ok, pure_ok] at hdeclared
    obtain ⟨_, ⟨k, hparse, rfl⟩, ⟨⟩⟩ := hdeclared
    refine ⟨rfl, ?_⟩
    rintro _ ⟨⟩
    exact ⟨k, text, rfl, hparse⟩

/-- The ids are equal exactly when the texts are that they are the hashes of. -/
theorem actorIdOf_eq_iff (hinj : Function.Injective P.blake3) {i₁ i₂ : H} {t₁ t₂ : Option String} :
    P.actorIdOf i₁ t₁ = P.actorIdOf i₂ t₂ ↔ t₁.getD (P.toHex i₁) = t₂.getD (P.toHex i₂) := by
  constructor
  · intro h
    exact utf8_injective (P.derive_injective hinj _ h)
  · intro h
    rw [Prims.actorIdOf, Prims.actorIdOf, h]

theorem sameActor_of_keys {i₁ i₂ : H} {p₁ p₂ : ActorDeclarePayload} {t₁ t₂ : String} {k₁ k₂ : Bytes}
    (ht₁ : p₁.publicKey = some t₁) (ht₂ : p₂.publicKey = some t₂)
    (hk₁ : Prims.parsePublicKey t₁ = .ok k₁) (hk₂ : Prims.parsePublicKey t₂ = .ok k₂) :
    SameActor i₁ i₂ p₁ p₂ ↔ SameButCase t₁ t₂ := by
  rw [← hexDecode_eq_iff (parsePublicKey_ok hk₁) (parsePublicKey_ok hk₂)]
  constructor
  · rintro (⟨k, ⟨s₁, hs₁, hks₁⟩, ⟨s₂, hs₂, hks₂⟩⟩ | ⟨-, hnone, -⟩)
    · cases ht₁.symm.trans hs₁
      cases ht₂.symm.trans hs₂
      exact (Except.ok.inj (hk₁.symm.trans hks₁)).trans (Except.ok.inj (hks₂.symm.trans hk₂))
    · cases ht₁.symm.trans hnone
  · rintro rfl
    exact Or.inl ⟨k₁, ⟨t₁, ht₁, hk₁⟩, ⟨t₂, ht₂, hk₂⟩⟩

theorem not_sameActor_of_keyless {i₁ i₂ : H} {p₁ p₂ : ActorDeclarePayload} {t : String}
    (ht : p₁.publicKey = some t) (hnone : p₂.publicKey = none) : ¬ SameActor i₁ i₂ p₁ p₂ := by
  rintro (⟨k, -, ⟨s, hs, -⟩⟩ | ⟨-, hno, -⟩)
  · cases hnone.symm.trans hs
  · cases ht.symm.trans hno

theorem SameActor.symm {i₁ i₂ : H} {p₁ p₂ : ActorDeclarePayload} (h : SameActor i₁ i₂ p₁ p₂) :
    SameActor i₂ i₁ p₂ p₁ := by
  rcases h with ⟨k, h₁, h₂⟩ | ⟨hid, h₁, h₂⟩
  · exact Or.inl ⟨k, h₂, h₁⟩
  · exact Or.inr ⟨hid.symm, h₂, h₁⟩

theorem SameActor.comm {i₁ i₂ : H} {p₁ p₂ : ActorDeclarePayload} :
    SameActor i₁ i₂ p₁ p₂ ↔ SameActor i₂ i₁ p₂ p₁ := ⟨SameActor.symm, SameActor.symm⟩

theorem WrittenApart.symm {i₁ i₂ : H} {p₁ p₂ : ActorDeclarePayload} (h : WrittenApart P i₁ i₂ p₁ p₂) :
    WrittenApart P i₂ i₁ p₂ p₁ where
  keys t₂ t₁ ht₂ ht₁ hcase := (h.keys t₁ t₂ ht₁ ht₂ hcase.symm).symm
  left := h.right
  right := h.left

theorem WrittenApart.comm {i₁ i₂ : H} {p₁ p₂ : ActorDeclarePayload} :
    WrittenApart P i₁ i₂ p₁ p₂ ↔ WrittenApart P i₂ i₁ p₂ p₁ := ⟨WrittenApart.symm, WrittenApart.symm⟩

/-! ## The three kinds of pairs -/

section pairs

variable {i₁ i₂ : H} {p₁ p₂ : ActorDeclarePayload}

/-- Two events without a key: their ids are their texts. -/
theorem identity_of_keyless (ht₁ : p₁.publicKey = none) (ht₂ : p₂.publicKey = none) :
    (P.toHex i₁ = P.toHex i₂ ↔ SameActor i₁ i₂ p₁ p₂) ↔ WrittenApart P i₁ i₂ p₁ p₂ := by
  have hids : P.toHex i₁ = P.toHex i₂ ↔ SameActor i₁ i₂ p₁ p₂ := by
    constructor
    · intro h
      exact Or.inr ⟨P.toHex_injective h, ht₁, ht₂⟩
    · rintro (⟨k, ⟨s, hs, -⟩, -⟩ | ⟨rfl, -, -⟩)
      · cases ht₁.symm.trans hs
      · rfl
  refine iff_of_true hids ⟨?_, ?_, ?_⟩
  · intro t₁ t₂ h
    cases ht₁.symm.trans h
  · intro t h
    cases ht₁.symm.trans h
  · intro t h
    cases ht₂.symm.trans h

/-- A key and an event without one. -/
theorem identity_of_mixed {t₁ : String} (ht₁ : p₁.publicKey = some t₁) (ht₂ : p₂.publicKey = none) :
    (t₁ = P.toHex i₂ ↔ SameActor i₁ i₂ p₁ p₂) ↔ WrittenApart P i₁ i₂ p₁ p₂ := by
  rw [iff_false_intro (not_sameActor_of_keyless ht₁ ht₂), iff_false]
  constructor
  · intro hne
    refine ⟨?_, ?_, ?_⟩
    · intro s t _ h
      cases ht₂.symm.trans h
    · rintro t h - rfl
      exact hne (Option.some.inj (ht₁.symm.trans h))
    · intro t h
      cases ht₂.symm.trans h
  · intro hapart heq
    exact hapart.left t₁ ht₁ ht₂ heq

/-- Two keys: the bytes are equal exactly when the texts differ in case at most. -/
theorem identity_of_keys {t₁ t₂ : String} {k₁ k₂ : Bytes} (ht₁ : p₁.publicKey = some t₁)
    (ht₂ : p₂.publicKey = some t₂) (hk₁ : p₁.CarriesKey k₁) (hk₂ : p₂.CarriesKey k₂) :
    (t₁ = t₂ ↔ SameActor i₁ i₂ p₁ p₂) ↔ WrittenApart P i₁ i₂ p₁ p₂ := by
  obtain ⟨s₁, hs₁, hk₁⟩ := hk₁
  obtain ⟨s₂, hs₂, hk₂⟩ := hk₂
  cases ht₁.symm.trans hs₁
  cases ht₂.symm.trans hs₂
  rw [sameActor_of_keys ht₁ ht₂ hk₁ hk₂]
  constructor
  · intro hiff
    refine ⟨?_, ?_, ?_⟩
    · intro s t hs ht hcase
      cases ht₁.symm.trans hs
      cases ht₂.symm.trans ht
      exact hiff.2 hcase
    · intro t _ h
      cases ht₂.symm.trans h
    · intro t _ h
      cases ht₁.symm.trans h
  · intro hapart
    constructor
    · rintro rfl
      rfl
    · exact hapart.keys t₁ t₂ ht₁ ht₂

end pairs

/-- **One actor for each key.**  Two declarations that are projected, on any
    peers, get the same id exactly when they should, if and only if their
    keys are written apart. -/
theorem actor_identity_iff [DecidableEq H] (P : Prims H) (hinj : Function.Injective P.blake3)
    {events₁ events₂ : List (EventRow H)} {g₁ g₁' g₂ g₂' : Projection H} {i₁ i₂ a₁ a₂ : H}
    {c₁ c₂ : Int64} {p₁ p₂ : ActorDeclarePayload}
    (h₁ : P.project events₁ g₁ i₁ c₁ (.actorDeclare p₁) = .ok (.actorDeclared a₁, g₁'))
    (h₂ : P.project events₂ g₂ i₂ c₂ (.actorDeclare p₂) = .ok (.actorDeclared a₂, g₂')) :
    (a₁ = a₂ ↔ SameActor i₁ i₂ p₁ p₂) ↔ WrittenApart P i₁ i₂ p₁ p₂ := by
  obtain ⟨rfl, hkey₁⟩ := project_actorDeclare_ok h₁
  obtain ⟨rfl, hkey₂⟩ := project_actorDeclare_ok h₂
  rw [actorIdOf_eq_iff hinj]
  cases ht₁ : p₁.publicKey with
  | none =>
    cases ht₂ : p₂.publicKey with
    | none => exact identity_of_keyless ht₁ ht₂
    | some t₂ =>
      rw [Option.getD_none, Option.getD_some, eq_comm, SameActor.comm, WrittenApart.comm]
      exact identity_of_mixed ht₂ ht₁
  | some t₁ =>
    cases ht₂ : p₂.publicKey with
    | none => exact identity_of_mixed ht₁ ht₂
    | some t₂ =>
      obtain ⟨k₁, hk₁⟩ := hkey₁ t₁ ht₁
      obtain ⟨k₂, hk₂⟩ := hkey₂ t₂ ht₂
      exact identity_of_keys ht₁ ht₂ hk₁ hk₂

/-! ## Two declarations -/

/-- An agent, with or without a key. -/
def agentWith (publicKey : Option String) : ActorDeclarePayload := ⟨"agent", none, publicKey, none⟩

theorem project_agentWith [DecidableEq H] (i : H) {text : String} {k : Bytes} (hk : Prims.parsePublicKey text = .ok k) :
    ∃ g, P.project [] .empty i 5 (.actorDeclare (agentWith (some text)))
      = .ok (.actorDeclared (P.actorIdOf i (some text)), g) := by
  simp only [Prims.project, Prims.projectActorDeclare, agentWith, hk]
  exact ⟨_, rfl⟩

theorem project_agentWithout [DecidableEq H] (i : H) :
    ∃ g, P.project [] .empty i 5 (.actorDeclare (agentWith none))
      = .ok (.actorDeclared (P.actorIdOf i none), g) := ⟨_, rfl⟩

/-- A key of thirty-two bytes 171. -/
def abKey : Bytes := List.replicate 32 171

theorem parsePublicKey_lower : Prims.parsePublicKey (hexEncode abKey) = .ok abKey := by
  simp only [Prims.parsePublicKey, hexDecode_hexEncode]
  rfl

theorem parsePublicKey_upper : Prims.parsePublicKey (hexUpper abKey) = .ok abKey := by
  simp only [Prims.parsePublicKey, hexDecode_hexUpper]
  rfl

theorem abKey_cases : hexEncode abKey ≠ hexUpper abKey := by
  intro h
  have hbytes := congrArg utf8 h
  rw [utf8_hexEncode, utf8_hexUpper] at hbytes
  revert hbytes
  decide +kernel

/-- One key in lower and in upper case declares two actors, and a key written
    like the id of an event declares the actor of that event. -/
theorem actor_identity_fails :
    (∃ a₁ a₂ g₁ g₂,
      idealOpen.project [] .empty [1] 5 (.actorDeclare (agentWith (some (hexEncode abKey))))
        = .ok (.actorDeclared a₁, g₁) ∧
      idealOpen.project [] .empty [2] 5 (.actorDeclare (agentWith (some (hexUpper abKey))))
        = .ok (.actorDeclared a₂, g₂) ∧
      ¬ (a₁ = a₂ ↔ SameActor ([1] : Bytes) [2] (agentWith (some (hexEncode abKey)))
        (agentWith (some (hexUpper abKey))))) ∧
    (∃ a₁ a₂ g₁ g₂,
      idealOpen.project [] .empty [1] 5 (.actorDeclare (agentWith (some (hexEncode abKey))))
        = .ok (.actorDeclared a₁, g₁) ∧
      idealOpen.project [] .empty abKey 5 (.actorDeclare (agentWith none))
        = .ok (.actorDeclared a₂, g₂) ∧
      ¬ (a₁ = a₂ ↔ SameActor ([1] : Bytes) abKey (agentWith (some (hexEncode abKey)))
        (agentWith none))) := by
  obtain ⟨g₁, h₁⟩ := project_agentWith (P := idealOpen) [1] parsePublicKey_lower
  obtain ⟨g₂, h₂⟩ := project_agentWith (P := idealOpen) [2] parsePublicKey_upper
  obtain ⟨g₃, h₃⟩ := project_agentWithout (P := idealOpen) abKey
  refine ⟨⟨_, _, g₁, g₂, h₁, h₂, ?_⟩, ⟨_, _, g₁, g₃, h₁, h₃, ?_⟩⟩
  · intro hiff
    have hsame : SameActor ([1] : Bytes) [2] (agentWith (some (hexEncode abKey)))
        (agentWith (some (hexUpper abKey))) :=
      Or.inl ⟨abKey, ⟨_, rfl, parsePublicKey_lower⟩, ⟨_, rfl, parsePublicKey_upper⟩⟩
    exact abKey_cases ((actorIdOf_eq_iff idealOpen_injective).1 (hiff.2 hsame))
  · intro hiff
    have hid : idealOpen.actorIdOf [1] (some (hexEncode abKey)) = idealOpen.actorIdOf abKey none := by
      rw [actorIdOf_eq_iff idealOpen_injective]
      simp [Prims.toHex, idealOpen]
    exact not_sameActor_of_keyless rfl rfl (hiff.1 hid)

/-- A key that is declared twice in one way of writing is one actor. -/
theorem actor_identity_iff_twice :
    idealOpen.actorIdOf [1] (some (hexEncode abKey)) = idealOpen.actorIdOf [2] (some (hexEncode abKey)) ↔
      SameActor ([1] : Bytes) [2] (agentWith (some (hexEncode abKey)))
        (agentWith (some (hexEncode abKey))) := by
  obtain ⟨g₁, h₁⟩ := project_agentWith (P := idealOpen) [1] parsePublicKey_lower
  obtain ⟨g₂, h₂⟩ := project_agentWith (P := idealOpen) [2] parsePublicKey_lower
  refine (actor_identity_iff idealOpen idealOpen_injective h₁ h₂).2 ⟨?_, ?_, ?_⟩
  · rintro t₁ t₂ h₁ h₂ -
    exact Option.some.inj (h₁.symm.trans h₂)
  · intro t _ h
    cases h
  · intro t _ h
    cases h

end OpenAgentGraph
