/-
  API keys.

  Key grants and revocations travel with the other events, and the projector
  does not ask where an event comes from.  As long as no foreign event adds or
  revokes a key, every active key was added, and every revoked key revoked, by
  an event of this peer (`KeyAuthority`).  Without that, one event of another
  origin opens this peer's API.
-/
import OpenAgentGraph.Proof.Forward

namespace OpenAgentGraph

open Lib Repo

variable {H : Type} {P : Prims H} [DecidableEq H]

/-! ## Operations of a peer -/

/-- The event adds or revokes an API key. -/
def isKeyEvent : EventPayload → Bool
  | .actorKeyAdd _ => true
  | .actorKeyRevoke _ => true
  | _ => false

/-- The commits of the run are the peer's own. -/
def OwnCommits (me : Prims.PeerIdentity) (ops : List (Op P)) : Prop :=
  ∀ identity payload createdAt, .commit identity payload createdAt ∈ ops → identity = me

/-- No event that is offered under another origin's key adds or revokes a key. -/
def NoForeignKeyEvents (me : Prims.PeerIdentity) (ops : List (Op P)) : Prop :=
  ∀ key signed receivedAt, Op.ingest key signed receivedAt ∈ ops → P.peerIdOfKey key ≠ me.peerId P →
    isKeyEvent signed.unsigned.payload = false

/-- The log holds an event of the origin that adds the key of the row. -/
def AddedBy (P : Prims H) (origin : H) (events : List (EventRow H)) (r : ActorKeyRow H) : Prop :=
  ∃ row ∈ events, row.originPeerId = origin ∧ ∃ p, P.rowPayload row = some p ∧ AddsKey P p r

/-- Every key row was added by the peer itself. -/
def KeysOwned (P : Prims H) (me : Prims.PeerIdentity) (s : Store H) : Prop :=
  ∀ r ∈ s.proj.actorKeys, AddedBy P (me.peerId P) s.events r

omit [DecidableEq H] in
theorem AddedBy.mono {origin : H} {events : List (EventRow H)} {r r' : ActorKeyRow H}
    {row : EventRow H} (h : AddedBy P origin events r) (hhash : r'.keyHash = r.keyHash)
    (hactor : r'.actorId = r.actorId) (hperm : r'.permissions = r.permissions) :
    AddedBy P origin (events ++ [row]) r' := by
  obtain ⟨row', hrow', ho, p, hp, q, hq, h₁, h₂, h₃⟩ := h
  exact ⟨row', List.mem_append_left _ hrow', ho, p, hp, q, hq, by rw [hhash]; exact h₁,
    by rw [hactor]; exact h₂, by rw [hperm]; exact h₃⟩

/-! ## One event -/

/-- A row after the revocations is an old row, revoked or not. -/
theorem mem_revokeRows {l : List (H × Int64)} {t : List (ActorKeyRow H)} {r : ActorKeyRow H}
    (h : r ∈ l.foldl revokeRow t) : ∃ r₀ ∈ t, r.keyHash = r₀.keyHash ∧ r.actorId = r₀.actorId ∧
      r.permissions = r₀.permissions := by
  induction l generalizing t with
  | nil => exact ⟨r, h, rfl, rfl, rfl⟩
  | cons k l ih =>
    obtain ⟨r₁, hr₁, h₁, h₂, h₃⟩ := ih h
    obtain ⟨r₀, hr₀, rfl⟩ := Table.mem_updateWhere.1 hr₁
    refine ⟨r₀, hr₀, ?_⟩
    rw [h₁, h₂, h₃]
    split <;> exact ⟨rfl, rfl, rfl⟩

/-- A row whose key is not revoked stays. -/
theorem mem_revokeRows_of_ne {l : List (H × Int64)} {t : List (ActorKeyRow H)} {r : ActorKeyRow H}
    (h : r ∈ t) (hne : ∀ k ∈ l, k.1 ≠ r.keyHash) : r ∈ l.foldl revokeRow t := by
  induction l generalizing t with
  | nil => exact h
  | cons k l ih =>
    refine ih ?_ fun k' hk' => hne k' (List.mem_cons_of_mem _ hk')
    refine Table.mem_updateWhere.2 ⟨r, h, ?_⟩
    have hk : r.keyHash ≠ k.1 := (hne k (List.mem_cons_self ..)).symm
    simp [hk]

omit [DecidableEq H] in
/-- A key event is read back as it was written. -/
theorem Stored.rowPayload_key (hJ : JsonLaws P) {row : EventRow H} {signed : SignedEvent}
    (h : Stored P row signed) (hkey : isKeyEvent signed.unsigned.payload = true) :
    P.rowPayload row = some signed.unsigned.payload := by
  obtain ⟨p, hp, hsame⟩ := h.rowPayload hJ
  cases hq : signed.unsigned.payload with
  | actorKeyAdd q => rw [hq] at hsame; cases hsame; exact hp
  | actorKeyRevoke q => rw [hq] at hsame; cases hsame; exact hp
  | _ => rw [hq] at hkey; cases hkey

/-- An event of the peer, or one that is no key event. -/
def Permitted (P : Prims H) (me : Prims.PeerIdentity) (row : EventRow H) (signed : SignedEvent) :
    Prop :=
  row.originPeerId = me.peerId P ∨ isKeyEvent signed.unsigned.payload = false

theorem Appended.keysOwned (hJ : JsonLaws P) {s s' : Store H} {row : EventRow H}
    {signed : SignedEvent} {me : Prims.PeerIdentity} (h : Appended P s s' row signed)
    (hperm : Permitted P me row signed) (hinv : KeysOwned P me s) : KeysOwned P me s' := by
  obtain ⟨e, heff, -, -, hproj⟩ := h.effect hJ
  have hspec := effectOf_spec heff
  intro r hr
  rw [hproj] at hr
  obtain ⟨r₀, hr₀, h₁, h₂, h₃⟩ := mem_revokeRows hr
  rw [h.events_eq]
  rcases List.mem_append.1 hr₀ with hr₀ | hr₀
  · exact (hinv r₀ hr₀).mono h₁ h₂ h₃
  · obtain ⟨q, hq, hhash, hactor, hperms⟩ := hspec.actorKeys r₀ hr₀
    have hkey : isKeyEvent signed.unsigned.payload = true := by rw [hq]; rfl
    rcases hperm with ho | hno
    · refine ⟨row, by simp, ho, _, h.stored.rowPayload_key hJ hkey, q, hq, ?_, ?_, ?_⟩
      · rw [h₁]; exact hhash
      · rw [h₂]; exact hactor
      · rw [h₃]; exact hperms
    · rw [hkey] at hno; cases hno

/-- The log gains a revocation of the key by the origin. -/
def RevokedBy (P : Prims H) (origin : H) (s s' : Store H) (keyHash : H) : Prop :=
  ∃ row, s'.events = s.events ++ [row] ∧ row.originPeerId = origin ∧
    ∃ p, P.rowPayload row = some p ∧ RevokesKey P p keyHash

theorem findActiveKey_eq_some {g : Projection H} {k : H} {a : AuthenticatedKey H}
    (h : findActiveKey g k = some a) : ∃ r ∈ g.actorKeys, r.keyHash = k ∧ r.revokedAt = none ∧
      a = ⟨r.actorId, r.permissions.filterMap Permission.parse⟩ := by
  unfold findActiveKey at h
  obtain ⟨r, hr, rfl⟩ := Option.map_eq_some_iff.1 h
  have hprop := List.find?_some hr
  simp only [Bool.and_eq_true, decide_eq_true_eq, Option.isNone_iff_eq_none] at hprop
  exact ⟨r, List.mem_of_find?_eq_some hr, hprop.1, hprop.2, rfl⟩

theorem findActiveKey_eq_none {g : Projection H} {k : H} (h : findActiveKey g k = none) :
    ∀ r ∈ g.actorKeys, ¬ (r.keyHash = k ∧ r.revokedAt = none) := by
  unfold findActiveKey at h
  rw [Option.map_eq_none_iff, List.find?_eq_none] at h
  intro r hr
  simpa using h r hr

theorem Appended.revokedBy (hJ : JsonLaws P) {s s' : Store H} {row : EventRow H}
    {signed : SignedEvent} {me : Prims.PeerIdentity} (h : Appended P s s' row signed)
    (hperm : Permitted P me row signed) {k : H} {a : AuthenticatedKey H}
    (hbefore : findActiveKey s.proj k = some a) (hafter : findActiveKey s'.proj k = none) :
    RevokedBy P (me.peerId P) s s' k := by
  obtain ⟨e, heff, -, -, hproj⟩ := h.effect hJ
  have hspec := effectOf_spec heff
  obtain ⟨r, hr, rfl, hrev, -⟩ := findActiveKey_eq_some hbefore
  have hnamed : ∃ c ∈ e.revoked, c.1 = r.keyHash := by
    by_contra hno
    push Not at hno
    have hmem : r ∈ s'.proj.actorKeys := by
      rw [hproj]
      exact mem_revokeRows_of_ne (List.mem_append_left _ hr) hno
    exact findActiveKey_eq_none hafter r hmem ⟨rfl, hrev⟩
  obtain ⟨c, hc, hck⟩ := hnamed
  obtain ⟨q, hq, hhash⟩ := hspec.revoked c hc
  have hkey : isKeyEvent signed.unsigned.payload = true := by rw [hq]; rfl
  rcases hperm with ho | hno
  · exact ⟨row, h.events_eq, ho, _, h.stored.rowPayload_key hJ hkey, q, hq, hck ▸ hhash⟩
  · rw [hkey] at hno; cases hno

/-! ## Runs -/

/-- The event that an operation appends is the one it was given. -/
def Op.Offers (op : Op P) (row : EventRow H) (signed : SignedEvent) : Prop :=
  match op with
  | .commit identity payload _ =>
    row.originPeerId = identity.peerId P ∧ signed.unsigned.payload = payload
  | .ingest key e _ => e = signed ∧ row.originPeerId = P.peerIdOfKey key
  | _ => False

/-- A step appends the event it was given, or leaves the log and the keys alone. -/
theorem LogStep.offer_cases {s s' : Store H} {op : Op P} (hinv : ReplayInv P s)
    (h : LogStep P s op s') :
    (∃ row signed, Appended P s s' row signed ∧ op.Offers row signed) ∨
      (s'.events = s.events ∧ s'.proj.actorKeys = s.proj.actorKeys) := by
  cases h with
  | commit happ ho hp => exact Or.inl ⟨_, _, happ, ho, hp⟩
  | known => exact Or.inr ⟨rfl, rfl⟩
  | forked _ _ _ _ hfork =>
    obtain ⟨json, rfl⟩ := recordFork_ok hfork
    exact Or.inr ⟨rfl, rfl⟩
  | applied happ _ ho => exact Or.inl ⟨_, _, happ, rfl, ho⟩
  | rebuild hr =>
    rw [hinv.rebuild] at hr
    cases hr
    exact Or.inr ⟨rfl, rfl⟩
  | redactEvidence hr =>
    obtain ⟨-, -, rfl⟩ := redactEvidence_ok hr
    exact Or.inr ⟨rfl, rfl⟩
  | redactActor hr =>
    obtain ⟨-, -, rfl⟩ := redactActor_ok hr
    exact Or.inr ⟨rfl, rfl⟩

/-- A step appends a permitted event, or leaves the log and the keys alone. -/
theorem LogStep.key_cases {me : Prims.PeerIdentity} {ops : List (Op P)}
    (hown : OwnCommits me ops) (hforeign : NoForeignKeyEvents me ops) {s s' : Store H} {op : Op P}
    (hop : op ∈ ops) (hinv : ReplayInv P s) (h : LogStep P s op s') :
    (∃ row signed, Appended P s s' row signed ∧ Permitted P me row signed) ∨
      (s'.events = s.events ∧ s'.proj.actorKeys = s.proj.actorKeys) := by
  rcases h.offer_cases hinv with ⟨row, signed, happ, hoffer⟩ | hsame
  · refine Or.inl ⟨row, signed, happ, ?_⟩
    cases op with
    | commit identity payload createdAt =>
      obtain rfl := hown _ _ _ hop
      exact Or.inl hoffer.1
    | ingest key e receivedAt =>
      obtain ⟨rfl, ho⟩ := hoffer
      by_cases hme : P.peerIdOfKey key = me.peerId P
      · exact Or.inl (ho.trans hme)
      · exact Or.inr (hforeign _ _ _ hop hme)
    | rebuild => exact hoffer.elim
    | redactEvidence => exact hoffer.elim
    | redactActor => exact hoffer.elim
  · exact Or.inr hsame

theorem keysOwned_run (hJ : JsonLaws P) (hinj : Function.Injective P.blake3)
    {me : Prims.PeerIdentity} {ops : List (Op P)} (hown : OwnCommits me ops)
    (hforeign : NoForeignKeyEvents me ops) : KeysOwned P me (P.run Store.empty ops) := by
  have hall : LogInv P (P.run Store.empty ops) ∧ ReplayInv P (P.run Store.empty ops) ∧
      KeysOwned P me (P.run Store.empty ops) := by
    refine P.run_induction (I := fun s => LogInv P s ∧ ReplayInv P s ∧ KeysOwned P me s) ops
      ⟨⟨fun _ hr => (by cases hr), chainInv_empty⟩, replayInv_empty, fun _ hr => (by cases hr)⟩ ?_
    rintro op hop s s' ⟨hlog, hrep, hkeys⟩ hexec
    have hstep := exec_logStep hJ hinj hlog.stored hexec
    refine ⟨hstep.logInv hlog, hstep.replayInv hJ hrep, ?_⟩
    rcases hstep.key_cases hown hforeign hop hrep with ⟨row, signed, happ, hperm⟩ | ⟨hev, hk⟩
    · exact happ.keysOwned hJ hperm hkeys
    · intro r hr
      rw [hk] at hr
      rw [hev]
      exact hkeys r hr
  exact hall.2.2

/-- The grants and revocations that count are the peer's own. -/
structure KeyAuthority (P : Prims H) (me : Prims.PeerIdentity) (ops : List (Op P)) : Prop where
  active : ∀ k a, findActiveKey (P.run Store.empty ops).proj k = some a →
    ∃ r, r.keyHash = k ∧ a = ⟨r.actorId, r.permissions.filterMap Permission.parse⟩ ∧
      AddedBy P (me.peerId P) (P.run Store.empty ops).events r
  authenticated : ∀ rawKey auth, P.authenticate (P.run Store.empty ops) rawKey = .ok auth →
    ∃ r, r.keyHash = P.blake3 (utf8 rawKey) ∧
      auth = ⟨r.actorId, r.permissions.filterMap Permission.parse⟩ ∧
      AddedBy P (me.peerId P) (P.run Store.empty ops).events r
  revoked : ∀ before op, before ++ [op] <+: ops → ∀ k a,
    findActiveKey (P.run Store.empty before).proj k = some a →
    findActiveKey (P.run Store.empty (before ++ [op])).proj k = none →
    RevokedBy P (me.peerId P) (P.run Store.empty before) (P.run Store.empty (before ++ [op])) k

/-- **Authority over API keys.**  In a run of a peer's own commits and of
    foreign events none of which adds or revokes a key, every key that is
    reported active, and so every caller that is authenticated, was granted by
    an event of the peer; and a key stops being active only by a revocation of
    the peer. -/
theorem key_authority (P : Prims H) (hJ : JsonLaws P) (hinj : Function.Injective P.blake3)
    (me : Prims.PeerIdentity) (ops : List (Op P)) (hown : OwnCommits me ops)
    (hforeign : NoForeignKeyEvents me ops) : KeyAuthority P me ops := by
  have hactive : ∀ k a, findActiveKey (P.run Store.empty ops).proj k = some a →
      ∃ r, r.keyHash = k ∧ a = ⟨r.actorId, r.permissions.filterMap Permission.parse⟩ ∧
        AddedBy P (me.peerId P) (P.run Store.empty ops).events r := by
    intro k a h
    obtain ⟨r, hr, hk, -, ha⟩ := findActiveKey_eq_some h
    exact ⟨r, hk, ha, keysOwned_run hJ hinj hown hforeign r hr⟩
  refine ⟨hactive, ?_, ?_⟩
  · intro rawKey auth h
    unfold Prims.authenticate at h
    cases hf : findActiveKey (P.run Store.empty ops).proj (P.blake3 (utf8 rawKey)) with
    | none => rw [hf] at h; cases h
    | some a =>
      rw [hf] at h
      cases h
      obtain ⟨r, hk, rfl, hadd⟩ := hactive _ a hf
      exact ⟨r, hk, rfl, hadd⟩
  · intro before op hpre k a hbefore hafter
    have hop : op ∈ ops := hpre.subset (by simp)
    rw [Prims.run_append, Prims.step] at hafter ⊢
    cases hexec : P.exec (P.run Store.empty before) op with
    | none =>
      rw [hexec] at hafter
      rw [Option.getD_none, hbefore] at hafter
      cases hafter
    | some s' =>
      rw [hexec] at hafter
      rw [Option.getD_some] at hafter ⊢
      have hstep := exec_logStep hJ hinj (logInv_run hJ hinj before).stored hexec
      rcases hstep.key_cases hown hforeign hop (replayInv_run hJ hinj before) with
        ⟨row, signed, happ, hperm⟩ | ⟨-, hk⟩
      · exact happ.revokedBy hJ hperm hbefore hafter
      · have hsame : findActiveKey s'.proj k = findActiveKey (P.run Store.empty before).proj k := by
          unfold findActiveKey
          rw [hk]
        rw [hsame, hbefore] at hafter
        cases hafter

/-! ## A key that another peer grants -/

section grant

variable (P : Prims H) (bob : Prims.PeerIdentity) (rawKey : String)

/-- An administrator's key for Bob's actor. -/
def grantPayload : EventPayload :=
  .actorKeyAdd ⟨P.toHex (declaredActor P bob), P.toHex (P.blake3 (utf8 rawKey)), ["admin"]⟩

def grantEvent : SignedEvent :=
  P.eventOf bob 2 (some (P.idOf (declareEvent P bob))) 2 (grantPayload P bob rawKey)

/-- A peer that is offered two events of Bob. -/
def grantOps : List (Op P) :=
  [.ingest (bob.verifyingKey P) (declareEvent P bob) 5,
    .ingest (bob.verifyingKey P) (grantEvent P bob rawKey) 5]

omit [DecidableEq H] in
theorem parseKeyHash_toHex (h : H) : P.parseKeyHash (P.toHex h) = .ok h := by
  simp [Prims.parseKeyHash, Prims.toHex, orElse, okOr, bind, Except.bind]

omit [DecidableEq H] in
theorem grant_effect : P.effectOf (P.idOf (grantEvent P bob rawKey)) 2 (grantPayload P bob rawKey)
    = some {
      actorKeys := [⟨P.blake3 (utf8 rawKey), declaredActor P bob, ["admin"], 2, none⟩]
      needActors := [declaredActor P bob] } := by
  simp only [Prims.effectOf, grantPayload, Prims.keyAddEffect, parseId_toHex, parseKeyHash_toHex,
    Except.toOption]
  rfl

omit [DecidableEq H] in
theorem effect_grant : P.effect (grantEvent P bob rawKey) = {
    actorKeys := [⟨P.blake3 (utf8 rawKey), declaredActor P bob, ["admin"], 2, none⟩]
    needActors := [declaredActor P bob] } :=
  congrArg (fun o => o.getD {}) (grant_effect P bob rawKey)

/-- Bob's two events, after what is stored already. -/
def grantedStore (s : Store H) : Store H :=
  appendRow (appendRow s (P.rowOf (declareEvent P bob) (bob.peerId P) none 5)
      (P.effect (declareEvent P bob)))
    (P.rowOf (grantEvent P bob rawKey) (bob.peerId P) (some (P.idOf (declareEvent P bob))) 5)
    (P.effect (grantEvent P bob rawKey))

variable {P bob}

/-- A key row that an event adds is in the table after it. -/
theorem mem_appendRow_actorKeys {s : Store H} {row : EventRow H} {e : Effect H} {r : ActorKeyRow H}
    (hr : r ∈ e.actorKeys) (hrevoked : e.revoked = []) : r ∈ (appendRow s row e).proj.actorKeys := by
  have hkeys : (appendRow s row e).proj.actorKeys
      = e.revoked.foldl revokeRow (s.proj.actorKeys ++ e.actorKeys) := rfl
  rw [hkeys, hrevoked]
  exact List.mem_append_right _ hr

theorem mem_grantedStore (s : Store H) : ⟨P.blake3 (utf8 rawKey), declaredActor P bob, ["admin"], 2, none⟩ ∈
    (grantedStore P bob rawKey s).proj.actorKeys := by
  refine mem_appendRow_actorKeys ?_ ?_
  · rw [effect_grant]
    exact List.mem_singleton.2 rfl
  · rw [effect_grant]

omit [DecidableEq H] in
theorem grant_isSome : (P.effectOf (P.idOf (grantEvent P bob rawKey)) 2
    (grantPayload P bob rawKey)).isSome = true := by
  rw [grant_effect]
  rfl

theorem declared_hasActor (g : Projection H) :
    hasActor ((P.effect (declareEvent P bob)).apply g) (declaredActor P bob) = true := by
  rw [hasActor, Table.hasKey_iff]
  refine exists_key_addAll.2 (Or.inr ?_)
  rw [declare_effect]
  exact ⟨_, List.mem_singleton.2 rfl, rfl⟩

theorem grant_admissible {g : Projection H}
    (hkeys : ∀ y ∈ g.actorKeys, y.keyHash ≠ P.blake3 (utf8 rawKey)) :
    (P.effect (grantEvent P bob rawKey)).Admissible ((P.effect (declareEvent P bob)).apply g) := by
  have hactor : hasActor ((P.effect (declareEvent P bob)).apply g) (declaredActor P bob) = true :=
    declared_hasActor g
  rw [effect_grant]
  constructor <;> simp [hactor]
  intro y hy
  refine hkeys y ?_
  rw [declare_effect] at hy
  simpa [Effect.apply] using hy

/-- A peer without an event of Bob and without the key takes both events. -/
theorem run_grant (hJ : JsonLaws P) (hinj : Function.Injective P.blake3) (hbob : SignsCorrectly P bob)
    {ops : List (Op P)} {s : Store H} (hs : P.run Store.empty ops = s)
    (hroom : s.events.length + 1 < maxRows)
    (hnext : Prims.nextOf (getOrigin s.eventOrigins (bob.peerId P)) = (1, none))
    (hkeys : ∀ y ∈ s.proj.actorKeys, y.keyHash ≠ P.blake3 (utf8 rawKey)) :
    P.run Store.empty (ops ++ grantOps P bob rawKey) = grantedStore P bob rawKey s := by
  have h₁ : P.run Store.empty (ops ++ [.ingest (bob.verifyingKey P) (declareEvent P bob) 5])
      = appendRow s (P.rowOf (declareEvent P bob) (bob.peerId P) none 5)
        (P.effect (declareEvent P bob)) :=
    run_ingest hJ hinj ops hs (by omega) hbob trivial hnext rfl (declare_admissible _ _)
  have hadm : (P.effect (grantEvent P bob rawKey)).Admissible
      ((P.effect (declareEvent P bob)).apply s.proj) := grant_admissible rawKey hkeys
  have h₂ : P.run Store.empty ((ops ++ [.ingest (bob.verifyingKey P) (declareEvent P bob) 5])
      ++ [.ingest (bob.verifyingKey P) (grantEvent P bob rawKey) 5]) = grantedStore P bob rawKey s :=
    run_ingest hJ hinj _ h₁ (by simpa [appendRow] using hroom) hbob trivial
      (nextOf_appendRow_self _ _ _) (grant_isSome rawKey) hadm
  rw [List.append_assoc] at h₂
  exact h₂

theorem run_grantOps (hJ : JsonLaws P) (hinj : Function.Injective P.blake3)
    (hbob : SignsCorrectly P bob) :
    findActiveKey (P.run Store.empty (grantOps P bob rawKey)).proj (P.blake3 (utf8 rawKey))
        = some ⟨declaredActor P bob, [.admin]⟩ ∧
      ∀ row ∈ (P.run Store.empty (grantOps P bob rawKey)).events,
        row.originPeerId = bob.peerId P := by
  have hrun : P.run Store.empty ([] ++ grantOps P bob rawKey) = grantedStore P bob rawKey .empty :=
    run_grant rawKey hJ hinj hbob rfl (by simp [Store.empty, maxRows]) rfl (by simp [Store.empty,
      Projection.empty])
  rw [List.nil_append] at hrun
  rw [hrun]
  constructor
  · simp only [grantedStore, appendRow, effect_grant, declare_effect]
    simp [findActiveKey, Effect.apply, Store.empty, Projection.empty, Permission.parse]
  · intro row hrow
    simp only [grantedStore, appendRow, Store.empty, List.nil_append, List.cons_append, List.mem_cons,
      List.not_mem_nil, or_false] at hrow
    rcases hrow with rfl | rfl <;> rfl

end grant

/-- A run with a key of the peer itself and a foreign declaration. -/
theorem key_authority_own_key :
    KeyAuthority idealOpen peerA [.commit peerA declarePayload 1,
      .commit peerA (grantPayload idealOpen peerA "oagk_0a") 2,
      .ingest (peerB.verifyingKey idealOpen) (declareEvent idealOpen peerB) 5] := by
  refine key_authority idealOpen idealOpen_laws idealOpen_injective peerA _ ?_ ?_
  · intro identity payload createdAt hop
    simp only [List.mem_cons, Op.commit.injEq, List.not_mem_nil, reduceCtorEq, or_false] at hop
    rcases hop with ⟨rfl, -⟩ | ⟨rfl, -⟩ <;> rfl
  · intro key signed receivedAt hop _
    simp only [List.mem_cons, Op.ingest.injEq, List.not_mem_nil, reduceCtorEq, or_false,
      false_or] at hop
    obtain ⟨-, rfl, -⟩ := hop
    rfl

/-- Peer A commits nothing and is offered two events of peer B; the second
    lets B's client in as an administrator, and no event of A is stored. -/
theorem foreign_admin_key :
    OwnCommits peerA (grantOps idealOpen peerB "oagk_0b") ∧
    idealOpen.authenticate (idealOpen.run Store.empty (grantOps idealOpen peerB "oagk_0b")) "oagk_0b"
      = .ok ⟨declaredActor idealOpen peerB, [.admin]⟩ ∧
    ∀ row ∈ (idealOpen.run Store.empty (grantOps idealOpen peerB "oagk_0b")).events,
      row.originPeerId ≠ peerA.peerId idealOpen := by
  obtain ⟨hkey, horigin⟩ := run_grantOps "oagk_0b" idealOpen_laws idealOpen_injective
    (idealOpen_signsCorrectly peerB)
  refine ⟨?_, ?_, ?_⟩
  · intro identity payload createdAt hop
    simp [grantOps] at hop
  · rw [Prims.authenticate, hkey]
  · intro row hrow
    rw [horigin row hrow]
    exact peerA_ne_peerB.symm

end OpenAgentGraph
