/-
  Revocation of API keys.

  On one peer a revocation is final: a key hash has at most one row, and a row
  that is revoked stays (`Appended.revoked_stays`).  Between peers it is not: a
  revocation that arrives before the key it names does nothing, so two peers
  that hold the same events may differ.
-/
import OpenAgentGraph.Proof.Converge
import OpenAgentGraph.Proof.Keys

namespace OpenAgentGraph

open Lib Repo

variable {H : Type} {P : Prims H}

/-! ## The keys of one event -/

/-- An event adds one key at most, and never adds and revokes. -/
theorem effectOf_keys {eventId : H} {createdAt : Int64} {p : EventPayload} {e : Effect H}
    (h : P.effectOf eventId createdAt p = some e) :
    (∃ r, e.actorKeys = [r] ∧ e.revoked = [] ∧ r.revokedAt = none) ∨
      (e.actorKeys = [] ∧ ∃ k t, e.revoked = [(k, t)]) ∨ (e.actorKeys = [] ∧ e.revoked = []) := by
  cases p <;>
    simp only [Prims.effectOf, Prims.relationEffect, Prims.evidenceEffect, Prims.verifyEffect,
      Prims.disputeEffect, Prims.retractEffect, Prims.supersedeEffect, Prims.actorEffect,
      Prims.keyAddEffect, Prims.keyRevokeEffect, Prims.aliasEffect, option_bind_some,
      option_pure_some] at h
  all_goals
    obtain ⟨_, -, _, -, _, -, rfl⟩ := h
    simp

variable [DecidableEq H]

/-! ## One row for a key -/

theorem map_keyHash_revokeRows (l : List (H × Int64)) (t : List (ActorKeyRow H)) :
    (l.foldl revokeRow t).map ActorKeyRow.keyHash = t.map ActorKeyRow.keyHash := by
  induction l generalizing t with
  | nil => rfl
  | cons k l ih =>
    rw [List.foldl_cons, ih]
    exact Table.map_updateWhere fun _ _ => rfl

/-- No two rows have the same key hash. -/
def UniqueKeys (g : Projection H) : Prop := (g.actorKeys.map ActorKeyRow.keyHash).Nodup

theorem Built.uniqueKeys {rows : List (EventRow H)} {g : Projection H} (h : Built P rows g) :
    UniqueKeys g := by
  induction h with
  | nil => exact List.nodup_nil
  | @snoc rows g row e _ heff hadm ih =>
    obtain ⟨p, -, heff⟩ := rowEffect_some heff
    have hmap : (e.apply g).actorKeys.map ActorKeyRow.keyHash
        = (g.actorKeys ++ e.actorKeys).map ActorKeyRow.keyHash := map_keyHash_revokeRows _ _
    unfold UniqueKeys
    rw [hmap, List.map_append, List.nodup_append]
    refine ⟨ih, ?_, ?_⟩
    · rcases effectOf_keys heff with ⟨r, hr, -⟩ | ⟨hr, -⟩ | ⟨hr, -⟩
      · rw [hr]; exact List.nodup_singleton _
      · rw [hr]; exact List.nodup_nil
      · rw [hr]; exact List.nodup_nil
    · intro k hk k' hk' heq
      obtain ⟨y, hy, rfl⟩ := List.mem_map.1 hk
      obtain ⟨r, hr, rfl⟩ := List.mem_map.1 hk'
      exact hadm.actorKeys r hr y hy heq

theorem ReplayInv.uniqueKeys {s : Store H} (h : ReplayInv P s) : UniqueKeys s.proj := by
  obtain ⟨g, hbuilt, -, hproj⟩ := h.built
  have hkeys : s.proj.actorKeys = g.actorKeys := by rw [hproj, redactAll_eq]
  unfold UniqueKeys
  rw [hkeys]
  exact hbuilt.uniqueKeys

omit [DecidableEq H] in
theorem UniqueKeys.eq_of_keyHash {g : Projection H} (h : UniqueKeys g) {r r' : ActorKeyRow H}
    (hr : r ∈ g.actorKeys) (hr' : r' ∈ g.actorKeys) (heq : r.keyHash = r'.keyHash) : r = r' :=
  List.inj_on_of_nodup_map h hr hr' heq

/-! ## A revoked row -/

/-- The key has a row that is revoked. -/
def IsRevoked (g : Projection H) (keyHash : H) : Prop :=
  ∃ r ∈ g.actorKeys, r.keyHash = keyHash ∧ r.revokedAt ≠ none

/-- The `WHERE` clause passes over a row that is revoked already. -/
theorem mem_revokeRows_of_revoked {l : List (H × Int64)} {t : List (ActorKeyRow H)}
    {r : ActorKeyRow H} (h : r ∈ t) (hrev : r.revokedAt ≠ none) : r ∈ l.foldl revokeRow t := by
  induction l generalizing t with
  | nil => exact h
  | cons k l ih =>
    refine ih (Table.mem_updateWhere.2 ⟨r, h, ?_⟩)
    have hsome : r.revokedAt.isNone = false := by
      cases hat : r.revokedAt with
      | none => exact absurd hat hrev
      | some t => rfl
    simp [hsome]

theorem Appended.revoked_stays (hJ : JsonLaws P) {s s' : Store H} {row : EventRow H}
    {signed : SignedEvent} (h : Appended P s s' row signed) {k : H} (hk : IsRevoked s.proj k) :
    IsRevoked s'.proj k := by
  obtain ⟨e, -, -, -, hproj⟩ := h.effect hJ
  obtain ⟨r, hr, hrk, hrev⟩ := hk
  refine ⟨r, ?_, hrk, hrev⟩
  rw [hproj]
  exact mem_revokeRows_of_revoked (List.mem_append_left _ hr) hrev

/-- One operation, failed or not. -/
theorem step_revoked (hJ : JsonLaws P) (hinj : Function.Injective P.blake3) {s : Store H}
    (hlog : LogInv P s) (hrep : ReplayInv P s) (op : Op P) {k : H} (hk : IsRevoked s.proj k) :
    IsRevoked (P.step s op).proj k := by
  unfold Prims.step
  cases hexec : P.exec s op with
  | none => exact hk
  | some s' =>
    rcases (exec_logStep hJ hinj hlog.stored hexec).offer_cases hrep with
      ⟨row, signed, happ, -⟩ | ⟨-, hkeys⟩
    · exact happ.revoked_stays hJ hk
    · obtain ⟨r, hr, hrk⟩ := hk
      exact ⟨r, hkeys.symm ▸ hr, hrk⟩

theorem run_revoked (hJ : JsonLaws P) (hinj : Function.Injective P.blake3) (ops ops' : List (Op P))
    {k : H} (hk : IsRevoked (P.run Store.empty ops).proj k) :
    IsRevoked (P.run Store.empty (ops ++ ops')).proj k := by
  induction ops' using List.reverseRecOn with
  | nil => rwa [List.append_nil]
  | append_singleton ops' op ih =>
    rw [← List.append_assoc, Prims.run_append]
    exact step_revoked hJ hinj (logInv_run hJ hinj _) (replayInv_run hJ hinj _) op ih

/-- **Revocation is permanent.**  Once a key has a revoked row, no later
    operation makes it active again. -/
theorem revocation_permanent (P : Prims H) (hJ : JsonLaws P) (hinj : Function.Injective P.blake3)
    (ops ops' : List (Op P)) (k : H) (hk : IsRevoked (P.run Store.empty ops).proj k) :
    findActiveKey (P.run Store.empty (ops ++ ops')).proj k = none := by
  obtain ⟨r, hr, hrk, hrev⟩ := run_revoked hJ hinj ops ops' hk
  cases hf : findActiveKey (P.run Store.empty (ops ++ ops')).proj k with
  | none => rfl
  | some a =>
    obtain ⟨r', hr', hrk', hnone, -⟩ := findActiveKey_eq_some hf
    have heq := (replayInv_run hJ hinj (ops ++ ops')).uniqueKeys.eq_of_keyHash hr hr'
      (hrk.trans hrk'.symm)
    exact absurd (heq ▸ hnone) hrev

/-! ## Additions and revocations in a log -/

/-- The stored event adds the key. -/
def AddsHash (P : Prims H) (row : EventRow H) (keyHash : H) : Prop :=
  ∃ q, P.rowPayload row = some (.actorKeyAdd q) ∧ P.parseKeyHash q.keyHash = .ok keyHash

/-- The stored event revokes the key. -/
def RevokesHash (P : Prims H) (row : EventRow H) (keyHash : H) : Prop :=
  ∃ q, P.rowPayload row = some (.actorKeyRevoke q) ∧ P.parseKeyHash q.keyHash = .ok keyHash

/-- A revocation of the key stands after its addition. -/
def RevokedAfter (P : Prims H) (rows : List (EventRow H)) (keyHash : H) : Prop :=
  ∃ l₁ l₂, rows = l₁ ++ l₂ ∧ (∃ row ∈ l₁, AddsHash P row keyHash) ∧
    ∃ row ∈ l₂, RevokesHash P row keyHash

omit [DecidableEq H] in
theorem addsHash_iff {row : EventRow H} {e : Effect H} (h : P.rowEffect row = some e) (k : H) :
    AddsHash P row k ↔ ∃ r ∈ e.actorKeys, r.keyHash = k := by
  obtain ⟨p, hp, heff⟩ := rowEffect_some h
  constructor
  · rintro ⟨q, hq, hk⟩
    obtain rfl : p = .actorKeyAdd q := Option.some.inj (hp.symm.trans hq)
    simp only [Prims.effectOf, Prims.keyAddEffect, option_bind_some, option_pure_some] at heff
    obtain ⟨actorId, -, k', hk', rfl⟩ := heff
    rw [toOption_eq_some, hk] at hk'
    cases hk'
    exact ⟨_, List.mem_singleton.2 rfl, rfl⟩
  · rintro ⟨r, hr, rfl⟩
    obtain ⟨q, rfl, hk, -⟩ := (effectOf_spec heff).actorKeys r hr
    exact ⟨q, hp, hk⟩

omit [DecidableEq H] in
theorem revokesHash_iff {row : EventRow H} {e : Effect H} (h : P.rowEffect row = some e) (k : H) :
    RevokesHash P row k ↔ ∃ c ∈ e.revoked, c.1 = k := by
  obtain ⟨p, hp, heff⟩ := rowEffect_some h
  constructor
  · rintro ⟨q, hq, hk⟩
    obtain rfl : p = .actorKeyRevoke q := Option.some.inj (hp.symm.trans hq)
    simp only [Prims.effectOf, Prims.keyRevokeEffect, option_bind_some, option_pure_some] at heff
    obtain ⟨k', hk', rfl⟩ := heff
    rw [toOption_eq_some, hk] at hk'
    cases hk'
    exact ⟨_, List.mem_singleton.2 rfl, rfl⟩
  · rintro ⟨c, hc, rfl⟩
    obtain ⟨q, rfl, hk⟩ := (effectOf_spec heff).revoked c hc
    exact ⟨q, hp, hk⟩

omit [DecidableEq H] in
theorem revokedAfter_snoc {rows : List (EventRow H)} {row : EventRow H} {k : H} :
    RevokedAfter P (rows ++ [row]) k ↔
      RevokedAfter P rows k ∨ ((∃ r ∈ rows, AddsHash P r k) ∧ RevokesHash P row k) := by
  constructor
  · rintro ⟨l₁, l₂, hsplit, ⟨a, ha, hadd⟩, r, hr, hrev⟩
    obtain rfl | ⟨l, x, rfl⟩ := List.eq_nil_or_concat l₂
    · cases hr
    · rw [List.concat_eq_append] at hsplit hr
      rw [← List.append_assoc] at hsplit
      obtain ⟨rfl, hx⟩ := List.append_inj' hsplit rfl
      obtain rfl : row = x := by simpa using hx
      rcases List.mem_append.1 hr with hr | hr
      · exact Or.inl ⟨l₁, l, rfl, ⟨a, ha, hadd⟩, r, hr, hrev⟩
      · obtain rfl : r = row := by simpa using hr
        exact Or.inr ⟨⟨a, List.mem_append_left _ ha, hadd⟩, hrev⟩
  · rintro (⟨l₁, l₂, rfl, hadd, r, hr, hrev⟩ | ⟨hadd, hrev⟩)
    · exact ⟨l₁, l₂ ++ [row], by simp, hadd, r, List.mem_append_left _ hr, hrev⟩
    · exact ⟨rows, [row], rfl, hadd, row, by simp, hrev⟩

/-- What a key row says but for its revocation. -/
def ActorKeyRow.grant (r : ActorKeyRow H) : H × H × List String := (r.keyHash, r.actorId, r.permissions)

theorem map_grant_revokeRows (l : List (H × Int64)) (t : List (ActorKeyRow H)) :
    (l.foldl revokeRow t).map ActorKeyRow.grant = t.map ActorKeyRow.grant := by
  induction l generalizing t with
  | nil => rfl
  | cons k l ih =>
    rw [List.foldl_cons, ih]
    exact Table.map_updateWhere fun _ _ => rfl

theorem Built.mem_grants {rows : List (EventRow H)} {g : Projection H} (h : Built P rows g)
    (v : H × H × List String) : v ∈ g.actorKeys.map ActorKeyRow.grant ↔
      ∃ e, Emits P rows e ∧ v ∈ e.actorKeys.map ActorKeyRow.grant := by
  refine (h.mem_view Projection.actorKeys Effect.actorKeys ActorKeyRow.grant (fun _ => True) rfl
    (fun _ _ _ _ _ => trivial) fun e g _ _ => ⟨fun v => ?_, fun _ _ => trivial⟩).2 v
  have hmap : (e.apply g).actorKeys.map ActorKeyRow.grant
      = g.actorKeys.map ActorKeyRow.grant ++ e.actorKeys.map ActorKeyRow.grant := by
    rw [← List.map_append]
    exact map_grant_revokeRows _ _
  rw [hmap, List.mem_append]

/-- A key has a row exactly if the log adds it. -/
theorem Built.hasKeyRow_iff {rows : List (EventRow H)} {g : Projection H} (h : Built P rows g)
    (k : H) : (∃ r ∈ g.actorKeys, r.keyHash = k) ↔ ∃ row ∈ rows, AddsHash P row k := by
  constructor
  · rintro ⟨r, hr, rfl⟩
    obtain ⟨e, ⟨row, hrow, heff⟩, he⟩ := (h.mem_grants r.grant).1 (List.mem_map_of_mem hr)
    obtain ⟨r', hr', hgrant⟩ := List.mem_map.1 he
    exact ⟨row, hrow, (addsHash_iff heff _).2 ⟨r', hr', congrArg Prod.fst hgrant⟩⟩
  · rintro ⟨row, hrow, hadd⟩
    obtain ⟨e, heff⟩ := h.effect hrow
    obtain ⟨r, hr, rfl⟩ := (addsHash_iff heff k).1 hadd
    obtain ⟨r', hr', hgrant⟩ := List.mem_map.1
      ((h.mem_grants r.grant).2 ⟨e, ⟨row, hrow, heff⟩, List.mem_map_of_mem hr⟩)
    exact ⟨r', hr', congrArg Prod.fst hgrant⟩

/-- **A key is active** if the log adds it and does not revoke it afterwards. -/
theorem Built.active_key_iff {rows : List (EventRow H)} {g : Projection H} (h : Built P rows g)
    (k : H) : (∃ r ∈ g.actorKeys, r.keyHash = k ∧ r.revokedAt = none) ↔
      (∃ row ∈ rows, AddsHash P row k) ∧ ¬ RevokedAfter P rows k := by
  induction h with
  | nil => simp [Projection.empty]
  | @snoc rows g row e hb heff hadm ih =>
    have hrows : (∃ r ∈ rows ++ [row], AddsHash P r k) ↔
        (∃ r ∈ rows, AddsHash P r k) ∨ AddsHash P row k := by
      simp [or_and_right, exists_or]
    rw [hrows, revokedAfter_snoc, addsHash_iff heff, revokesHash_iff heff]
    obtain ⟨p, -, heff'⟩ := rowEffect_some heff
    rcases effectOf_keys heff' with ⟨r, hr, hno, hnone⟩ | ⟨hr, c, t, hc⟩ | ⟨hr, hno⟩
    · -- the key of an addition is new, so no event of the log has added it
      have hfresh : r.keyHash = k → ¬ ∃ row ∈ rows, AddsHash P row k := by
        rintro rfl hadd
        obtain ⟨y, hy, hyk⟩ := (hb.hasKeyRow_iff _).2 hadd
        exact hadm.actorKeys r (by simp [hr]) y hy hyk
      have hadded : RevokedAfter P rows k → ∃ row ∈ rows, AddsHash P row k := by
        rintro ⟨l₁, l₂, rfl, ⟨a, ha, hadd⟩, -⟩
        exact ⟨a, List.mem_append_left _ ha, hadd⟩
      have happ : (e.apply g).actorKeys = g.actorKeys ++ [r] := by simp [Effect.apply, hr, hno]
      have hlhs : (∃ y ∈ (e.apply g).actorKeys, y.keyHash = k ∧ y.revokedAt = none) ↔
          (∃ y ∈ g.actorKeys, y.keyHash = k ∧ y.revokedAt = none) ∨ r.keyHash = k := by
        simp [happ, or_and_right, exists_or, hnone]
      rw [hlhs, ih]
      simp only [hr, hno, List.mem_singleton, exists_eq_left, List.not_mem_nil, false_and,
        exists_false, and_false, or_false]
      constructor
      · rintro (⟨hadd, hrev⟩ | hk)
        · exact ⟨Or.inl hadd, hrev⟩
        · exact ⟨Or.inr hk, fun hrev => hfresh hk (hadded hrev)⟩
      · rintro ⟨hadd | hk, hrev⟩
        · exact Or.inl ⟨hadd, hrev⟩
        · exact Or.inr hk
    · have happ : (e.apply g).actorKeys = revokeRow g.actorKeys (c, t) := by
        simp [Effect.apply, hr, hc]
      have hlhs : (∃ y ∈ (e.apply g).actorKeys, y.keyHash = k ∧ y.revokedAt = none) ↔
          (∃ y ∈ g.actorKeys, y.keyHash = k ∧ y.revokedAt = none) ∧ c ≠ k := by
        rw [happ]
        constructor
        · rintro ⟨y, hy, rfl, hnone⟩
          obtain ⟨z, hz, rfl⟩ := Table.mem_updateWhere.1 hy
          by_cases hcond : (decide (z.keyHash = c) && z.revokedAt.isNone) = true
          · rw [if_pos hcond] at hnone
            cases hnone
          · rw [if_neg hcond] at hnone ⊢
            refine ⟨⟨z, hz, rfl, hnone⟩, ?_⟩
            rintro rfl
            simp [hnone] at hcond
        · rintro ⟨⟨y, hy, rfl, hnone⟩, hne⟩
          refine ⟨y, Table.mem_updateWhere.2 ⟨y, hy, ?_⟩, rfl, hnone⟩
          simp [Ne.symm hne]
      rw [hlhs, ih]
      simp only [hr, hc, List.mem_singleton, exists_eq_left, List.not_mem_nil, false_and,
        exists_false, or_false]
      constructor
      · rintro ⟨⟨hadd, hrev⟩, hne⟩
        exact ⟨hadd, fun h => h.elim hrev fun h => hne h.2⟩
      · rintro ⟨hadd, hrev⟩
        exact ⟨⟨hadd, fun h => hrev (Or.inl h)⟩, fun h => hrev (Or.inr ⟨hadd, h⟩)⟩
    · have happ : (e.apply g).actorKeys = g.actorKeys := by simp [Effect.apply, hr, hno]
      rw [happ, ih]
      simp [hr, hno]

/-! ## Two peers with the same events -/

theorem ReplayInv.active_key_iff {s : Store H} (h : ReplayInv P s) (k : H) :
    (∃ a, findActiveKey s.proj k = some a) ↔
      (∃ row ∈ s.events, AddsHash P row k) ∧ ¬ RevokedAfter P s.events k := by
  obtain ⟨g, hbuilt, -, hproj⟩ := h.built
  have hkeys : s.proj.actorKeys = g.actorKeys := by rw [hproj, redactAll_eq]
  rw [← hbuilt.active_key_iff, ← hkeys]
  constructor
  · rintro ⟨a, ha⟩
    obtain ⟨r, hr, hrk, hnone, -⟩ := findActiveKey_eq_some ha
    exact ⟨r, hr, hrk, hnone⟩
  · rintro ⟨r, hr, hrk, hnone⟩
    by_contra hno
    have hfind : findActiveKey s.proj k = none := by
      cases hf : findActiveKey s.proj k with
      | none => rfl
      | some a => exact absurd ⟨a, hf⟩ hno
    exact findActiveKey_eq_none hfind r hr ⟨hrk, hnone⟩

theorem ReplayInv.mem_grants {s : Store H} (h : ReplayInv P s) (v : H × H × List String) :
    v ∈ s.proj.actorKeys.map ActorKeyRow.grant ↔
      ∃ e, Emits P s.events e ∧ v ∈ e.actorKeys.map ActorKeyRow.grant := by
  obtain ⟨g, hbuilt, -, hproj⟩ := h.built
  have hkeys : s.proj.actorKeys = g.actorKeys := by rw [hproj, redactAll_eq]
  rw [hkeys]
  exact hbuilt.mem_grants v

omit [DecidableEq H] in
theorem addsHash_of_same (hJ : JsonLaws P) (hinj : Function.Injective P.blake3) {s s' : Store H}
    (hs : LogStored P s) (hs' : LogStored P s') (h : SameEvents s s') {k : H}
    (hadd : ∃ row ∈ s.events, AddsHash P row k) : ∃ row ∈ s'.events, AddsHash P row k := by
  obtain ⟨row, hrow, q, hq, hk⟩ := hadd
  obtain ⟨row', hrow', hid⟩ := (h row.eventId).1 ⟨row, hrow, rfl⟩
  obtain ⟨signed, hst⟩ := hs row hrow
  obtain ⟨signed', hst'⟩ := hs' row' hrow'
  have heq := hst.eq_of_eventId hJ hinj hst' hid.symm
  refine ⟨row', hrow', q, ?_, hk⟩
  rw [heq]
  exact hq

/-- A key that is active on both peers is the same key. -/
theorem active_key_eq (hJ : JsonLaws P) (hinj : Function.Injective P.blake3) {s s' : Store H}
    (hs : LogStored P s) (hs' : LogStored P s') (hrep : ReplayInv P s) (hrep' : ReplayInv P s')
    (h : SameEvents s s') {k : H} {a a' : AuthenticatedKey H}
    (ha : findActiveKey s.proj k = some a) (ha' : findActiveKey s'.proj k = some a') : a = a' := by
  obtain ⟨r, hr, hrk, -, rfl⟩ := findActiveKey_eq_some ha
  obtain ⟨r', hr', hrk', -, rfl⟩ := findActiveKey_eq_some ha'
  obtain ⟨e, hemit, he⟩ := (hrep.mem_grants r.grant).1 (List.mem_map_of_mem hr)
  obtain ⟨y, hy, hgrant⟩ := List.mem_map.1
    ((hrep'.mem_grants r.grant).2 ⟨e, emits_of_same hJ hinj hs hs' h hemit, he⟩)
  have hyk : y.keyHash = r.keyHash := congrArg Prod.fst hgrant
  obtain rfl : y = r' := hrep'.uniqueKeys.eq_of_keyHash hy hr' (hyk.trans (hrk.trans hrk'.symm))
  have hactor : y.actorId = r.actorId := congrArg (fun v => v.2.1) hgrant
  have hperms : y.permissions = r.permissions := congrArg (fun v => v.2.2) hgrant
  rw [hactor, hperms]

/-- **When active keys converge.**  Two peers that hold the same events agree
    on the active keys exactly if they agree, for every key, whether a
    revocation arrived after the addition. -/
theorem active_keys_converge_iff (P : Prims H) (hJ : JsonLaws P)
    (hinj : Function.Injective P.blake3) (ops ops' : List (Op P))
    (hsame : SameEvents (P.run Store.empty ops) (P.run Store.empty ops')) :
    (∀ k, findActiveKey (P.run Store.empty ops).proj k
      = findActiveKey (P.run Store.empty ops').proj k) ↔
    ∀ k, RevokedAfter P (P.run Store.empty ops).events k ↔
      RevokedAfter P (P.run Store.empty ops').events k := by
  have hs := (logInv_run hJ hinj ops).stored
  have hs' := (logInv_run hJ hinj ops').stored
  have hrep := replayInv_run hJ hinj ops
  have hrep' := replayInv_run hJ hinj ops'
  generalize P.run Store.empty ops = s at *
  generalize P.run Store.empty ops' = s' at *
  have hadds : ∀ k, (∃ row ∈ s.events, AddsHash P row k) ↔ ∃ row ∈ s'.events, AddsHash P row k :=
    fun k => ⟨addsHash_of_same hJ hinj hs hs' hsame, addsHash_of_same hJ hinj hs' hs hsame.symm⟩
  have hadded : ∀ {rows : List (EventRow H)} {k : H}, RevokedAfter P rows k →
      ∃ row ∈ rows, AddsHash P row k := by
    rintro rows k ⟨l₁, l₂, rfl, ⟨a, ha, hadd⟩, -⟩
    exact ⟨a, List.mem_append_left _ ha, hadd⟩
  refine forall_congr' fun k => ?_
  constructor
  · intro heq
    have hboth : (∃ a, findActiveKey s.proj k = some a) ↔ ∃ a, findActiveKey s'.proj k = some a := by
      rw [heq]
    rw [hrep.active_key_iff, hrep'.active_key_iff, hadds k] at hboth
    constructor
    · intro hrev
      by_contra hno
      exact (hboth.2 ⟨(hadds k).1 (hadded hrev), hno⟩).2 hrev
    · intro hrev
      by_contra hno
      exact (hboth.1 ⟨hadded hrev, hno⟩).2 hrev
  · intro hrev
    have hboth : (∃ a, findActiveKey s.proj k = some a) ↔ ∃ a, findActiveKey s'.proj k = some a := by
      rw [hrep.active_key_iff, hrep'.active_key_iff, hadds k, hrev]
    cases ha : findActiveKey s.proj k with
    | some a =>
      obtain ⟨a', ha'⟩ := hboth.1 ⟨a, ha⟩
      rw [ha', active_key_eq hJ hinj hs hs' hrep hrep' hsame ha ha']
    | none =>
      cases ha' : findActiveKey s'.proj k with
      | none => rfl
      | some a' =>
        obtain ⟨a, h⟩ := hboth.2 ⟨a', ha'⟩
        rw [ha] at h
        cases h

/-! ## A revocation that overtakes the key it names -/

section withdraw

variable (P : Prims H) (bob carol : Prims.PeerIdentity) (rawKey : String)

/-- Carol revokes the key that Bob added. -/
def withdrawPayload : EventPayload :=
  .actorKeyRevoke ⟨P.toHex (declaredActor P bob), P.toHex (P.blake3 (utf8 rawKey))⟩

def withdrawEvent : SignedEvent := P.eventOf carol 1 none 3 (withdrawPayload P bob rawKey)

def withdrawOps : List (Op P) :=
  [.ingest (carol.verifyingKey P) (withdrawEvent P bob carol rawKey) 5]

omit [DecidableEq H] in
theorem withdraw_effect : P.effectOf (P.idOf (withdrawEvent P bob carol rawKey)) 3
    (withdrawPayload P bob rawKey) = some { revoked := [(P.blake3 (utf8 rawKey), 3)] } := by
  simp only [Prims.effectOf, withdrawPayload, Prims.keyRevokeEffect, parseKeyHash_toHex,
    Except.toOption]
  rfl

omit [DecidableEq H] in
theorem effect_withdraw : P.effect (withdrawEvent P bob carol rawKey)
    = { revoked := [(P.blake3 (utf8 rawKey), 3)] } :=
  congrArg (fun o => o.getD {}) (withdraw_effect P bob carol rawKey)

/-- Carol's event, after what is stored already. -/
def withdrawnStore (s : Store H) : Store H :=
  appendRow s (P.rowOf (withdrawEvent P bob carol rawKey) (carol.peerId P) none 5)
    (P.effect (withdrawEvent P bob carol rawKey))

variable {P bob carol}

theorem run_withdraw (hJ : JsonLaws P) (hinj : Function.Injective P.blake3)
    (hcarol : SignsCorrectly P carol) {ops : List (Op P)} {s : Store H}
    (hs : P.run Store.empty ops = s) (hroom : s.events.length < maxRows)
    (hnext : Prims.nextOf (getOrigin s.eventOrigins (carol.peerId P)) = (1, none)) :
    P.run Store.empty (ops ++ withdrawOps P bob carol rawKey)
      = withdrawnStore P bob carol rawKey s := by
  have hsome : (P.effectOf (P.idOf (withdrawEvent P bob carol rawKey)) 3
      (withdrawPayload P bob rawKey)).isSome = true := by
    rw [withdraw_effect]
    rfl
  have hadm : (P.effect (withdrawEvent P bob carol rawKey)).Admissible s.proj := by
    rw [effect_withdraw]
    constructor <;> simp
  exact run_ingest hJ hinj ops hs hroom hcarol trivial hnext hsome hadm

theorem run_late (hJ : JsonLaws P) (hinj : Function.Injective P.blake3)
    (hne : bob.peerId P ≠ carol.peerId P) (hbob : SignsCorrectly P bob)
    (hcarol : SignsCorrectly P carol) :
    P.run Store.empty (grantOps P bob rawKey ++ withdrawOps P bob carol rawKey)
      = withdrawnStore P bob carol rawKey (grantedStore P bob rawKey .empty) := by
  have hgrant : P.run Store.empty ([] ++ grantOps P bob rawKey) = grantedStore P bob rawKey .empty :=
    run_grant rawKey hJ hinj hbob rfl (by simp [Store.empty, maxRows]) rfl
      (by simp [Store.empty, Projection.empty])
  refine run_withdraw rawKey hJ hinj hcarol hgrant ?_ ?_
  · simp [grantedStore, appendRow, Store.empty, maxRows]
  · rw [grantedStore, nextOf_appendRow_ne hne, nextOf_appendRow_ne hne]
    rfl

theorem run_early (hJ : JsonLaws P) (hinj : Function.Injective P.blake3)
    (hne : bob.peerId P ≠ carol.peerId P) (hbob : SignsCorrectly P bob)
    (hcarol : SignsCorrectly P carol) :
    P.run Store.empty (withdrawOps P bob carol rawKey ++ grantOps P bob rawKey)
      = grantedStore P bob rawKey (withdrawnStore P bob carol rawKey .empty) := by
  have hwithdraw : P.run Store.empty ([] ++ withdrawOps P bob carol rawKey)
      = withdrawnStore P bob carol rawKey .empty :=
    run_withdraw rawKey hJ hinj hcarol rfl (by simp [Store.empty, maxRows]) rfl
  refine run_grant rawKey hJ hinj hbob hwithdraw ?_ ?_ ?_
  · simp [withdrawnStore, appendRow, Store.empty, maxRows]
  · rw [withdrawnStore, nextOf_appendRow_ne hne.symm]
    rfl
  · intro y hy
    simp [withdrawnStore, appendRow, effect_withdraw, Effect.apply, Store.empty, Projection.empty,
      revokeRow, Table.updateWhere] at hy

/-- The key's row, where the revocation came last and where it came first. -/
theorem late_keys : (withdrawnStore P bob carol rawKey (grantedStore P bob rawKey .empty)).proj.actorKeys
    = [⟨P.blake3 (utf8 rawKey), declaredActor P bob, ["admin"], 2, some 3⟩] := by
  simp [withdrawnStore, grantedStore, appendRow, effect_withdraw, effect_grant, declare_effect,
    Effect.apply, Store.empty, Projection.empty, revokeRow, Table.updateWhere]

theorem early_keys : (grantedStore P bob rawKey (withdrawnStore P bob carol rawKey .empty)).proj.actorKeys
    = [⟨P.blake3 (utf8 rawKey), declaredActor P bob, ["admin"], 2, none⟩] := by
  simp [withdrawnStore, grantedStore, appendRow, effect_withdraw, effect_grant, declare_effect,
    Effect.apply, Store.empty, Projection.empty, revokeRow, Table.updateWhere]

theorem withdraw_sameEvents :
    SameEvents (withdrawnStore P bob carol rawKey (grantedStore P bob rawKey .empty))
      (grantedStore P bob rawKey (withdrawnStore P bob carol rawKey .empty)) := by
  intro id
  simp only [withdrawnStore, grantedStore, appendRow, Store.empty, List.nil_append, List.cons_append,
    List.mem_cons, List.not_mem_nil, or_false]
  constructor
  · rintro ⟨r, h₁ | h₂ | h₃, hid⟩
    · exact ⟨r, Or.inr (Or.inl h₁), hid⟩
    · exact ⟨r, Or.inr (Or.inr h₂), hid⟩
    · exact ⟨r, Or.inl h₃, hid⟩
  · rintro ⟨r, h₃ | h₁ | h₂, hid⟩
    · exact ⟨r, Or.inr (Or.inr h₃), hid⟩
    · exact ⟨r, Or.inl h₁, hid⟩
    · exact ⟨r, Or.inr (Or.inl h₂), hid⟩

end withdraw

/-- The two orders in which a peer may receive Bob's key and Carol's revocation. -/
noncomputable def lateOps : List (Op idealOpen) :=
  grantOps idealOpen peerB "oagk_0b" ++ withdrawOps idealOpen peerB peerC "oagk_0b"

noncomputable def earlyOps : List (Op idealOpen) :=
  withdrawOps idealOpen peerB peerC "oagk_0b" ++ grantOps idealOpen peerB "oagk_0b"

theorem run_lateOps : idealOpen.run Store.empty lateOps
    = withdrawnStore idealOpen peerB peerC "oagk_0b" (grantedStore idealOpen peerB "oagk_0b" .empty) :=
  run_late "oagk_0b" idealOpen_laws idealOpen_injective peerB_ne_peerC
    (idealOpen_signsCorrectly peerB) (idealOpen_signsCorrectly peerC)

theorem run_earlyOps : idealOpen.run Store.empty earlyOps
    = grantedStore idealOpen peerB "oagk_0b" (withdrawnStore idealOpen peerB peerC "oagk_0b" .empty) :=
  run_early "oagk_0b" idealOpen_laws idealOpen_injective peerB_ne_peerC
    (idealOpen_signsCorrectly peerB) (idealOpen_signsCorrectly peerC)

theorem late_revoked :
    IsRevoked (idealOpen.run Store.empty lateOps).proj (idealOpen.blake3 (utf8 "oagk_0b")) := by
  rw [run_lateOps, IsRevoked, late_keys]
  exact ⟨_, List.mem_singleton.2 rfl, rfl, by simp⟩

/-- The key is added once more, and the projection rebuilt. -/
theorem revocation_permanent_added_again :
    findActiveKey (idealOpen.run Store.empty (lateOps ++
      [.commit peerC (grantPayload idealOpen peerB "oagk_0b") 9, .rebuild])).proj
      (idealOpen.blake3 (utf8 "oagk_0b")) = none :=
  revocation_permanent idealOpen idealOpen_laws idealOpen_injective lateOps _ _ late_revoked

theorem late_early_sameEvents :
    SameEvents (idealOpen.run Store.empty lateOps) (idealOpen.run Store.empty earlyOps) := by
  rw [run_lateOps, run_earlyOps]
  exact withdraw_sameEvents "oagk_0b"

theorem active_keys_converge_iff_withdrawn :
    (∀ k, findActiveKey (idealOpen.run Store.empty lateOps).proj k
      = findActiveKey (idealOpen.run Store.empty earlyOps).proj k) ↔
    ∀ k, RevokedAfter idealOpen (idealOpen.run Store.empty lateOps).events k ↔
      RevokedAfter idealOpen (idealOpen.run Store.empty earlyOps).events k :=
  active_keys_converge_iff idealOpen idealOpen_laws idealOpen_injective lateOps earlyOps
    late_early_sameEvents

/-- The peer that received the revocation first still lets the key's holder in. -/
theorem active_keys_diverge :
    SameEvents (idealOpen.run Store.empty lateOps) (idealOpen.run Store.empty earlyOps) ∧
    findActiveKey (idealOpen.run Store.empty lateOps).proj (idealOpen.blake3 (utf8 "oagk_0b")) = none ∧
    findActiveKey (idealOpen.run Store.empty earlyOps).proj (idealOpen.blake3 (utf8 "oagk_0b"))
      = some ⟨declaredActor idealOpen peerB, [.admin]⟩ := by
  refine ⟨late_early_sameEvents, ?_, ?_⟩
  · rw [run_lateOps, findActiveKey, late_keys]
    simp
  · rw [run_earlyOps, findActiveKey, early_keys]
    simp [Permission.parse]

end OpenAgentGraph
