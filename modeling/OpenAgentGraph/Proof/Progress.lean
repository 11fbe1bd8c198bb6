/-
  Progress of a pull: when one round with a peer that is ahead on an origin
  moves the head of that origin.

  Between the two peers stand three limits that do not know of each other:
  the server pages by the number of events, the client limits a response by
  its bytes and asks for the same range again, and the services limit the
  fields of one event.

  * `Pulled.rows`: what was pulled before an origin's turn.
  * `Behind.pullOrigin_iff`: the turn of the origin moves its head exactly if the
    page is small enough and the next event's key is free.
  * `progress_iff`: the same for the whole round.
-/
import OpenAgentGraph.Proof.Accept
import OpenAgentGraph.Proof.Pull
import OpenAgentGraph.Proof.Revoke

namespace OpenAgentGraph

open Lib Repo

variable {H : Type} [DecidableEq H] {P : Prims H}

/-! ## What was pulled -/

/-- A pull appends copies of rows of the remote store, each once. -/
theorem Pulled.rows {b s s' : Store H} {S : H → Prop} (h : Pulled P b S s s') :
    ∃ L, s'.events = s.events ++ L ∧ (L.map EventRow.eventId).Nodup ∧
      ∀ r ∈ L, ∃ rb ∈ b.events, S rb.originPeerId ∧ r = { rb with receivedAt := r.receivedAt } := by
  induction h with
  | refl => exact ⟨[], by simp, by simp, by simp⟩
  | @step s₁ s₂ rb t signed _ hrb hS happ ih =>
    obtain ⟨L, hL, hnd, hall⟩ := ih
    refine ⟨L ++ [{ rb with receivedAt := t }], ?_, ?_, ?_⟩
    · rw [happ.events_eq, hL, List.append_assoc]
    · rw [List.map_append]
      refine List.nodup_append.2 ⟨hnd, by simp, ?_⟩
      intro x hx y hy
      obtain ⟨r, hr, rfl⟩ := List.mem_map.1 hx
      obtain rfl := List.mem_singleton.1 hy
      exact happ.fresh r (by rw [hL]; exact List.mem_append_right _ hr)
    · intro r hr
      rcases List.mem_append.1 hr with hr | hr
      · exact hall r hr
      · obtain rfl := List.mem_singleton.1 hr
        exact ⟨rb, hrb, hS, rfl⟩

theorem Pulled.length_le {b s s' : Store H} {S : H → Prop} (h : Pulled P b S s s') :
    s'.events.length ≤ s.events.length + b.events.length := by
  obtain ⟨L, hL, hnd, hall⟩ := h.rows
  have hsub : L.map EventRow.eventId ⊆ b.events.map EventRow.eventId := by
    intro x hx
    obtain ⟨r, hr, rfl⟩ := List.mem_map.1 hx
    obtain ⟨rb, hrb, -, heq⟩ := hall r hr
    rw [heq]
    exact List.mem_map.2 ⟨rb, hrb, rfl⟩
  have hlen := (hnd.subperm hsub).length_le
  rw [List.length_map, List.length_map] at hlen
  rw [hL, List.length_append]
  omega

/-- The chain of an origin grows at its end. -/
theorem Pulled.chainOf_length_le {b s s' : Store H} {S : H → Prop} (h : Pulled P b S s s') (o : H) :
    (chainOf s o).length ≤ (chainOf s' o).length := by
  obtain ⟨L, hL, -, -⟩ := h.rows
  rw [chainOf, chainOf, hL, List.filter_append, List.length_append]
  exact Nat.le_add_right _ _

/-- An origin that is not pulled keeps its chain. -/
theorem Pulled.chainOf_eq {b s s' : Store H} {S : H → Prop} (h : Pulled P b S s s') {o : H}
    (ho : ¬ S o) : chainOf s' o = chainOf s o := by
  obtain ⟨L, hL, -, hall⟩ := h.rows
  have hnil : L.filter (fun r => decide (r.originPeerId = o)) = [] := by
    refine List.filter_eq_nil_iff.2 fun r hr => ?_
    obtain ⟨rb, -, hS, heq⟩ := hall r hr
    rw [heq]
    simp only [decide_eq_true_eq]
    rintro rfl
    exact ho hS
  rw [chainOf, chainOf, hL, List.filter_append, hnil, List.append_nil]

theorem Pulled.replayInv (hJ : JsonLaws P) {b s s' : Store H} {S : H → Prop} (h : Pulled P b S s s')
    (hinv : ReplayInv P s) : ReplayInv P s' := by
  induction h with
  | refl => exact hinv
  | step _ _ _ happ ih => exact happ.replayInv hJ ih

/-! ## What the next event refers to stays -/

theorem Effect.References.apply {e e' : Effect H} {g : Projection H} (h : e.References g) :
    e.References (e'.apply g) where
  nodes id hid := by
    obtain ⟨y, hy, hk⟩ := Table.hasKey_iff.1 (h.nodes id hid)
    exact Table.hasKey_iff.2 ⟨y, mem_foldl_addNode hy, hk⟩
  actors id hid := by
    obtain ⟨y, hy, hk⟩ := Table.hasKey_iff.1 (h.actors id hid)
    exact Table.hasKey_iff.2 ⟨y, mem_addAll hy, hk⟩
  assertions id hid := by
    obtain ⟨y, hy, hk⟩ := Table.hasKey_iff.1 (h.assertions id hid)
    have hview : (e'.apply g).assertions.map AssertionRow.view
        = (g.assertions ++ e'.assertions).map AssertionRow.view := map_view_statuses _ _
    have hmem : y.view ∈ (e'.apply g).assertions.map AssertionRow.view := by
      rw [hview]
      exact List.mem_map_of_mem (List.mem_append_left _ hy)
    obtain ⟨y', hy', heq⟩ := List.mem_map.1 hmem
    exact Table.hasKey_iff.2 ⟨y', hy', (congrArg AssertionRow.id heq).trans hk⟩

theorem Pulled.references (hJ : JsonLaws P) {b s s' : Store H} {S : H → Prop}
    (h : Pulled P b S s s') {e : Effect H} (hrefs : e.References s.proj) : e.References s'.proj := by
  induction h with
  | refl => exact hrefs
  | step _ _ _ happ ih =>
    obtain ⟨e', -, -, -, hproj⟩ := happ.effect hJ
    rw [hproj]
    exact ih.apply

/-! ## Key hashes -/

theorem Built.adds_once {rows : List (EventRow H)} {g : Projection H} (h : Built P rows g) {k : H}
    {r r' : EventRow H} (hr : r ∈ rows) (hr' : r' ∈ rows) (hk : AddsHash P r k)
    (hk' : AddsHash P r' k) : r = r' := by
  induction h with
  | nil => cases hr
  | @snoc rows g row e hb heff hadm ih =>
    -- the new row adds no key that a row before it adds
    have hnew : AddsHash P row k → ∀ x ∈ rows, ¬ AddsHash P x k := by
      intro hrow x hx hxk
      obtain ⟨y, hy, rfl⟩ := (addsHash_iff heff k).1 hrow
      obtain ⟨z, hz, hzk⟩ := (hb.hasKeyRow_iff _).2 ⟨x, hx, hxk⟩
      exact hadm.actorKeys y hy z hz hzk
    rcases List.mem_append.1 hr with hr | hr <;> rcases List.mem_append.1 hr' with hr' | hr'
    · exact ih hr hr'
    · exact absurd hk (hnew (List.mem_singleton.1 hr' ▸ hk') r hr)
    · exact absurd hk' (hnew (List.mem_singleton.1 hr ▸ hk) r' hr')
    · exact (List.mem_singleton.1 hr).trans (List.mem_singleton.1 hr').symm

theorem ReplayInv.hasKeyRow_iff {s : Store H} (h : ReplayInv P s) (k : H) :
    (∃ y ∈ s.proj.actorKeys, y.keyHash = k) ↔ ∃ row ∈ s.events, AddsHash P row k := by
  obtain ⟨g, hbuilt, -, hproj⟩ := h.built
  have hkeys : s.proj.actorKeys = g.actorKeys := by rw [hproj, redactAll_eq]
  rw [hkeys]
  exact hbuilt.hasKeyRow_iff k

/-- Events of other origins that the remote peer holds add no key that its
    event `next` adds. -/
theorem Pulled.newKey_iff (hJ : JsonLaws P) {b s s' : Store H} {S : H → Prop}
    (h : Pulled P b S s s') (hs : ReplayInv P s) (hb : ReplayInv P b) {next : EventRow H}
    (hnext : next ∈ b.events) (hS : ¬ S next.originPeerId) {k : H} (hk : AddsHash P next k) :
    (∀ y ∈ s'.proj.actorKeys, y.keyHash ≠ k) ↔ ∀ y ∈ s.proj.actorKeys, y.keyHash ≠ k := by
  obtain ⟨L, hL, -, hall⟩ := h.rows
  have hno : ∀ r ∈ L, ¬ AddsHash P r k := by
    intro r hr hrk
    obtain ⟨rb, hrb, hSrb, heq⟩ := hall r hr
    rw [heq] at hrk
    obtain ⟨g, hbuilt, -⟩ := hb.built
    have hsame := hbuilt.adds_once hrb hnext hrk hk
    exact hS (hsame ▸ hSrb)
  have hrows : (∃ row ∈ s'.events, AddsHash P row k) ↔ ∃ row ∈ s.events, AddsHash P row k := by
    rw [hL]
    constructor
    · rintro ⟨row, hrow, hrk⟩
      rcases List.mem_append.1 hrow with hrow | hrow
      · exact ⟨row, hrow, hrk⟩
      · exact absurd hrk (hno row hrow)
    · rintro ⟨row, hrow, hrk⟩
      exact ⟨row, List.mem_append_left _ hrow, hrk⟩
  have hiff := ((h.replayInv hJ hs).hasKeyRow_iff k).trans (hrows.trans (hs.hasKeyRow_iff k).symm)
  constructor
  · intro hs' y hy hyk
    obtain ⟨y', hy', hyk'⟩ := hiff.2 ⟨y, hy, hyk⟩
    exact hs' y' hy' hyk'
  · intro hs y hy hyk
    obtain ⟨y', hy', hyk'⟩ := hiff.1 ⟨y, hy, hyk⟩
    exact hs y' hy' hyk'

/-! ## The key of the origin -/

omit [DecidableEq H] in
theorem peerIdOfKey_injective (hinj : Function.Injective P.blake3) :
    Function.Injective P.peerIdOfKey := by
  rintro ⟨bytes, hvalid⟩ ⟨bytes', hvalid'⟩ h
  obtain rfl : bytes = bytes' := hinj h
  rfl

theorem getPeer_of_find {peers : List (PeerRow H)} (hlen : KeyLengths peers) {o : H} {r : PeerRow H}
    (h : Table.find PeerRow.peerId o peers = some r) :
    getPeer peers o = .ok (some ⟨r.peerId, r.publicKey, r.lastSeen, r.forked⟩) := by
  have hkey : r.publicKey.length = 32 := hlen r (Table.find_eq_some h).1
  simp only [getPeer, h, rowToInfo, hkey, if_true]
  rfl

theorem getPeer_ok {peers : List (PeerRow H)} (hlen : KeyLengths peers) (o : H) :
    ∃ info, getPeer peers o = .ok info := by
  cases hfind : Table.find PeerRow.peerId o peers with
  | none => exact ⟨none, by simp only [getPeer, hfind]⟩
  | some r => exact ⟨_, getPeer_of_find hlen hfind⟩

theorem PeersOnly.knownKey {s s' : Store H} (h : PeersOnly s s') (hlen : KeyLengths s.peers) {o : H}
    {key : P.VerifyingKey} (hknown : P.knownKey s o = some key) : P.knownKey s' o = some key := by
  cases hfind : Table.find PeerRow.peerId o s.peers with
  | none =>
    simp only [Prims.knownKey, getPeer, hfind] at hknown
    cases hknown
  | some r =>
    obtain ⟨r', hfind', hkey⟩ := h.keeps o r hfind
    simp only [Prims.knownKey, getPeer_of_find hlen hfind] at hknown
    simp only [Prims.knownKey, getPeer_of_find (h.lengths hlen) hfind', hkey]
    exact hknown

/-- A known key of the origin is the one that its events are verified with. -/
theorem originKey_of_knownKey (hinj : Function.Injective P.blake3) {s : Store H} {o : H}
    {key remoteKey : P.VerifyingKey} (hknown : P.knownKey s o = some key)
    (ho : P.peerIdOfKey key = o) :
    P.originKey s (P.peerIdOfKey remoteKey) remoteKey o = .ok (some key) := by
  unfold Prims.originKey
  by_cases hremote : o = P.peerIdOfKey remoteKey
  · have hkey : key = remoteKey := peerIdOfKey_injective hinj (ho.trans hremote)
    rw [if_pos hremote, hkey]
  · rw [if_neg hremote]
    unfold Prims.knownKey at hknown
    split at hknown
    · rename_i info hinfo
      rw [hinfo]
      exact congrArg Except.ok hknown
    · cases hknown

/-! ## One turn after another -/

theorem Reach.peerInv (hJ : JsonLaws P) (hinj : Function.Injective P.blake3) {s s' : Store H}
    (h : Reach P s s') (hs : PeerInv P s) : PeerInv P s' :=
  h.keeps hs (fun _ _ h hp => h.peersOnly hp) (fun _ _ _ h hexec => h.exec hJ hinj hexec)

/-- No turn of a pull fails as a whole: the keys that are stored have the
    length of a key. -/
theorem pullOrigin_ok {ε : Type} (allows : Store H → H → Bool) (remote : Remote ε) (remoteId : H)
    (remoteKey : P.VerifyingKey) (heads : List (String × UInt64)) (now : Int64) {s : Store H}
    (hlen : KeyLengths s.peers) (summary : SyncSummary ε) (originHex : String) (remoteSeq : UInt64) :
    ∃ summary',
      (P.pullOrigin allows remote remoteId remoteKey heads now s summary originHex remoteSeq).2
        = .ok summary' := by
  unfold Prims.pullOrigin
  split
  · exact ⟨_, rfl⟩
  rename_i origin _
  split
  · exact ⟨_, rfl⟩
  dsimp only
  split
  · exact ⟨_, rfl⟩
  split
  · rename_i e hkey
    unfold Prims.originKey at hkey
    obtain ⟨info, hinfo⟩ := getPeer_ok hlen origin
    rw [hinfo] at hkey
    split at hkey
    · cases hkey
    · cases info <;> cases hkey
  · exact ⟨_, rfl⟩
  split
  · exact ⟨_, rfl⟩
  · exact ⟨_, rfl⟩

theorem pullLoop_append (hJ : JsonLaws P) (hinj : Function.Injective P.blake3) {ε : Type}
    (allows : Store H → H → Bool) (remote : Remote ε) (remoteId : H) (remoteKey : P.VerifyingKey)
    (heads : List (String × UInt64)) (now : Int64) (post : List (String × UInt64))
    (pre : List (String × UInt64)) {s : Store H} (hs : PeerInv P s) (summary : SyncSummary ε) :
    ∃ summary',
      (P.pullLoop allows remote remoteId remoteKey heads now s summary (pre ++ post)).1
        = (P.pullLoop allows remote remoteId remoteKey heads now
            (P.pullLoop allows remote remoteId remoteKey heads now s summary pre).1 summary' post).1 := by
  induction pre generalizing s summary with
  | nil => exact ⟨summary, rfl⟩
  | cons e pre ih =>
    obtain ⟨originHex, remoteSeq⟩ := e
    obtain ⟨summary₁, hok⟩ := pullOrigin_ok allows remote remoteId remoteKey heads now hs.lengths
      summary originHex remoteSeq
    obtain ⟨s₁, hturn⟩ : ∃ s₁, P.pullOrigin allows remote remoteId remoteKey heads now s summary
        originHex remoteSeq = (s₁, .ok summary₁) := ⟨_, Prod.ext rfl hok⟩
    have hs₁ : PeerInv P s₁ := by
      have hoff := pullOrigin_offered allows remote remoteId remoteKey heads now s summary originHex
        remoteSeq
      rw [hturn] at hoff
      exact hoff.reach.peerInv hJ hinj hs
    obtain ⟨summary', hrest⟩ := ih hs₁ summary₁
    refine ⟨summary', ?_⟩
    simp only [List.cons_append, Prims.pullLoop, hturn]
    exact hrest

/-! ## The first event of a page -/

theorem le_pageEnd {lo hi : Int64} (hle : lo.toInt ≤ hi.toInt) (hlo : 0 ≤ lo.toInt)
    (hroom : lo.toInt + 1000 < 2 ^ 63) : lo.toInt ≤ (Prims.pageEnd lo hi).toInt := by
  unfold Prims.pageEnd
  split
  · exact hle
  · have hone : (1 : Int64).toInt = 1 := rfl
    have hmax : maxEventsPerFetch.toInt = 1000 := rfl
    have hadd : (lo + maxEventsPerFetch).toInt = lo.toInt + 1000 := by
      rw [Int64.toInt_add, hmax, Int.bmod_eq_of_le] <;> omega
    rw [Int64.toInt_sub, hadd, hone, Int.bmod_eq_of_le] <;> omega

theorem listRange_head {s : Store H} (hinv : ChainInv s) {lo hi : Int64} {next : EventRow H}
    (hnext : next ∈ s.events) (hseq : next.sequence = lo) (hle : lo ≤ hi) :
    ∃ rest, listRange s.events next.originPeerId lo hi = next :: rest := by
  have hmem : next ∈ listRange s.events next.originPeerId lo hi :=
    mem_listRange.2 ⟨hnext, rfl, Int64.le_of_eq hseq.symm, hseq ▸ hle⟩
  have hsorted := listRange_sorted hinv next.originPeerId lo hi
  cases hlist : listRange s.events next.originPeerId lo hi with
  | nil => rw [hlist] at hmem; cases hmem
  | cons first rest =>
    obtain ⟨-, -, hge, -⟩ := mem_listRange.1 (hlist ▸ List.mem_cons_self : first ∈ _)
    rw [hlist] at hmem hsorted
    rcases List.mem_cons.1 hmem with rfl | hmem
    · exact ⟨rest, rfl⟩
    · -- the rows are sorted, and none is below the range
      have hlt := (List.pairwise_cons.1 hsorted).1 next hmem
      have hge := Int64.le_iff_toInt_le.1 hge
      rw [hseq] at hlt
      omega

/-! ## What a store expects next of an origin -/

theorem nextOf_fst (s : Store H) (o : H) :
    (Prims.nextOf (getOrigin s.eventOrigins o)).1 = (headSequence s o).toUInt64 + 1 := by
  unfold headSequence
  cases getOrigin s.eventOrigins o with
  | none => rfl
  | some row => rfl

theorem nextOf_snd {s : Store H} (hinv : ChainInv s) (o : H) :
    (Prims.nextOf (getOrigin s.eventOrigins o)).2
      = ((chainOf s o).map EventRow.eventId).getLast? := by
  rw [hinv.heads, headOf, List.getLast?_map]
  cases (chainOf s o).getLast? with
  | none => rfl
  | some row => rfl

omit [DecidableEq H] in
/-- A copy of a row verifies with the key of the row's origin. -/
theorem CopyOf.verified (hJ : JsonLaws P) (hinj : Function.Injective P.blake3) {row : EventRow H}
    {signed : SignedEvent} (h : CopyOf P row signed) {key key' : P.VerifyingKey}
    (hsigned : SignedBy P key' row) (hkey : P.peerIdOfKey key = row.originPeerId) :
    Verified P key signed row.eventId := by
  obtain rfl : key = key' := peerIdOfKey_injective hinj (hkey.trans hsigned.origin.symm)
  obtain ⟨original, hread, hver⟩ := hsigned.reread
  obtain ⟨original', hread', hsame⟩ := h.same
  obtain rfl : original = original' := Except.ok.inj (hread.symm.trans hread')
  exact hsame.verified hJ (verify_ok.1 hver)

/-- A store agrees with the remote store on an origin as far as it goes, and
    the remote store has a next event. -/
structure Behind (s b : Store H) (o : H) (next : EventRow H) : Prop where
  next : (chainOf b o)[(chainOf s o).length]? = some next
  same : (chainOf s o).map EventRow.eventId
    = ((chainOf b o).take (chainOf s o).length).map EventRow.eventId

theorem Behind.mem {s b : Store H} {o : H} {next : EventRow H} (h : Behind s b o next) :
    next ∈ b.events ∧ next.originPeerId = o := mem_chainOf.1 (List.mem_of_getElem? h.next)

theorem Behind.lt {s b : Store H} {o : H} {next : EventRow H} (h : Behind s b o next) :
    (chainOf s o).length < (chainOf b o).length := (List.getElem?_eq_some_iff.1 h.next).1

theorem Behind.congr {s s' b : Store H} {o : H} {next : EventRow H} (h : Behind s b o next)
    (hchain : chainOf s' o = chainOf s o) : Behind s' b o next := by
  refine ⟨?_, ?_⟩
  · rw [hchain]; exact h.next
  · rw [hchain]; exact h.same

/-- The next event is the one after the head, and names it. -/
theorem Behind.expected {s b : Store H} {o : H} {next : EventRow H} (h : Behind s b o next)
    (hs : ChainInv s) (hb : ChainInv b) : next.sequence.toInt = (headSequence s o).toInt + 1 ∧
      (Prims.nextOf (getOrigin s.eventOrigins o)).2 = next.previousEventId := by
  obtain ⟨hseq, hprev⟩ := (hb.chain o).prev_getElem h.next
  refine ⟨?_, ?_⟩
  · rw [headSequence_eq hs]; exact hseq
  · rw [nextOf_snd hs, h.same, List.getLast?_map]; exact hprev.symm

/-! ## The turn of the origin -/

/-- The store has no row for the key that the event adds, if it adds one. -/
def KeyFree (P : Prims H) (s : Store H) (next : EventRow H) : Prop :=
  ∀ k, AddsHash P next k → ∀ y ∈ s.proj.actorKeys, y.keyHash ≠ k

/-- The page of events after `head` is within the client's limit. -/
def PageFits (P : Prims H) (b : Store H) (o : H) (head : Int64) : Prop :=
  ∀ body, P.eventsBody b (P.toHex o) (head.toUInt64 + 1) (headSequence b o).toUInt64 = .ok body →
    body.length ≤ maxResponseBytes

omit [DecidableEq H] in
theorem keyFree_iff {s : Store H} {next : EventRow H} {e : Effect H}
    (heff : P.rowEffect next = some e) : KeyFree P s next ↔ e.NewKeys s.proj := by
  constructor
  · intro h r hr
    exact h r.keyHash ((addsHash_iff heff _).2 ⟨r, hr, rfl⟩)
  · intro h k hk
    obtain ⟨r, hr, rfl⟩ := (addsHash_iff heff k).1 hk
    exact h r hr

/-- A copy of the next event is applied exactly if its key is free. -/
theorem Behind.ingest_iff (hJ : JsonLaws P) (hinj : Function.Injective P.blake3) {s b : Store H}
    {o : H} {next : EventRow H} (h : Behind s b o next) (hs : PeerInv P s) (hb : PeerInv P b)
    (hsigned : AllSigned P b) (hroom : s.events.length < maxRows) {key : P.VerifyingKey}
    (hkey : P.peerIdOfKey key = o) {signed : SignedEvent} (hcopy : CopyOf P next signed)
    (hrefs : ∀ e, P.rowEffect next = some e → e.References s.proj) (now : Int64) :
    (∃ s' id oc, P.ingestRemoteEvent s key signed now = .ok (s', .applied id oc)) ↔
      KeyFree P s next := by
  obtain ⟨hmem, horigin⟩ := h.mem
  obtain ⟨hseq, hprev⟩ := h.expected hs.log.chain hb.log.chain
  obtain ⟨key', hkey'⟩ := hsigned next hmem
  have hver := hcopy.verified hJ hinj hkey' (hkey.trans horigin.symm)
  have hid := hver.idOf_eq
  obtain ⟨g, hbuilt, -⟩ := hb.replay.built
  obtain ⟨e, heff⟩ := hbuilt.effect hmem
  have hexpected : (Prims.nextOf (getOrigin s.eventOrigins o)).1 = signed.unsigned.sequence := by
    rw [nextOf_fst]
    have hlen := length_chainOf_le s o
    have hhead := headSequence_eq hs.log.chain o
    unfold maxRows at hroom
    have hnext := toInt_next (headSequence s o) (by omega)
    have heq : ((headSequence s o).toUInt64 + 1).toInt64 = signed.unsigned.sequence.toInt64 := by
      rw [← Int64.toInt_inj, hnext, ← hseq, hcopy.stored.sequence]
    have hcast := congrArg Int64.toUInt64 heq
    rwa [UInt64.toUInt64_toInt64, UInt64.toUInt64_toInt64] at hcast
  subst hkey
  have heffect : P.effectOf (P.idOf signed) signed.unsigned.createdAt signed.unsigned.payload
      = some e := by
    rw [hid, ← hcopy.stored.createdAt, ← hcopy.stored.rowEffect hJ]
    exact heff
  rw [next_applied_iff hJ hinj hs.log hs.replay hroom now (hid ▸ hver)
    (horigin ▸ hcopy.stored.origin) hcopy.stored.previous hexpected heffect (hrefs e heff),
    keyFree_iff heff]
  exact and_iff_right hprev

/-- A page moves the head of its origin exactly if its first event is applied. -/
theorem ingestEvents_moves_iff {ε : Type} (hJ : JsonLaws P) (hinj : Function.Injective P.blake3)
    {b s : Store H} {o : H} {key : P.VerifyingKey} {originHex : String} {now : Int64}
    {next : EventRow H} {rest : List (EventRow H)} {signed : SignedEvent} {later : List SignedEvent}
    (hst : Stored P next signed) (hlater : List.Forall₂ (Stored P) rest later)
    (hrows : ∀ row ∈ next :: rest, row ∈ b.events ∧ row.originPeerId = o)
    (hsorted : (next :: rest).Pairwise fun a c => a.sequence.toInt < c.sequence.toInt)
    (hlog : LogStored P s) (habove : ∀ r ∈ s.events, r.originPeerId = o → ∀ row ∈ next :: rest,
      r.sequence.toInt < row.sequence.toInt) (summary : SyncSummary ε) :
    (chainOf s o).length
        < (chainOf (P.ingestEvents key originHex now s summary (signed :: later)).1 o).length ↔
      ∃ s' id oc, P.ingestRemoteEvent s key signed now = .ok (s', .applied id oc) := by
  obtain ⟨hhead, htail⟩ := List.pairwise_cons.1 hsorted
  obtain ⟨-, horigin⟩ := hrows next (List.mem_cons_self ..)
  have hfree : ∀ r ∈ s.events, r.originPeerId = next.originPeerId → r.sequence ≠ next.sequence := by
    intro r hr hro heq
    have hlt := habove r hr (hro.trans horigin) next (List.mem_cons_self ..)
    rw [heq] at hlt
    omega
  cases hing : P.ingestRemoteEvent s key signed now with
  | error e => simp [Prims.ingestEvents, hing]
  | ok result =>
    obtain ⟨s₁, outcome⟩ := result
    obtain ⟨⟨id, oc, rfl⟩, happ⟩ := ingest_page_step hJ hinj hlog hst hfree hing
    refine iff_of_true ?_ ⟨s₁, id, oc, rfl⟩
    have hrest : Pulled P b (· = o) s₁ (P.ingestEvents key originHex now s₁
        { summary with applied := summary.applied + 1 } later).1 :=
      ingestEvents_pulled hJ hinj hlater (fun row hrow => hrows row (List.mem_cons_of_mem _ hrow))
        htail (happ.logStored hlog) (happ.below_page hhead habove) _
    have hgrow := hrest.chainOf_length_le o
    rw [chainOf_append happ.events_eq o, if_pos horigin, List.length_append, List.length_singleton]
      at hgrow
    simp only [Prims.ingestEvents, hing]
    omega

/-- **The turn of the origin** moves its head exactly if the page fits and the
    next event's key is free. -/
theorem Behind.pullOrigin_iff (hJ : JsonLaws P) (hinj : Function.Injective P.blake3)
    {s s₀ b : Store H} {o : H} {next : EventRow H} (h : Behind s b o next) (hs : PeerInv P s)
    (hb : PeerInv P b) (hsigned : AllSigned P b) (hroom : s.events.length < maxRows)
    (hroomB : b.events.length + 1000 ≤ maxRows) (hchain : headSequence s₀ o = headSequence s o)
    {svc : SyncService H} {allows : Store H → H → Bool} (hallows : allows s o = true) {remoteId : H}
    {remoteKey key : P.VerifyingKey} (horiginKey : P.originKey s remoteId remoteKey o = .ok (some key))
    (hkey : P.peerIdOfKey key = o) (hrefs : ∀ e, P.rowEffect next = some e → e.References s.proj)
    (now : Int64) (summary : SyncSummary SyncClientError) :
    (chainOf s o).length < (chainOf (P.pullOrigin allows (P.serve svc b) remoteId remoteKey
      (P.localHeads s₀) now s summary (P.toHex o) (headSequence b o).toUInt64).1 o).length ↔
      PageFits P b o (headSequence s o) ∧ KeyFree P s next := by
  obtain ⟨hmem, horigin⟩ := h.mem
  obtain ⟨hseq, -⟩ := h.expected hs.log.chain hb.log.chain
  have hlt := h.lt
  have hheadS := headSequence_eq hs.log.chain o
  have hheadB := headSequence_eq hb.log.chain o
  have hlenB := length_chainOf_le b o
  have hS := toNat_toUInt64 (headSequence_nonneg hs.log.chain o)
  have hB := toNat_toUInt64 (headSequence_nonneg hb.log.chain o)
  have hbehind : (headSequence s o).toUInt64 < (headSequence b o).toUInt64 := by
    rw [UInt64.lt_iff_toNat_lt]
    omega
  obtain ⟨-, hlo, hle⟩ := next_of_lt (headSequence_nonneg hs.log.chain o)
    (headSequence_nonneg hb.log.chain o) hbehind
  obtain ⟨body, events, hbody, hread, hall⟩ := eventsBody_reads hJ hb.log.stored
    (decodeHex32_toHex o) hle
  simp only [Prims.pullOrigin, decodeHex32_toHex, lookup_localHeads, hallows, hchain, horiginKey,
    UInt64.not_le.2 hbehind, if_false, Bool.not_true, Bool.false_eq_true]
  have hhi : (headSequence b o).toUInt64.toInt64 = headSequence b o := Int64.toInt64_toUInt64 _
  have hfirst : next.sequence = ((headSequence s o).toUInt64 + 1).toInt64 := by
    rw [← Int64.toInt_inj, hseq, hlo]
  have hend : ((headSequence s o).toUInt64 + 1).toInt64
      ≤ Prims.pageEnd ((headSequence s o).toUInt64 + 1).toInt64 (headSequence b o).toUInt64.toInt64 := by
    unfold maxRows at hroomB
    refine Int64.le_iff_toInt_le.2 (le_pageEnd ?_ ?_ ?_) <;> rw [hlo]
    · rw [hhi]; omega
    · omega
    · omega
  obtain ⟨rest, hrows⟩ := listRange_head hb.log.chain hmem hfirst hend
  rw [horigin] at hrows
  rw [hrows] at hall
  by_cases hsize : body.length ≤ maxResponseBytes
  · have hfits : PageFits P b o (headSequence s o) := by
      intro body' hbody'
      obtain rfl : body = body' := Except.ok.inj (hbody.symm.trans hbody')
      exact hsize
    have hfetch : (P.serve svc b).fetchEvents (P.toHex o) ((headSequence s o).toUInt64 + 1)
        (headSequence b o).toUInt64 = .ok events := by
      simp only [Prims.serve, hbody, cappedJson_small hsize hread]
    rw [and_iff_right hfits, hfetch]
    cases hall with
    | @cons _ signed _ later hcopy hlater =>
      rw [← h.ingest_iff hJ hinj hs hb hsigned hroom hkey hcopy hrefs now]
      refine ingestEvents_moves_iff (b := b) hJ hinj hcopy.stored (hlater.imp fun _ _ h => h.stored)
        ?_ ?_ hs.log.stored ?_ summary
      · intro row hrow
        obtain ⟨hrow, ho, -⟩ := mem_listRange.1 (hrows ▸ hrow)
        exact ⟨hrow, ho⟩
      · rw [← hrows]
        exact listRange_sorted hb.log.chain o _ _
      · intro r hr ho row hrow
        obtain ⟨-, -, hge, -⟩ := mem_listRange.1 (hrows ▸ hrow)
        have hge := Int64.le_iff_toInt_le.1 hge
        have hr := (seq_le_headSequence hs.log.chain hr).2
        rw [ho] at hr
        omega
  · -- the client refuses the page
    have hfits : ¬ PageFits P b o (headSequence s o) := fun hfits => hsize (hfits body hbody)
    have hfetch : (P.serve svc b).fetchEvents (P.toHex o) ((headSequence s o).toUInt64 + 1)
        (headSequence b o).toUInt64 = .error (.responseTooLarge maxResponseBytes) := by
      simp only [Prims.serve, hbody, cappedJson_large (not_le.1 hsize)]
    rw [hfetch]
    simp [hfits]

/-! ## The round -/

theorem PeersOnly.events_eq {s s' : Store H} (h : PeersOnly s s') : s'.events = s.events := by
  rw [h.eq]

theorem PeersOnly.chainOf_eq {s s' : Store H} (h : PeersOnly s s') (o : H) :
    chainOf s' o = chainOf s o := by
  rw [chainOf, chainOf, h.events_eq]

theorem PeersOnly.proj_eq {s s' : Store H} (h : PeersOnly s s') : s'.proj = s.proj := by
  rw [h.eq]

theorem headSequence_congr {s s' : Store H} (hs : ChainInv s) (hs' : ChainInv s') {o : H}
    (h : chainOf s' o = chainOf s o) : headSequence s' o = headSequence s o := by
  rw [← Int64.toInt_inj, headSequence_eq hs, headSequence_eq hs', h]

/-- A remote that is ahead claims a head for the origin. -/
theorem Behind.claims {s b : Store H} {o : H} {next : EventRow H} (h : Behind s b o next)
    (hb : ChainInv b) : (P.toHex o, (headSequence b o).toUInt64) ∈ P.localHeads b := by
  have hlt := h.lt
  cases horigin : getOrigin b.eventOrigins o with
  | none =>
    have hzero : (headSequence b o).toInt = 0 := by rw [headSequence, horigin]; rfl
    rw [headSequence_eq hb] at hzero
    omega
  | some row =>
    obtain ⟨hrow, ho⟩ := Table.find_eq_some horigin
    refine List.mem_map.2 ⟨row, hrow, ?_⟩
    rw [headSequence, horigin, ho]
    rfl

/-- A turn, and the turns after it. -/
theorem pullLoop_cons_chain (hJ : JsonLaws P) (hinj : Function.Injective P.blake3) {b s₀ s : Store H}
    (hb : PeerInv P b) (h₀ : PeerInv P s₀) (hs : PeerInv P s) {svc : SyncService H}
    {allows : Store H → H → Bool} {remoteId : H} {remoteKey : P.VerifyingKey} {now : Int64} {o : H}
    {post : List (String × UInt64)} {S : H → Prop} (hpulled : Pulled P b S s₀ s)
    (hentries : ∀ e ∈ post, HeadEntry P b e)
    (hnd : (P.toHex o :: post.map Prod.fst).Nodup)
    (hnew : ∀ x, P.toHex x ∈ P.toHex o :: post.map Prod.fst → ¬ S x)
    (summary : SyncSummary SyncClientError) :
    chainOf (P.pullLoop allows (P.serve svc b) remoteId remoteKey (P.localHeads s₀) now s summary
        ((P.toHex o, (headSequence b o).toUInt64) :: post)).1 o
      = chainOf (P.pullOrigin allows (P.serve svc b) remoteId remoteKey (P.localHeads s₀) now s summary
          (P.toHex o) (headSequence b o).toUInt64).1 o := by
  obtain ⟨hnot, htail⟩ := List.nodup_cons.1 hnd
  have hsame : ∀ r ∈ s.events, r.originPeerId = o → r ∈ s₀.events := by
    intro r hr ho
    rcases hpulled.mem_events hr with hr | hS
    · exact hr
    · exact absurd (ho ▸ hS) (hnew o (List.mem_cons_self ..))
  have hone : Pulled P b (· = o) s (P.pullOrigin allows (P.serve svc b) remoteId remoteKey
      (P.localHeads s₀) now s summary (P.toHex o) (headSequence b o).toUInt64).1 :=
    pullOrigin_pulled hJ hinj hb.log h₀.log.chain hs.log.stored hsame summary
  obtain ⟨summary₁, hok⟩ := pullOrigin_ok allows (P.serve svc b) remoteId remoteKey (P.localHeads s₀)
    now hs.lengths summary (P.toHex o) (headSequence b o).toUInt64
  obtain ⟨s₁, hturn⟩ : ∃ s₁, P.pullOrigin allows (P.serve svc b) remoteId remoteKey (P.localHeads s₀)
      now s summary (P.toHex o) (headSequence b o).toUInt64 = (s₁, .ok summary₁) :=
    ⟨_, Prod.ext rfl hok⟩
  rw [hturn] at hone
  simp only [Prims.pullLoop, hturn]
  have hafter : Pulled P b (fun x => S x ∨ x = o) s₀ s₁ :=
    (hpulled.mono fun _ hx => Or.inl hx).trans (hone.mono fun _ hx => Or.inr hx)
  have hrest : Pulled P b (fun x => P.toHex x ∈ post.map Prod.fst) s₁ (P.pullLoop allows
      (P.serve svc b) remoteId remoteKey (P.localHeads s₀) now s₁ summary₁ post).1 := by
    refine pullLoop_pulled hJ hinj hb.log h₀.log hentries htail hafter ?_ summary₁
    rintro x hx (hS | rfl)
    · exact hnew x (List.mem_cons_of_mem _ hx) hS
    · exact hnot hx
  exact hrest.chainOf_eq hnot

theorem Pulled.keyFree_iff (hJ : JsonLaws P) {b s s' : Store H} {S : H → Prop}
    (h : Pulled P b S s s') (hs : ReplayInv P s) (hb : ReplayInv P b) {next : EventRow H}
    (hnext : next ∈ b.events) (hS : ¬ S next.originPeerId) : KeyFree P s' next ↔ KeyFree P s next :=
  forall₂_congr fun _ hk => h.newKey_iff hJ hs hb hnext hS hk

/-- **Progress of a round.**  A round with a peer that is ahead on an origin
    moves the head of the origin exactly if the hello and the page fit the
    client's limit and the key that the next event adds, if it adds one, has no
    row. -/
theorem progress_iff (hJ : JsonLaws P) (hinj : Function.Injective P.blake3) {a b : Store H}
    (ha : PeerInv P a) (hb : PeerInv P b) (hsigned : AllSigned P b) {svcA svcB : SyncService H}
    {keyB : P.VerifyingKey} (hself : svcB.Of keyB) {o : H} {key : P.VerifyingKey}
    (hknown : P.knownKey a o = some key) (hkey : P.peerIdOfKey key = o) {now : Int64}
    (hallows : ∀ s, Reach P a s → svcA.federationAllows s o now = true) {next : EventRow H}
    (h : Behind a b o next) (hrefs : ∀ e, P.rowEffect next = some e → e.References a.proj)
    (hroom : a.events.length + b.events.length + 1000 ≤ maxRows) (address : String) :
    (headSequence a o).toInt
        < (headSequence (P.syncWithPeer svcA address (P.serve svcB b) now a).1 o).toInt ↔
      (P.helloBody svcB b).length ≤ maxResponseBytes ∧ PageFits P b o (headSequence a o) ∧
        KeyFree P a next := by
  have hafter := (syncWithPeer_reach svcA address (P.serve svcB b) now a).peerInv hJ hinj ha
  rw [headSequence_eq ha.log.chain, headSequence_eq hafter.log.chain, Nat.cast_lt]
  by_cases hsize : (P.helloBody svcB b).length ≤ maxResponseBytes
  · rw [and_iff_right hsize]
    obtain ⟨a₁, claimed, hpeers, hperm, hround⟩ := syncWithPeer_serve hJ hb.heads hself hsize svcA
      address now a
    have ha₁ := ha.peersOnly hpeers
    obtain ⟨pre, post, rfl⟩ := List.append_of_mem (hperm.mem_iff.2 (h.claims hb.log.chain))
    have hentries : ∀ e ∈ pre ++ (P.toHex o, (headSequence b o).toUInt64) :: post, HeadEntry P b e :=
      fun e he => headEntry_of_mem hb.heads (hperm.mem_iff.1 he)
    have hnd := (hperm.map Prod.fst).nodup_iff.2 (nodup_localHeads hb.heads)
    rw [List.map_append, List.map_cons] at hnd
    obtain ⟨hndPre, hndPost, hdisj⟩ := List.nodup_append.1 hnd
    have hnotPre : P.toHex o ∉ pre.map Prod.fst := fun hmem =>
      hdisj _ hmem _ (List.mem_cons_self ..) rfl
    -- the turns before the origin's
    obtain ⟨s₁, hs₁⟩ : ∃ s₁, (P.pullLoop (fun s origin => svcA.federationAllows s origin now)
        (P.serve svcB b) (P.peerIdOfKey keyB) keyB (P.localHeads a₁) now a₁ {} pre).1 = s₁ := ⟨_, rfl⟩
    have hpre : Pulled P b (fun x => P.toHex x ∈ pre.map Prod.fst) a₁ s₁ := by
      rw [← hs₁]
      exact pullLoop_pulled hJ hinj hb.log ha₁.log
        (fun e he => hentries e (List.mem_append_left _ he)) hndPre (S := fun _ => False) (.refl a₁)
        (fun _ _ h => h) {}
    have hreach : Reach P a s₁ := by
      rw [← hs₁]
      exact hpeers.reach.trans (pullLoop_reach ..)
    have hinv₁ := hreach.peerInv hJ hinj ha
    have hchain : chainOf s₁ o = chainOf a o := (hpre.chainOf_eq hnotPre).trans (hpeers.chainOf_eq o)
    have hlen := hpre.length_le
    rw [hpeers.events_eq] at hlen
    have hknown₁ : P.knownKey s₁ o = some key := by
      rw [Prims.knownKey, hpre.peers]
      exact hpeers.knownKey ha.lengths hknown
    have hrefs₁ : ∀ e, P.rowEffect next = some e → e.References s₁.proj := by
      intro e he
      exact hpre.references hJ (hpeers.proj_eq ▸ hrefs e he)
    obtain ⟨summary, hsplit⟩ := pullLoop_append hJ hinj
      (fun s origin => svcA.federationAllows s origin now) (P.serve svcB b) (P.peerIdOfKey keyB) keyB
      (P.localHeads a₁) now ((P.toHex o, (headSequence b o).toUInt64) :: post) pre ha₁ {}
    rw [hround, roundOf_fst, hsplit, hs₁, pullLoop_cons_chain hJ hinj hb ha₁ hinv₁ hpre
      (fun e he => hentries e (List.mem_append_right _ (List.mem_cons_of_mem _ he))) hndPost
      (fun x hx hmem => hdisj _ hmem _ hx rfl), ← hchain,
      (h.congr hchain).pullOrigin_iff hJ hinj hinv₁ hb hsigned (by omega) (by omega)
        (headSequence_congr hinv₁.log.chain ha₁.log.chain (hpre.chainOf_eq hnotPre).symm)
        (hallows s₁ hreach) (originKey_of_knownKey hinj hknown₁ hkey) hkey hrefs₁,
      headSequence_congr ha.log.chain hinv₁.log.chain hchain,
      hpre.keyFree_iff hJ ha₁.replay hb.replay h.mem.1 (by rw [h.mem.2]; exact hnotPre)]
    unfold KeyFree
    rw [hpeers.proj_eq]
  · -- the client refuses the hello
    rcases syncWithPeer_cases (P := P) svcA address (P.serve svcB b) now a with
      ⟨e, herr⟩ | ⟨hello, key, hhello, -⟩
    · rw [herr]
      simp [hsize]
    · simp only [Prims.serve, cappedJson_large (not_le.1 hsize)] at hhello
      cases hhello

/-- The events of a peer are signed, whatever it does. -/
theorem allSigned_run (hJ : JsonLaws P) (hinj : Function.Injective P.blake3)
    (hsign : ∀ identity, SignsCorrectly P identity) (ops : List (SyncOp P)) :
    AllSigned P (P.syncRun Store.empty ops) := by
  have hempty : LogStored P (Store.empty : Store H) ∧ AllSigned P (Store.empty : Store H) := by
    refine ⟨fun row hrow => ?_, fun row hrow => ?_⟩
    · cases hrow
    · cases hrow
  have hrun : LogStored P (P.syncRun Store.empty ops) ∧ AllSigned P (P.syncRun Store.empty ops) :=
    List.foldlRecOn (motive := fun s => LogStored P s ∧ AllSigned P s) ops P.syncStep hempty
      fun s h op _ => syncStep_allSigned hJ hinj hsign op h
  exact hrun.2

end OpenAgentGraph
