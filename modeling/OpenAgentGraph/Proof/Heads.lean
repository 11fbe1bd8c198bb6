/-
  What a head says about a chain.

  Peers compare heads to see who is behind.  A head is the id of the last event
  of a chain, the id of an event is the hash of its bytes, and the bytes hold
  the id of the event before it, so that a head stands for the whole chain.
-/
import OpenAgentGraph.Proof.Accept

namespace OpenAgentGraph

open Lib Repo

variable {H : Type} [DecidableEq H] {P : Prims H}

/-- An event as its origin made it, without the time of its arrival. -/
def EventRow.sent (r : EventRow H) : EventRow H := { r with receivedAt := 0 }

omit [DecidableEq H] in
/-- Rows of one event differ in the time of arrival only. -/
theorem EventRow.eq_of_sent {r r' : EventRow H} (h : r.sent = r'.sent) :
    r = { r' with receivedAt := r.receivedAt } := by
  cases r
  cases r'
  simp only [sent, mk.injEq] at h
  simp [h]

omit [DecidableEq H] in
/-- The id of a stored event determines the event. -/
theorem LogStored.sent_eq (hJ : JsonLaws P) (hinj : Function.Injective P.blake3) {s s' : Store H}
    (h : LogStored P s) (h' : LogStored P s') {r r' : EventRow H} (hr : r ∈ s.events)
    (hr' : r' ∈ s'.events) (hid : r.eventId = r'.eventId) : r.sent = r'.sent := by
  obtain ⟨signed, hst⟩ := h r hr
  obtain ⟨signed', hst'⟩ := h' r' hr'
  rw [hst.eq_of_eventId hJ hinj hst' hid]
  rfl

/-- The event that a head row names. -/
theorem ChainInv.last_of_head {s : Store H} (h : ChainInv s) {row : EventOriginRow H}
    (hrow : getOrigin s.eventOrigins row.originPeerId = some row) :
    ∃ r ∈ chainOf s row.originPeerId, (chainOf s row.originPeerId).getLast? = some r ∧
      row = ⟨r.originPeerId, r.sequence, r.sequence, some r.eventId⟩ := by
  rw [h.heads, headOf] at hrow
  obtain ⟨r, hlast, heq⟩ := Option.map_eq_some_iff.1 hrow
  have hr := List.mem_of_getLast? hlast
  refine ⟨r, hr, hlast, ?_⟩
  rw [(mem_chainOf.1 hr).2]
  exact heq.symm

/-- Chains of one origin whose last events have the same id are the same. -/
theorem LogInv.sent_chain_eq (hJ : JsonLaws P) (hinj : Function.Injective P.blake3) {s s' : Store H}
    (h : LogInv P s) (h' : LogInv P s') {o : H}
    (hlast : (chainOf s o).getLast?.map EventRow.eventId
      = (chainOf s' o).getLast?.map EventRow.eventId) :
    (chainOf s o).map EventRow.sent = (chainOf s' o).map EventRow.sent := by
  refine (h.chain.chain o).map_eq_of_last (h'.chain.chain o) ?_ hlast
  intro x hx y hy hid
  have hsent := h.stored.sent_eq hJ hinj h'.stored (mem_chainOf.1 hx).1 (mem_chainOf.1 hy).1 hid
  refine ⟨hsent, ?_⟩
  rw [EventRow.eq_of_sent hsent]

/-- **A head determines its chain.**  Whatever two peers went through, if both
    store one head event, then it is the head of one origin at one sequence
    number, and the two logs hold the same events of that origin, in the same
    order and byte for byte. -/
theorem heads_determine_chains (P : Prims H) (hJ : JsonLaws P) (hinj : Function.Injective P.blake3)
    (ops ops' : List (SyncOp P)) (row row' : EventOriginRow H)
    (hrow : row ∈ (P.syncRun Store.empty ops).eventOrigins)
    (hrow' : row' ∈ (P.syncRun Store.empty ops').eventOrigins)
    (hhead : row.headEventId = row'.headEventId) :
    row = row' ∧ (chainOf (P.syncRun Store.empty ops) row.originPeerId).map EventRow.sent
      = (chainOf (P.syncRun Store.empty ops') row.originPeerId).map EventRow.sent := by
  have hs := peerInv_run hJ hinj ops
  have hs' := peerInv_run hJ hinj ops'
  obtain ⟨r, hr, hlast, heq⟩ := hs.log.chain.last_of_head (Table.find_of_nodup hs.heads hrow)
  obtain ⟨r', hr', hlast', heq'⟩ := hs'.log.chain.last_of_head (Table.find_of_nodup hs'.heads hrow')
  have hid : r.eventId = r'.eventId := by
    rw [heq, heq'] at hhead
    exact Option.some.inj hhead
  have hsent := hs.log.stored.sent_eq hJ hinj hs'.log.stored (mem_chainOf.1 hr).1
    (mem_chainOf.1 hr').1 hid
  have hrows : row = row' := by
    rw [heq, heq', EventRow.eq_of_sent hsent]
  subst hrows
  refine ⟨rfl, hs.log.sent_chain_eq hJ hinj hs'.log ?_⟩
  rw [hlast, hlast', Option.map_some, Option.map_some, hid]

theorem run_declaredOps (hJ : JsonLaws P) (hinj : Function.Injective P.blake3)
    (carol : Prims.PeerIdentity) : P.syncRun Store.empty (declaredOps P carol)
      = appendRow .empty (P.rowOf (declareEvent P carol) (carol.peerId P) none 1)
          (P.effect (declareEvent P carol)) :=
  run_commit hJ hinj [] rfl (by simp [Store.empty, maxRows]) trivial rfl rfl
    (declare_admissible _ _)

/-- Carol's own store and that of a peer that has heard from her. -/
theorem heads_determine_chains_declared :
    (chainOf (idealOpen.syncRun Store.empty (declaredOps idealOpen peerC))
        (peerC.peerId idealOpen)).map EventRow.sent
      = (chainOf (idealOpen.syncRun Store.empty (heardOps idealOpen peerC))
        (peerC.peerId idealOpen)).map EventRow.sent := by
  have hown := run_declaredOps idealOpen_laws idealOpen_injective peerC
  have hheard := run_heardOps idealOpen_laws idealOpen_injective (idealOpen_signsCorrectly peerC)
  let row : EventOriginRow Bytes :=
    ⟨peerC.peerId idealOpen, 1, 1, some (idealOpen.idOf (declareEvent idealOpen peerC))⟩
  have hrow : row ∈ (idealOpen.syncRun Store.empty (declaredOps idealOpen peerC)).eventOrigins := by
    rw [hown]
    exact List.mem_singleton.2 rfl
  have hrow' : row ∈ (idealOpen.syncRun Store.empty (heardOps idealOpen peerC)).eventOrigins := by
    rw [hheard]
    exact List.mem_singleton.2 rfl
  exact (heads_determine_chains idealOpen idealOpen_laws idealOpen_injective
    (declaredOps idealOpen peerC) (heardOps idealOpen peerC) row row hrow hrow' rfl).2

end OpenAgentGraph
