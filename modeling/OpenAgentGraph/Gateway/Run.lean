/-
  The queries of one peer's gateway, in any interleaving.

  `resolve_gateway_query` gives up control at its awaits: while it asks the
  query peers, before it stores the verified answer, and while it asks its
  origin or a relay peer.  Between these points other queries run and time
  passes.  A `GatewayAction` is what happens next; the outcomes of a fan-out
  and the answer of a single source are any.
-/
import OpenAgentGraph.Gateway.Service

namespace OpenAgentGraph

variable {H : Type}

/-! ## The state -/

/-- A fan-out that `aggregate_quorum` answered. -/
structure Verification (s : GatewayState H) where
  service : GatewayService
  outcomes : List PeerOutcome
  order : GroupOrder
  result : GatewayResult
  aggregated : aggregateQuorum order service outcomes s.config.ntpToleranceMs
    s.config.quorumMinAgree = .ok result

/-- What a query that the cache did not answer waits for. -/
inductive QueryTask (s : GatewayState H)
  | fanout (service : GatewayService)
  | store (v : Verification s)
  | unverified (service : GatewayService)
  | done

/-- An answer that was returned, and the instant at which it was. -/
structure Answer where
  service : GatewayService
  result : GatewayResult
  servedFrom : ServedFrom
  time : ℕ

structure GatewayRun (s : GatewayState H) where
  cache : GatewayCache := []
  /-- The monotonic clock, in nanoseconds. -/
  clock : ℕ := 0
  tasks : List (QueryTask s) := []
  /-- The aggregations so far, and the answers so far. -/
  verified : List (Verification s) := []
  answers : List Answer := []

/-! ## Steps -/

/-- The two sources of an answer that no quorum verified. -/
inductive SingleSource
  | origin
  | relay

def SingleSource.servedFrom : SingleSource → ServedFrom
  | .origin => .origin
  | .relay => .relay

inductive GatewayAction
  | tick (ns : ℕ)
  /-- A query arrives, and looks in the cache. -/
  | query (service : GatewayService)
  /-- The fan-out of a query is complete. -/
  | outcomes (task : ℕ) (outcomes : List PeerOutcome) (order : GroupOrder)
  | store (task : ℕ)
  /-- The own origin or a relay peer has answered, or none has. -/
  | single (task : ℕ) (answer : Option (GatewayResult × SingleSource))
  /-- A query is given up by its client. -/
  | cancel (task : ℕ)

/-- The cache after an answer is stored at the instant `now`. -/
def GatewayCache.put (c : GatewayCache) (service : GatewayService) (result : GatewayResult) (ttlMs now : ℕ) :
    GatewayCache :=
  if ttlMs = 0 then c
  else c.insert (GatewayCache.key service) { result := result, computedAt := now, ttlMs := ttlMs }

/-- What the cache answers at the instant `now`. -/
def GatewayCache.get (c : GatewayCache) (service : GatewayService) (now : ℕ) : Option GatewayResult :=
  (c.lookup (GatewayCache.key service)).bind fun entry => entry.fresh now

namespace GatewayRun

variable {s : GatewayState H}

def setTask (st : GatewayRun s) (i : ℕ) (task : QueryTask s) : GatewayRun s :=
  { st with tasks := st.tasks.set i task }

def answer (st : GatewayRun s) (service : GatewayService) (result : GatewayResult)
    (servedFrom : ServedFrom) : GatewayRun s :=
  { st with answers := st.answers ++ [⟨service, result, servedFrom, st.clock⟩] }

/-- The task of a query that the cache did not answer. -/
def missed (s : GatewayState H) (service : GatewayService) : QueryTask s :=
  if s.queryPeers ≠ [] then .fanout service else .unverified service

def query (st : GatewayRun s) (service : GatewayService) : GatewayRun s :=
  match st.cache.get service st.clock with
  | some result => st.answer service result .cache
  | none => { st with tasks := st.tasks ++ [missed s service] }

def outcomes (st : GatewayRun s) (i : ℕ) (outcomes : List PeerOutcome) (order : GroupOrder) :
    GatewayRun s :=
  match st.tasks[i]? with
  | some (.fanout service) =>
    match h : aggregateQuorum order service outcomes s.config.ntpToleranceMs s.config.quorumMinAgree with
    | .ok result =>
      let v : Verification s := ⟨service, outcomes, order, result, h⟩
      { st.setTask i (.store v) with verified := st.verified ++ [v] }
    | .error _ => st.setTask i .done
  | _ => st

def store (P : Prims H) (st : GatewayRun s) (i : ℕ) : GatewayRun s :=
  match st.tasks[i]? with
  | some (.store v) =>
    let ttl := P.computeCacheTtl v.service v.result s.config
    ({ st.setTask i .done with
      cache := st.cache.put v.service v.result ttl st.clock }).answer v.service v.result .quorum
  | _ => st

def single (st : GatewayRun s) (i : ℕ) (answer : Option (GatewayResult × SingleSource)) :
    GatewayRun s :=
  match st.tasks[i]?, answer with
  | some (.unverified service), some (result, source) =>
    (st.setTask i .done).answer service result source.servedFrom
  | some (.unverified _), none => st.setTask i .done
  | _, _ => st

def step (P : Prims H) (st : GatewayRun s) : GatewayAction → GatewayRun s
  | .tick ns => { st with clock := st.clock + ns }
  | .query service => st.query service
  | .outcomes i outcomes order => st.outcomes i outcomes order
  | .store i => st.store P i
  | .single i answer => st.single i answer
  | .cancel i => st.setTask i .done

def run (P : Prims H) (st : GatewayRun s) (actions : List GatewayAction) : GatewayRun s :=
  actions.foldl (step P) st

end GatewayRun

end OpenAgentGraph
