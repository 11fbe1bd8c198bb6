/-
  Peers that run the gateway and ask each other.

  The peers of a `Network` are finitely many; a URL leads to one of them or
  to nobody.  A query nests: a peer that is asked may ask others before it
  answers.  `serve` is cut off at a depth of nested queries, and then does not
  return; a resolution terminates when some depth is enough.
-/
import OpenAgentGraph.Gateway.Service

namespace OpenAgentGraph

variable {H : Type}

structure Network (H : Type) where
  size : ℕ
  peer : Fin size → GatewayState H
  /-- The peer that answers at a URL. -/
  route : String → Option (Fin size)

namespace Network

variable (net : Network H) {Ω : Type}

/-- A request to a URL of the network, and the response or its error status. -/
def post (serve : Fin net.size → GatewayRequest → Io Ω (Except Failure GatewayResponse)) : Post Ω :=
  fun url req =>
    match net.route url with
    | none => return .error (.failed "unreachable")
    | some i => do
      match ← serve i req with
      | .ok resp => return .ok resp
      | .error (.error e) => return .error (.answered e.status)
      | .error .panic => return .error (.failed "connection closed")

variable (P : Prims H) [DecidableEq H] (hosts : Fin net.size → Host Ω)

/-- How a peer answers a request, with at most `depth` queries nested. -/
def serve : ℕ → Fin net.size → GatewayRequest → Io Ω (Except Failure GatewayResponse)
  | 0, _, _ => fun _ => none
  | depth + 1, i, req => P.queryInner (hosts i) (net.post (serve depth)) (net.peer i) req

/-- A resolution at a peer, with at most `depth` queries nested below it. -/
def resolve (depth : ℕ) (i : Fin net.size) (service : GatewayService) (hops : UInt8)
    (path : List String) : Io Ω (Except Failure ResolvedQuery) :=
  P.resolveGatewayQuery (hosts i) (net.post (net.serve P hosts depth)) (net.peer i) service hops path

end Network

end OpenAgentGraph
