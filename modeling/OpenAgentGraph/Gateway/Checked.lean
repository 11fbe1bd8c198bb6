/-
  The arithmetic of the gateway (`oag-api`: `gateway.rs`), every operation
  checked: a result `none` says that a sum, a difference or an absolute value
  leaves the range of `i64`.
-/
import OpenAgentGraph.Gateway.Service
import OpenAgentGraph.Lib.Checked

namespace OpenAgentGraph

open Lib

/-- `(a - b).abs()`. -/
def absDiffChecked (a b : Int64) : Option Int64 := do
  let difference ← checkedSub a b
  checkedAbs difference

/-- A time moves on by half the round trip. -/
def addHalfRttChecked (result : GatewayResult) (rttNs : ℕ) : Option GatewayResult :=
  match result with
  | .ntp t => .ntp <$> checkedAdd t (Int64.ofNat (rttNs / 1000000) / 2)
  | other => some other

/-- A cached time moves on with the clock. -/
def adjustForElapsedChecked (result : GatewayResult) (elapsedNs : ℕ) : Option GatewayResult :=
  match result with
  | .ntp t => .ntp <$> checkedAdd t (Int64.ofNat (elapsedNs / 1000000))
  | other => some other

/-- The values within the tolerance of `v`. -/
def clusterChecked (tolerance : Int64) (v : Int64) : List Int64 → Option (List Int64)
  | [] => some []
  | o :: rest => do
    let distance ← absDiffChecked o v
    let near ← clusterChecked tolerance v rest
    return if distance ≤ tolerance then o :: near else near

/-- The first of the largest clusters. -/
def bestClusterChecked (tolerance : Int64) (values : List Int64) : Option (List Int64) :=
  values.foldlM (fun best v => do
    let near ← clusterChecked tolerance v values
    return if best.length < near.length then near else best) []

def aggregateNtpChecked (outcomes : List PeerOutcome) (tolerance : Int64) (minAgree : ℕ) :
    Option (Except Failure GatewayResult) := do
  let best ← bestClusterChecked tolerance (ntpValues outcomes)
  return if best.length < minAgree then .error (.error .noQuorum)
    else
      match (best.mergeSort fun a b => decide (a ≤ b))[best.length / 2]? with
      | some median => .ok (.ntp median)
      | none => .error .panic

def aggregateQuorumChecked (order : GroupOrder) (service : GatewayService)
    (outcomes : List PeerOutcome) (tolerance : Int64) (minAgree : ℕ) :
    Option (Except Failure GatewayResult) :=
  match service with
  | .ntp => aggregateNtpChecked outcomes tolerance minAgree
  | .http _ => some (aggregateHttp order outcomes minAgree)

end OpenAgentGraph
