/-
  The trust that a service asks for (`oag-sync`: `service.rs`,
  `with_minimum_trust`), and the scores over the rationals, where no rounding
  occurs.
-/
import OpenAgentGraph.Sync.Service
import OpenAgentGraph.Sync.Trust

namespace OpenAgentGraph

variable {H F : Type}

/-- The arithmetic of `f32` without rounding. -/
def exactOps : F32Ops ℚ where
  zero := 0
  one := 1
  announcedRestartStartingTrust := 3 / 10
  ofInt x := x.toInt
  add x y := x + y
  sub x y := x - y
  mul x y := x * y
  div x y := x / y
  clamp x lo hi := max lo (min x hi)

/-- `EPHEMERAL_MINIMUM_TRUST`, the least positive normal `f32`. -/
def ephemeralMinimumTrust : ℚ := 1 / 2 ^ 126

/-- With a positive minimum, `federation_allows` compares the score to it; a
    failed lookup is no trust. -/
def SyncService.withMinimumTrust [DecidableEq H] [LE F] [DecidableLE F] (svc : SyncService H)
    (f : F32Ops F) (presence : Presence H) (minimumTrust : F) (cfg : TrustConfig) : SyncService H :=
  { svc with
    trusted := if minimumTrust ≤ f.zero then none
      else some fun s peerId now =>
        match computeTrust f s presence peerId now cfg with
        | .ok score => decide (minimumTrust ≤ score)
        | .error _ => false }

end OpenAgentGraph
