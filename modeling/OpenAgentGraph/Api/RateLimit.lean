/-
  The rate limiter of the HTTP interface (`oag-api`: `rate_limit.rs`).

  A check takes the time of its clock as an argument; the lock makes checks
  follow each other.  `count` is what a check does after the sweep, so a
  limiter that never sweeps is one that only counts.
-/
import OpenAgentGraph.Lib.Checked
import OpenAgentGraph.Lib.Table

namespace OpenAgentGraph

open Lib

/-- An entry of the map: when the window of its key started, and the checks in
    it. -/
structure RateEntry where
  key : String
  started : Nat
  count : UInt32
  deriving DecidableEq, Repr

/-- `RateLimiter`; times are in nanoseconds. -/
structure RateLimiter where
  windows : List RateEntry
  window : Nat
  maxRequestsPerWindow : UInt32
  sweepThreshold : Nat

namespace RateLimiter

def new (window : Nat) (maxRequestsPerWindow : UInt32) (sweepThreshold : Nat) : RateLimiter :=
  ⟨[], window, maxRequestsPerWindow, sweepThreshold⟩

/-- `RateLimiter::default`. -/
def default : RateLimiter := new (60 * 10 ^ 9) 120 10000

/-- `retain`, once the map is past the threshold. -/
def sweep (l : RateLimiter) (now : Nat) : RateLimiter :=
  if l.sweepThreshold < l.windows.length then
    { l with windows := l.windows.filter fun e => now - e.started ≤ l.window }
  else l

/-- The entry of the key, a new one if it has none. -/
def entryOrInsert (l : RateLimiter) (key : String) (now : Nat) : RateEntry :=
  (Table.find RateEntry.key key l.windows).getD ⟨key, now, 0⟩

def put (l : RateLimiter) (entry : RateEntry) : RateLimiter :=
  { l with
    windows := Table.upsert RateEntry.key entry
      (fun e => { e with started := entry.started, count := entry.count }) l.windows }

/-- The check without the sweep; none if the count overflows in a build that
    checks it. -/
def count (checks : OverflowChecks) (l : RateLimiter) (key : String) (now : Nat) :
    Option (RateLimiter × Bool) := do
  let entry := l.entryOrInsert key now
  let entry := if l.window < now - entry.started then ⟨key, now, 0⟩ else entry
  let count ← checks.inc32 entry.count
  return (l.put { entry with count }, count ≤ l.maxRequestsPerWindow)

/-- `RateLimiter::check`. -/
def check (checks : OverflowChecks) (l : RateLimiter) (key : String) (now : Nat) :
    Option (RateLimiter × Bool) :=
  (l.sweep now).count checks key now

/-- Checks that follow each other, and their results. -/
def run (step : RateLimiter → String → Nat → Option (RateLimiter × Bool)) :
    RateLimiter → List (String × Nat) → Option (RateLimiter × List Bool)
  | l, [] => some (l, [])
  | l, c :: cs => do
    let (l, r) ← step l c.1 c.2
    let (l, rs) ← run step l cs
    return (l, r :: rs)

end RateLimiter

end OpenAgentGraph
