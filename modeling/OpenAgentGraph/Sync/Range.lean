/-
  The two handlers of a range of events (`oag-sync`: `server.rs`;
  `oag-reticulum`: `handlers.rs`), in a build with overflow checks and in one
  without.  A result `none` says that the handler panics.

  Without checks they are `getEvents` and `handleEvents`.
-/
import OpenAgentGraph.Lib.Checked
import OpenAgentGraph.Reticulum.Handlers

namespace OpenAgentGraph

open Lib Repo

/-- The last sequence number that one response holds. -/
def pageEndIn (checks : OverflowChecks) (lo hi : Int64) : Option Int64 := do
  let next ← checks.add lo maxEventsPerFetch
  let last ← checks.sub next 1
  return if hi ≤ last then hi else last

variable {H : Type} [DecidableEq H]

/-- The rows of one response. -/
def pageRows (checks : OverflowChecks) (s : Store H) (origin : H) (lo hi : UInt64) :
    Option (List (EventRow H)) := do
  let last ← pageEndIn checks lo.toInt64 hi.toInt64
  return listRange s.events origin lo.toInt64 last

variable (P : Prims H)

def Prims.getEventsIn (checks : OverflowChecks) (s : Store H) (originHex : String) (lo hi : UInt64) :
    Option (Except StatusCode (List SignedEvent)) :=
  match P.decodeHex32 originHex with
  | none => some (.error .badRequest)
  | some origin =>
    if hi < lo then some (.error .badRequest)
    else do
      let rows ← pageRows checks s origin lo hi
      return (rows.mapM fun row => P.signedFromSlice row.canonicalPayload).mapError
        fun _ => .internalServerError

def Prims.handleEventsIn (checks : OverflowChecks) (s : Store H) (originHex : String)
    (lo hi : UInt64) : Option (Except StorageError (List SignedEvent)) :=
  match P.decodeHex32 originHex with
  | none => some (.error (.badIdLength originHex.utf8ByteSize))
  | some origin => do
    let rows ← pageRows checks s origin lo hi
    return (rows.mapM fun row => P.signedFromSlice row.canonicalPayload).mapError .badMetadata

/-! ## Without checks -/

theorem pageEndIn_off (lo hi : Int64) : pageEndIn .off lo hi = some (Prims.pageEnd lo hi) := rfl

theorem pageRows_off (s : Store H) (origin : H) (lo hi : UInt64) : pageRows .off s origin lo hi
    = some (listRange s.events origin lo.toInt64 (Prims.pageEnd lo.toInt64 hi.toInt64)) := rfl

theorem getEventsIn_off (s : Store H) (originHex : String) (lo hi : UInt64) :
    P.getEventsIn .off s originHex lo hi = some (P.getEvents s originHex lo hi) := by
  unfold Prims.getEventsIn Prims.getEvents
  cases P.decodeHex32 originHex with
  | none => rfl
  | some origin =>
    simp only [pageRows_off]
    split
    · rfl
    · split <;> simp [*, Except.mapError]

theorem handleEventsIn_off (s : Store H) (originHex : String) (lo hi : UInt64) :
    P.handleEventsIn .off s originHex lo hi
      = some (Prims.Reticulum.handleEvents P s originHex lo hi) := by
  unfold Prims.handleEventsIn Prims.Reticulum.handleEvents
  cases P.decodeHex32 originHex with
  | none => rfl
  | some origin =>
    simp only [pageRows_off]
    split <;> simp [*, Except.mapError]

end OpenAgentGraph
