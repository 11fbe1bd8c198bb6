/-
  The trust score (`oag-sync`: `trust.rs`) in a build with or without overflow
  checks: a result `none` says that a difference or a product leaves the range
  of `i64`.
-/
import OpenAgentGraph.Lib.Checked
import OpenAgentGraph.Sync.Trust

namespace OpenAgentGraph

open Lib Repo

variable {H F : Type} (checks : OverflowChecks) (f : F32Ops F)

def rebuildFractionIn (sessionStartedAt asOf : Int64) (cfg : TrustConfig) (announcedRestart : Bool) :
    Option F := do
  let continuous ← checks.sub asOf sessionStartedAt
  let continuousSeconds := f.ofInt (if continuous < 0 then 0 else continuous)
  let startingPoint := if announcedRestart then f.announcedRestartStartingTrust else f.zero
  let rebuiltFraction := f.clamp (f.div continuousSeconds (f.ofInt cfg.trustRebuildSeconds))
    f.zero f.one
  return f.add startingPoint (f.mul rebuiltFraction (f.sub f.one startingPoint))

def trustScoreIn (presence : Option (PeerPresenceRow H)) (forked announcedRestart : Bool)
    (now : Int64) (cfg : TrustConfig) : Option F :=
  if forked then some f.zero
  else
    match presence with
    | none => some f.zero
    | some presence => do
      let silence ← checks.sub now presence.lastHeartbeatAt
      let staleAfter ← checks.mul cfg.heartbeatIntervalSeconds staleMultiplier
      if silence ≤ staleAfter then
        let fraction ← rebuildFractionIn checks f presence.sessionStartedAt now cfg announcedRestart
        return f.clamp fraction f.zero f.one
      else
        let trustAtSilence ← rebuildFractionIn checks f presence.sessionStartedAt
          presence.lastHeartbeatAt cfg announcedRestart
        let decayElapsed ← checks.sub silence staleAfter
        let decayFraction := f.clamp (f.div (f.ofInt decayElapsed) (f.ofInt cfg.trustRebuildSeconds))
          f.zero f.one
        return f.clamp (f.mul trustAtSilence (f.sub f.one decayFraction)) f.zero f.one

/-- The search for an announcement stops at the first one that explains the session. -/
def announcedRestartIn (presence : Presence H) (row : PeerPresenceRow H) (now : Int64)
    (cfg : TrustConfig) : List String → Option Bool
  | [] => some false
  | address :: rest =>
    match Table.find AddressGoingOfflineRow.address address presence.addressGoingOffline with
    | none => announcedRestartIn presence row now cfg rest
    | some offline => do
      let elapsed ← checks.sub now offline.announcedAt
      if elapsed ≤ cfg.announcedRestartGraceSeconds && offline.announcedAt ≤ row.sessionStartedAt then
        return true
      else announcedRestartIn presence row now cfg rest

variable [DecidableEq H]

def computeTrustIn (s : Store H) (presence : Presence H) (peerId : H) (now : Int64)
    (cfg : TrustConfig) : Except StorageError (Option F) := do
  let info ← getPeer s.peers peerId
  let forked := (info.map PeerInfo.forked).getD false
  let row := Table.find PeerPresenceRow.peerId peerId presence.peerPresence
  return do
    let announced ← match row with
      | some row => announcedRestartIn checks presence row now cfg (listAddresses s.peerAddresses peerId)
      | none => some false
    trustScoreIn checks f row forked announced now cfg

end OpenAgentGraph
