/-
  The trust that one observer gives a peer (`oag-sync`: `trust.rs`).

  The score is an `f32`; its operations are a parameter, so that nothing here
  depends on rounding.
-/
import OpenAgentGraph.Storage.Repo

namespace OpenAgentGraph

open Lib Repo

variable {H : Type}

structure PeerPresenceRow (H : Type) where
  peerId : H
  sessionStartedAt : Int64
  lastHeartbeatAt : Int64
  status : String

structure AddressGoingOfflineRow (H : Type) where
  address : String
  announcedAt : Int64
  fromPeerId : H

/-- The tables of `peer_presence.rs`. -/
structure Presence (H : Type) where
  peerPresence : List (PeerPresenceRow H)
  addressGoingOffline : List (AddressGoingOfflineRow H)

/-- The arithmetic of `f32`. -/
structure F32Ops (F : Type) where
  zero : F
  one : F
  /-- `ANNOUNCED_RESTART_STARTING_TRUST`, 0.3. -/
  announcedRestartStartingTrust : F
  ofInt : Int64 → F
  add : F → F → F
  sub : F → F → F
  mul : F → F → F
  div : F → F → F
  clamp : F → F → F → F

def staleMultiplier : Int64 := 3

structure TrustConfig where
  heartbeatIntervalSeconds : Int64 := 30
  trustRebuildSeconds : Int64 := 3600
  announcedRestartGraceSeconds : Int64 := 300

section score

variable {F : Type} (f : F32Ops F)

def rebuildFraction (sessionStartedAt asOf : Int64) (cfg : TrustConfig) (announcedRestart : Bool) :
    F :=
  let continuous := asOf - sessionStartedAt
  let continuousSeconds := f.ofInt (if continuous < 0 then 0 else continuous)
  let startingPoint := if announcedRestart then f.announcedRestartStartingTrust else f.zero
  let rebuiltFraction := f.clamp (f.div continuousSeconds (f.ofInt cfg.trustRebuildSeconds))
    f.zero f.one
  f.add startingPoint (f.mul rebuiltFraction (f.sub f.one startingPoint))

def trustScore (presence : Option (PeerPresenceRow H)) (forked announcedRestart : Bool)
    (now : Int64) (cfg : TrustConfig) : F :=
  if forked then f.zero
  else
    match presence with
    | none => f.zero
    | some presence =>
      let silence := now - presence.lastHeartbeatAt
      let staleAfter := cfg.heartbeatIntervalSeconds * staleMultiplier
      if silence ≤ staleAfter then
        f.clamp (rebuildFraction f presence.sessionStartedAt now cfg announcedRestart) f.zero f.one
      else
        -- it decays from the trust it had when it went silent
        let trustAtSilence := rebuildFraction f presence.sessionStartedAt presence.lastHeartbeatAt
          cfg announcedRestart
        let decayElapsed := f.ofInt (silence - staleAfter)
        let decayFraction := f.clamp (f.div decayElapsed (f.ofInt cfg.trustRebuildSeconds))
          f.zero f.one
        f.clamp (f.mul trustAtSilence (f.sub f.one decayFraction)) f.zero f.one

variable [DecidableEq H]

/-- An address of the peer announced that it goes offline, shortly before this
    session. -/
def announcedRestart (s : Store H) (presence : Presence H) (peerId : H)
    (row : PeerPresenceRow H) (now : Int64) (cfg : TrustConfig) : Bool :=
  (listAddresses s.peerAddresses peerId).any fun address =>
    match Table.find AddressGoingOfflineRow.address address presence.addressGoingOffline with
    | none => false
    | some offline => decide (now - offline.announcedAt ≤ cfg.announcedRestartGraceSeconds) &&
        decide (offline.announcedAt ≤ row.sessionStartedAt)

def computeTrust (s : Store H) (presence : Presence H) (peerId : H) (now : Int64)
    (cfg : TrustConfig) : Except StorageError F := do
  let info ← getPeer s.peers peerId
  let forked := (info.map PeerInfo.forked).getD false
  let row := Table.find PeerPresenceRow.peerId peerId presence.peerPresence
  let announced := match row with
    | some row => announcedRestart s presence peerId row now cfg
    | none => false
  return trustScore f row forked announced now cfg

end score

end OpenAgentGraph
