/-
  The NTPv4 packets of the gateway (`oag-api`: `ntp_wire.rs`).

  A timestamp on the wire is a 32-bit number of seconds since 1900 and a 32-bit
  fraction of a second; the gateway itself counts milliseconds since 1970.
-/
import OpenAgentGraph.Lib.Rescale
import OpenAgentGraph.Reticulum.Framing

namespace OpenAgentGraph

open Lib

/-! ## Parts of a buffer -/

/-- `buf[i..j]`, for a range inside the buffer. -/
def slice (buf : Bytes) (i j : ℕ) : Bytes := (buf.drop i).take (j - i)

/-- `buf[i..i + src.len()].copy_from_slice(src)`, for a range inside the
    buffer. -/
def copyFromSlice (buf : Bytes) (i : ℕ) (src : Bytes) : Bytes :=
  buf.take i ++ src ++ buf.drop (i + src.length)

/-! ## Timestamps -/

/-- `NTP_UNIX_EPOCH_DELTA_SECONDS`: from 1900-01-01 to 1970-01-01. -/
def ntpUnixEpochDeltaSeconds : ℕ := 2208988800

def ntpPacketLen : ℕ := 48

/-- The seconds and the fraction, each cut to 32 bits.  Nothing before the cut
    leaves the range of `u64`. -/
def unixMsToNtpTimestamp (unixMs : Int64) : ℕ × ℕ :=
  let unixMs := unixMs.toInt.toNat
  let unixSeconds := unixMs / 1000
  let msFraction := unixMs % 1000
  let ntpSeconds := (unixSeconds + ntpUnixEpochDeltaSeconds) % 2 ^ 32
  let ntpFraction := rescale 1000 (2 ^ 32) msFraction % 2 ^ 32
  (ntpSeconds, ntpFraction)

/-- For two 32-bit numbers; the result is in the range of `i64`. -/
def ntpTimestampToUnixMs (seconds fraction : ℕ) : Int64 :=
  let unixSeconds : ℤ := seconds - ntpUnixEpochDeltaSeconds
  let msFraction := rescale (2 ^ 32) 1000 fraction
  .ofInt (unixSeconds * 1000 + msFraction)

def writeTimestamp (buf : Bytes) (offset : ℕ) (unixMs : Int64) : Bytes :=
  let (seconds, fraction) := unixMsToNtpTimestamp unixMs
  let buf := copyFromSlice buf offset (u32ToBeBytes seconds)
  copyFromSlice buf (offset + 4) (u32ToBeBytes fraction)

def readTimestamp (buf : Bytes) (offset : ℕ) : Int64 :=
  let seconds := u32FromBeBytes (slice buf offset (offset + 4))
  let fraction := u32FromBeBytes (slice buf (offset + 4) (offset + 8))
  ntpTimestampToUnixMs seconds fraction

/-! ## Packets -/

/-- A mode-3 (client) packet with the Transmit Timestamp (T1). -/
def buildClientRequest (transmitUnixMs : Int64) : Bytes :=
  let buf := List.replicate ntpPacketLen 0
  let buf := buf.set 0 0x23
  writeTimestamp buf 40 transmitUnixMs

structure ClientRequestInfo where
  transmitUnixMs : Int64
  deriving DecidableEq

def parseClientRequest (buf : Bytes) : Option ClientRequestInfo :=
  if buf.length < ntpPacketLen then none
  else
    let mode := buf.getD 0 0 &&& 0b00000111
    if mode ≠ 3 then none
    else some ⟨readTimestamp buf 40⟩

/-- The header of a mode-4 (server) packet: stratum 2, the reference id `OAGG`,
    and no timestamp yet. -/
def serverHeader : Bytes :=
  let buf := List.replicate ntpPacketLen 0
  let buf := buf.set 0 0x24
  let buf := buf.set 1 2
  let buf := buf.set 2 4
  let buf := buf.set 3 0xEC
  copyFromSlice buf 12 [0x4F, 0x41, 0x47, 0x47]

def buildServerResponse (originUnixMs verifiedUnixMs : Int64) : Bytes :=
  let buf := writeTimestamp serverHeader 16 verifiedUnixMs
  let buf := writeTimestamp buf 24 originUnixMs
  let buf := writeTimestamp buf 32 verifiedUnixMs
  writeTimestamp buf 40 verifiedUnixMs

end OpenAgentGraph
