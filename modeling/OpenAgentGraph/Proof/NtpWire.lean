/-
  The timestamps of the NTP front end.

  Milliseconds become a 32-bit fraction, rounded down, and the fraction becomes
  milliseconds, rounded down again: at most one millisecond is lost on the way
  to the wire and back (`keptMs`).  The seconds are cut to 32 bits, and those of
  NTP run out in 2036.  On the way from the wire and back, only a fraction of
  whole eighths of a second survives.
-/
import OpenAgentGraph.Gateway.NtpWire
import OpenAgentGraph.Proof.Reassembly

namespace OpenAgentGraph

open Lib

/-! ## Parts of a buffer -/

section
variable {buf src : Bytes} {i j k offset : ℕ} {ms : Int64}

@[simp] theorem length_slice (h : j ≤ buf.length) : (slice buf i j).length = j - i := by
  rw [slice, List.length_take, List.length_drop]
  omega

@[simp] theorem length_copyFromSlice (h : i + src.length ≤ buf.length) :
    (copyFromSlice buf i src).length = buf.length := by
  simp only [copyFromSlice, List.length_append, List.length_take, List.length_drop]
  omega

theorem slice_copy_same (h : i + src.length ≤ buf.length) (hj : j = i + src.length) :
    slice (copyFromSlice buf i src) i j = src := by
  subst hj
  have hlen : (buf.take i).length = i := by
    rw [List.length_take]
    omega
  rw [slice, copyFromSlice, List.append_assoc, List.drop_left' hlen, Nat.add_sub_cancel_left,
    List.take_left' rfl]

/-- A write changes its own range only. -/
theorem getElem?_copyFromSlice (h : i + src.length ≤ buf.length) (hk : k < i ∨ i + src.length ≤ k) :
    (copyFromSlice buf i src)[k]? = buf[k]? := by
  have hlen : (buf.take i).length = i := by
    rw [List.length_take]
    omega
  rw [copyFromSlice, List.append_assoc]
  rcases hk with hk | hk
  · rw [List.getElem?_append_left (by omega), List.getElem?_take_of_lt hk]
  · rw [List.getElem?_append_right (by omega), List.getElem?_append_right (by omega),
      List.getElem?_drop, hlen]
    congr 1
    omega

theorem slice_copy_other (h : i + src.length ≤ buf.length) (hj : j ≤ i ∨ i + src.length ≤ k) :
    slice (copyFromSlice buf i src) k j = slice buf k j := by
  ext m : 1
  simp only [slice, List.getElem?_take, List.getElem?_drop]
  split_ifs with hm
  · rw [getElem?_copyFromSlice h (by omega)]
  · rfl

theorem slice_append (hij : i ≤ j) (hjk : j ≤ k) : slice buf i j ++ slice buf j k = slice buf i k := by
  have hi : slice buf j k = ((buf.drop i).drop (j - i)).take (k - j) := by
    rw [slice, List.drop_drop, Nat.add_sub_cancel' hij]
  rw [hi, slice, slice, ← List.take_add]
  congr 1
  omega

/-- Two writes side by side are one. -/
theorem copyFromSlice_append {a b : Bytes} (h : i + a.length ≤ buf.length) :
    copyFromSlice (copyFromSlice buf i a) (i + a.length) b = copyFromSlice buf i (a ++ b) := by
  have hlen : (buf.take i ++ a).length = i + a.length := by
    rw [List.length_append, List.length_take]
    omega
  have htake : (copyFromSlice buf i a).take (i + a.length) = buf.take i ++ a := by
    rw [copyFromSlice, List.take_left' hlen]
  have hdrop : (copyFromSlice buf i a).drop (i + a.length + b.length) =
      buf.drop (i + (a ++ b).length) := by
    rw [copyFromSlice, ← List.drop_drop, List.drop_left' hlen, List.drop_drop, List.length_append,
      ← Nat.add_assoc]
  rw [copyFromSlice, htake, hdrop, copyFromSlice, List.append_assoc (buf.take i) a b]

/-- The eight bytes of a timestamp. -/
def timestampBytes (ms : Int64) : Bytes :=
  u32ToBeBytes (unixMsToNtpTimestamp ms).1 ++ u32ToBeBytes (unixMsToNtpTimestamp ms).2

theorem length_timestampBytes (ms : Int64) : (timestampBytes ms).length = 8 := rfl

theorem writeTimestamp_eq (h : offset + 8 ≤ buf.length) :
    writeTimestamp buf offset ms = copyFromSlice buf offset (timestampBytes ms) :=
  copyFromSlice_append (a := u32ToBeBytes (unixMsToNtpTimestamp ms).1) (by
    show offset + 4 ≤ _
    omega)

theorem length_writeTimestamp (h : offset + 8 ≤ buf.length) :
    (writeTimestamp buf offset ms).length = buf.length := by
  rw [writeTimestamp_eq h, length_copyFromSlice h]

theorem slice_writeTimestamp (h : offset + 8 ≤ buf.length) :
    slice (writeTimestamp buf offset ms) offset (offset + 8) = timestampBytes ms := by
  rw [writeTimestamp_eq h]
  exact slice_copy_same h rfl

theorem slice_writeTimestamp_other (h : offset + 8 ≤ buf.length) (hj : j ≤ offset ∨ offset + 8 ≤ k) :
    slice (writeTimestamp buf offset ms) k j = slice buf k j := by
  rw [writeTimestamp_eq h, slice_copy_other h hj]

/-! ## Reading what was written -/

theorem ntp_seconds_eq (ms : Int64) :
    (unixMsToNtpTimestamp ms).1 = (ms.toInt.toNat / 1000 + 2208988800) % 2 ^ 32 := rfl

theorem ntp_seconds_lt (ms : Int64) : (unixMsToNtpTimestamp ms).1 < 2 ^ 32 :=
  Nat.mod_lt _ (by norm_num)

theorem ntp_fraction_lt (ms : Int64) : (unixMsToNtpTimestamp ms).2 < 2 ^ 32 :=
  Nat.mod_lt _ (by norm_num)

theorem ntp_fraction_eq (ms : Int64) :
    (unixMsToNtpTimestamp ms).2 = rescale 1000 (2 ^ 32) (ms.toInt.toNat % 1000) :=
  Nat.mod_eq_of_lt (rescale_lt (by norm_num) (Nat.mod_lt _ (by norm_num)) (by norm_num))

/-- The halves of a field of eight bytes. -/
theorem slice_halves {bytes : Bytes} (h : slice buf offset (offset + 8) = bytes) :
    slice buf offset (offset + 4) = bytes.take 4 ∧
      slice buf (offset + 4) (offset + 8) = (bytes.drop 4).take 4 := by
  subst h
  refine ⟨?_, ?_⟩
  · rw [slice, slice, List.take_take]
    congr 1
    omega
  · rw [slice, slice, List.drop_take, List.drop_drop, List.take_take]
    congr 1
    omega

theorem readTimestamp_writeTimestamp (h : offset + 8 ≤ buf.length) :
    readTimestamp (writeTimestamp buf offset ms) offset =
      ntpTimestampToUnixMs (unixMsToNtpTimestamp ms).1 (unixMsToNtpTimestamp ms).2 := by
  obtain ⟨hsec, hfrac⟩ := slice_halves (slice_writeTimestamp h : _ = timestampBytes ms)
  rw [readTimestamp, hsec, hfrac]
  show ntpTimestampToUnixMs (u32FromBeBytes (u32ToBeBytes _)) (u32FromBeBytes (u32ToBeBytes _)) = _
  rw [u32FromBeBytes_toBeBytes (ntp_seconds_lt ms), u32FromBeBytes_toBeBytes (ntp_fraction_lt ms)]

end

/-! ## From milliseconds to the wire and back -/

/-- The milliseconds that are left of `x` after the way to the wire and back. -/
def keptMs (x : ℕ) : ℕ := x / 1000 * 1000 + rescale (2 ^ 32) 1000 (rescale 1000 (2 ^ 32) (x % 1000))

theorem keptMs_le (x : ℕ) : keptMs x ≤ x := by
  have h := rescale_rescale_le 1000 (2 ^ 32) (x % 1000)
  have hx := Nat.div_add_mod' x 1000
  unfold keptMs
  omega

theorem le_keptMs (x : ℕ) : x ≤ keptMs x + 1 := by
  have h := le_rescale_rescale (a := 1000) (b := 2 ^ 32) (by norm_num) (by norm_num) (x % 1000)
  have hx := Nat.div_add_mod' x 1000
  unfold keptMs
  omega

theorem keptMs_mono {x y : ℕ} (h : x ≤ y) : keptMs x ≤ keptMs y := by
  have hx := Nat.div_add_mod' x 1000
  have hy := Nat.div_add_mod' y 1000
  rcases Nat.lt_or_eq_of_le (Nat.div_le_div_right (c := 1000) h) with hsec | hsec
  · -- in an earlier second
    have hround := rescale_rescale_le 1000 (2 ^ 32) (x % 1000)
    have hlt := Nat.mod_lt x (by norm_num : 0 < 1000)
    unfold keptMs
    omega
  · -- in the same one
    have hfrac : rescale (2 ^ 32) 1000 (rescale 1000 (2 ^ 32) (x % 1000)) ≤
        rescale (2 ^ 32) 1000 (rescale 1000 (2 ^ 32) (y % 1000)) :=
      rescale_mono _ _ (rescale_mono _ _ (by omega))
    unfold keptMs
    omega

/-- 2036-02-07T06:28:16Z, when the seconds of NTP no longer fit into 32 bits. -/
def ntpRolloverMs : ℤ := 2085978496000

/-- 2100-12-31T23:59:59.999Z -/
def endOf2100Ms : ℤ := 4133980799999

/-- What is decoded is the time, to a millisecond; after the rollover it is that
    of 2³² seconds earlier. -/
theorem toInt_decoded {ms : Int64} (h0 : 0 ≤ ms.toInt) (hend : ms.toInt ≤ endOf2100Ms) :
    (ntpTimestampToUnixMs (unixMsToNtpTimestamp ms).1 (unixMsToNtpTimestamp ms).2).toInt =
      keptMs ms.toInt.toNat - if ms.toInt < ntpRolloverMs then 0 else 2 ^ 32 * 1000 := by
  obtain ⟨x, hx⟩ := Int.eq_ofNat_of_zero_le h0
  have hnat : ms.toInt.toNat = x := by
    rw [hx]
    rfl
  have hle := keptMs_le x
  have hsec : (unixMsToNtpTimestamp ms).1 = (x / 1000 + 2208988800) % 2 ^ 32 := by
    rw [ntp_seconds_eq, hnat]
  have hfrac : rescale (2 ^ 32) 1000 (unixMsToNtpTimestamp ms).2 = keptMs x - x / 1000 * 1000 := by
    rw [ntp_fraction_eq, hnat]
    exact (Nat.add_sub_cancel_left ..).symm
  have hkept : x / 1000 * 1000 ≤ keptMs x := Nat.le_add_right _ _
  rw [hx] at hend ⊢
  simp only [endOf2100Ms, ntpRolloverMs, Int.toNat_natCast] at hend ⊢
  rw [ntpTimestampToUnixMs, hfrac, hsec]
  simp only [ntpUnixEpochDeltaSeconds]
  rw [Int64.toInt_ofInt_of_le]
  · split_ifs <;> omega
  · omega
  · omega

theorem toInt_read_written {buf : Bytes} {offset : ℕ} {ms : Int64} (hbuf : offset + 8 ≤ buf.length)
    (h0 : 0 ≤ ms.toInt) (hend : ms.toInt ≤ endOf2100Ms) :
    (readTimestamp (writeTimestamp buf offset ms) offset).toInt =
      keptMs ms.toInt.toNat - if ms.toInt < ntpRolloverMs then 0 else 2 ^ 32 * 1000 := by
  rw [readTimestamp_writeTimestamp hbuf, toInt_decoded h0 hend]

/-- **The codec keeps a time to a millisecond, and the order of two, up to the
    rollover of 2036 and not beyond it.** -/
theorem ntp_codec_iff {buf : Bytes} {offset : ℕ} (hbuf : offset + 8 ≤ buf.length) {a b : Int64}
    (h0 : 0 ≤ a.toInt) (hab : a ≤ b) (hend : b.toInt ≤ endOf2100Ms) :
    (|(readTimestamp (writeTimestamp buf offset a) offset).toInt - a.toInt| ≤ 1 ↔
        a.toInt < ntpRolloverMs) ∧
      (readTimestamp (writeTimestamp buf offset a) offset ≤
          readTimestamp (writeTimestamp buf offset b) offset ↔
        ¬ (a.toInt < ntpRolloverMs ∧ ntpRolloverMs ≤ b.toInt)) := by
  rw [Int64.le_iff_toInt_le] at hab ⊢
  rw [toInt_read_written hbuf h0 (hab.trans hend), toInt_read_written hbuf (h0.trans hab) hend]
  have hle := keptMs_le a.toInt.toNat
  have hge := le_keptMs a.toInt.toNat
  have hle' := keptMs_le b.toInt.toNat
  have hmono : keptMs a.toInt.toNat ≤ keptMs b.toInt.toNat := keptMs_mono (Int.toNat_le_toNat hab)
  simp only [endOf2100Ms, ntpRolloverMs] at *
  refine ⟨?_, ?_⟩
  · rw [abs_le]
    split_ifs <;> omega
  · split_ifs <;> omega

theorem ntp_codec_2023 :
    |(readTimestamp (writeTimestamp serverHeader 40 1700000000123) 40).toInt - 1700000000123| ≤ 1 ∧
      readTimestamp (writeTimestamp serverHeader 40 1700000000123) 40 ≤
        readTimestamp (writeTimestamp serverHeader 40 1800000000000) 40 := by
  have hfits : 40 + 8 ≤ serverHeader.length := by decide
  obtain ⟨hnear, hmono⟩ := ntp_codec_iff hfits
    (a := 1700000000123) (b := 1800000000000) (by decide) (by decide) (by decide)
  exact ⟨hnear.2 (by decide), hmono.2 (by decide)⟩

/-- The first millisecond after the rollover is one of 1900, before the last
    millisecond in front of it. -/
theorem ntp_codec_fails_at_rollover :
    (2085978496000 : Int64).toInt ≤ endOf2100Ms ∧
      ¬ |(readTimestamp (writeTimestamp serverHeader 40 2085978496000) 40).toInt - 2085978496000| ≤ 1 ∧
      ¬ readTimestamp (writeTimestamp serverHeader 40 2085978495999) 40 ≤
        readTimestamp (writeTimestamp serverHeader 40 2085978496000) 40 := by
  have hfits : 40 + 8 ≤ serverHeader.length := by decide
  have h0 : 0 ≤ (2085978496000 : Int64).toInt := by decide
  have h0' : 0 ≤ (2085978495999 : Int64).toInt := by decide
  have hafter := toInt_read_written hfits h0 (by decide)
  have hbefore := toInt_read_written hfits h0' (by decide)
  have hle := keptMs_le (Int64.toInt 2085978496000).toNat
  have hms : (Int64.toInt 2085978496000).toNat = 2085978496000 := by decide
  rw [if_neg (by decide), hms] at hafter
  rw [if_pos (by decide)] at hbefore
  rw [hms] at hle
  refine ⟨by decide, ?_, ?_⟩
  · rw [hafter, abs_le]
    omega
  · rw [Int64.le_iff_toInt_le, hafter, hbefore]
    omega

/-! ## From the wire to milliseconds and back -/

theorem u32FromBeBytes_lt {b : Bytes} (h : b.length = 4) : u32FromBeBytes b < 2 ^ 32 := by
  obtain ⟨w, x, y, z, rfl⟩ : ∃ w x y z, b = [w, x, y, z] := List.length_eq_four.1 h
  have hw := w.toNat_lt
  have hx := x.toNat_lt
  have hy := y.toNat_lt
  have hz := z.toNat_lt
  simp only [u32FromBeBytes, List.foldl_cons, List.foldl_nil]
  omega

theorem u32ToBeBytes_fromBeBytes {b : Bytes} (h : b.length = 4) : u32ToBeBytes (u32FromBeBytes b) = b := by
  obtain ⟨w, x, y, z, rfl⟩ : ∃ w x y z, b = [w, x, y, z] := List.length_eq_four.1 h
  have hw := w.toNat_lt
  have hx := x.toNat_lt
  have hy := y.toNat_lt
  have hz := z.toNat_lt
  simp only [u32FromBeBytes, u32ToBeBytes, List.foldl_cons, List.foldl_nil, List.cons.injEq, and_true]
  refine ⟨?_, ?_, ?_, ?_⟩ <;>
  · rw [← UInt8.toNat_inj, UInt8.toNat_ofNat']
    omega

theorem seconds_kept {seconds r : ℕ} (hs : seconds < 2 ^ 32) (hr : r < 1000)
    (h : 2208988800 ≤ seconds) :
    ((1000 * (seconds - 2208988800) + r) / 1000 + 2208988800) % 2 ^ 32 = seconds := by
  have hdiv : (1000 * (seconds - 2208988800) + r) / 1000 = seconds - 2208988800 := by
    omega
  rw [hdiv, Nat.sub_add_cancel h, Nat.mod_eq_of_lt hs]

/-- Both seconds and fraction survive the way to milliseconds and back where the
    time is not before 1970 and the fraction is one of whole eighths of a
    second. -/
theorem reencode_iff {seconds fraction : ℕ} (hs : seconds < 2 ^ 32) (hf : fraction < 2 ^ 32) :
    unixMsToNtpTimestamp (ntpTimestampToUnixMs seconds fraction) = (seconds, fraction) ↔
      ntpUnixEpochDeltaSeconds ≤ seconds ∧ 2 ^ 29 ∣ fraction := by
  have hms : rescale (2 ^ 32) 1000 fraction < 1000 := rescale_lt (by norm_num) hf (by norm_num)
  have hvalue : (ntpTimestampToUnixMs seconds fraction).toInt =
      ((seconds : ℤ) - 2208988800) * 1000 + (rescale (2 ^ 32) 1000 fraction : ℕ) := by
    rw [ntpTimestampToUnixMs, Int64.toInt_ofInt_of_le] <;> simp only [ntpUnixEpochDeltaSeconds] <;> omega
  rw [ntpUnixEpochDeltaSeconds]
  by_cases hepoch : 2208988800 ≤ seconds
  · have hnat : (ntpTimestampToUnixMs seconds fraction).toInt.toNat =
        1000 * (seconds - 2208988800) + rescale (2 ^ 32) 1000 fraction := by
      omega
    have hsec : (unixMsToNtpTimestamp (ntpTimestampToUnixMs seconds fraction)).1 = seconds := by
      rw [ntp_seconds_eq, hnat]
      exact seconds_kept hs hms hepoch
    have hfrac : (unixMsToNtpTimestamp (ntpTimestampToUnixMs seconds fraction)).2 =
        rescale 1000 (2 ^ 32) (rescale (2 ^ 32) 1000 fraction) := by
      rw [ntp_fraction_eq, hnat, Nat.mul_add_mod, Nat.mod_eq_of_lt hms]
    rw [Prod.ext_iff, hsec, hfrac, rescale_rescale_eq_iff (by norm_num)]
    simp only [true_and, hepoch]
    omega
  · -- clamped to 1970
    have hzero : (ntpTimestampToUnixMs seconds fraction).toInt.toNat = 0 := by
      omega
    have hsec : (unixMsToNtpTimestamp (ntpTimestampToUnixMs seconds fraction)).1 = 2208988800 := by
      rw [ntp_seconds_eq, hzero]
      norm_num
    refine iff_of_false (fun heq => ?_) (fun h => hepoch h.1)
    rw [heq] at hsec
    exact hepoch hsec.ge

theorem parseClientRequest_eq_some {datagram : Bytes} {info : ClientRequestInfo}
    (h : parseClientRequest datagram = some info) :
    ntpPacketLen ≤ datagram.length ∧ info.transmitUnixMs = readTimestamp datagram 40 := by
  unfold parseClientRequest at h
  by_cases hlen : datagram.length < ntpPacketLen
  · rw [if_pos hlen] at h
    cases h
  · rw [if_neg hlen] at h
    by_cases hmode : datagram.getD 0 0 &&& 0b00000111 ≠ 3
    · rw [if_pos hmode] at h
      cases h
    · rw [if_neg hmode] at h
      cases h
      exact ⟨Nat.le_of_not_lt hlen, rfl⟩

/-- Bytes 24 to 31 of an answer. -/
theorem slice_origin (origin verified : Int64) :
    slice (buildServerResponse origin verified) 24 32 = timestampBytes origin := by
  have hheader : serverHeader.length = 48 := rfl
  have hreference : (writeTimestamp serverHeader 16 verified).length = 48 := by
    rw [length_writeTimestamp (by decide), hheader]
  have horigin : (writeTimestamp (writeTimestamp serverHeader 16 verified) 24 origin).length = 48 := by
    rw [length_writeTimestamp (by omega), hreference]
  have hreceive : (writeTimestamp (writeTimestamp (writeTimestamp serverHeader 16 verified) 24 origin)
      32 verified).length = 48 := by
    rw [length_writeTimestamp (by omega), horigin]
  rw [buildServerResponse, slice_writeTimestamp_other (by omega) (by omega),
    slice_writeTimestamp_other (by omega) (by omega)]
  exact slice_writeTimestamp (by omega)

/-- **A response echoes the timestamp of the request exactly where that is one of
    whole eighths of a second since 1970.** -/
theorem response_echoes_iff {datagram : Bytes} {info : ClientRequestInfo}
    (h : parseClientRequest datagram = some info) (verified : Int64) :
    slice (buildServerResponse info.transmitUnixMs verified) 24 32 = slice datagram 40 48 ↔
      ntpUnixEpochDeltaSeconds ≤ u32FromBeBytes (slice datagram 40 44) ∧
        2 ^ 29 ∣ u32FromBeBytes (slice datagram 44 48) := by
  obtain ⟨hlen, hinfo⟩ := parseClientRequest_eq_some h
  rw [ntpPacketLen] at hlen
  have hsec : (slice datagram 40 44).length = 4 := length_slice (by omega)
  have hfrac : (slice datagram 44 48).length = 4 := length_slice (by omega)
  have hs := u32FromBeBytes_lt hsec
  have hf := u32FromBeBytes_lt hfrac
  have hread : info.transmitUnixMs =
      ntpTimestampToUnixMs (u32FromBeBytes (slice datagram 40 44)) (u32FromBeBytes (slice datagram 44 48)) :=
    hinfo
  rw [← reencode_iff hs hf, ← hread, slice_origin, timestampBytes]
  rw [← slice_append (i := 40) (j := 44) (k := 48) (by norm_num) (by norm_num)]
  constructor
  · intro heq
    obtain ⟨hfst, hsnd⟩ := List.append_inj heq hsec.symm
    rw [Prod.ext_iff]
    refine ⟨?_, ?_⟩
    · show _ = u32FromBeBytes _
      rw [← hfst, u32FromBeBytes_toBeBytes (ntp_seconds_lt _)]
    · show _ = u32FromBeBytes _
      rw [← hsnd, u32FromBeBytes_toBeBytes (ntp_fraction_lt _)]
  · intro heq
    rw [heq, u32ToBeBytes_fromBeBytes hsec, u32ToBeBytes_fromBeBytes hfrac]

theorem response_echoes_eighths : ∃ info,
    parseClientRequest (buildClientRequest 1700000000125) = some info ∧
      slice (buildServerResponse info.transmitUnixMs 1700000000500) 24 32 =
        slice (buildClientRequest 1700000000125) 40 48 :=
  ⟨⟨1700000000125⟩, by decide, (response_echoes_iff (by decide) _).2 (by decide)⟩

/-- A request at one part in 2³² after a whole second. -/
def fineRequest : Bytes :=
  copyFromSlice (buildClientRequest 1700000000000) 44 [0, 0, 0, 1]

theorem response_does_not_echo : ∃ info, parseClientRequest fineRequest = some info ∧
    slice (buildServerResponse info.transmitUnixMs 1700000000500) 24 32 ≠ slice fineRequest 40 48 := by
  refine ⟨⟨1700000000000⟩, by decide, ?_⟩
  rw [slice_origin]
  decide

/-- A request carries its own time, to a millisecond. -/
theorem parse_buildClientRequest {t1 : Int64} (h0 : 0 ≤ t1.toInt) (h : t1.toInt < ntpRolloverMs) :
    ∃ info, parseClientRequest (buildClientRequest t1) = some info ∧
      |info.transmitUnixMs.toInt - t1.toInt| ≤ 1 := by
  have hlen : (buildClientRequest t1).length = 48 := length_writeTimestamp (by decide)
  have hfirst : (buildClientRequest t1).getD 0 0 = 0x23 := rfl
  refine ⟨⟨readTimestamp (buildClientRequest t1) 40⟩, ?_, ?_⟩
  · rw [parseClientRequest, if_neg (by rw [hlen]; decide), if_neg (by rw [hfirst]; decide)]
  · have hend : t1.toInt ≤ endOf2100Ms := h.le.trans (by decide)
    have hle := keptMs_le t1.toInt.toNat
    have hge := le_keptMs t1.toInt.toNat
    rw [buildClientRequest, toInt_read_written (by decide) h0 hend, if_pos h, abs_le]
    omega

end OpenAgentGraph
