/-
  Reassembly of the messages of a link.

  * `push_frame`: one push on a stream of frames keeps the buffer, or takes the
    frame at its head off;
  * `pushAll_stream`: whatever the chunks, what came out and what is buffered
    make up the stream;
  * `reassembly_round_trip`: every message comes out, in order.
-/
import OpenAgentGraph.Lib.Except
import OpenAgentGraph.Reticulum.Framing

namespace OpenAgentGraph

open Lib

/-! ## The length prefix -/

@[simp] theorem length_u32ToBeBytes (n : ℕ) : (u32ToBeBytes n).length = lenPrefixBytes := rfl

theorem u32FromBeBytes_toBeBytes {n : ℕ} (h : n < 2 ^ 32) : u32FromBeBytes (u32ToBeBytes n) = n := by
  simp only [u32FromBeBytes, u32ToBeBytes, List.foldl_cons, List.foldl_nil, UInt8.toNat_ofNat']
  omega

@[simp] theorem length_frame (m : Bytes) : (frame m).length = lenPrefixBytes + m.length := by
  simp [frame]

/-! ## One push -/

section push

variable {b m tail rest : Bytes}

/-- The declared length at the head of a stream of frames. -/
theorem declaredLen_stream (hsize : m.length ≤ maxMessageBytes)
    (hstream : b ++ rest = frame m ++ tail) (hlen : lenPrefixBytes ≤ b.length) :
    u32FromBeBytes (b.take lenPrefixBytes) = m.length := by
  have htake : b.take lenPrefixBytes = u32ToBeBytes m.length := by
    calc b.take lenPrefixBytes = (b ++ rest).take lenPrefixBytes := by
          rw [List.take_append_of_le_length hlen]
      _ = u32ToBeBytes m.length := by
          rw [hstream, frame, List.append_assoc, List.take_left' (length_u32ToBeBytes _)]
  have hmax : maxMessageBytes < 2 ^ 32 := by decide
  rw [htake, u32FromBeBytes_toBeBytes (by omega)]

/-- One push on a stream of frames: the buffer grows until it holds the frame
    at the head, which is then taken off. -/
theorem push_frame {r : Reassembler} {chunk : Bytes} (hsize : m.length ≤ maxMessageBytes)
    (hstream : r.buffer ++ chunk ++ rest = frame m ++ tail) :
    ((r.buffer ++ chunk).length < (frame m).length ∧
      r.push chunk = (⟨r.buffer ++ chunk⟩, .ok none)) ∨
    ∃ left, r.push chunk = (⟨left⟩, .ok (some m)) ∧ left ++ rest = tail := by
  unfold Reassembler.push
  generalize r.buffer ++ chunk = b at hstream ⊢
  by_cases hprefix : b.length < lenPrefixBytes
  · refine Or.inl ⟨by rw [length_frame]; omega, ?_⟩
    simp only [if_pos hprefix]
  · have hlen := declaredLen_stream hsize hstream (by omega)
    simp only [if_neg hprefix, hlen, if_neg (not_lt.2 hsize)]
    by_cases hshort : b.length < lenPrefixBytes + m.length
    · refine Or.inl ⟨by rwa [length_frame], ?_⟩
      rw [if_pos hshort]
    · have htotal : lenPrefixBytes + m.length = (frame m).length := (length_frame m).symm
      have htake : b.take (lenPrefixBytes + m.length) = frame m := by
        calc b.take (lenPrefixBytes + m.length) = (b ++ rest).take (lenPrefixBytes + m.length) := by
              rw [List.take_append_of_le_length (by omega)]
          _ = frame m := by rw [hstream, htotal, List.take_left]
      have hdrop : b.drop (lenPrefixBytes + m.length) ++ rest = tail := by
        calc b.drop (lenPrefixBytes + m.length) ++ rest
            = (b ++ rest).drop (lenPrefixBytes + m.length) := by
              rw [List.drop_append_of_le_length (by omega)]
          _ = tail := by rw [hstream, htotal, List.drop_left]
      refine Or.inr ⟨_, ?_, hdrop⟩
      rw [if_neg hshort, htake, frame, List.drop_left' (length_u32ToBeBytes _)]

theorem push_nil {r : Reassembler} {chunk : Bytes} (h : r.buffer ++ chunk = []) :
    r.push chunk = (⟨[]⟩, .ok none) := by
  simp [Reassembler.push, h, lenPrefixBytes]

end push

/-! ## A run of pushes -/

/-- The messages that came out. -/
def delivered (results : List (Except FramingError (Option Bytes))) : List Bytes :=
  results.filterMap fun
    | .ok (some m) => some m
    | _ => none

@[simp] theorem delivered_none (results : List (Except FramingError (Option Bytes))) :
    delivered (.ok none :: results) = delivered results := rfl

@[simp] theorem delivered_some (m : Bytes) (results : List (Except FramingError (Option Bytes))) :
    delivered (.ok (some m) :: results) = m :: delivered results := rfl

/-- No push failed. -/
def NoError (results : List (Except FramingError (Option Bytes))) : Prop :=
  ∀ result ∈ results, ∃ out, result = .ok out

theorem noError_nil : NoError [] := List.forall_mem_nil _

theorem NoError.cons {out : Option Bytes} {results : List (Except FramingError (Option Bytes))}
    (h : NoError results) : NoError (.ok out :: results) := by
  intro result hmem
  rcases List.mem_cons.1 hmem with rfl | hmem
  · exact ⟨out, rfl⟩
  · exact h result hmem

/-- The bytes of a list of messages on the link. -/
def stream (messages : List Bytes) : Bytes := (messages.map frame).flatten

@[simp] theorem stream_nil : stream [] = [] := rfl

@[simp] theorem stream_cons (m : Bytes) (messages : List Bytes) :
    stream (m :: messages) = frame m ++ stream messages := by
  simp [stream]

/-- **What came out and what is buffered make up the stream.** -/
theorem pushAll_stream {messages : List Bytes} (hsize : ∀ m ∈ messages, m.length ≤ maxMessageBytes)
    {chunks : List Bytes} {r : Reassembler} (hstream : r.buffer ++ chunks.flatten = stream messages) :
    NoError (r.pushAll chunks).2 ∧ ∃ left,
      delivered (r.pushAll chunks).2 ++ left = messages ∧
      (r.pushAll chunks).1.buffer = stream left := by
  induction chunks generalizing r messages with
  | nil =>
    refine ⟨noError_nil, messages, rfl, ?_⟩
    simpa [Reassembler.pushAll] using hstream
  | cons chunk chunks ih =>
    rw [List.flatten_cons, ← List.append_assoc] at hstream
    cases messages with
    | nil =>
      obtain ⟨hnil, hrest⟩ := List.append_eq_nil_iff.1 hstream
      obtain ⟨herr, left, hleft, hbuf⟩ := ih (r := ⟨[]⟩) hsize (by simpa using hrest)
      simp only [Reassembler.pushAll, push_nil hnil]
      exact ⟨herr.cons, left, hleft, hbuf⟩
    | cons m messages =>
      rw [stream_cons] at hstream
      rcases push_frame (hsize m (List.mem_cons_self ..)) hstream with ⟨-, hpush⟩ | ⟨rest, hpush, hrest⟩
      · obtain ⟨herr, left, hleft, hbuf⟩ := ih (r := ⟨r.buffer ++ chunk⟩) hsize
          (by rw [stream_cons]; exact hstream)
        simp only [Reassembler.pushAll, hpush]
        exact ⟨herr.cons, left, hleft, hbuf⟩
      · obtain ⟨herr, left, hleft, hbuf⟩ := ih (r := ⟨rest⟩)
          (fun m' hm' => hsize m' (List.mem_cons_of_mem _ hm')) hrest
        simp only [Reassembler.pushAll, hpush]
        exact ⟨herr.cons, left, by rw [delivered_some, List.cons_append, hleft], hbuf⟩

/-- An empty push takes one complete message off the buffer. -/
theorem pushAll_drain {messages : List Bytes} (hsize : ∀ m ∈ messages, m.length ≤ maxMessageBytes)
    {r : Reassembler} (hbuf : r.buffer = stream messages) {n : ℕ} (hn : messages.length ≤ n) :
    NoError (r.pushAll (List.replicate n [])).2 ∧
      delivered (r.pushAll (List.replicate n [])).2 = messages ∧
      (r.pushAll (List.replicate n [])).1.buffer = [] := by
  induction n generalizing r messages with
  | zero =>
    obtain rfl := List.eq_nil_of_length_eq_zero (Nat.le_zero.1 hn)
    exact ⟨noError_nil, rfl, hbuf⟩
  | succ n ih =>
    rw [List.replicate_succ]
    cases messages with
    | nil =>
      obtain ⟨herr, hdel, hend⟩ := ih (r := ⟨[]⟩) hsize rfl (Nat.zero_le n)
      have hnil : r.buffer ++ [] = [] := by simpa using hbuf
      simp only [Reassembler.pushAll, push_nil hnil]
      exact ⟨herr.cons, hdel, hend⟩
    | cons m messages =>
      have hstream : r.buffer ++ [] ++ [] = frame m ++ stream messages := by simpa using hbuf
      rcases push_frame (hsize m (List.mem_cons_self ..)) hstream with ⟨hshort, -⟩ | ⟨rest, hpush, hrest⟩
      · simp [hbuf] at hshort
      · obtain ⟨herr, hdel, hend⟩ := ih (r := ⟨rest⟩)
          (fun m' hm' => hsize m' (List.mem_cons_of_mem _ hm')) (by simpa using hrest)
          (by simpa using hn)
        simp only [Reassembler.pushAll, hpush]
        exact ⟨herr.cons, by rw [delivered_some, hdel], hend⟩

theorem pushAll_append (r : Reassembler) (chunks chunks' : List Bytes) :
    r.pushAll (chunks ++ chunks') = (((r.pushAll chunks).1.pushAll chunks').1,
      (r.pushAll chunks).2 ++ ((r.pushAll chunks).1.pushAll chunks').2) := by
  induction chunks generalizing r with
  | nil => rfl
  | cons chunk chunks ih => simp only [List.cons_append, Reassembler.pushAll, ih]

/-! ## The round trip -/

theorem encodeMessage_ok {α : Type} {toVec : α → Except SerdeError Bytes} {msg : α} {framed : Bytes}
    (h : encodeMessage toVec msg = .ok framed) :
    ∃ json, toVec msg = .ok json ∧ json.length ≤ maxMessageBytes ∧ framed = frame json := by
  unfold encodeMessage at h
  cases hjson : toVec msg with
  | error e =>
    rw [hjson] at h
    cases h
  | ok json =>
    simp only [hjson] at h
    by_cases hsize : maxMessageBytes < json.length
    · rw [if_pos hsize] at h
      cases h
    · rw [if_neg hsize] at h
      exact ⟨json, rfl, not_lt.1 hsize, (Except.ok.inj h).symm⟩

theorem encodeMessages_ok {α : Type} {toVec : α → Except SerdeError Bytes} {messages : List α}
    {frames : List Bytes} (h : messages.mapM (encodeMessage toVec) = .ok frames) :
    ∃ bodies, messages.mapM toVec = .ok bodies ∧ (∀ m ∈ bodies, m.length ≤ maxMessageBytes) ∧
      frames = bodies.map frame := by
  induction messages generalizing frames with
  | nil =>
    obtain rfl : [] = frames := Except.ok.inj h
    exact ⟨[], rfl, List.forall_mem_nil _, rfl⟩
  | cons msg messages ih =>
    rw [List.mapM_cons, bind_ok] at h
    obtain ⟨framed, hframed, h⟩ := h
    obtain ⟨rest, hrest, h⟩ := bind_ok.1 h
    obtain rfl := pure_ok.1 h
    obtain ⟨json, hjson, hsize, rfl⟩ := encodeMessage_ok hframed
    obtain ⟨bodies, hbodies, hsizes, rfl⟩ := ih hrest
    refine ⟨json :: bodies, ?_, List.forall_mem_cons.2 ⟨hsize, hsizes⟩, rfl⟩
    rw [List.mapM_cons, hjson, ok_bind, hbodies, ok_bind]
    rfl

/-- **Every message comes out, in order**, however its frame was cut. -/
theorem reassembly_round_trip {α : Type} (toVec : α → Except SerdeError Bytes) (messages : List α)
    {frames : List Bytes} (hframes : messages.mapM (encodeMessage toVec) = .ok frames)
    {chunks : List Bytes} (hchunks : chunks.flatten = frames.flatten) :
    let run := ({} : Reassembler).pushAll (chunks ++ List.replicate messages.length [])
    NoError run.2 ∧ messages.mapM toVec = .ok (delivered run.2) ∧ run.1.buffer = [] := by
  intro run
  obtain ⟨bodies, hbodies, hsizes, rfl⟩ := encodeMessages_ok hframes
  have hlen : bodies.length = messages.length := (of_mapM_ok hbodies).1
  obtain ⟨herr, left, hleft, hbuf⟩ := pushAll_stream (r := {}) hsizes
    (show [] ++ chunks.flatten = stream bodies from hchunks)
  have hsub : ∀ m ∈ left, m.length ≤ maxMessageBytes := fun m hm =>
    hsizes m (hleft ▸ List.mem_append_right _ hm)
  have hcount : left.length ≤ messages.length := by
    rw [← hlen, ← hleft, List.length_append]
    omega
  obtain ⟨herr', hdel, hend⟩ := pushAll_drain hsub hbuf hcount
  have hrun : run = _ := pushAll_append {} chunks (List.replicate messages.length [])
  rw [hrun]
  refine ⟨?_, ?_, hend⟩
  · intro result hmem
    rcases List.mem_append.1 hmem with hmem | hmem
    · exact herr result hmem
    · exact herr' result hmem
  · rw [hbodies, ← hleft]
    simp only [delivered, List.filterMap_append] at hdel ⊢
    rw [hdel]

/-- Two messages, the second one empty, cut in the middle of their lengths. -/
theorem reassembly_round_trip_cut :
    let toVec : Bytes → Except SerdeError Bytes := Except.ok
    let run := ({} : Reassembler).pushAll ([[0, 0], [], [0, 2, 7, 8, 0], [0, 0, 0]] ++ List.replicate 2 [])
    NoError run.2 ∧ [[7, 8], []].mapM toVec = .ok (delivered run.2) ∧ run.1.buffer = [] := by
  intro toVec
  have hframes : [[7, 8], []].mapM (encodeMessage toVec)
      = .ok [[0, 0, 0, 2, 7, 8], [0, 0, 0, 0]] := rfl
  exact reassembly_round_trip toVec [[7, 8], []] hframes rfl

/-! ## The size of the buffer -/

namespace Reassembler

/-- No complete message is buffered. -/
def Drained (r : Reassembler) : Prop :=
  r.buffer.length < lenPrefixBytes ∨
    r.buffer.length < lenPrefixBytes + u32FromBeBytes (r.buffer.take lenPrefixBytes)

variable {r : Reassembler} {chunk : Bytes}

theorem push_length_le : (r.push chunk).1.buffer.length ≤ r.buffer.length + chunk.length := by
  simp only [push]
  split
  · simp
  · split
    · simp
    · split
      · simp
      · simp

/-- A push that succeeds on a drained buffer leaves at most a message and a chunk. -/
theorem Drained.push_length_le (h : r.Drained) {out : Option Bytes}
    (hok : (r.push chunk).2 = .ok out) :
    (r.push chunk).1.buffer.length ≤ lenPrefixBytes + maxMessageBytes + chunk.length := by
  refine Reassembler.push_length_le.trans (Nat.add_le_add_right ?_ _)
  rcases h with hshort | hlt
  · omega
  · by_cases hprefix : r.buffer.length < lenPrefixBytes
    · omega
    · -- the declared length is that of the buffer before the push, which the push accepts
      have htake : (r.buffer ++ chunk).take lenPrefixBytes = r.buffer.take lenPrefixBytes :=
        List.take_append_of_le_length (by omega)
      have hlong : ¬ (r.buffer ++ chunk).length < lenPrefixBytes := by
        rw [List.length_append]
        omega
      by_cases hmax : maxMessageBytes < u32FromBeBytes (r.buffer.take lenPrefixBytes)
      · simp only [push, if_neg hlong, htake, if_pos hmax] at hok
        cases hok
      · omega

end Reassembler

/-- **The buffer is bounded as long as no push starts while a complete message
    is buffered.** -/
theorem reassembler_bounded {chunks : List Bytes} (hsize : ∀ c ∈ chunks, c.length ≤ chunkSize)
    (hok : NoError (({} : Reassembler).pushAll chunks).2)
    (hdrained : ∀ before chunk after, chunks = before ++ chunk :: after →
      (({} : Reassembler).pushAll before).1.Drained) :
    (({} : Reassembler).pushAll chunks).1.buffer.length
      ≤ lenPrefixBytes + maxMessageBytes + chunkSize := by
  induction chunks using List.reverseRecOn with
  | nil => simp [Reassembler.pushAll]
  | append_singleton chunks chunk ih =>
    have hdr := hdrained chunks chunk [] rfl
    have hchunk : chunk.length ≤ chunkSize := hsize chunk (by simp)
    rw [pushAll_append] at hok ⊢
    obtain ⟨out, hout⟩ := hok _ (List.mem_append_right _ (List.mem_cons_self ..))
    exact (hdr.push_length_le hout).trans (Nat.add_le_add_left hchunk _)

/-- A message in two chunks. -/
theorem reassembler_bounded_two :
    (({} : Reassembler).pushAll [[0, 0, 0], [2, 7, 8]]).1.buffer.length
      ≤ lenPrefixBytes + maxMessageBytes + chunkSize := by
  refine reassembler_bounded (by decide) ?_ ?_
  · intro result hmem
    have hresults : (({} : Reassembler).pushAll [[0, 0, 0], [2, 7, 8]]).2
        = [.ok none, .ok (some [7, 8])] := rfl
    rw [hresults] at hmem
    rcases List.mem_pair.1 hmem with rfl | rfl
    · exact ⟨_, rfl⟩
    · exact ⟨_, rfl⟩
  · intro before chunk after heq
    rcases before with _ | ⟨b, _ | ⟨b', rest⟩⟩
    · exact Or.inl (by decide)
    · obtain ⟨rfl, -⟩ := List.cons.inj heq
      exact Or.inl (by decide)
    · simp at heq

/-! ## A flood of empty messages -/

/-- A chunk of 350 empty messages. -/
def emptyMessages : Bytes := List.replicate chunkSize 0

theorem push_emptyMessages (n : ℕ) : Reassembler.push ⟨List.replicate n 0⟩ emptyMessages
    = (⟨List.replicate (n + 1396) 0⟩, .ok (some [])) := by
  have happ : List.replicate n (0 : UInt8) ++ emptyMessages = List.replicate (n + chunkSize) 0 :=
    List.replicate_append_replicate
  have hlen : u32FromBeBytes (List.replicate lenPrefixBytes 0) = 0 := rfl
  simp only [Reassembler.push, happ, List.length_replicate, List.take_replicate, List.drop_replicate]
  have hmin : min lenPrefixBytes (n + chunkSize) = lenPrefixBytes := by
    simp only [lenPrefixBytes, chunkSize]
    omega
  have hlong : ¬ n + 1400 < 4 := by omega
  rw [hmin, hlen]
  simp [lenPrefixBytes, chunkSize, maxMessageBytes, hlong]

theorem pushAll_emptyMessages (n k : ℕ) :
    (Reassembler.pushAll ⟨List.replicate n 0⟩ (List.replicate k emptyMessages)).1
      = ⟨List.replicate (n + 1396 * k) 0⟩ ∧
    NoError (Reassembler.pushAll ⟨List.replicate n 0⟩ (List.replicate k emptyMessages)).2 := by
  induction k generalizing n with
  | zero => exact ⟨by simp [Reassembler.pushAll], noError_nil⟩
  | succ k ih =>
    obtain ⟨hbuf, herr⟩ := ih (n + 1396)
    rw [List.replicate_succ]
    simp only [Reassembler.pushAll, push_emptyMessages]
    refine ⟨?_, herr.cons⟩
    rw [hbuf]
    congr 2
    omega

/-- A push that completes 350 messages returns one of them. -/
theorem reassembler_unbounded :
    (∀ c ∈ List.replicate 7000 emptyMessages, c.length ≤ chunkSize) ∧
    NoError (({} : Reassembler).pushAll (List.replicate 7000 emptyMessages)).2 ∧
    lenPrefixBytes + maxMessageBytes + chunkSize
      < (({} : Reassembler).pushAll (List.replicate 7000 emptyMessages)).1.buffer.length := by
  obtain ⟨hbuf, herr⟩ := pushAll_emptyMessages 0 7000
  refine ⟨?_, herr, ?_⟩
  · intro c hc
    rw [List.eq_of_mem_replicate hc, emptyMessages, List.length_replicate]
  · have heq : ({} : Reassembler) = ⟨List.replicate 0 0⟩ := rfl
    rw [heq, hbuf, List.length_replicate]
    simp only [lenPrefixBytes, maxMessageBytes, chunkSize]
    omega

end OpenAgentGraph
