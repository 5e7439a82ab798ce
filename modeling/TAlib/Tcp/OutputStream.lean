import TAlib.Tcp.Established
import Mathlib.Algebra.GroupWithZero.Nat

/-!
The bytes that leave a connection. Whatever the kernel accepts of each write,
the accepted bytes followed by the output buffer are the messages in order, and
the write side is not shut down while bytes are queued. What carries both is
that queued bytes keep the write interest of the channel, which isWriting reads
and does not clear.
-/

namespace TAlib

open Foundation

namespace InLoop

inductive StreamCall where
  | sendInLoop (data : Bytes) (result : WriteResult)
  | handleWrite (result : WriteResult)
  | shutdownInLoop

def streamCall (s : InLoop) : StreamCall → Except Fault InLoop
  | .sendInLoop data result => s.sendInLoop data result
  | .handleWrite result => s.handleWrite result
  | .shutdownInLoop => .ok s.shutdownInLoop

/-- The bytes that a call adds to the stream. -/
def offered (s : InLoop) : StreamCall → Bytes
  | .sendInLoop data result => if s.GivesUp result then [] else data
  | .handleWrite _ | .shutdownInLoop => []

/-- All the bytes that the calls of a run add to the stream. -/
def offeredBy : InLoop → List StreamCall → Bytes
  | _, [] => []
  | s, c :: cs => s.offered c ++
      match s.streamCall c with
      | .ok t => offeredBy t cs
      | .error _ => []

/-- `stream` is what has been written so far with what is queued. -/
structure Streams (s : InLoop) (stream : Bytes) : Prop where
  valid : s.conn.outputBuffer.Valid
  stream_eq : s.conn.socket.accepted ++ s.conn.outputBuffer.readable = stream
  interest : s.conn.outputBuffer.readable ≠ [] → Meets s.conn.channel.events kWriteEvent

theorem Streams.isWriting {s : InLoop} {stream : Bytes} (h : s.Streams stream) :
    s.isWriting.2.Streams stream :=
  ⟨h.valid, h.stream_eq, fun hne => meets_and_write.mpr (h.interest hne)⟩

/-- Queueing the rest of a message adds it to the stream and asks for writing. -/
theorem queueRest_streams {s s' : InLoop} {stream data : Bytes} {nwrote : Nat}
    (hs : s.Streams stream) (h : s.queueRest data nwrote = .ok s') :
    s'.Streams (stream ++ data.drop nwrote) := by
  simp only [queueRest, bind_eq_ok] at h
  obtain ⟨b, hb, h⟩ := h
  obtain ⟨hbv, hread⟩ := Buffer.append_ok hs.valid hb
  have hstream : s.conn.socket.accepted ++ b.readable = stream ++ data.drop nwrote := by
    rw [hread, ← List.append_assoc, hs.stream_eq]
  split at h
  · rename_i hwriting
    cases h
    exact ⟨hbv, hstream, fun _ => meets_and_write.mpr (of_decide_eq_true hwriting)⟩
  · obtain ⟨channel, poller, hf, rfl⟩ := onChannel_ok h
    obtain ⟨⟨index, rfl⟩, -⟩ := Channel.update_ok hf
    exact ⟨hbv, hstream, fun _ => meets_or_write _⟩

theorem afterWrite_streams {s : InLoop} {stream : Bytes} (data : Bytes) (result : WriteResult)
    (hs : s.Streams stream) :
    (s.afterWrite data (s.acceptedBy data result)).Streams
      (stream ++ data.take (s.acceptedBy data result)) := by
  refine ⟨hs.valid, ?_, hs.isWriting.interest⟩
  by_cases hdirect : s.WritesDirectly
  · have hempty : s.conn.outputBuffer.readable = [] := by
      apply List.eq_nil_of_length_eq_zero
      rw [hs.valid.readable_length]
      exact hdirect.2
    have hstream := hs.stream_eq
    rw [hempty, List.append_nil] at hstream
    change (s.conn.socket.accepted ++ _) ++ s.conn.outputBuffer.readable = _
    rw [hempty, List.append_nil, hstream]
  · rw [acceptedBy_of_queued hdirect, List.take_zero, List.append_nil]
    change (s.conn.socket.accepted ++ []) ++ s.conn.outputBuffer.readable = _
    rw [List.append_nil]
    exact hs.stream_eq

theorem sendInLoop_streams {s s' : InLoop} {stream data : Bytes} {result : WriteResult}
    (hs : s.Streams stream) (hstate : s.conn.state ≠ .kDisConnected)
    (h : s.sendInLoop data result = .ok s') :
    s'.Streams (stream ++ s.offered (.sendInLoop data result)) := by
  rw [sendInLoop_eq hstate] at h
  have hafter := afterWrite_streams data result hs
  by_cases hgive : s.GivesUp result
  · rw [if_pos (.inl hgive)] at h
    cases h
    rw [acceptedBy_of_givesUp hgive] at hafter ⊢
    simpa only [offered, if_pos hgive, List.take_zero] using hafter
  · simp only [hgive, false_or] at h
    simp only [offered, if_neg hgive]
    split at h
    · rename_i hall
      cases h
      rwa [List.take_of_length_le hall] at hafter
    · have hqueued := queueRest_streams hafter h
      rwa [List.append_assoc, List.take_append_drop] at hqueued

theorem shutdownInLoop_streams {s : InLoop} {stream : Bytes} (hs : s.Streams stream) :
    s.shutdownInLoop.Streams stream := by
  have hw := hs.isWriting
  simp only [shutdownInLoop]
  split
  · exact hw
  · exact ⟨hw.valid, hw.stream_eq, hw.interest⟩

/-- Queued bytes keep the write side open. -/
theorem shutdownInLoop_keeps_open {s : InLoop} {stream : Bytes} (hs : s.Streams stream)
    (hne : s.conn.outputBuffer.readable ≠ []) :
    s.shutdownInLoop.conn.socket = s.conn.socket := by
  have hwriting : s.isWriting.1 = true := decide_eq_true (hs.interest hne)
  simp only [shutdownInLoop, hwriting, if_true]
  rfl

/-- Writing the front of the queue moves it from the buffer to the kernel. -/
theorem drain_streams {s : InLoop} {stream : Bytes} {b : Buffer} {n : Nat} (hs : s.Streams stream)
    (hb : s.conn.outputBuffer.retrieve n = .ok b) (hn : n ≤ s.conn.outputBuffer.readable.length) :
    b.Valid ∧ b.readable = s.conn.outputBuffer.readable.drop n ∧
      (s.conn.socket.accepted ++ s.conn.outputBuffer.readable.take n) ++ b.readable = stream := by
  obtain ⟨hv, hread⟩ := Buffer.retrieve_ok hs.valid hn hb
  refine ⟨hv, hread, ?_⟩
  rw [hread, List.append_assoc, List.take_append_drop, hs.stream_eq]

theorem handleWrite_streams {s s' : InLoop} {stream : Bytes} {result : WriteResult}
    (hs : s.Streams stream) (h : s.handleWrite result = .ok s') : s'.Streams stream := by
  have hw := hs.isWriting
  simp only [handleWrite] at h
  split at h
  · rename_i hwriting
    have hmeets : Meets s.isWriting.2.conn.channel.events kWriteEvent :=
      (isWriting_meets s).mpr (of_decide_eq_true hwriting)
    cases result with
    | error _ =>
        cases h
        exact hw
    | wrote n =>
        simp only [Socket.write] at h
        split at h
        · simp only [bind_eq_ok] at h
          obtain ⟨b, hb, h⟩ := h
          obtain ⟨hv, hread, hstream⟩ := drain_streams hw hb (Nat.min_le_right _ _)
          split at h
          · rename_i hempty
            obtain ⟨channel, poller, -, rfl⟩ := onChannel_ok h
            refine ⟨hv, hstream, fun hne => ?_⟩
            rw [← hv.readable_length] at hempty
            exact absurd (List.eq_nil_of_length_eq_zero hempty) hne
          · cases h
            exact ⟨hv, hstream, fun _ => hmeets⟩
        · rename_i hzero
          cases h
          rw [Nat.eq_zero_of_not_pos hzero, List.take_zero, List.append_nil]
          exact ⟨hw.valid, hw.stream_eq, hw.interest⟩
  · cases h
    exact hw

/-- A call extends the stream by what it offers, and leaves the state alone. -/
theorem streamCall_streams {s s' : InLoop} {stream : Bytes} {c : StreamCall}
    (hs : s.Streams stream) (hstate : s.conn.state ≠ .kDisConnected)
    (h : s.streamCall c = .ok s') : s'.Streams (stream ++ s.offered c) := by
  cases c with
  | sendInLoop data result => exact sendInLoop_streams hs hstate h
  | handleWrite result =>
      rw [offered, List.append_nil]
      exact handleWrite_streams hs h
  | shutdownInLoop =>
      cases h
      rw [offered, List.append_nil]
      exact shutdownInLoop_streams hs

theorem streamCall_state {s s' : InLoop} {c : StreamCall} (h : s.streamCall c = .ok s') :
    s'.conn.state = s.conn.state := by
  cases c with
  | sendInLoop data result => exact sendInLoop_state h
  | handleWrite result => exact (handleWrite_ok h).2.1
  | shutdownInLoop =>
      cases h
      exact shutdownInLoop_state s

theorem run_streams {s s' : InLoop} {stream : Bytes} {calls : List StreamCall}
    (hs : s.Streams stream) (hstate : s.conn.state ≠ .kDisConnected)
    (h : run streamCall s calls = .ok s') : s'.Streams (stream ++ s.offeredBy calls) := by
  induction calls generalizing s stream with
  | nil =>
      cases h
      rwa [offeredBy, List.append_nil]
  | cons c calls ih =>
      obtain ⟨t, ht, h⟩ := run_cons_ok.mp h
      have hnext := ih (streamCall_streams hs hstate ht) (by rwa [streamCall_state ht]) h
      simp only [offeredBy, ht]
      rwa [List.append_assoc] at hnext

def StreamCall.size : StreamCall → Nat
  | .sendInLoop data _ => data.length
  | .handleWrite _ | .shutdownInLoop => 0

theorem streamCall_returns {s : InLoop} {c : StreamCall} {n : Nat} (h : s.Roomy (c.size + n))
    (hint : c.size ≤ intMax) : ∃ s', s.streamCall c = .ok s' ∧ s'.Roomy n := by
  cases c with
  | sendInLoop data result => exact sendInLoop_returns h hint result
  | handleWrite result =>
      refine handleWrite_returns ⟨h.valid, h.registered, ?_⟩ result
      exact h.room.trans' (Nat.add_le_add_left (Nat.le_add_left _ _) _)
  | shutdownInLoop =>
      have hw := h.isWriting
      have hroom : s.isWriting.2.conn.outputBuffer.writerIndex + n ≤ maxSize :=
        hw.room.trans' (Nat.add_le_add_left (Nat.le_add_left _ _) _)
      refine ⟨_, rfl, ?_⟩
      simp only [shutdownInLoop]
      split
      · exact ⟨hw.valid, hw.registered, hroom⟩
      · exact ⟨hw.valid, hw.registered, hroom⟩

theorem run_returns {s : InLoop} {calls : List StreamCall}
    (h : s.Roomy (calls.map StreamCall.size).sum) (hint : ∀ c ∈ calls, c.size ≤ intMax) :
    ∃ s', run streamCall s calls = .ok s' := by
  induction calls generalizing s with
  | nil => exact ⟨s, rfl⟩
  | cons c calls ih =>
      rw [List.map_cons, List.sum_cons] at h
      obtain ⟨t, ht, hroomy⟩ := streamCall_returns h (hint c List.mem_cons_self)
      obtain ⟨s', hs'⟩ := ih hroomy fun c hc => hint c (List.mem_cons_of_mem _ hc)
      exact ⟨s', run_cons_ok.mpr ⟨t, ht, hs'⟩⟩

/-- The output stream is conserved: from a connection that is not down and has
nothing queued, after any calls and whatever the kernel accepts of each write,
the accepted bytes followed by the queue are the messages in order, those given
up after EPIPE or ECONNRESET aside, and queued bytes keep the write side open.
The calls return when the messages fit the buffer. -/
theorem output_stream_conserved {s : InLoop} (hv : s.conn.outputBuffer.Valid)
    (hempty : s.conn.outputBuffer.readable = []) (hstate : s.conn.state ≠ .kDisConnected)
    (calls : List StreamCall) :
    (∀ s', run streamCall s calls = .ok s' →
      s'.conn.socket.accepted ++ s'.conn.outputBuffer.readable =
        s.conn.socket.accepted ++ s.offeredBy calls ∧
      (s'.conn.outputBuffer.readable ≠ [] → s'.shutdownInLoop.conn.socket = s'.conn.socket)) ∧
    (∀ mask, s.conn.channel.Registered s.poller mask → (∀ c ∈ calls, c.size ≤ intMax) →
      s.conn.outputBuffer.writerIndex + (calls.map StreamCall.size).sum ≤ maxSize →
      ∃ s', run streamCall s calls = .ok s') := by
  have hs : s.Streams s.conn.socket.accepted := by
    refine ⟨hv, ?_, fun hne => absurd hempty hne⟩
    rw [hempty, List.append_nil]
  refine ⟨fun s' hrun => ?_, fun mask hmask hint hroom => ?_⟩
  · have hs' := run_streams hs hstate hrun
    exact ⟨hs'.stream_eq, shutdownInLoop_keeps_open hs'⟩
  · exact run_returns ⟨hv, ⟨mask, hmask⟩, hroom⟩ hint

/-- The message of a call. -/
def StreamCall.message : StreamCall → Bytes
  | .sendInLoop data _ => data
  | .handleWrite _ | .shutdownInLoop => []

/-- Without EPIPE and ECONNRESET the stream is all the messages. -/
theorem offeredBy_eq {s s' : InLoop} {calls : List StreamCall}
    (hclean : ∀ data result, .sendInLoop data result ∈ calls →
      result ≠ .error EPIPE ∧ result ≠ .error ECONNRESET)
    (h : run streamCall s calls = .ok s') :
    s.offeredBy calls = calls.flatMap StreamCall.message := by
  induction calls generalizing s with
  | nil => rfl
  | cons c calls ih =>
      obtain ⟨t, ht, h⟩ := run_cons_ok.mp h
      have hnext := ih (fun data result hmem => hclean data result (List.mem_cons_of_mem _ hmem)) h
      have hoffered : s.offered c = c.message := by
        cases c with
        | sendInLoop data result =>
            obtain ⟨hpipe, hreset⟩ := hclean data result List.mem_cons_self
            refine if_neg fun hgive => ?_
            cases hgive.2 with
            | inl heq => exact hpipe heq
            | inr heq => exact hreset heq
        | handleWrite _ => rfl
        | shutdownInLoop => rfl
      simp only [offeredBy, ht, hoffered, hnext, List.flatMap_cons]

/-- A short write, a message behind it, and two writes that drain the queue,
with a shutdown in between. -/
theorem output_stream_conserved_short_write :
    ∃ s s', s.Established ∧
      run streamCall s [.sendInLoop [1, 2, 3] (.wrote 1), .sendInLoop [4] (.wrote 9),
        .handleWrite (.wrote 2), .shutdownInLoop, .handleWrite (.error EWOULDBLOCK)] = .ok s' ∧
      s'.conn.socket.accepted ++ s'.conn.outputBuffer.readable =
        s.conn.socket.accepted ++ [1, 2, 3, 4] := by
  obtain ⟨s, hs, hreg⟩ := established_exists 0 5
    (show Epoll.new.channels 5 = none from rfl) rfl (by decide)
  obtain ⟨-, hstate, -, -, hv, hempty, hw, -⟩ := hs.spec
  obtain ⟨hconserved, hreturns⟩ := output_stream_conserved hv hempty (by rw [hstate]; decide)
    [.sendInLoop [1, 2, 3] (.wrote 1), .sendInLoop [4] (.wrote 9), .handleWrite (.wrote 2),
      .shutdownInLoop, .handleWrite (.error EWOULDBLOCK)]
  obtain ⟨s', hs'⟩ := hreturns kReadEvent hreg (by decide) (by rw [hw]; decide)
  refine ⟨s, s', hs, hs', ?_⟩
  rw [(hconserved s' hs').1, offeredBy_eq (fun data result hmem => ?_) hs']
  · rfl
  · simp only [List.mem_cons, StreamCall.sendInLoop.injEq, List.not_mem_nil, or_false,
      reduceCtorEq] at hmem
    rcases hmem with ⟨-, rfl⟩ | ⟨-, rfl⟩
    · exact ⟨nofun, nofun⟩
    · exact ⟨nofun, nofun⟩

end InLoop
end TAlib
