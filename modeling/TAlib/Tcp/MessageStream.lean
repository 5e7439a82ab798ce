import TAlib.Tcp.OutputStream

/-!
The stream of a connection that may go down. While it is up, queued bytes keep
the write interest; once it is down nothing is written any more, because
disableAll has cleared the interest and every send is dropped. Either way the
accepted bytes followed by the queue are whole messages.
-/

namespace TAlib

open Foundation

namespace InLoop

/-- `stream` has been written or is queued. -/
structure Carries (s : InLoop) (stream : Bytes) : Prop where
  valid : s.conn.outputBuffer.Valid
  stream_eq : s.conn.socket.accepted ++ s.conn.outputBuffer.readable = stream
  interest : s.conn.state ≠ .kDisConnected → s.conn.outputBuffer.readable ≠ [] →
    Meets s.conn.channel.events kWriteEvent
  idle : s.conn.state = .kDisConnected → ¬ Meets s.conn.channel.events kWriteEvent

theorem Carries.streams {s : InLoop} {stream : Bytes} (hs : s.Carries stream)
    (hup : s.conn.state ≠ .kDisConnected) : s.Streams stream :=
  ⟨hs.valid, hs.stream_eq, hs.interest hup⟩

theorem Streams.carries {s : InLoop} {stream : Bytes} (hs : s.Streams stream)
    (hup : s.conn.state ≠ .kDisConnected) : s.Carries stream :=
  ⟨hs.valid, hs.stream_eq, fun _ => hs.interest, fun hdown => absurd hdown hup⟩

theorem Carries.setInput {s : InLoop} {stream : Bytes} (hs : s.Carries stream) (b : Buffer) :
    (s.setInput b).Carries stream :=
  ⟨hs.valid, hs.stream_eq, hs.interest, hs.idle⟩

/-- Nothing has been written on a connection that has just been established, and
nothing read. -/
theorem Established.fresh {s : InLoop} (h : s.Established) :
    s.conn.socket.accepted = [] ∧ s.conn.inputBuffer.Valid ∧ s.conn.inputBuffer.readable = [] := by
  obtain ⟨poller, address, fd, conn, -, hnew, h⟩ := h
  obtain ⟨-, hsocket, -, hinput, -⟩ := new_ok hnew
  simp only [connectEstablished, bind_eq_ok] at h
  obtain ⟨_, -, t, ht, h⟩ := h
  cases h
  obtain ⟨channel, poller', -, rfl⟩ := onChannel_ok ht
  exact ⟨congrArg Socket.accepted hsocket, hinput⟩

theorem Established.carries {s : InLoop} (h : s.Established) : s.Carries [] := by
  have hempty := h.fresh.1
  obtain ⟨-, hstate, -, -, hv, hnil, -, -⟩ := h.spec
  have hstreams : s.Streams [] :=
    ⟨hv, by rw [hempty, hnil, List.append_nil], fun hne => absurd hnil hne⟩
  apply hstreams.carries
  rw [hstate]
  decide

/-- The message of a send becomes part of the stream. -/
def Takes (s : InLoop) (result : WriteResult) : Prop :=
  s.conn.state = .kConnected ∧ ¬ s.GivesUp result

instance (s : InLoop) (result : WriteResult) : Decidable (s.Takes result) :=
  inferInstanceAs (Decidable (_ ∧ ¬ (_ ∧ _)))

theorem sendInLoop_inputBuffer {s s' : InLoop} {data : Bytes} {result : WriteResult}
    (h : s.sendInLoop data result = .ok s') : s'.conn.inputBuffer = s.conn.inputBuffer := by
  by_cases hdown : s.conn.state = .kDisConnected
  · simp only [sendInLoop, if_pos hdown] at h
    cases h
    rfl
  · rw [sendInLoop_eq hdown] at h
    split at h
    · cases h
      rfl
    · simp only [queueRest, bind_eq_ok] at h
      obtain ⟨b, -, h⟩ := h
      split at h
      · cases h
        rfl
      · obtain ⟨channel, poller, -, rfl⟩ := onChannel_ok h
        rfl

theorem send_carries {s s' : InLoop} {stream message : Bytes} {result : WriteResult}
    (hs : s.Carries stream) (h : s.send message result = .ok s') :
    s'.Carries (stream ++ if s.Takes result then message else []) ∧
      s'.conn.state = s.conn.state ∧ s'.conn.inputBuffer = s.conn.inputBuffer := by
  simp only [send] at h
  split at h
  · rename_i hconn
    have hup : s.conn.state ≠ .kDisConnected := by
      rw [hconn]
      decide
    have hstate := sendInLoop_state h
    have hstreams := sendInLoop_streams (hs.streams hup) hup h
    have hoffered : s.offered (.sendInLoop message result) =
        if s.Takes result then message else [] := by
      simp only [offered, Takes, hconn, true_and, ite_not]
    rw [hoffered] at hstreams
    exact ⟨hstreams.carries (by rwa [hstate]), hstate, sendInLoop_inputBuffer h⟩
  · rename_i hconn
    cases h
    have hnot : ¬ s.Takes result := fun htakes => hconn htakes.1
    rw [if_neg hnot, List.append_nil]
    exact ⟨hs, rfl, rfl⟩

theorem shutdown_carries {s : InLoop} {stream : Bytes} (hs : s.Carries stream) :
    s.shutdown.Carries stream ∧ s.shutdown.conn.inputBuffer = s.conn.inputBuffer ∧
      s.shutdown.conn.state ≠ .kConnected ∧
      (s.shutdown.conn.state = .kDisConnected ↔ s.conn.state = .kDisConnected) := by
  simp only [shutdown]
  split
  · rename_i hconn
    have hstreams : s.Streams stream := hs.streams (by rw [hconn]; decide)
    have hset : (s.setState .kDisConnecting).Streams stream :=
      ⟨hstreams.valid, hstreams.stream_eq, hstreams.interest⟩
    have hstate : (s.setState .kDisConnecting).shutdownInLoop.conn.state = .kDisConnecting :=
      shutdownInLoop_state _
    have hcarries := (shutdownInLoop_streams hset).carries (by rw [hstate]; decide)
    refine ⟨hcarries, ?_, by rw [hstate]; decide, by rw [hstate, hconn]; decide⟩
    simp only [shutdownInLoop]
    split <;> rfl
  · rename_i hconn
    exact ⟨hs, rfl, hconn, Iff.rfl⟩

theorem handleWrite_carries {s s' : InLoop} {stream : Bytes} {result : WriteResult}
    (hs : s.Carries stream) (h : s.handleWrite result = .ok s') :
    s'.Carries stream ∧ s'.conn.state = s.conn.state := by
  have hstate := (handleWrite_ok h).2.1
  by_cases hdown : s.conn.state = .kDisConnected
  · -- the interest is gone, so the handler does nothing
    have hidle := hs.idle hdown
    have hwriting : s.isWriting.1 = false := decide_eq_false hidle
    simp only [handleWrite, hwriting, Bool.false_eq_true, if_false] at h
    cases h
    have hnot : ¬ Meets s.isWriting.2.conn.channel.events kWriteEvent :=
      fun hm => hidle ((isWriting_meets s).mp hm)
    exact ⟨⟨hs.valid, hs.stream_eq, fun hup => absurd hdown hup, fun _ => hnot⟩, rfl⟩
  · have hstreams := handleWrite_streams (hs.streams hdown) h
    exact ⟨hstreams.carries (by rwa [hstate]), hstate⟩

theorem handleClose_carries {s s' : InLoop} {stream : Bytes} (hs : s.Carries stream)
    (h : s.handleClose = .ok s') : s'.Carries stream ∧ s'.conn.state = .kDisConnected := by
  simp only [handleClose, bind_eq_ok] at h
  obtain ⟨_, -, t, ht, h⟩ := h
  cases h
  obtain ⟨-, hevents, hstate, houtput, hsocket, -, -⟩ :=
    onChannel_update (f := Channel.disableAll) kNoneEvent (fun _ => rfl) ht
  have hdown : t.conn.state = .kDisConnected := hstate
  have hidle : ¬ Meets t.conn.channel.events kWriteEvent := by
    rw [hevents]
    decide
  refine ⟨⟨?_, ?_, fun hup => absurd hdown hup, fun _ => hidle⟩, hdown⟩
  · change t.conn.outputBuffer.Valid
    rw [houtput]
    exact hs.valid
  · change t.conn.socket.accepted ++ t.conn.outputBuffer.readable = stream
    rw [houtput, hsocket]
    exact hs.stream_eq

end InLoop
end TAlib
