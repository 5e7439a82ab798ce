import TAlib.Common.BufferFaults
import TAlib.Tcp.ConnectionSteps

/-!
The end of a connection, seen from its own loop. An operation on a live
connection leaves it live or closes it once; an operation on a closed one does
nothing to it. The asserts that guard the teardown hold as long as no event
closes a connection twice.
-/

namespace TAlib

open Foundation

/-- The asserts of a close and of what follows it. -/
def Fault.ofTeardown : Fault → Bool
  | .assertion site =>
      match site with
      | .handleCloseState | .removeConnectionErased | .removeNoneEvent | .removeChannelPresent
      | .removeChannelSame | .removeChannelNoneEvent | .removeChannelErased => true
      | _ => false
  | .lengthError | .outOfBounds | .spins | .dangling | .nullPointer | .overflow => false

theorem Fault.ofBuffer_of_teardown {e : Fault} (h : e.ofTeardown = true) : e.ofBuffer = false := by
  cases e with
  | assertion site => cases site <;> first | rfl | cases h
  | lengthError => cases h
  | outOfBounds => cases h
  | spins => rfl
  | dangling => rfl
  | nullPointer => rfl
  | overflow => rfl

namespace InLoop

/-- The connection is live after the calls, and some of them asked for a close. -/
structure Continues (s s' : InLoop) : Prop where
  frame : s.Frame s'
  live : s'.isLive = true
  effects : ∃ k, s'.effects = s.effects ++ List.replicate k .queueForceCloseInLoop

/-- The connection was closed, and its server was told once. -/
structure ClosesOnce (s s' : InLoop) : Prop where
  frame : s.Frame s'
  down : s'.conn.state = .kDisConnected
  events : s'.conn.channel.events = kNoneEvent
  effects : s'.effects = s.effects ++ [.closeCallBack]
  listening : ∀ mask, s.Listening mask → s'.Listening kNoneEvent

theorem handleClose_closes {s s' : InLoop} (h : s.handleClose = .ok s') : s.ClosesOnce s' := by
  obtain ⟨-, hframe, hdown, hevents, heffects, hlistening⟩ := handleClose_ok h
  exact ⟨hframe, hdown, hevents, heffects, hlistening⟩

theorem handleClose_live {s s' : InLoop} (h : s.handleClose = .ok s') : s.isLive = true :=
  (handleClose_ok h).1

theorem ClosesOnce.input {s s' : InLoop} (h : s.ClosesOnce s') (b : Buffer) :
    s.ClosesOnce (s'.setInput b) :=
  ⟨h.frame.trans (setInput_frame s' b), h.down, h.events, h.effects, h.listening⟩

theorem userCalls_continues {s s' : InLoop} {calls : List UserCall} (hlive : s.isLive = true)
    (h : run userCall s calls = .ok s') : s.Continues s' := by
  obtain ⟨hframe, hlive', heffects⟩ := userCalls_live hlive h
  exact ⟨hframe, hlive', heffects⟩

theorem handleRead_live {s s' : InLoop} {result : ReadResult} {calls : List UserCall}
    (hlive : s.isLive = true) (h : s.handleRead result calls = .ok s') :
    s.Continues s' ∨ s.ClosesOnce s' := by
  rcases handleRead_cases h with ⟨-, rfl⟩ | ⟨t, ⟨_, b, -, -, rfl, -⟩, ht⟩ |
    ⟨t, ⟨_, b, -, -, rfl, -⟩, ht⟩
  · exact .inl ⟨.refl _, hlive, 0, by simp⟩
  · obtain ⟨hframe, hlive', heffects⟩ := userCalls_live (s := s.setInput b) hlive ht
    exact .inl ⟨(setInput_frame s b).trans hframe, hlive', heffects⟩
  · have hclose := handleClose_closes ht
    exact .inr ⟨(setInput_frame s b).trans hclose.frame, hclose.down, hclose.events,
      hclose.effects, hclose.listening⟩

/-- A read on a closed connection returns only when it does not end the input,
and then reaches the input buffer at most. -/
theorem handleRead_down {s s' : InLoop} {result : ReadResult} {calls : List UserCall}
    (hdown : s.conn.state = .kDisConnected) (h : s.handleRead result calls = .ok s') :
    ∃ b, s' = s.setInput b := by
  rcases handleRead_cases h with ⟨-, rfl⟩ | ⟨t, ⟨_, b, -, -, rfl, -⟩, ht⟩ |
    ⟨t, ⟨_, b, -, -, rfl, -⟩, ht⟩
  · exact ⟨_, rfl⟩
  · obtain ⟨b', rfl⟩ := userCalls_down (s := s.setInput b) hdown ht
    exact ⟨b', rfl⟩
  · exact absurd hdown (not_down_of_live (s := s.setInput b) (handleClose_live ht))

/-- The events close the connection. -/
def HangsUp (revents : Events) : Prop := Meets revents EPOLLHUP ∧ ¬ Meets revents EPOLLIN

/-- The events make the connection read. -/
def Readable (revents : Events) : Prop := Meets revents (EPOLLIN ||| EPOLLPRI ||| EPOLLRDHUP)

instance (revents : Events) : Decidable (HangsUp revents) := inferInstanceAs (Decidable (_ ∧ _))

instance (revents : Events) : Decidable (Readable revents) :=
  inferInstanceAs (Decidable (Meets _ _))

/-- handleEvent on the events that the poller left in the channel. -/
theorem handleEvent_parts {s : InLoop} (hb : s.Bound)
    (hup : s.isLive = true ∨ s.conn.state = .kDisConnected) (answers : Answers) :
    s.handleEvent s.conn.channel.revents answers =
      (if HangsUp s.conn.channel.revents then s.handleClose else .ok s) >>= fun t =>
        if Readable s.conn.channel.revents then t.handleRead answers.read answers.calls
        else .ok t :=
  handleEvent_eq hb hup _ answers

theorem handleEvent_live {s s' : InLoop} {answers : Answers} (hb : s.Bound)
    (hlive : s.isLive = true) (h : s.handleEvent s.conn.channel.revents answers = .ok s') :
    s.Continues s' ∨ s.ClosesOnce s' := by
  rw [handleEvent_parts hb (.inl hlive), bind_eq_ok] at h
  obtain ⟨t, hclose, hread⟩ := h
  split at hclose
  · have ht := handleClose_closes hclose
    split at hread
    · obtain ⟨b, rfl⟩ := handleRead_down ht.down hread
      exact .inr (ht.input b)
    · cases hread
      exact .inr ht
  · cases hclose
    split at hread
    · exact handleRead_live hlive hread
    · cases hread
      exact .inl ⟨.refl s, hlive, 0, by simp⟩

/-- A closed connection that is not read from returns from its events only when
they do not close it again. -/
theorem handleEvent_down {s s' : InLoop} {answers : Answers} (hb : s.Bound)
    (hdown : s.conn.state = .kDisConnected) (hread : ¬ Readable s.conn.channel.revents)
    (h : s.handleEvent s.conn.channel.revents answers = .ok s') :
    ¬ HangsUp s.conn.channel.revents ∧ s' = s := by
  simp only [handleEvent_parts hb (.inr hdown), if_neg hread, bind_eq_ok] at h
  obtain ⟨t, hclose, h⟩ := h
  split at hclose
  · exact absurd hdown (not_down_of_live (handleClose_live hclose))
  · rename_i hhup
    cases hclose
    cases h
    exact ⟨hhup, rfl⟩

/-- The events can be dispatched without a second close: if they close the
connection, it is live, and no read of the same events ends the input. -/
def Orderly (s : InLoop) (answers : Answers) : Prop :=
  HangsUp s.conn.channel.revents →
    s.isLive = true ∧ ¬ (Readable s.conn.channel.revents ∧ answers.read = .data [])

/-- The end of the input closes, which a closed connection does not survive. -/
theorem handleRead_down_end {s s' : InLoop} {calls : List UserCall}
    (hdown : s.conn.state = .kDisConnected) : s.handleRead (.data []) calls ≠ .ok s' := by
  intro h
  rcases handleRead_cases h with ⟨⟨_, herror⟩, -⟩ | ⟨_, ⟨_, b, -, -, -, hne⟩, -⟩ |
    ⟨_, ⟨_, b, -, -, rfl, -⟩, hclose⟩
  · cases herror
  · exact hne (Buffer.delivered_eq_nil.mpr rfl)
  · exact not_down_of_live (s := s.setInput b) (handleClose_live hclose) hdown

/-- Events that are not orderly do not return. -/
theorem orderly_of_handleEvent {s s' : InLoop} {answers : Answers} (hb : s.Bound)
    (hup : s.isLive = true ∨ s.conn.state = .kDisConnected)
    (h : s.handleEvent s.conn.channel.revents answers = .ok s') : s.Orderly answers := by
  intro hhup
  simp only [handleEvent_parts hb hup, if_pos hhup, bind_eq_ok] at h
  obtain ⟨t, hclose, h⟩ := h
  refine ⟨handleClose_live hclose, fun ⟨hread, hend⟩ => ?_⟩
  rw [if_pos hread, hend] at h
  exact handleRead_down_end (handleClose_closes hclose).down h

section Avoids

variable {e : Fault} (he : e.ofTeardown = true)
include he

theorem ne_of_ofTeardown {f : Fault} (hf : f.ofTeardown = false) : f ≠ e := by
  intro heq
  rw [heq, he] at hf
  cases hf

theorem update_avoids (ch : Channel Handler) (p : Epoll) : Avoids e (ch.update p) := by
  refine Avoids.ite (fun _ => ?_) fun _ => ?_
  · exact (require_avoids (ne_of_ofTeardown he rfl)).bind fun _ _ => .ok e _
  · refine (require_avoids (ne_of_ofTeardown he rfl)).bind fun _ _ => ?_
    exact (require_avoids (ne_of_ofTeardown he rfl)).bind fun _ _ => .ok e _

theorem onChannel_avoids (s : InLoop)
    {f : Channel Handler → Epoll → Except Fault (Channel Handler × Epoll)} (events : Events)
    (hf : ∀ p, f s.conn.channel p = Channel.update { s.conn.channel with events := events } p) :
    Avoids e (s.onChannel f) := by
  refine Avoids.bind ?_ fun _ _ => .ok e _
  rw [hf]
  exact update_avoids he _ _

theorem sendInLoop_avoids (s : InLoop) (data : Bytes) (result : WriteResult) :
    Avoids e (s.sendInLoop data result) := by
  by_cases hdown : s.conn.state = .kDisConnected
  · exact Avoids.ite (fun _ => .ok e s) fun hup => absurd hdown hup
  · rw [sendInLoop_eq hdown]
    refine Avoids.ite (fun _ => .ok e _) fun _ => ?_
    refine (Buffer.append_avoids (Fault.ofBuffer_of_teardown he) _ _).bind fun _ _ => ?_
    exact Avoids.ite (fun _ => .ok e _) fun _ => onChannel_avoids he _ _ fun _ => rfl

theorem userCall_avoids (s : InLoop) (c : UserCall) : Avoids e (s.userCall c) := by
  cases c with
  | send message result =>
      exact Avoids.ite (fun _ => sendInLoop_avoids he s message result) fun _ => .ok e s
  | shutdown => exact .ok e _
  | forceClose => exact .ok e _
  | consume len =>
      exact (Buffer.retrieve_avoids (Fault.ofBuffer_of_teardown he) _ _).bind fun _ _ => .ok e _

theorem userCalls_avoids (s : InLoop) (calls : List UserCall) :
    Avoids e (run userCall s calls) :=
  run_avoids (fun s c => userCall_avoids he s c) s calls

theorem handleClose_avoids {s : InLoop} (hlive : s.isLive = true) : Avoids e s.handleClose := by
  rw [handleClose, require_of_true hlive, ok_bind]
  refine Avoids.bind ?_ fun _ _ => .ok e _
  exact onChannel_avoids he _ kNoneEvent fun _ => rfl

theorem handleRead_avoids {s : InLoop} {result : ReadResult} (calls : List UserCall)
    (h : result = .data [] → s.isLive = true) : Avoids e (s.handleRead result calls) := by
  cases result with
  | error _ => exact .ok e s
  | data bytes =>
      refine (Buffer.readFd_avoids (Fault.ofBuffer_of_teardown he) _ _).bind fun b _ => ?_
      refine Avoids.ite (fun _ => userCalls_avoids he _ calls) fun hnone => ?_
      have hnil : s.conn.inputBuffer.delivered (.data bytes) = [] :=
        List.eq_nil_of_length_eq_zero (Nat.eq_zero_of_not_pos hnone)
      rw [Buffer.delivered_eq_nil] at hnil
      exact handleClose_avoids he (s := s.setInput b) (h (by rw [hnil]))

theorem handleEvent_avoids {s : InLoop} {answers : Answers} (hb : s.Bound)
    (hup : s.isLive = true ∨ s.conn.state = .kDisConnected)
    (hquiet : s.conn.state = .kDisConnected → ¬ Readable s.conn.channel.revents)
    (h : s.Orderly answers) : Avoids e (s.handleEvent s.conn.channel.revents answers) := by
  rw [handleEvent_parts hb hup]
  by_cases hhup : HangsUp s.conn.channel.revents
  · obtain ⟨hlive, hend⟩ := h hhup
    rw [if_pos hhup]
    refine (handleClose_avoids he hlive).bind fun t _ => ?_
    refine Avoids.ite (fun hread => ?_) fun _ => .ok e t
    exact handleRead_avoids he _ fun hzero => absurd ⟨hread, hzero⟩ hend
  · rw [if_neg hhup, ok_bind]
    refine Avoids.ite (fun hread => ?_) fun _ => .ok e s
    exact handleRead_avoids he _ fun _ => hup.resolve_right fun hdown => hquiet hdown hread

theorem connectEstablished_avoids (s : InLoop) (calls : List UserCall) :
    Avoids e (s.connectEstablished calls) := by
  refine (require_avoids (ne_of_ofTeardown he rfl)).bind fun _ _ => ?_
  refine Avoids.bind ?_ fun t _ => userCalls_avoids he t calls
  exact onChannel_avoids he _ (s.conn.channel.events ||| kReadEvent) fun _ => rfl

end Avoids

/-- connectEstablished registers the channel, for an fd that is new to the
kernel. -/
theorem connectEstablished_ok {s s' : InLoop} {calls : List UserCall}
    (hindex : s.conn.channel.index < 0) (hfree : s.poller.interest s.conn.channel.fd = none)
    (h : s.connectEstablished calls = .ok s') : s.Continues s' ∧ ∃ mask, s'.Listening mask := by
  simp only [connectEstablished, bind_eq_ok] at h
  obtain ⟨_, -, t, ht, h⟩ := h
  obtain ⟨hframe, -, hstate, -, -, heffects, -⟩ :=
    onChannel_update (f := Channel.enableReading) _ (fun _ => rfl) ht
  have hset : s.Frame (s.setState .kConnected) := .of_eq rfl ⟨_, rfl⟩
  have hlistening : t.Listening (s.conn.channel.events ||| kReadEvent) := by
    obtain ⟨channel, poller, hupdate, rfl⟩ := onChannel_ok ht
    obtain ⟨⟨index, rfl⟩, -, hchannels, hinterest, habsent⟩ := Channel.update_ok hupdate
    exact ⟨hchannels, hinterest ⟨fun _ => habsent hindex, fun _ => hfree⟩⟩
  have hcalls := userCalls_continues ((isLive_iff t).mpr (.inl hstate)) h
  obtain ⟨k, hk⟩ := hcalls.effects
  refine ⟨⟨(hset.trans hframe).trans hcalls.frame, hcalls.live, k, ?_⟩,
    hcalls.frame.listening _ hlistening⟩
  rw [hk, heffects]
  rfl

theorem connectDestroyed_down {s : InLoop} (hdown : s.conn.state = .kDisConnected) :
    s.connectDestroyed = s.onChannel Channel.remove := by
  have hup : s.conn.state ≠ .kConnected := by
    rw [hdown]
    decide
  rw [connectDestroyed, disconnectIfUp, if_neg hup, ok_bind]

/-- connectDestroyed takes a closed connection out of its poller. -/
theorem connectDestroyed_ok {s : InLoop} (hdown : s.conn.state = .kDisConnected)
    (hevents : s.conn.channel.events = kNoneEvent) {mask : Events} (hlistening : s.Listening mask) :
    ∃ p', s.connectDestroyed = .ok { s with poller := p', conn := { s.conn with channel :=
        { s.conn.channel with addedToLoop := false } } } ∧
      s.poller.SameBut s.conn.channel.fd p' ∧ p'.channels s.conn.channel.fd = none := by
  obtain ⟨p', hremove, hsame, habsent⟩ := Channel.remove_returns hevents hlistening.1
  refine ⟨p', ?_, hsame, habsent⟩
  simp only [connectDestroyed_down hdown, onChannel, hremove, ok_bind]
  rfl

end InLoop
end TAlib
