import TAlib.Tcp.OutputStream

/-!
The half-close of a connection. shutdown asks for it and shutdownInLoop performs
it, unless output is pending; then handleWrite would have to, but its test for
kDisConnecting is switched off. So a pending half-close is never made up for, and
the first handleWrite that empties the buffer leaves the write side open.
-/

namespace TAlib

open Foundation

/-- A connection with whether another thread's shutdownInLoop is queued, and the
output that shutdownInLoop found pending when it ran. -/
structure Closing where
  loop : InLoop
  queued : Bool
  found : Option Bytes

inductive CloseCall where
  | send (message : Bytes) (result : WriteResult)
  /-- A functor that another thread queued. -/
  | sendInLoop (data : Bytes) (result : WriteResult)
  | shutdown
  /-- shutdown in another thread, and the functor that it queues. -/
  | shutdownElsewhere
  | shutdownInLoop
  | handleWrite (result : WriteResult)
  deriving DecidableEq

/-- How much a write call took, at most. -/
def WriteResult.count : WriteResult → Nat
  | .wrote n => n
  | .error _ => 0

namespace Closing

def pending (s : Closing) : Bytes := s.loop.conn.outputBuffer.readable

def exec (s : Closing) : CloseCall → Except Fault Closing
  | .send message result => do
      let loop ← s.loop.send message result
      return { s with loop := loop }
  | .sendInLoop data result => do
      let loop ← s.loop.sendInLoop data result
      return { s with loop := loop }
  | .shutdown =>
      if s.loop.conn.state = .kConnected then
        .ok { s with loop := s.loop.shutdown, found := some s.pending }
      else .ok s
  | .shutdownElsewhere =>
      if s.loop.conn.state = .kConnected then
        .ok { s with loop := s.loop.setState .kDisConnecting, queued := true }
      else .ok s
  | .shutdownInLoop =>
      if s.queued then
        .ok { s with loop := s.loop.shutdownInLoop, queued := false, found := some s.pending }
      else .ok s
  | .handleWrite result => do
      let loop ← s.loop.handleWrite result
      return { s with loop := loop }

/-- Once shutdownInLoop has run and nothing pends, the write side is shut down. -/
def HalfClosed (s : Closing) : Prop :=
  s.found ≠ none → s.loop.conn.state = .kDisConnecting → s.pending = [] →
    0 < s.loop.conn.socket.writeShutdowns

/-- handleWrite does not empty the buffer of a connection on which shutdownInLoop
has found output pending. -/
def StaysPending (s : Closing) : CloseCall → Prop
  | .handleWrite result => ∀ p, s.found = some p → p ≠ [] → result.count < s.pending.length
  | _ => True

end Closing

namespace InLoop

/-- The channel asks for writing exactly while output is queued. -/
structure WritesQueued (s : InLoop) : Prop where
  valid : s.conn.outputBuffer.Valid
  interest : Meets s.conn.channel.events kWriteEvent ↔ s.conn.outputBuffer.readable ≠ []

theorem sendInLoop_writesQueued {s s' : InLoop} {data : Bytes} {result : WriteResult}
    (hs : s.WritesQueued) (hup : s.conn.state ≠ .kDisConnected)
    (h : s.sendInLoop data result = .ok s') :
    s'.WritesQueued ∧ (s.conn.outputBuffer.readable ≠ [] → s'.conn.outputBuffer.readable ≠ []) := by
  obtain ⟨-, -, -, hcases⟩ := sendInLoop_cases hup h
  rcases hcases with ⟨-, rfl⟩ | ⟨-, hevents, ⟨hrest, happend⟩, -⟩
  · exact ⟨⟨hs.valid, meets_and_write.trans hs.interest⟩, id⟩
  · obtain ⟨hv, hread⟩ := Buffer.append_ok hs.valid happend
    have hne : s'.conn.outputBuffer.readable ≠ [] := by
      rw [hread]
      exact List.append_ne_nil_of_right_ne_nil _ hrest
    refine ⟨⟨hv, iff_of_true ?_ hne⟩, fun _ => hne⟩
    rw [hevents]
    decide

theorem sendInLoop_writeShutdowns {s s' : InLoop} {data : Bytes} {result : WriteResult}
    (hup : s.conn.state ≠ .kDisConnected) (h : s.sendInLoop data result = .ok s') :
    s'.conn.socket.writeShutdowns = s.conn.socket.writeShutdowns := by
  rw [sendInLoop_eq hup] at h
  split at h
  · cases h
    rfl
  · simp only [queueRest, bind_eq_ok] at h
    obtain ⟨b, -, h⟩ := h
    split at h
    · cases h
      rfl
    · obtain ⟨channel, poller, -, rfl⟩ := onChannel_ok h
      rfl

theorem Established.writeShutdowns {s : InLoop} (h : s.Established) :
    s.conn.socket.writeShutdowns = 0 := by
  obtain ⟨poller, address, fd, conn, -, hnew, h⟩ := h
  obtain ⟨-, hsocket, -⟩ := new_ok hnew
  simp only [connectEstablished, bind_eq_ok] at h
  obtain ⟨_, -, t, ht, h⟩ := h
  cases h
  obtain ⟨channel, poller', -, rfl⟩ := onChannel_ok ht
  exact congrArg Socket.writeShutdowns hsocket

/-- handleWrite takes from the front of the queue what the socket takes. -/
theorem handleWrite_writesQueued {s s' : InLoop} {result : WriteResult} (hs : s.WritesQueued)
    (h : s.handleWrite result = .ok s') :
    s'.WritesQueued ∧
      s'.conn.outputBuffer.readable = s.conn.outputBuffer.readable.drop result.count ∧
      s'.conn.socket.writeShutdowns = s.conn.socket.writeShutdowns := by
  have hwriting : s.isWriting.2.WritesQueued := ⟨hs.valid, meets_and_write.trans hs.interest⟩
  simp only [handleWrite] at h
  split at h
  · cases result with
    | error _ =>
        cases h
        exact ⟨⟨hwriting.valid, hwriting.interest⟩, rfl, rfl⟩
    | wrote n =>
        simp only [Socket.write] at h
        have hdrop : s.conn.outputBuffer.readable.drop (min n s.conn.outputBuffer.readable.length) =
            s.conn.outputBuffer.readable.drop n := by
          rcases Nat.le_total n s.conn.outputBuffer.readable.length with hle | hle
          · rw [Nat.min_eq_left hle]
          · rw [Nat.min_eq_right hle, List.drop_length, List.drop_of_length_le hle]
        split at h
        · simp only [bind_eq_ok] at h
          obtain ⟨b, hb, h⟩ := h
          obtain ⟨hv, hread⟩ := Buffer.retrieve_ok hwriting.valid (Nat.min_le_right _ _) hb
          have hread' : b.readable = s.conn.outputBuffer.readable.drop n := hread.trans hdrop
          split at h
          · rename_i hempty
            obtain ⟨channel, poller, hf, rfl⟩ := onChannel_ok h
            obtain ⟨⟨index, rfl⟩, -⟩ := Channel.update_ok hf
            rw [← hv.readable_length] at hempty
            refine ⟨⟨hv, iff_of_false ?_ (not_not.mpr (List.eq_nil_of_length_eq_zero hempty))⟩,
              hread', rfl⟩
            exact not_not.mpr (and_not_and_self _ _)
          · rename_i hleft
            cases h
            refine ⟨⟨hv, iff_of_true ?_ fun hnil => hleft ?_⟩, hread', rfl⟩
            · rename_i hw _
              exact (isWriting_meets s).mpr (of_decide_eq_true hw)
            · rw [← hv.readable_length, show b.readable = [] from hnil]
              rfl
        · rename_i hzero
          cases h
          refine ⟨⟨hwriting.valid, hwriting.interest⟩, ?_, rfl⟩
          have hzero' : min n s.conn.outputBuffer.readable.length = 0 :=
            Nat.eq_zero_of_not_pos hzero
          rw [WriteResult.count, ← hdrop, hzero']
          rfl
  · rename_i hidle
    cases h
    refine ⟨hwriting, ?_, rfl⟩
    have hempty : s.conn.outputBuffer.readable = [] := by
      by_contra hne
      exact hidle (decide_eq_true (hs.interest.mpr hne))
    change s.conn.outputBuffer.readable = _
    rw [hempty, List.drop_nil]

/-- shutdownInLoop shuts the write side down exactly when nothing is queued. -/
theorem shutdownInLoop_writesQueued {s : InLoop} (hs : s.WritesQueued) :
    s.shutdownInLoop.WritesQueued ∧
      s.shutdownInLoop.conn.outputBuffer = s.conn.outputBuffer ∧
      s.shutdownInLoop.conn.socket.writeShutdowns = s.conn.socket.writeShutdowns +
        (if s.conn.outputBuffer.readable = [] then 1 else 0) := by
  have hwriting : s.isWriting.2.WritesQueued := ⟨hs.valid, meets_and_write.trans hs.interest⟩
  simp only [shutdownInLoop]
  split
  · rename_i hw
    refine ⟨hwriting, rfl, ?_⟩
    rw [if_neg (hs.interest.mp (of_decide_eq_true hw))]
    rfl
  · rename_i hidle
    refine ⟨⟨hwriting.valid, hwriting.interest⟩, rfl, ?_⟩
    rw [if_pos]
    · rfl
    · by_contra hne
      exact hidle (decide_eq_true (hs.interest.mpr hne))

end InLoop

namespace Closing

open InLoop

/-- A half-close that was asked for while output was pending is still open, and so
is the output. -/
structure Sound (s : Closing) : Prop where
  writes : s.loop.WritesQueued
  phase : s.loop.conn.state = .kConnected ∧ s.queued = false ∧ s.found = none ∨
    s.loop.conn.state = .kDisConnecting ∧ s.queued = s.found.isNone
  before : s.found = none → s.loop.conn.socket.writeShutdowns = 0
  idle : s.found = some [] → 0 < s.loop.conn.socket.writeShutdowns
  busy : ∀ p, s.found = some p → p ≠ [] →
    s.loop.conn.socket.writeShutdowns = 0 ∧ s.pending ≠ []

theorem Sound.up {s : Closing} (hs : s.Sound) : s.loop.conn.state ≠ .kDisConnected := by
  rcases hs.phase with ⟨hstate, -⟩ | ⟨hstate, -⟩
  · rw [hstate]
    nofun
  · rw [hstate]
    nofun

theorem Sound.halfClosed {s : Closing} (hs : s.Sound) : s.HalfClosed := by
  intro hfound _ hempty
  obtain ⟨p, hp⟩ := Option.ne_none_iff_exists'.mp hfound
  by_cases hnil : p = []
  · exact hs.idle (hnil ▸ hp)
  · exact absurd hempty (hs.busy p hp hnil).2

/-- A step that sends. -/
theorem Sound.sends {s : Closing} (hs : s.Sound) {data : Bytes} {result : WriteResult}
    {loop : InLoop} (h : s.loop.sendInLoop data result = .ok loop) :
    Sound { s with loop := loop } := by
  obtain ⟨hwrites, hkeeps⟩ := sendInLoop_writesQueued hs.writes hs.up h
  have hstate := sendInLoop_state h
  have hshut := sendInLoop_writeShutdowns hs.up h
  refine ⟨hwrites, ?_, fun hnone => hshut.trans (hs.before hnone), fun hidle => ?_,
    fun p hp hne => ⟨hshut.trans (hs.busy p hp hne).1, hkeeps (hs.busy p hp hne).2⟩⟩
  · rw [hstate]
    exact hs.phase
  · change 0 < loop.conn.socket.writeShutdowns
    rw [hshut]
    exact hs.idle hidle

/-- What shutdownInLoop leaves. -/
theorem Sound.shuts {s : Closing} (hs : s.Sound) (hnone : s.found = none) {loop : InLoop}
    (hsame : loop.conn.outputBuffer = s.loop.conn.outputBuffer ∧
      loop.conn.socket = s.loop.conn.socket ∧ loop.conn.channel = s.loop.conn.channel)
    (hstate : loop.conn.state = .kDisConnecting) :
    Sound ⟨loop.shutdownInLoop, false, some s.pending⟩ := by
  obtain ⟨houtput, hsocket, hchannel⟩ := hsame
  have hloop : loop.WritesQueued := by
    refine ⟨houtput ▸ hs.writes.valid, ?_⟩
    rw [houtput, hchannel]
    exact hs.writes.interest
  obtain ⟨hwrites, hbuffer, hshut⟩ := shutdownInLoop_writesQueued hloop
  have hstate' : loop.shutdownInLoop.conn.state = .kDisConnecting :=
    (shutdownInLoop_state loop).trans hstate
  rw [houtput, hsocket, hs.before hnone] at hshut
  change _ = 0 + (if s.pending = [] then 1 else 0) at hshut
  refine ⟨hwrites, .inr ⟨hstate', rfl⟩, nofun, fun hidle => ?_, fun p hp hne => ?_⟩
  · rw [if_pos (Option.some.inj hidle)] at hshut
    change 0 < loop.shutdownInLoop.conn.socket.writeShutdowns
    omega
  · cases hp
    rw [if_neg hne] at hshut
    refine ⟨hshut, ?_⟩
    change loop.shutdownInLoop.conn.outputBuffer.readable ≠ []
    rw [hbuffer, houtput]
    exact hne

theorem exec_sound {s t : Closing} {call : CloseCall} (hs : s.Sound)
    (hstays : s.StaysPending call) (h : s.exec call = .ok t) : t.Sound := by
  cases call with
  | send message result =>
      obtain ⟨loop, hloop, h⟩ := bind_eq_ok.mp h
      cases h
      rw [send] at hloop
      split at hloop
      · exact hs.sends hloop
      · cases hloop
        exact hs
  | sendInLoop data result =>
      obtain ⟨loop, hloop, h⟩ := bind_eq_ok.mp h
      cases h
      exact hs.sends hloop
  | shutdown =>
      rw [exec] at h
      split at h
      · rename_i hconn
        cases h
        obtain ⟨-, hq, hnone⟩ := hs.phase.resolve_right fun hdis => by
          rw [hdis.1] at hconn
          cases hconn
        rw [hq, InLoop.shutdown, if_pos hconn]
        exact hs.shuts hnone ⟨rfl, rfl, rfl⟩ rfl
      · cases h
        exact hs
  | shutdownElsewhere =>
      rw [exec] at h
      split at h
      · rename_i hconn
        cases h
        obtain ⟨-, -, hnone⟩ := hs.phase.resolve_right fun hdis => by
          rw [hdis.1] at hconn
          cases hconn
        refine ⟨⟨hs.writes.valid, hs.writes.interest⟩, .inr ⟨rfl, ?_⟩, hs.before, hs.idle, hs.busy⟩
        rw [hnone]
        rfl
      · cases h
        exact hs
  | shutdownInLoop =>
      rw [exec] at h
      split at h
      · rename_i hq
        cases h
        obtain ⟨hstate, hqueued⟩ := hs.phase.resolve_left fun hconn => by
          rw [hconn.2.1] at hq
          cases hq
        exact hs.shuts (Option.isNone_iff_eq_none.mp (hqueued.symm.trans hq)) ⟨rfl, rfl, rfl⟩ hstate
      · cases h
        exact hs
  | handleWrite result =>
      obtain ⟨loop, hloop, h⟩ := bind_eq_ok.mp h
      cases h
      obtain ⟨hwrites, hread, hshut⟩ := handleWrite_writesQueued hs.writes hloop
      have hstate := (handleWrite_ok hloop).2.1
      refine ⟨hwrites, ?_, fun hnone => hshut.trans (hs.before hnone), fun hidle => ?_,
        fun p hp hne => ⟨hshut.trans (hs.busy p hp hne).1, ?_⟩⟩
      · rw [hstate]
        exact hs.phase
      · change 0 < loop.conn.socket.writeShutdowns
        rw [hshut]
        exact hs.idle hidle
      · have hlt := hstays p hp hne
        change loop.conn.outputBuffer.readable ≠ []
        rw [hread, Ne, List.drop_eq_nil_iff, not_le]
        exact hlt

/-- A handleWrite that empties the buffer leaves the half-close undone. -/
theorem not_halfClosed {s t : Closing} {call : CloseCall} (hs : s.Sound)
    (hempties : ¬ s.StaysPending call) (h : s.exec call = .ok t) : ¬ t.HalfClosed := by
  cases call with
  | handleWrite result =>
      obtain ⟨p, hp, hne, hlt⟩ : ∃ p, s.found = some p ∧ p ≠ [] ∧
          ¬ result.count < s.pending.length := by
        simpa only [StaysPending, not_forall, exists_prop] using hempties
      obtain ⟨loop, hloop, h⟩ := bind_eq_ok.mp h
      cases h
      obtain ⟨-, hread, hshut⟩ := handleWrite_writesQueued hs.writes hloop
      have hstate : s.loop.conn.state = .kDisConnecting := by
        rcases hs.phase with ⟨-, -, hnone⟩ | ⟨hstate, -⟩
        · exact nomatch hnone.symm.trans hp
        · exact hstate
      intro hclosed
      have hfound : s.found ≠ none := by
        rw [hp]
        nofun
      have hpos := hclosed hfound ((handleWrite_ok hloop).2.1.trans hstate)
        (hread.trans (List.drop_of_length_le (not_lt.mp hlt)))
      change 0 < loop.conn.socket.writeShutdowns at hpos
      rw [hshut, (hs.busy p hp hne).1] at hpos
      exact absurd hpos (lt_irrefl 0)
  | _ => exact absurd trivial hempties

/-- Nothing has been asked for yet. -/
def start (loop : InLoop) : Closing := ⟨loop, false, none⟩

theorem start_sound {loop : InLoop} (h : loop.Established) : (start loop).Sound := by
  obtain ⟨-, hstate, hevents, -, hv, hempty, -⟩ := h.spec
  refine ⟨⟨hv, iff_of_false ?_ (not_not.mpr hempty)⟩, .inl ⟨hstate, rfl, rfl⟩, fun _ =>
    h.writeShutdowns, nofun, nofun⟩
  change ¬ Meets loop.conn.channel.events kWriteEvent
  rw [hevents]
  decide

/-- Over every run of an established connection, with sends and writes of any
length and one shutdown, from the loop or from another thread, the half-close is
complete whenever nothing pends exactly when no handleWrite empties the buffer
after shutdownInLoop has found output in it. -/
theorem half_close_completes_iff {loop : InLoop} (hs : loop.Established) {calls : List CloseCall}
    {t : Closing} (hrun : run exec (start loop) calls = .ok t) :
    Always exec HalfClosed (start loop) calls ↔ Respects exec StaysPending (start loop) calls :=
  always_iff_respects (fun _ h => h.halfClosed) (fun _ _ _ h hstays ht => exec_sound h hstays ht)
    (fun _ _ _ h hempties ht => not_halfClosed h hempties ht) (start_sound hs) hrun

/-- A connection that is established and put through these calls. -/
def established (calls : List CloseCall) : Except Fault Closing := do
  let loop ← establish
  run exec (start loop) calls

theorem established_ok {calls : List CloseCall} {t : Closing} (h : established calls = .ok t) :
    ∃ loop, loop.Established ∧ run exec (start loop) calls = .ok t := by
  obtain ⟨loop, hloop, h⟩ := bind_eq_ok.mp h
  exact ⟨loop, establish_ok hloop, h⟩

/-- A message that the kernel takes at once, and a shutdown. -/
theorem half_close_completes_iff_taken :
    ∃ loop, loop.Established ∧
      Always exec HalfClosed (start loop) [.send [1, 2] (.wrote 2), .shutdown] := by
  obtain ⟨t, ht, -⟩ := resultHolds_iff.mp (show resultHolds (fun _ : Closing => True)
    (established [.send [1, 2] (.wrote 2), .shutdown]) = true by decide +kernel)
  obtain ⟨loop, hloop, hrun⟩ := established_ok ht
  refine ⟨loop, hloop, (half_close_completes_iff hloop hrun).mpr ?_⟩
  refine respects_of_forall (fun call hcall s => ?_) _
  simp only [List.mem_cons, List.not_mem_nil, or_false] at hcall
  rcases hcall with rfl | rfl
  · trivial
  · trivial

/-- A message that waits, a shutdown, and the write that empties the buffer. -/
theorem half_close_never_done :
    ∃ loop t, loop.Established ∧
      run exec (start loop)
      [.send [1, 2] (.error EWOULDBLOCK), .shutdown, .handleWrite (.wrote 2)] =
        .ok t ∧ ¬ t.HalfClosed := by
  obtain ⟨t, ht, hopen⟩ := resultHolds_iff.mp (show resultHolds (fun t : Closing =>
      t.found ≠ none ∧ t.loop.conn.state = .kDisConnecting ∧ t.pending = [] ∧
        t.loop.conn.socket.writeShutdowns = 0)
    (established [.send [1, 2] (.error EWOULDBLOCK), .shutdown, .handleWrite (.wrote 2)]) = true by
      decide +kernel)
  obtain ⟨loop, hloop, hrun⟩ := established_ok ht
  obtain ⟨hfound, hstate, hempty, hzero⟩ := hopen
  refine ⟨loop, t, hloop, hrun, fun hclosed => ?_⟩
  rw [HalfClosed, hzero] at hclosed
  exact absurd (hclosed hfound hstate hempty) (lt_irrefl 0)

end Closing
end TAlib
