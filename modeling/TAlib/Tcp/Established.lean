import TAlib.Common.BufferRefinement
import TAlib.Tcp.ConnectionSteps

/-!
The life of a connection in its loop. It starts as the constructor and
connectEstablished leave it and goes on with any calls that the loop makes:
calls of the user, functors that were queued by other threads, handlers, and
events dispatched through the channel.
-/

namespace TAlib

open Foundation

namespace InLoop

/-- The connection has just been established, on an fd that is new to its
poller. What m_connectionCallBack does is left to the calls that follow. -/
def Established (s : InLoop) : Prop :=
  ∃ poller address fd conn, poller.interest fd = none ∧ TcpConnection.new address fd = .ok conn ∧
    connectEstablished ⟨poller, conn, []⟩ [] = .ok s

theorem new_ok {address fd : Nat} {conn : TcpConnection}
    (h : TcpConnection.new address fd = .ok conn) :
    conn.state = .kConnecting ∧ conn.socket = ⟨[], 0⟩ ∧
      conn.channel = ⟨address, fd, 0, 0, -1, false, some .handleRead, none, none,
        some .handleClose⟩ ∧
      (conn.inputBuffer.Valid ∧ conn.inputBuffer.readable = []) ∧
      conn.outputBuffer.Valid ∧ conn.outputBuffer.readable = [] ∧
      conn.outputBuffer.writerIndex = kCheapPrepend := by
  obtain ⟨b, hnew, hv, hempty, hw⟩ :=
    Buffer.new_spec (show kCheapPrepend + kInitialSize ≤ maxSize by decide)
  simp only [TcpConnection.new, hnew, ok_bind] at h
  cases h
  exact ⟨rfl, rfl, rfl, ⟨hv, hempty⟩, hv, hempty, hw⟩

theorem Established.spec {s : InLoop} (h : s.Established) :
    s.Bound ∧ s.conn.state = .kConnected ∧ s.conn.channel.events = kReadEvent ∧
      s.Listening kReadEvent ∧ s.conn.outputBuffer.Valid ∧ s.conn.outputBuffer.readable = [] ∧
      s.conn.outputBuffer.writerIndex = kCheapPrepend ∧ s.effects = [] := by
  obtain ⟨poller, address, fd, conn, hfree, hnew, h⟩ := h
  obtain ⟨-, -, hchannel, -, hv, hempty, hw⟩ := new_ok hnew
  obtain ⟨state, socket, channel₀, input, output⟩ := conn
  simp only at hchannel hv hempty hw
  subst hchannel
  simp only [connectEstablished, bind_eq_ok] at h
  obtain ⟨_, -, t, ht, h⟩ := h
  cases h
  obtain ⟨channel, poller', hupdate, rfl⟩ := onChannel_ok ht
  obtain ⟨⟨index, rfl⟩, -, hchannels, hinterest, habsent⟩ := Channel.update_ok hupdate
  have hindex : (-1 : Int) < 0 := by decide
  have hread : (0 : Events) ||| kReadEvent = kReadEvent := by decide
  have hlistening := hinterest ⟨fun _ => habsent hindex, fun _ => hfree⟩
  exact ⟨⟨rfl, rfl, rfl, rfl⟩, rfl, hread, ⟨hchannels, hlistening.trans (congrArg some hread)⟩, hv,
    hempty, hw, rfl⟩

/-- Establishing a connection on a new fd succeeds, and registers it. -/
theorem established_exists {poller : Epoll} (address fd : Nat) (habsent : poller.channels fd = none)
    (hfree : poller.interest fd = none) (hsize : poller.maxEventsSize < intMax) :
    ∃ s : InLoop, s.Established ∧ s.conn.channel.Registered s.poller kReadEvent := by
  obtain ⟨b, hnew, -, -, -⟩ :=
    Buffer.new_spec (show kCheapPrepend + kInitialSize ≤ maxSize by decide)
  have hconn : TcpConnection.new address fd = .ok ⟨.kConnecting, ⟨[], 0⟩,
      ⟨address, fd, 0, 0, -1, false, some .handleRead, none, none, some .handleClose⟩, b, b⟩ := by
    simp only [TcpConnection.new, hnew, ok_bind]
    rfl
  let channel : Channel Handler := ⟨address, fd, 0 ||| kReadEvent, 0, -1, false, some .handleRead,
    none, none, some .handleClose⟩
  have hindex : channel.index < 0 := show (-1 : Int) < 0 by decide
  obtain ⟨index, poller', hupdate, hreg⟩ := Channel.update_new hindex habsent hfree hsize
  have hestablished : connectEstablished ⟨poller, ⟨.kConnecting, ⟨[], 0⟩,
      ⟨address, fd, 0, 0, -1, false, some .handleRead, none, none, some .handleClose⟩, b, b⟩, []⟩
      [] = .ok ⟨poller', ⟨.kConnected, ⟨[], 0⟩,
        { channel with addedToLoop := true, index := index }, b, b⟩, []⟩ := by
    have hupdate' : Channel.enableReading ⟨address, fd, 0, 0, -1, false, some Handler.handleRead,
        none, none, some .handleClose⟩ poller =
          .ok ({ channel with addedToLoop := true, index := index }, poller') := hupdate
    simp only [connectEstablished, require_of_true, ok_bind, setState, onChannel, hupdate']
    rfl
  exact ⟨_, ⟨poller, address, fd, _, hfree, hconn, hestablished⟩, hreg⟩

/-- A connection on fd 5, established by a loop of its own. -/
def establish : Except Fault InLoop := do
  let conn ← TcpConnection.new 0 5
  connectEstablished ⟨.new, conn, []⟩ []

theorem establish_ok {s : InLoop} (h : establish = .ok s) : s.Established := by
  obtain ⟨conn, hconn, h⟩ := bind_eq_ok.mp h
  exact ⟨.new, 0, 5, conn, rfl, hconn, h⟩

/-- A change of the events of a registered channel can be published. -/
theorem onChannel_registered {s : InLoop} {mask : Events}
    (h : s.conn.channel.Registered s.poller mask)
    {f : Channel Handler → Epoll → Except Fault (Channel Handler × Epoll)} (events : Events)
    (hf : ∀ p, f s.conn.channel p = Channel.update { s.conn.channel with events := events } p) :
    ∃ p', s.onChannel f = .ok { s with poller := p', conn := { s.conn with channel :=
        { s.conn.channel with events := events, addedToLoop := true } } } ∧
      Channel.Registered { s.conn.channel with events := events, addedToLoop := true } p'
        events := by
  have hreg : Channel.Registered { s.conn.channel with events := events } s.poller mask :=
    ⟨h.index, h.same, h.interest⟩
  obtain ⟨p', hupdate, hreg', -⟩ := Channel.update_registered hreg
  refine ⟨p', ?_, hreg'⟩
  simp only [onChannel, hf, hupdate, ok_bind]
  rfl

theorem handleClose_returns {s : InLoop} {mask : Events} (hlive : s.isLive = true)
    (h : s.conn.channel.Registered s.poller mask) :
    ∃ s', s.handleClose = .ok s' ∧ s'.conn.channel.Registered s'.poller kNoneEvent := by
  obtain ⟨p', hok, hreg⟩ := onChannel_registered (s := s.setState .kDisConnected)
    (f := Channel.disableAll) h kNoneEvent fun _ => rfl
  have hclose : s.handleClose = .ok (emit { s with poller := p', conn := { s.conn with
      state := .kDisConnected
      channel := { s.conn.channel with events := kNoneEvent, addedToLoop := true } } }
      .closeCallBack) := by
    simp only [handleClose, require_of_true hlive, ok_bind, hok]
    rfl
  exact ⟨_, hclose, hreg⟩

/-- The connection can take `n` more bytes: its output buffer has room for
them and its channel is registered. -/
structure Roomy (s : InLoop) (n : Nat) : Prop where
  valid : s.conn.outputBuffer.Valid
  registered : ∃ mask, s.conn.channel.Registered s.poller mask
  room : s.conn.outputBuffer.writerIndex + n ≤ maxSize

theorem Roomy.isWriting {s : InLoop} {n : Nat} (h : s.Roomy n) : s.isWriting.2.Roomy n := by
  obtain ⟨mask, hmask⟩ := h.registered
  exact ⟨h.valid, ⟨mask, hmask.index, hmask.same, hmask.interest⟩, h.room⟩

theorem onChannel_returns {s : InLoop} {n : Nat} (h : s.Roomy n)
    {f : Channel Handler → Epoll → Except Fault (Channel Handler × Epoll)} (events : Events)
    (hf : ∀ p, f s.conn.channel p = Channel.update { s.conn.channel with events := events } p) :
    ∃ s', s.onChannel f = .ok s' ∧ s'.Roomy n := by
  obtain ⟨mask, hmask⟩ := h.registered
  obtain ⟨p', hok, hreg⟩ := onChannel_registered hmask events hf
  exact ⟨_, hok, h.valid, ⟨_, hreg⟩, h.room⟩

theorem queueRest_returns {s : InLoop} {data : Bytes} {k n : Nat} (h : s.Roomy (data.length + n))
    (hint : data.length ≤ intMax) : ∃ s', s.queueRest data k = .ok s' ∧ s'.Roomy n := by
  have hroom := h.room
  have hlen : (data.drop k).length ≤ data.length := by
    rw [List.length_drop]
    exact Nat.sub_le _ _
  obtain ⟨b, hb, hbv, -, hbw⟩ := Buffer.append_spec h.valid (hlen.trans hint) (by omega)
  have hout : (s.setOutput b).Roomy n := ⟨hbv, h.registered, by
    change b.writerIndex + n ≤ maxSize
    omega⟩
  have hw := hout.isWriting
  simp only [queueRest, hb, ok_bind]
  split
  · exact ⟨_, rfl, hw⟩
  · exact onChannel_returns hw _ fun _ => rfl

theorem sendInLoop_returns {s : InLoop} {data : Bytes} {n : Nat} (h : s.Roomy (data.length + n))
    (hint : data.length ≤ intMax) (result : WriteResult) :
    ∃ s', s.sendInLoop data result = .ok s' ∧ s'.Roomy n := by
  have hless : s.Roomy n := ⟨h.valid, h.registered, by
    have := h.room
    omega⟩
  by_cases hstate : s.conn.state = .kDisConnected
  · exact ⟨s, if_pos hstate, hless⟩
  · rw [sendInLoop_eq hstate]
    split
    · exact ⟨_, rfl, hless.isWriting.valid, hless.isWriting.registered, hless.isWriting.room⟩
    · have hw := h.isWriting
      exact queueRest_returns ⟨hw.valid, hw.registered, hw.room⟩ hint

theorem handleWrite_returns {s : InLoop} {n : Nat} (h : s.Roomy n) (result : WriteResult) :
    ∃ s', s.handleWrite result = .ok s' ∧ s'.Roomy n := by
  have hw := h.isWriting
  simp only [handleWrite]
  split
  · cases result with
    | error _ => exact ⟨_, rfl, hw⟩
    | wrote k =>
        simp only [Socket.write]
        split
        · have hle : min k s.isWriting.2.conn.outputBuffer.readable.length ≤
              s.isWriting.2.conn.outputBuffer.readableBytes := by
            rw [hw.valid.readable_length]
            exact Nat.min_le_right _ _
          obtain ⟨b, hb, hbv, -, hbw⟩ := Buffer.retrieve_spec hw.valid hle
          have hroom := hw.room
          simp only [hb, ok_bind]
          have hdrained (socket : Socket) :
              ((s.isWriting.2.setSocket socket).setOutput b).Roomy n := ⟨hbv, hw.registered, by
            change b.writerIndex + n ≤ maxSize
            omega⟩
          split
          · exact onChannel_returns (hdrained _) _ fun _ => rfl
          · exact ⟨_, rfl, hdrained _⟩
        · exact ⟨_, rfl, hw.valid, hw.registered, hw.room⟩
  · exact ⟨_, rfl, hw⟩

/-- The first message on an established connection is written directly. -/
theorem Established.writesDirectly {s : InLoop} (h : s.Established) : s.WritesDirectly := by
  obtain ⟨-, -, hevents, -, hv, hempty, -⟩ := h.spec
  refine ⟨?_, ?_⟩
  · rw [hevents]
    decide
  · rw [← hv.readable_length, hempty]
    rfl

/-- A first message that the kernel takes at once. -/
theorem Established.send_all {s : InLoop} (h : s.Established) (message : Bytes) :
    s.send message (.wrote message.length) = .ok (s.afterWrite message message.length) := by
  obtain ⟨-, hstate, -⟩ := h.spec
  have haccepted : s.acceptedBy message (.wrote message.length) = message.length := by
    simp only [acceptedBy, if_pos h.writesDirectly, Nat.min_self]
  have hup : s.conn.state ≠ .kDisConnected := by
    rw [hstate]
    decide
  rw [send, if_pos hstate, sendInLoop_eq hup, haccepted, if_pos (.inr (Nat.le_refl _))]

inductive LoopCall where
  | user (call : UserCall)
  | sendInLoop (data : Bytes) (result : WriteResult)
  | shutdownInLoop
  | forceCloseInLoop
  | handleRead (result : ReadResult) (calls : List UserCall)
  | handleWrite (result : WriteResult)
  | handleEvent (revents : Events) (answers : Answers)

def loopCall (s : InLoop) : LoopCall → Except Fault InLoop
  | .user call => s.userCall call
  | .sendInLoop data result => s.sendInLoop data result
  | .shutdownInLoop => .ok s.shutdownInLoop
  | .forceCloseInLoop => s.forceCloseInLoop
  | .handleRead result calls => s.handleRead result calls
  | .handleWrite result => s.handleWrite result
  | .handleEvent revents answers => s.handleEvent revents answers

section Conditions

variable (U : InLoop → UserCall → Prop)

/-- The calls of the message callback meet a condition, if it is called. -/
def ReadMeets (s : InLoop) (result : ReadResult) (calls : List UserCall) : Prop :=
  ∀ t, s.Reads result t → Respects userCall U t calls

/-- The same for an event. An event that closes the connection first leaves the
callback without effect. -/
def EventMeets (s : InLoop) (revents : Events) (answers : Answers) : Prop :=
  ¬ (Meets revents EPOLLHUP ∧ ¬ Meets revents EPOLLIN) →
    Meets revents (EPOLLIN ||| EPOLLPRI ||| EPOLLRDHUP) →
    (s.reported revents).ReadMeets U answers.read answers.calls

/-- An invariant `I` that the user's calls keep as long as they meet a condition
and lose for `B` when one does not. -/
structure Guarded (I B : InLoop → Prop) : Prop where
  bound : ∀ {s}, I s → s.Bound
  up : ∀ {s}, I s → s.isLive = true ∨ s.conn.state = .kDisConnected
  input : ∀ {s} b, I s → I (s.setInput b)
  reports : ∀ {s} revents, I s → I (s.reported revents)
  closes : ∀ {s s'}, I s → s.handleClose = .ok s' → I s'
  good : ∀ s c s', I s → U s c → s.userCall c = .ok s' → I s'
  bad : ∀ s c s', I s → ¬ U s c → s.userCall c = .ok s' → B s'
  stays : ∀ s c s', B s → s.userCall c = .ok s' → B s'

end Conditions

theorem Reads.unique {s t t' : InLoop} {result : ReadResult} (h : s.Reads result t)
    (h' : s.Reads result t') : t' = t := by
  obtain ⟨_, b, -, hb, rfl, -⟩ := h
  obtain ⟨_, b', -, hb', rfl, -⟩ := h'
  rw [Except.ok.inj (hb.symm.trans hb')]

namespace Guarded

variable {U : InLoop → UserCall → Prop} {I B : InLoop → Prop} {s s' : InLoop}

/-- A read keeps the invariant exactly when the calls of its callback meet the
condition. -/
theorem handleRead (g : Guarded U I B) {result : ReadResult} {calls : List UserCall} (hs : I s)
    (h : s.handleRead result calls = .ok s') :
    (s.ReadMeets U result calls ∧ I s') ∨ (¬ s.ReadMeets U result calls ∧ B s') := by
  rcases handleRead_cases h with ⟨⟨errno, rfl⟩, rfl⟩ | ⟨t, hreads, hcalls⟩ | ⟨t, hend, hclose⟩
  · refine .inl ⟨fun t ht => ?_, hs⟩
    obtain ⟨_, _, hdata, -⟩ := ht
    cases hdata
  · have hmeets : s.ReadMeets U result calls ↔ Respects userCall U t calls :=
      ⟨fun hm => hm t hreads, fun hres t' ht' => by rwa [hreads.unique ht']⟩
    rw [hmeets]
    obtain ⟨_, b, -, -, rfl, -⟩ := hreads
    exact run_good_or_bad g.good g.bad g.stays (g.input b hs) hcalls
  · obtain ⟨_, b, -, -, rfl, hnil⟩ := hend
    refine .inl ⟨fun t ht => ?_, g.closes (g.input b hs) hclose⟩
    obtain ⟨_, _, -, -, -, hne⟩ := ht
    exact absurd hnil hne

/-- A read after the close of the same event reaches the input buffer at most. -/
theorem handleRead_down (g : Guarded U I B) {result : ReadResult} {calls : List UserCall}
    (hs : I s) (hdown : s.conn.state = .kDisConnected)
    (h : s.handleRead result calls = .ok s') : I s' := by
  rcases handleRead_cases h with ⟨-, rfl⟩ | ⟨t, ⟨_, b, -, -, rfl, -⟩, hcalls⟩ |
    ⟨t, ⟨_, b, -, -, rfl, -⟩, hclose⟩
  · exact hs
  · obtain ⟨b', rfl⟩ := userCalls_down (s := s.setInput b) hdown hcalls
    exact g.input b' (g.input b hs)
  · exact g.closes (g.input b hs) hclose

theorem handleEvent (g : Guarded U I B) {revents : Events} {answers : Answers} (hs : I s)
    (h : s.handleEvent revents answers = .ok s') :
    (s.EventMeets U revents answers ∧ I s') ∨ (¬ s.EventMeets U revents answers ∧ B s') := by
  rw [handleEvent_eq (g.bound hs) (g.up hs), bind_eq_ok] at h
  obtain ⟨t, hclose, hread⟩ := h
  have hreported := g.reports revents hs
  simp only [closePart] at hclose
  simp only [readPart] at hread
  split at hclose
  · rename_i hhup
    have ht := g.closes hreported hclose
    obtain ⟨-, -, hdown, -⟩ := handleClose_ok hclose
    refine .inl ⟨fun hnot => absurd hhup hnot, ?_⟩
    split at hread
    · exact g.handleRead_down ht hdown hread
    · cases hread
      exact ht
  · rename_i hhup
    cases hclose
    split at hread
    · rename_i hin
      have hmeets : s.EventMeets U revents answers ↔
          (s.reported revents).ReadMeets U answers.read answers.calls :=
        ⟨fun hm => hm hhup hin, fun hm _ _ => hm⟩
      rw [hmeets]
      exact g.handleRead hreported hread
    · rename_i hin
      cases hread
      exact .inl ⟨fun _ hin' => absurd hin' hin, hreported⟩

end Guarded
end InLoop
end TAlib
