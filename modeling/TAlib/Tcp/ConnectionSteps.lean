import TAlib.Tcp.TcpConnection

/-!
What the operations of a connection can do, said once. sendInLoop is reduced to
a direct write and a queueing of the rest (`sendInLoop_eq`); every operation
leaves the identity of the channel and all other fds of the poller alone
(`Frame`); and an event dispatched through the channel closes, then reads
(`handleEvent_eq`).
-/

namespace TAlib

open Foundation

namespace InLoop

/-- sendInLoop writes directly: no write interest and nothing queued. -/
def WritesDirectly (s : InLoop) : Prop :=
  ¬ Meets s.conn.channel.events kWriteEvent ∧ s.conn.outputBuffer.readableBytes = 0

/-- The direct write fails with EPIPE or ECONNRESET. -/
def GivesUp (s : InLoop) (result : WriteResult) : Prop :=
  s.WritesDirectly ∧ (result = .error EPIPE ∨ result = .error ECONNRESET)

instance (s : InLoop) : Decidable s.WritesDirectly := inferInstanceAs (Decidable (_ ∧ _))

instance (s : InLoop) (result : WriteResult) : Decidable (s.GivesUp result) :=
  inferInstanceAs (Decidable (_ ∧ _))

/-- How many bytes of a message the direct write hands to the kernel. -/
def acceptedBy (s : InLoop) (data : Bytes) : WriteResult → Nat
  | .wrote n => if s.WritesDirectly then min n data.length else 0
  | .error _ => 0

theorem isWriting_meets (s : InLoop) :
    Meets s.isWriting.2.conn.channel.events kWriteEvent ↔
      Meets s.conn.channel.events kWriteEvent := meets_and_write

/-- enableWriting and disableWriting touch nothing but the channel. -/
theorem onChannel_ok {s s' : InLoop}
    {f : Channel Handler → Epoll → Except Fault (Channel Handler × Epoll)}
    (h : s.onChannel f = .ok s') :
    ∃ channel poller, f s.conn.channel s.poller = .ok (channel, poller) ∧
      s' = { s with poller := poller, conn := { s.conn with channel := channel } } := by
  simp only [onChannel, bind_eq_ok] at h
  obtain ⟨⟨channel, poller⟩, hf, h⟩ := h
  cases h
  exact ⟨channel, poller, hf, rfl⟩

/-- The connection after the direct write. -/
def afterWrite (s : InLoop) (data : Bytes) (n : Nat) : InLoop :=
  s.isWriting.2.setSocket
    { s.conn.socket with accepted := s.conn.socket.accepted ++ data.take n }

theorem finishSend_eq (s : InLoop) (data : Bytes) (nwrote : Nat) (faultError : Bool) :
    s.finishSend data nwrote faultError =
      if faultError = true ∨ data.length ≤ nwrote then .ok s else s.queueRest data nwrote := by
  simp only [finishSend, require_of_true (Nat.sub_le data.length nwrote), ok_bind]
  have hcond : (faultError = false ∧ 0 < data.length - nwrote) ↔
      ¬ (faultError = true ∨ data.length ≤ nwrote) := by
    cases faultError with
    | false =>
        simp only [true_and, Bool.false_eq_true, false_or]
        omega
    | true => simp
  simp only [hcond, ite_not]
  rfl

theorem acceptedBy_of_queued {s : InLoop} (h : ¬ s.WritesDirectly) (data : Bytes)
    (result : WriteResult) : s.acceptedBy data result = 0 := by
  cases result with
  | wrote n => exact if_neg h
  | error _ => rfl

/-- Everything sendInLoop can do on a connection that is not down: some bytes
are written directly, and the rest is queued unless the message is given up. -/
theorem sendInLoop_eq {s : InLoop} (hs : s.conn.state ≠ .kDisConnected) (data : Bytes)
    (result : WriteResult) :
    s.sendInLoop data result =
      if s.GivesUp result ∨ data.length ≤ s.acceptedBy data result then
        .ok (s.afterWrite data (s.acceptedBy data result))
      else (s.afterWrite data (s.acceptedBy data result)).queueRest data
        (s.acceptedBy data result) := by
  have hzero : s.afterWrite data 0 = s.isWriting.2 := by
    simp only [afterWrite, List.take_zero, List.append_nil]
    rfl
  simp only [sendInLoop, if_neg hs]
  by_cases hdirect : s.WritesDirectly
  · have hcond : s.isWriting.1 = false ∧ s.isWriting.2.conn.outputBuffer.readableBytes = 0 :=
      ⟨decide_eq_false hdirect.1, hdirect.2⟩
    rw [if_pos hcond]
    cases result with
    | wrote n =>
        have hgive : ¬ s.GivesUp (.wrote n) := by
          intro h
          cases h.2 with
          | inl h => cases h
          | inr h => cases h
        simp only [tryWrite, Socket.write, finishSend_eq, acceptedBy, if_pos hdirect, hgive,
          false_or, Bool.false_eq_true]
        rfl
    | error errno =>
        have hgive : s.GivesUp (.error errno) ↔
            errno ≠ EWOULDBLOCK ∧ (errno = EPIPE ∨ errno = ECONNRESET) := by
          simp only [GivesUp, hdirect, true_and, WriteResult.error.injEq]
          constructor
          · intro h
            refine ⟨?_, h⟩
            cases h with
            | inl h => rw [h]; decide
            | inr h => rw [h]; decide
          · exact And.right
        simp only [tryWrite, Socket.write, finishSend_eq, acceptedBy, hzero, hgive,
          decide_eq_true_eq]
        rfl
  · have hcond : ¬ (s.isWriting.1 = false ∧
        s.isWriting.2.conn.outputBuffer.readableBytes = 0) := by
      intro h
      exact hdirect ⟨of_decide_eq_false h.1, h.2⟩
    have hgive : ¬ s.GivesUp result := fun h => hdirect h.1
    rw [if_neg hcond, finishSend_eq, acceptedBy_of_queued hdirect, hzero]
    simp only [hgive, false_or, Bool.false_eq_true]

theorem acceptedBy_of_givesUp {s : InLoop} {result : WriteResult} (h : s.GivesUp result)
    (data : Bytes) : s.acceptedBy data result = 0 := by
  cases h.2 with
  | inl h => rw [h]; rfl
  | inr h => rw [h]; rfl

theorem queueRest_state {s s' : InLoop} {data : Bytes} {nwrote : Nat}
    (h : s.queueRest data nwrote = .ok s') : s'.conn.state = s.conn.state := by
  simp only [queueRest, bind_eq_ok] at h
  obtain ⟨b, -, h⟩ := h
  split at h
  · cases h
    rfl
  · obtain ⟨channel, poller, -, rfl⟩ := onChannel_ok h
    rfl

theorem sendInLoop_state {s s' : InLoop} {data : Bytes} {result : WriteResult}
    (h : s.sendInLoop data result = .ok s') : s'.conn.state = s.conn.state := by
  by_cases hstate : s.conn.state = .kDisConnected
  · simp only [sendInLoop, if_pos hstate] at h
    cases h
    rfl
  · rw [sendInLoop_eq hstate] at h
    split at h
    · cases h
      rfl
    · have hqueued := queueRest_state h
      exact hqueued

theorem shutdownInLoop_state (s : InLoop) : s.shutdownInLoop.conn.state = s.conn.state := by
  simp only [shutdownInLoop]
  split <;> rfl

/-- The poller maps the fd of the connection to its channel, and the kernel
waits for `mask` on it. -/
def Listening (s : InLoop) (mask : Events) : Prop :=
  s.poller.channels s.conn.channel.fd = some s.conn.channel.address ∧
    s.poller.interest s.conn.channel.fd = some mask

/-- What no operation between established and destroyed changes. -/
structure Frame (s s' : InLoop) : Prop where
  address : s'.conn.channel.address = s.conn.channel.address
  fd : s'.conn.channel.fd = s.conn.channel.fd
  revents : s'.conn.channel.revents = s.conn.channel.revents
  readCallBack : s'.conn.channel.readCallBack = s.conn.channel.readCallBack
  writeCallBack : s'.conn.channel.writeCallBack = s.conn.channel.writeCallBack
  errorCallBack : s'.conn.channel.errorCallBack = s.conn.channel.errorCallBack
  closeCallBack : s'.conn.channel.closeCallBack = s.conn.channel.closeCallBack
  poller : s.poller.SameBut s.conn.channel.fd s'.poller
  listening : ∀ mask, s.Listening mask → ∃ mask', s'.Listening mask'

/-- A change of anything but the identity of the channel and the poller. -/
theorem Frame.of_eq {s s' : InLoop} (hpoller : s'.poller = s.poller)
    (hchannel : ∃ events, s'.conn.channel = { s.conn.channel with events := events }) :
    s.Frame s' := by
  obtain ⟨events, hchannel⟩ := hchannel
  exact
    { address := by rw [hchannel]
      fd := by rw [hchannel]
      revents := by rw [hchannel]
      readCallBack := by rw [hchannel]
      writeCallBack := by rw [hchannel]
      errorCallBack := by rw [hchannel]
      closeCallBack := by rw [hchannel]
      poller := by rw [hpoller]; exact Epoll.SameBut.refl _ _
      listening := fun mask h => ⟨mask, by simpa only [Listening, hpoller, hchannel] using h⟩ }

theorem Frame.refl (s : InLoop) : s.Frame s := .of_eq rfl ⟨_, rfl⟩

theorem Frame.trans {s t u : InLoop} (h : s.Frame t) (h' : t.Frame u) : s.Frame u where
  address := h'.address.trans h.address
  fd := h'.fd.trans h.fd
  revents := h'.revents.trans h.revents
  readCallBack := h'.readCallBack.trans h.readCallBack
  writeCallBack := h'.writeCallBack.trans h.writeCallBack
  errorCallBack := h'.errorCallBack.trans h.errorCallBack
  closeCallBack := h'.closeCallBack.trans h.closeCallBack
  poller := h.poller.trans (h.fd ▸ h'.poller)
  listening mask hmask := by
    obtain ⟨mask', hmask'⟩ := h.listening mask hmask
    exact h'.listening mask' hmask'

/-- Publishing changed events, on a channel that the poller knows. -/
theorem onChannel_update {s s' : InLoop}
    {f : Channel Handler → Epoll → Except Fault (Channel Handler × Epoll)} (events : Events)
    (hf : ∀ p, f s.conn.channel p = Channel.update { s.conn.channel with events := events } p)
    (h : s.onChannel f = .ok s') :
    s.Frame s' ∧ s'.conn.channel.events = events ∧ s'.conn.state = s.conn.state ∧
      s'.conn.outputBuffer = s.conn.outputBuffer ∧ s'.conn.socket = s.conn.socket ∧
      s'.effects = s.effects ∧ (∀ mask, s.Listening mask → s'.Listening events) := by
  obtain ⟨channel, poller, hupdate, rfl⟩ := onChannel_ok h
  rw [hf] at hupdate
  obtain ⟨⟨index, rfl⟩, hsame, hchannels, hinterest, -⟩ := Channel.update_ok hupdate
  have hlistening : ∀ mask, s.Listening mask → Listening { s with poller := poller, conn :=
      { s.conn with channel := { s.conn.channel with
        events := events, addedToLoop := true, index := index } } } events := by
    intro mask hmask
    refine ⟨hchannels, hinterest ?_⟩
    change s.poller.interest s.conn.channel.fd = none ↔ s.poller.channels s.conn.channel.fd = none
    rw [hmask.1, hmask.2]
    simp
  exact ⟨⟨rfl, rfl, rfl, rfl, rfl, rfl, rfl, hsame, fun mask h => ⟨events, hlistening mask h⟩⟩,
    rfl, rfl, rfl, rfl, rfl, hlistening⟩

/-- The rest of a message goes to the end of the output buffer, and the kernel
is asked for writing if it was not yet. -/
theorem queueRest_ok {s s' : InLoop} {data : Bytes} {k : Nat} (h : s.queueRest data k = .ok s') :
    s.Frame s' ∧ s'.conn.state = s.conn.state ∧ s'.effects = s.effects ∧
      s'.conn.channel.events = kWriteEvent ∧
      s.conn.outputBuffer.append (data.drop k) = .ok s'.conn.outputBuffer ∧
      ∀ mask, s.Listening mask → s'.Listening
        (if Meets s.conn.channel.events kWriteEvent then mask else kWriteEvent) := by
  simp only [queueRest, bind_eq_ok] at h
  obtain ⟨b, hb, h⟩ := h
  have hframe : s.Frame (s.setOutput b).isWriting.2 := .of_eq rfl ⟨_, rfl⟩
  split at h
  · rename_i hwriting
    have hmeets : Meets s.conn.channel.events kWriteEvent := of_decide_eq_true hwriting
    cases h
    refine ⟨hframe, rfl, rfl, and_write_eq hmeets, hb, fun mask hmask => ?_⟩
    rw [if_pos hmeets]
    exact hmask
  · rename_i hwriting
    have hmeets : ¬ Meets s.conn.channel.events kWriteEvent :=
      fun hm => hwriting (decide_eq_true hm)
    obtain ⟨hframe', hevents, hstate, houtput, -, heffects, hlistening⟩ :=
      onChannel_update (f := Channel.enableWriting) _ (fun _ => rfl) h
    have hclear : s.conn.channel.events &&& kWriteEvent = 0 := by
      simpa [Meets] using hmeets
    have hwrite : s'.conn.channel.events = kWriteEvent := by
      rw [hevents]
      change s.conn.channel.events &&& kWriteEvent ||| kWriteEvent = kWriteEvent
      rw [hclear]
      decide
    refine ⟨hframe.trans hframe', hstate, heffects, hwrite, by rw [houtput]; exact hb,
      fun mask hmask => ?_⟩
    rw [if_neg hmeets, ← hwrite, hevents]
    exact hlistening mask hmask

/-- Nothing of the message has to be queued. -/
def Completes (s : InLoop) (data : Bytes) (result : WriteResult) : Prop :=
  s.GivesUp result ∨ data.length ≤ s.acceptedBy data result

/-- What sendInLoop can have done to a connection that is not down. -/
theorem sendInLoop_cases {s s' : InLoop} {data : Bytes} {result : WriteResult}
    (hs : s.conn.state ≠ .kDisConnected) (h : s.sendInLoop data result = .ok s') :
    s.Frame s' ∧ s'.conn.state = s.conn.state ∧ s'.effects = s.effects ∧
      ((s.Completes data result ∧ s' = s.afterWrite data (s.acceptedBy data result)) ∨
        (¬ s.Completes data result ∧ s'.conn.channel.events = kWriteEvent ∧
          (data.drop (s.acceptedBy data result) ≠ [] ∧ s.conn.outputBuffer.append
            (data.drop (s.acceptedBy data result)) = .ok s'.conn.outputBuffer) ∧
          ∀ mask, s.Listening mask → s'.Listening
            (if Meets s.conn.channel.events kWriteEvent then mask else kWriteEvent))) := by
  rw [sendInLoop_eq hs] at h
  have hframe : s.Frame (s.afterWrite data (s.acceptedBy data result)) := .of_eq rfl ⟨_, rfl⟩
  split at h
  · rename_i hcompletes
    cases h
    exact ⟨hframe, rfl, rfl, .inl ⟨hcompletes, rfl⟩⟩
  · rename_i hcompletes
    obtain ⟨hframe', hstate, heffects, hevents, happend, hlistening⟩ := queueRest_ok h
    refine ⟨hframe.trans hframe', hstate, heffects, .inr ⟨hcompletes, hevents, ⟨?_, happend⟩,
      fun mask hmask => ?_⟩⟩
    · intro hnil
      have hlen := List.drop_eq_nil_iff.mp hnil
      exact hcompletes (.inr hlen)
    · have hafter := hlistening mask hmask
      have hmeets : Meets (s.afterWrite data (s.acceptedBy data result)).conn.channel.events
          kWriteEvent ↔ Meets s.conn.channel.events kWriteEvent := meets_and_write
      simpa only [hmeets] using hafter

/-- shutdownInLoop leaves the queue and the poller alone. -/
theorem shutdownInLoop_same (s : InLoop) :
    s.shutdownInLoop.conn.outputBuffer = s.conn.outputBuffer ∧
      s.shutdownInLoop.conn.channel.events = s.conn.channel.events &&& kWriteEvent ∧
      ∀ mask, s.Listening mask → s.shutdownInLoop.Listening mask := by
  simp only [shutdownInLoop]
  split
  · exact ⟨rfl, rfl, fun _ hmask => hmask⟩
  · exact ⟨rfl, rfl, fun _ hmask => hmask⟩

theorem shutdownInLoop_frame (s : InLoop) : s.Frame s.shutdownInLoop := by
  simp only [shutdownInLoop]
  split
  · exact .of_eq rfl ⟨_, rfl⟩
  · exact .of_eq rfl ⟨_, rfl⟩

theorem isLive_iff (s : InLoop) :
    s.isLive = true ↔ s.conn.state = .kConnected ∨ s.conn.state = .kDisConnecting := by
  simp [isLive]

theorem not_down_of_live {s : InLoop} (h : s.isLive = true) : s.conn.state ≠ .kDisConnected := by
  cases (isLive_iff s).mp h with
  | inl h => rw [h]; decide
  | inr h => rw [h]; decide

theorem isLive_of_state {s s' : InLoop} (h : s'.conn.state = s.conn.state) :
    s'.isLive = s.isLive := by
  simp only [isLive, h]

/-- What m_closeCallBack and the poller see of a close. -/
theorem handleClose_ok {s s' : InLoop} (h : s.handleClose = .ok s') :
    s.isLive = true ∧ s.Frame s' ∧ s'.conn.state = .kDisConnected ∧
      s'.conn.channel.events = kNoneEvent ∧ s'.effects = s.effects ++ [.closeCallBack] ∧
      ∀ mask, s.Listening mask → s'.Listening kNoneEvent := by
  simp only [handleClose, bind_eq_ok, require_eq_ok] at h
  obtain ⟨_, hlive, t, ht, h⟩ := h
  cases h
  obtain ⟨hframe, hevents, hstate, -, -, heffects, hlistening⟩ :=
    onChannel_update (f := Channel.disableAll) _ (fun _ => rfl) ht
  have hdown : s.Frame (s.setState .kDisConnected) := .of_eq rfl ⟨_, rfl⟩
  have hemit : t.Frame (t.emit .closeCallBack) := .of_eq rfl ⟨_, rfl⟩
  refine ⟨hlive, hdown.trans (hframe.trans hemit), hstate, hevents, ?_, hlistening⟩
  change t.effects ++ _ = _
  rw [heffects]
  rfl

/-- A user's call on a live connection leaves it live. -/
theorem userCall_live {s s' : InLoop} {c : UserCall} (hlive : s.isLive = true)
    (h : s.userCall c = .ok s') :
    s.Frame s' ∧ s'.isLive = true ∧
      ∃ k, s'.effects = s.effects ++ List.replicate k .queueForceCloseInLoop := by
  cases c with
  | send message result =>
      simp only [userCall, send] at h
      split at h
      · obtain ⟨hframe, hstate, heffects, -⟩ := sendInLoop_cases (not_down_of_live hlive) h
        exact ⟨hframe, (isLive_of_state hstate).trans hlive, 0, by simp [heffects]⟩
      · cases h
        exact ⟨.refl s, hlive, 0, by simp⟩
  | shutdown =>
      simp only [userCall, shutdown] at h
      split at h
      · cases h
        have hset : s.Frame (s.setState .kDisConnecting) := .of_eq rfl ⟨_, rfl⟩
        refine ⟨hset.trans (shutdownInLoop_frame _), ?_, 0, ?_⟩
        · rw [isLive_of_state (shutdownInLoop_state _)]
          rfl
        · simp only [shutdownInLoop]
          split <;> simp [setState, isWriting, setSocket]
      · cases h
        exact ⟨.refl s, hlive, 0, by simp⟩
  | forceClose =>
      simp only [userCall, forceClose, hlive, if_true] at h
      cases h
      exact ⟨.of_eq rfl ⟨_, rfl⟩, rfl, 1, rfl⟩
  | consume len =>
      simp only [userCall, consume, bind_eq_ok] at h
      obtain ⟨b, -, h⟩ := h
      cases h
      exact ⟨.of_eq rfl ⟨_, rfl⟩, hlive, 0, by simp [setInput]⟩

/-- A user's call on a connection that is not live reaches the input buffer at
most. -/
theorem userCall_idle {s s' : InLoop} {c : UserCall} (hlive : s.isLive = false)
    (h : s.userCall c = .ok s') : ∃ b, s' = s.setInput b := by
  have hup : s.conn.state ≠ .kConnected := by
    intro hstate
    rw [(isLive_iff s).mpr (.inl hstate)] at hlive
    cases hlive
  cases c with
  | send message result =>
      simp only [userCall, send, if_neg hup] at h
      cases h
      exact ⟨s.conn.inputBuffer, rfl⟩
  | shutdown =>
      simp only [userCall, shutdown, if_neg hup] at h
      cases h
      exact ⟨s.conn.inputBuffer, rfl⟩
  | forceClose =>
      simp only [userCall, forceClose, hlive] at h
      cases h
      exact ⟨s.conn.inputBuffer, rfl⟩
  | consume len =>
      simp only [userCall, consume, bind_eq_ok] at h
      obtain ⟨b, -, h⟩ := h
      cases h
      exact ⟨b, rfl⟩

theorem userCall_down {s s' : InLoop} {c : UserCall} (hdown : s.conn.state = .kDisConnected)
    (h : s.userCall c = .ok s') : ∃ b, s' = s.setInput b :=
  userCall_idle (by simp [isLive, hdown]) h

theorem userCalls_live {s s' : InLoop} {calls : List UserCall} (hlive : s.isLive = true)
    (h : run userCall s calls = .ok s') :
    s.Frame s' ∧ s'.isLive = true ∧
      ∃ k, s'.effects = s.effects ++ List.replicate k .queueForceCloseInLoop := by
  induction calls generalizing s with
  | nil =>
      cases h
      exact ⟨.refl _, hlive, 0, by simp⟩
  | cons c calls ih =>
      obtain ⟨t, ht, h⟩ := run_cons_ok.mp h
      obtain ⟨hframe, htlive, k, hk⟩ := userCall_live hlive ht
      obtain ⟨hframe', hlive', m, hm⟩ := ih htlive h
      refine ⟨hframe.trans hframe', hlive', k + m, ?_⟩
      rw [hm, hk, List.append_assoc, List.replicate_append_replicate]

theorem userCalls_down {s s' : InLoop} {calls : List UserCall}
    (hdown : s.conn.state = .kDisConnected) (h : run userCall s calls = .ok s') :
    ∃ b, s' = s.setInput b := by
  induction calls generalizing s with
  | nil =>
      cases h
      exact ⟨s'.conn.inputBuffer, rfl⟩
  | cons c calls ih =>
      obtain ⟨t, ht, h⟩ := run_cons_ok.mp h
      obtain ⟨b, rfl⟩ := userCall_down hdown ht
      obtain ⟨b', rfl⟩ := ih (s := s.setInput b) hdown h
      exact ⟨b', rfl⟩

/-- handleWrite leaves the queue alone, shortens it, or empties it and gives up
the write interest. -/
theorem handleWrite_ok {s s' : InLoop} {result : WriteResult} (h : s.handleWrite result = .ok s') :
    s.Frame s' ∧ s'.conn.state = s.conn.state ∧ s'.effects = s.effects ∧
      s'.conn.channel.events &&& kReadEvent = 0 ∧
      ((s'.conn.outputBuffer = s.conn.outputBuffer ∧
          s'.conn.channel.events = s.conn.channel.events &&& kWriteEvent ∧
          ∀ mask, s.Listening mask → s'.Listening mask) ∨
        (∃ n, n ≤ s.conn.outputBuffer.readable.length ∧
          s.conn.outputBuffer.retrieve n = .ok s'.conn.outputBuffer ∧
          ((s'.conn.outputBuffer.readableBytes = 0 ∧ s'.conn.channel.events = kNoneEvent) ∨
            (s'.conn.channel.events = s.conn.channel.events &&& kWriteEvent ∧
              ∀ mask, s.Listening mask → s'.Listening mask)))) := by
  have hkeep : s.conn.channel.events &&& kWriteEvent &&& kReadEvent = 0 := and_write_and_read _
  simp only [handleWrite] at h
  split at h
  · cases result with
    | error _ =>
        cases h
        exact ⟨.of_eq rfl ⟨_, rfl⟩, rfl, rfl, hkeep, .inl ⟨rfl, rfl, fun _ hmask => hmask⟩⟩
    | wrote n =>
        simp only [Socket.write] at h
        split at h
        · simp only [bind_eq_ok] at h
          obtain ⟨b, hb, h⟩ := h
          have hmid (socket : Socket) :
              s.Frame ((s.isWriting.2.setSocket socket).setOutput b) := .of_eq rfl ⟨_, rfl⟩
          split at h
          · rename_i hempty
            obtain ⟨hframe, hevents, hstate, houtput, -, heffects, -⟩ :=
              onChannel_update (f := Channel.disableWriting) _ (fun _ => rfl) h
            have houtput' : s'.conn.outputBuffer = b := houtput
            have hnone : s'.conn.channel.events = kNoneEvent := by
              rw [hevents]
              change s.conn.channel.events &&& kWriteEvent &&& ~~~kWriteEvent = 0
              rw [BitVec.and_assoc, BitVec.and_not_self]
              exact BitVec.and_zero
            refine ⟨(hmid _).trans hframe, hstate, heffects, ?_,
              .inr ⟨min n s.conn.outputBuffer.readable.length, Nat.min_le_right _ _, ?_,
                .inl ⟨?_, hnone⟩⟩⟩
            · rw [hnone]
              exact BitVec.zero_and
            · rw [houtput']
              exact hb
            · rw [houtput']
              exact hempty
          · cases h
            exact ⟨hmid _, rfl, rfl, hkeep,
              .inr ⟨min n s.conn.outputBuffer.readable.length, Nat.min_le_right _ _, hb,
                .inr ⟨rfl, fun _ hmask => hmask⟩⟩⟩
        · cases h
          exact ⟨.of_eq rfl ⟨_, rfl⟩, rfl, rfl, hkeep, .inl ⟨rfl, rfl, fun _ hmask => hmask⟩⟩
  · cases h
    exact ⟨.of_eq rfl ⟨_, rfl⟩, rfl, rfl, hkeep, .inl ⟨rfl, rfl, fun _ hmask => hmask⟩⟩

/-- The callbacks that the constructor binds: read and close. -/
structure Bound (s : InLoop) : Prop where
  read : s.conn.channel.readCallBack = some .handleRead
  write : s.conn.channel.writeCallBack = none
  error : s.conn.channel.errorCallBack = none
  close : s.conn.channel.closeCallBack = some .handleClose

theorem Bound.frame {s s' : InLoop} (h : s.Bound) (hframe : s.Frame s') : s'.Bound :=
  ⟨hframe.readCallBack.trans h.read, hframe.writeCallBack.trans h.write,
    hframe.errorCallBack.trans h.error, hframe.closeCallBack.trans h.close⟩

/-- The read of handleRead brought bytes, and `t` is the connection with them. -/
def Reads (s : InLoop) (result : ReadResult) (t : InLoop) : Prop :=
  ∃ bytes b, result = .data bytes ∧ s.conn.inputBuffer.readFd result = .ok b ∧ t = s.setInput b ∧
    s.conn.inputBuffer.delivered result ≠ []

/-- The read of handleRead returned 0. -/
def ReadsEnd (s : InLoop) (result : ReadResult) (t : InLoop) : Prop :=
  ∃ bytes b, result = .data bytes ∧ s.conn.inputBuffer.readFd result = .ok b ∧ t = s.setInput b ∧
    s.conn.inputBuffer.delivered result = []

/-- handleRead logs an error, calls back, or closes. -/
theorem handleRead_cases {s s' : InLoop} {result : ReadResult} {calls : List UserCall}
    (h : s.handleRead result calls = .ok s') :
    ((∃ errno, result = .error errno) ∧ s' = s) ∨
      (∃ t, s.Reads result t ∧ run userCall t calls = .ok s') ∨
      (∃ t, s.ReadsEnd result t ∧ t.handleClose = .ok s') := by
  cases result with
  | error errno =>
      cases h
      exact .inl ⟨⟨errno, rfl⟩, rfl⟩
  | data bytes =>
      simp only [handleRead, bind_eq_ok] at h
      obtain ⟨b, hb, h⟩ := h
      split at h
      · rename_i hpos
        exact .inr (.inl ⟨_, ⟨bytes, b, rfl, hb, rfl, List.length_pos_iff.mp hpos⟩, h⟩)
      · rename_i hpos
        refine .inr (.inr ⟨_, ⟨bytes, b, rfl, hb, rfl, ?_⟩, h⟩)
        exact List.eq_nil_of_length_eq_zero (Nat.eq_zero_of_not_pos hpos)

theorem setInput_frame (s : InLoop) (b : Buffer) : s.Frame (s.setInput b) := .of_eq rfl ⟨_, rfl⟩

/-- A live connection stays up through a read, or is closed by it. -/
theorem handleRead_frame {s s' : InLoop} {result : ReadResult} {calls : List UserCall}
    (hup : s.isLive = true ∨ s.conn.state = .kDisConnected)
    (h : s.handleRead result calls = .ok s') : s.Frame s' := by
  rcases handleRead_cases h with ⟨-, rfl⟩ | ⟨t, ⟨_, b, -, -, rfl, -⟩, ht⟩ |
    ⟨t, ⟨_, b, -, -, rfl, -⟩, ht⟩
  · exact .refl s'
  · rcases hup with hlive | hdown
    · exact (setInput_frame s b).trans (userCalls_live (s := s.setInput b) hlive ht).1
    · obtain ⟨b', rfl⟩ := userCalls_down (s := s.setInput b) hdown ht
      exact setInput_frame s b'
  · exact (setInput_frame s b).trans (handleClose_ok ht).2.1

theorem setRevents_bound {s : InLoop} (h : s.Bound) (revents : Events) :
    Bound { s with conn := { s.conn with channel := s.conn.channel.setRevents revents } } :=
  ⟨h.read, h.write, h.error, h.close⟩

/-- The part of handleEvent that closes. -/
def closePart (s : InLoop) (revents : Events) : Except Fault InLoop :=
  if Meets revents EPOLLHUP ∧ ¬ Meets revents EPOLLIN then s.handleClose else .ok s

/-- The part of handleEvent that reads. -/
def readPart (s : InLoop) (revents : Events) (answers : Answers) : Except Fault InLoop :=
  if Meets revents (EPOLLIN ||| EPOLLPRI ||| EPOLLRDHUP) then
    s.handleRead answers.read answers.calls
  else .ok s

/-- The connection with the events that the poller reported. -/
def reported (s : InLoop) (revents : Events) : InLoop :=
  { s with conn := { s.conn with channel := s.conn.channel.setRevents revents } }

theorem closePart_frame {s s' : InLoop} {revents : Events} (h : s.closePart revents = .ok s')
    (hup : s.isLive = true ∨ s.conn.state = .kDisConnected) :
    s.Frame s' ∧ (s'.isLive = true ∨ s'.conn.state = .kDisConnected) := by
  simp only [closePart] at h
  split at h
  · obtain ⟨-, hframe, hdown, -⟩ := handleClose_ok h
    exact ⟨hframe, .inr hdown⟩
  · cases h
    exact ⟨.refl s, hup⟩

/-- Dispatching an event closes, then reads: no other callback is bound. -/
theorem handleEvent_eq {s : InLoop} (hb : s.Bound)
    (hup : s.isLive = true ∨ s.conn.state = .kDisConnected) (revents : Events)
    (answers : Answers) :
    s.handleEvent revents answers =
      (s.reported revents).closePart revents >>= fun t => t.readPart revents answers := by
  have hb₀ : (s.reported revents).Bound := setRevents_bound hb revents
  have hclose : Channel.fire (fun s : InLoop => s.conn.channel) (invoke answers)
      (Meets revents EPOLLHUP ∧ ¬ Meets revents EPOLLIN) Channel.closeCallBack
      (s.reported revents) = (s.reported revents).closePart revents := by
    simp only [Channel.fire, closePart, hb₀.close]
    rfl
  change Channel.handleEvent (fun s : InLoop => s.conn.channel) (invoke answers)
    (s.reported revents) = _
  simp only [Channel.handleEvent]
  refine Eq.trans (congrArg (· >>= _) hclose) (bind_congr_ok fun t ht => ?_)
  obtain ⟨hframe, hup'⟩ := closePart_frame ht hup
  have hbt := hb₀.frame hframe
  have hrevents : t.conn.channel.revents = revents := hframe.revents
  have herror : ∀ cond [Decidable cond], Channel.fire (fun s : InLoop => s.conn.channel)
      (invoke answers) cond Channel.errorCallBack t = .ok t := by
    intro cond _
    simp only [Channel.fire, hbt.error]
    split <;> rfl
  have hread : Channel.fire (fun s : InLoop => s.conn.channel) (invoke answers)
      (Meets t.conn.channel.revents (EPOLLIN ||| EPOLLPRI ||| EPOLLRDHUP)) Channel.readCallBack t =
        t.readPart revents answers := by
    simp only [Channel.fire, readPart, hbt.read, hrevents]
    rfl
  simp only [herror, ok_bind, hread]
  refine bind_eq_self fun u hu => ?_
  have hframe' : t.Frame u := by
    simp only [readPart] at hu
    split at hu
    · exact handleRead_frame hup' hu
    · cases hu
      exact .refl t
  simp only [Channel.fire, (hbt.frame hframe').write]
  split <;> rfl

end InLoop
end TAlib
