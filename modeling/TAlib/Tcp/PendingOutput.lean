import TAlib.Tcp.Established

/-!
Output that has to wait. A message that the kernel does not take at once is
queued, and the write interest is registered for it; that holds in every
reachable state. The constructor of a connection binds no write callback, so
the event that says the socket is writable reaches nobody and the queue stays
as it is. The exact condition is proved: nothing pends as long as the kernel
takes every message whole or the message is given up.
-/

namespace TAlib

open Foundation

namespace InLoop

/-- The kernel waits for the connection to become writable. -/
def AwaitsWrite (s : InLoop) : Prop := ∃ mask, s.Listening mask ∧ Meets mask kWriteEvent

/-- Queued output is waited for, and an event that says that the socket is
writable, and nothing else to the connection, moves what the socket takes. -/
def Drains (s : InLoop) : Prop :=
  s.conn.state ≠ .kDisConnected → s.conn.outputBuffer.readable ≠ [] →
    s.AwaitsWrite ∧ ∀ revents answers n, Meets revents EPOLLOUT →
      ¬ Meets revents (EPOLLIN ||| EPOLLPRI ||| EPOLLRDHUP) → ¬ Meets revents EPOLLHUP →
      answers.write = .wrote n → 0 < n → n ≤ s.conn.outputBuffer.readable.length →
      ∃ s', s.handleEvent revents answers = .ok s' ∧
        s'.conn.socket.accepted = s.conn.socket.accepted ++ s.conn.outputBuffer.readable.take n ∧
        s'.conn.outputBuffer.readable = s.conn.outputBuffer.readable.drop n

/-- The kernel takes the message at once, or it is given up. -/
def Taken (data : Bytes) (result : WriteResult) : Prop :=
  data = [] ∨ (∃ n, data.length ≤ n ∧ result = .wrote n) ∨
    result = .error EPIPE ∨ result = .error ECONNRESET

def UserTaken (s : InLoop) : UserCall → Prop
  | .send message result => s.conn.state = .kConnected → Taken message result
  | .shutdown | .forceClose | .consume _ => True

/-- Every message that the call brings to the socket is taken at once. -/
def CallTaken (s : InLoop) : LoopCall → Prop
  | .user call => s.UserTaken call
  | .sendInLoop data result => s.conn.state ≠ .kDisConnected → Taken data result
  | .shutdownInLoop | .forceCloseInLoop | .handleWrite _ => True
  | .handleRead result calls => s.ReadMeets UserTaken result calls
  | .handleEvent revents answers => s.EventMeets UserTaken revents answers

/-- What holds of every connection from established on: the channel asks for
writing while output is queued, and the kernel waits for it when it asks. -/
structure Waiting (s : InLoop) : Prop where
  bound : s.Bound
  up : s.isLive = true ∨ s.conn.state = .kDisConnected
  valid : s.isLive = true → s.conn.outputBuffer.Valid
  queued : s.isLive = true → s.conn.outputBuffer.readable ≠ [] →
    Meets s.conn.channel.events kWriteEvent
  listening : s.isLive = true → ∃ mask, s.Listening mask ∧
    (Meets s.conn.channel.events kWriteEvent → Meets mask kWriteEvent)

theorem Waiting.awaitsWrite {s : InLoop} (h : s.Waiting) (hdown : s.conn.state ≠ .kDisConnected)
    (hne : s.conn.outputBuffer.readable ≠ []) : s.AwaitsWrite := by
  have hlive := h.up.resolve_right hdown
  obtain ⟨mask, hmask, hmeets⟩ := h.listening hlive
  exact ⟨mask, hmask, hmeets (h.queued hlive hne)⟩

theorem Waiting.of_down {s : InLoop} (hbound : s.Bound)
    (hdown : s.conn.state = .kDisConnected) : s.Waiting := by
  have hlive : s.isLive ≠ true := fun hlive => not_down_of_live hlive hdown
  exact ⟨hbound, .inr hdown, fun h => absurd h hlive, fun h => absurd h hlive,
    fun h => absurd h hlive⟩

/-- A step that leaves the queue, the poller and the write interest alone. -/
theorem Waiting.of_same {s s' : InLoop} (hs : s.Waiting) (hframe : s.Frame s')
    (hlive : s.isLive = true) (hlive' : s'.isLive = true)
    (houtput : s'.conn.outputBuffer = s.conn.outputBuffer)
    (hevents : Meets s'.conn.channel.events kWriteEvent ↔ Meets s.conn.channel.events kWriteEvent)
    (hlistening : ∀ mask, s.Listening mask → s'.Listening mask) : s'.Waiting := by
  refine ⟨hs.bound.frame hframe, .inl hlive', ?_, ?_, ?_⟩
  · rw [houtput]
    exact fun _ => hs.valid hlive
  · rw [houtput, hevents]
    exact fun _ => hs.queued hlive
  · obtain ⟨mask, hmask, hmeets⟩ := hs.listening hlive
    exact fun _ => ⟨mask, hlistening mask hmask, fun hm => hmeets (hevents.mp hm)⟩

theorem Waiting.input {s : InLoop} (hs : s.Waiting) (b : Buffer) : (s.setInput b).Waiting :=
  ⟨hs.bound.frame (setInput_frame s b), hs.up, hs.valid, hs.queued, hs.listening⟩

theorem Waiting.reports {s : InLoop} (hs : s.Waiting) (revents : Events) :
    (s.reported revents).Waiting :=
  ⟨setRevents_bound hs.bound revents, hs.up, hs.valid, hs.queued, hs.listening⟩

theorem Established.waiting {s : InLoop} (h : s.Established) : s.Waiting := by
  obtain ⟨hbound, hstate, hevents, hlistening, hv, hempty, -⟩ := h.spec
  have hread : ¬ Meets kReadEvent kWriteEvent := by decide
  refine ⟨hbound, .inl ((isLive_iff s).mpr (.inl hstate)), fun _ => hv,
    fun _ hne => absurd hempty hne, fun _ => ⟨kReadEvent, hlistening, fun hm => ?_⟩⟩
  rw [hevents] at hm
  exact absurd hm hread

theorem sendInLoop_waiting {s s' : InLoop} {data : Bytes} {result : WriteResult} (hs : s.Waiting)
    (hlive : s.isLive = true) (h : s.sendInLoop data result = .ok s') : s'.Waiting := by
  obtain ⟨hframe, hstate, -, hcases⟩ := sendInLoop_cases (not_down_of_live hlive) h
  have hlive' := (isLive_of_state hstate).trans hlive
  rcases hcases with ⟨-, rfl⟩ | ⟨-, hevents, ⟨-, happend⟩, hlistening⟩
  · exact hs.of_same hframe hlive hlive' rfl meets_and_write fun _ hmask => hmask
  · obtain ⟨mask, hmask, hmeets⟩ := hs.listening hlive
    have hwrite : Meets kWriteEvent kWriteEvent := by decide
    refine ⟨hs.bound.frame hframe, .inl hlive', fun _ => (Buffer.append_ok (hs.valid hlive)
      happend).1, fun _ _ => by rwa [hevents], fun _ => ⟨_, hlistening mask hmask, fun _ => ?_⟩⟩
    split
    · rename_i hasked
      exact hmeets hasked
    · exact hwrite

theorem shutdownInLoop_waiting {s : InLoop} (hs : s.Waiting) (hlive : s.isLive = true) :
    s.shutdownInLoop.Waiting := by
  obtain ⟨houtput, hevents, hlistening⟩ := shutdownInLoop_same s
  refine hs.of_same (shutdownInLoop_frame s) hlive
    ((isLive_of_state (shutdownInLoop_state s)).trans hlive) houtput ?_ hlistening
  rw [hevents]
  exact meets_and_write

theorem Waiting.disconnecting {s : InLoop} (hs : s.Waiting) (hlive : s.isLive = true) :
    (s.setState .kDisConnecting).Waiting :=
  hs.of_same (.of_eq rfl ⟨_, rfl⟩) hlive rfl rfl Iff.rfl fun _ hmask => hmask

theorem userCall_waiting {s s' : InLoop} {c : UserCall} (hs : s.Waiting)
    (h : s.userCall c = .ok s') : s'.Waiting := by
  cases hs.up with
  | inr hdown =>
      obtain ⟨b, rfl⟩ := userCall_down hdown h
      exact hs.input b
  | inl hlive =>
      cases c with
      | send message result =>
          simp only [userCall, send] at h
          split at h
          · exact sendInLoop_waiting hs hlive h
          · cases h
            exact hs
      | shutdown =>
          simp only [userCall, shutdown] at h
          split at h
          · cases h
            exact shutdownInLoop_waiting (hs.disconnecting hlive) rfl
          · cases h
            exact hs
      | forceClose =>
          simp only [userCall, forceClose, hlive, if_true] at h
          cases h
          exact (hs.disconnecting hlive).of_same (.of_eq rfl ⟨_, rfl⟩) rfl rfl rfl Iff.rfl
            fun _ hmask => hmask
      | consume len =>
          simp only [userCall, consume, bind_eq_ok] at h
          obtain ⟨b, -, h⟩ := h
          cases h
          exact hs.input b

theorem handleClose_waiting {s s' : InLoop} (hs : s.Waiting) (h : s.handleClose = .ok s') :
    s'.Waiting := by
  obtain ⟨-, hframe, hdown, -⟩ := handleClose_ok h
  exact .of_down (hs.bound.frame hframe) hdown

theorem handleWrite_waiting {s s' : InLoop} {result : WriteResult} (hs : s.Waiting)
    (h : s.handleWrite result = .ok s') : s'.Waiting := by
  obtain ⟨hframe, hstate, -, -, hcases⟩ := handleWrite_ok h
  cases hs.up with
  | inr hdown => exact .of_down (hs.bound.frame hframe) (hstate.trans hdown)
  | inl hlive =>
      have hlive' := (isLive_of_state hstate).trans hlive
      rcases hcases with ⟨houtput, hevents, hlistening⟩ | ⟨n, hn, hretrieve, hrest⟩
      · refine hs.of_same hframe hlive hlive' houtput ?_ hlistening
        rw [hevents]
        exact meets_and_write
      · obtain ⟨hv, hread⟩ := Buffer.retrieve_ok (hs.valid hlive) hn hretrieve
        obtain ⟨mask, hmask, hmeets⟩ := hs.listening hlive
        rcases hrest with ⟨hempty, hevents⟩ | ⟨hevents, hlistening⟩
        · have hnone : ¬ Meets kNoneEvent kWriteEvent := by decide
          obtain ⟨mask', hmask'⟩ := hframe.listening mask hmask
          refine ⟨hs.bound.frame hframe, .inl hlive', fun _ => hv, fun _ hne => ?_, fun _ =>
            ⟨mask', hmask', fun hm => ?_⟩⟩
          · rw [← hv.readable_length] at hempty
            exact absurd (List.eq_nil_of_length_eq_zero hempty) hne
          · rw [hevents] at hm
            exact absurd hm hnone
        · refine ⟨hs.bound.frame hframe, .inl hlive', fun _ => hv, fun _ hne => ?_, fun _ =>
            ⟨mask, hlistening mask hmask, fun hm => ?_⟩⟩
          · rw [hevents]
            refine meets_and_write.mpr (hs.queued hlive fun hnil => hne ?_)
            rw [hread, hnil, List.drop_nil]
          · rw [hevents] at hm
            exact hmeets (meets_and_write.mp hm)

theorem waiting_guarded : Guarded (fun _ _ => True) Waiting fun _ => False where
  bound hs := hs.bound
  up hs := hs.up
  input b hs := hs.input b
  reports revents hs := hs.reports revents
  closes hs h := handleClose_waiting hs h
  good _ _ _ hs _ h := userCall_waiting hs h
  bad _ _ _ _ hfalse _ := hfalse trivial
  stays _ _ _ hfalse _ := hfalse

/-- Queued output stays waited for, whatever the loop calls. -/
theorem loopCall_waiting {s s' : InLoop} {c : LoopCall} (hs : s.Waiting)
    (h : s.loopCall c = .ok s') : s'.Waiting := by
  cases c with
  | user call => exact userCall_waiting hs h
  | sendInLoop data result =>
      cases hs.up with
      | inl hlive => exact sendInLoop_waiting hs hlive h
      | inr hdown =>
          cases (show s.sendInLoop data result = .ok s from if_pos hdown).symm.trans h
          exact hs
  | shutdownInLoop =>
      cases h
      cases hs.up with
      | inl hlive => exact shutdownInLoop_waiting hs hlive
      | inr hdown =>
          exact .of_down (hs.bound.frame (shutdownInLoop_frame s))
            ((shutdownInLoop_state s).trans hdown)
  | forceCloseInLoop =>
      simp only [loopCall, InLoop.forceCloseInLoop] at h
      split at h
      · exact handleClose_waiting hs h
      · cases h
        exact hs
  | handleRead result calls =>
      exact (waiting_guarded.handleRead hs h).elim And.right fun h => h.2.elim
  | handleWrite result => exact handleWrite_waiting hs h
  | handleEvent revents answers =>
      exact (waiting_guarded.handleEvent hs h).elim And.right fun h => h.2.elim

/-- A connection on which no output has had to wait. -/
structure Drained (s : InLoop) : Prop where
  waiting : s.Waiting
  empty : s.isLive = true → s.conn.outputBuffer.readable = []
  silent : s.isLive = true → ¬ Meets s.conn.channel.events kWriteEvent

/-- A live connection with output in its queue. -/
structure Pending (s : InLoop) : Prop where
  waiting : s.Waiting
  live : s.isLive = true
  queued : s.conn.outputBuffer.readable ≠ []

theorem Drained.of_down {s : InLoop} (hs : s.Waiting) (hdown : s.conn.state = .kDisConnected) :
    s.Drained := by
  have hlive : s.isLive ≠ true := fun hlive => not_down_of_live hlive hdown
  exact ⟨hs, fun h => absurd h hlive, fun h => absurd h hlive⟩

theorem Drained.drains {s : InLoop} (h : s.Drained) : s.Drains := by
  intro hdown hne
  exact absurd (h.empty (h.waiting.up.resolve_right hdown)) hne

/-- An event that says writable and nothing else is lost: no callback is bound
for it. -/
theorem handleEvent_writable_lost {s : InLoop} (hb : s.Bound)
    (hup : s.isLive = true ∨ s.conn.state = .kDisConnected) {revents : Events} (answers : Answers)
    (hread : ¬ Meets revents (EPOLLIN ||| EPOLLPRI ||| EPOLLRDHUP))
    (hhup : ¬ Meets revents EPOLLHUP) :
    s.handleEvent revents answers = .ok (s.reported revents) := by
  have hclose : (s.reported revents).closePart revents = .ok (s.reported revents) :=
    if_neg fun h => hhup h.1
  rw [handleEvent_eq hb hup, hclose, ok_bind, readPart, if_neg hread]

theorem Pending.not_drains {s : InLoop} (h : s.Pending) : ¬ s.Drains := by
  intro hdrains
  have hlen := List.length_pos_iff.mpr h.queued
  obtain ⟨s', hs', -, hdropped⟩ := (hdrains (not_down_of_live h.live) h.queued).2 EPOLLOUT
    ⟨.error 0, [], .wrote 1⟩ 1 (by decide) (by decide) (by decide) rfl (by decide) hlen
  rw [handleEvent_writable_lost h.waiting.bound h.waiting.up _ (by decide) (by decide)] at hs'
  cases hs'
  have hcount := congrArg List.length hdropped
  rw [List.length_drop] at hcount
  change s.conn.outputBuffer.readable.length = s.conn.outputBuffer.readable.length - 1 at hcount
  omega

theorem Drained.writesDirectly {s : InLoop} (h : s.Drained) (hlive : s.isLive = true) :
    s.WritesDirectly := by
  refine ⟨h.silent hlive, ?_⟩
  rw [← (h.waiting.valid hlive).readable_length, h.empty hlive]
  rfl

/-- With nothing queued, whether a message is done with depends on the answer
of the kernel only. -/
theorem completes_iff_taken {s : InLoop} (h : s.WritesDirectly) {data : Bytes}
    {result : WriteResult} : s.Completes data result ↔ Taken data result := by
  cases result with
  | wrote n =>
      simp only [Completes, GivesUp, acceptedBy, if_pos h, Taken, reduceCtorEq, or_self, and_false,
        false_or, or_false, Nat.le_min, Nat.le_refl, and_true, WriteResult.wrote.injEq]
      constructor
      · intro hle
        exact .inr ⟨n, hle, rfl⟩
      · intro htaken
        cases htaken with
        | inl hnil =>
            rw [hnil]
            exact Nat.zero_le n
        | inr hle =>
            obtain ⟨m, hle, rfl⟩ := hle
            exact hle
  | error errno =>
      simp only [Completes, GivesUp, acceptedBy, h, true_and, Taken, reduceCtorEq, and_false,
        exists_false, false_or, Nat.le_zero, List.length_eq_zero_iff]
      exact or_comm

theorem sendInLoop_drained_or_pending {s s' : InLoop} {data : Bytes} {result : WriteResult}
    (hs : s.Drained) (hlive : s.isLive = true) (h : s.sendInLoop data result = .ok s') :
    (Taken data result ∧ s'.Drained) ∨ (¬ Taken data result ∧ s'.Pending) := by
  have hwaiting := sendInLoop_waiting hs.waiting hlive h
  obtain ⟨-, hstate, -, hcases⟩ := sendInLoop_cases (not_down_of_live hlive) h
  rw [completes_iff_taken (hs.writesDirectly hlive)] at hcases
  have hlive' := (isLive_of_state hstate).trans hlive
  rcases hcases with ⟨htaken, rfl⟩ | ⟨htaken, -, ⟨hrest, happend⟩, -⟩
  · exact .inl ⟨htaken, hwaiting, fun _ => hs.empty hlive,
      fun _ hm => hs.silent hlive (meets_and_write.mp hm)⟩
  · refine .inr ⟨htaken, hwaiting, hlive', ?_⟩
    rw [(Buffer.append_ok (hs.waiting.valid hlive) happend).2, hs.empty hlive]
    exact hrest

theorem shutdownInLoop_drained {s : InLoop} (hs : s.Drained) (hlive : s.isLive = true) :
    s.shutdownInLoop.Drained := by
  obtain ⟨houtput, hevents, -⟩ := shutdownInLoop_same s
  refine ⟨shutdownInLoop_waiting hs.waiting hlive, fun _ => ?_, fun _ => ?_⟩
  · rw [houtput]
    exact hs.empty hlive
  · rw [hevents, meets_and_write]
    exact hs.silent hlive

theorem userCall_drained_or_pending {s s' : InLoop} {c : UserCall} (hs : s.Drained)
    (h : s.userCall c = .ok s') :
    (s.UserTaken c ∧ s'.Drained) ∨ (¬ s.UserTaken c ∧ s'.Pending) := by
  have hwaiting := userCall_waiting hs.waiting h
  cases c with
  | send message result =>
      simp only [userCall, send] at h
      split at h
      · rename_i hstate
        have hiff : s.UserTaken (.send message result) ↔ Taken message result :=
          ⟨fun htaken => htaken hstate, fun htaken _ => htaken⟩
        rw [hiff]
        exact sendInLoop_drained_or_pending hs ((isLive_iff s).mpr (.inl hstate)) h
      · rename_i hstate
        cases h
        exact .inl ⟨fun hconnected => absurd hconnected hstate, hs⟩
  | shutdown =>
      refine .inl ⟨trivial, ?_⟩
      simp only [userCall, shutdown] at h
      split at h
      · rename_i hstate
        cases h
        have hlive := (isLive_iff s).mpr (.inl hstate)
        exact shutdownInLoop_drained ⟨hs.waiting.disconnecting hlive, fun _ => hs.empty hlive,
          fun _ => hs.silent hlive⟩ rfl
      · cases h
        exact hs
  | forceClose =>
      refine .inl ⟨trivial, ?_⟩
      simp only [userCall, forceClose] at h
      split at h
      · rename_i hlive
        cases h
        exact ⟨hwaiting, fun _ => hs.empty hlive, fun _ => hs.silent hlive⟩
      · cases h
        exact hs
  | consume len =>
      simp only [userCall, consume, bind_eq_ok] at h
      obtain ⟨b, -, h⟩ := h
      cases h
      exact .inl ⟨trivial, hwaiting, hs.empty, hs.silent⟩

/-- A user's call adds to the queue or leaves it alone. -/
theorem userCall_queue {s s' : InLoop} {c : UserCall} (hv : s.conn.outputBuffer.Valid)
    (hlive : s.isLive = true) (h : s.userCall c = .ok s') :
    ∃ rest, s'.conn.outputBuffer.readable = s.conn.outputBuffer.readable ++ rest := by
  have hsame : s.conn.outputBuffer.readable = s.conn.outputBuffer.readable ++ [] :=
    (List.append_nil _).symm
  cases c with
  | send message result =>
      simp only [userCall, send] at h
      split at h
      · obtain ⟨-, -, -, hcases⟩ := sendInLoop_cases (not_down_of_live hlive) h
        rcases hcases with ⟨-, rfl⟩ | ⟨-, -, ⟨-, happend⟩, -⟩
        · exact ⟨[], hsame⟩
        · exact ⟨_, (Buffer.append_ok hv happend).2⟩
      · cases h
        exact ⟨[], hsame⟩
  | shutdown =>
      simp only [userCall, shutdown] at h
      split at h
      · cases h
        refine ⟨[], ?_⟩
        rw [(shutdownInLoop_same _).1]
        exact hsame
      · cases h
        exact ⟨[], hsame⟩
  | forceClose =>
      simp only [userCall, forceClose, hlive, if_true] at h
      cases h
      exact ⟨[], hsame⟩
  | consume len =>
      simp only [userCall, consume, bind_eq_ok] at h
      obtain ⟨b, -, h⟩ := h
      cases h
      exact ⟨[], hsame⟩

theorem userCall_stays_pending {s s' : InLoop} {c : UserCall} (hs : s.Pending)
    (h : s.userCall c = .ok s') : s'.Pending := by
  obtain ⟨rest, hrest⟩ := userCall_queue (hs.waiting.valid hs.live) hs.live h
  refine ⟨userCall_waiting hs.waiting h, (userCall_live hs.live h).2.1, ?_⟩
  rw [hrest]
  exact List.append_ne_nil_of_left_ne_nil hs.queued rest

theorem handleClose_drained {s s' : InLoop} (hs : s.Drained) (h : s.handleClose = .ok s') :
    s'.Drained := by
  obtain ⟨-, -, hdown, -⟩ := handleClose_ok h
  exact .of_down (handleClose_waiting hs.waiting h) hdown

theorem drained_guarded : Guarded UserTaken Drained Pending where
  bound hs := hs.waiting.bound
  up hs := hs.waiting.up
  input b hs := ⟨hs.waiting.input b, hs.empty, hs.silent⟩
  reports revents hs := ⟨hs.waiting.reports revents, hs.empty, hs.silent⟩
  closes hs h := handleClose_drained hs h
  good _ _ _ hs htaken h := (userCall_drained_or_pending hs h).elim And.right
    fun hpending => absurd htaken hpending.1
  bad _ _ _ hs htaken h := (userCall_drained_or_pending hs h).elim
    (fun hdrained => absurd hdrained.1 htaken) And.right
  stays _ _ _ hs h := userCall_stays_pending hs h

theorem handleWrite_drained {s s' : InLoop} {result : WriteResult} (hs : s.Drained)
    (h : s.handleWrite result = .ok s') : s'.Drained := by
  have hwaiting := handleWrite_waiting hs.waiting h
  cases hs.waiting.up with
  | inr hdown =>
      obtain ⟨-, hstate, -⟩ := handleWrite_ok h
      exact .of_down hwaiting (hstate.trans hdown)
  | inl hlive =>
      have hwriting : s.isWriting.1 = false := decide_eq_false (hs.silent hlive)
      simp only [handleWrite, hwriting] at h
      cases h
      exact ⟨hwaiting, hs.empty, fun hlive hm => hs.silent hlive (meets_and_write.mp hm)⟩

/-- A call leaves nothing pending, or output when a message is not taken. -/
theorem loopCall_drained_or_pending {s s' : InLoop} {c : LoopCall} (hs : s.Drained)
    (h : s.loopCall c = .ok s') :
    (s.CallTaken c ∧ s'.Drained) ∨ (¬ s.CallTaken c ∧ s'.Pending) := by
  have hwaiting := loopCall_waiting hs.waiting h
  cases c with
  | user call => exact userCall_drained_or_pending hs h
  | sendInLoop data result =>
      cases hs.waiting.up with
      | inl hlive =>
          have hiff : s.CallTaken (.sendInLoop data result) ↔ Taken data result :=
            ⟨fun htaken => htaken (not_down_of_live hlive), fun htaken _ => htaken⟩
          rw [hiff]
          exact sendInLoop_drained_or_pending hs hlive h
      | inr hdown =>
          cases (show s.sendInLoop data result = .ok s from if_pos hdown).symm.trans h
          exact .inl ⟨fun hup => absurd hdown hup, hs⟩
  | shutdownInLoop =>
      cases h
      refine .inl ⟨trivial, ?_⟩
      cases hs.waiting.up with
      | inl hlive => exact shutdownInLoop_drained hs hlive
      | inr hdown => exact .of_down hwaiting ((shutdownInLoop_state s).trans hdown)
  | forceCloseInLoop =>
      refine .inl ⟨trivial, ?_⟩
      simp only [loopCall, InLoop.forceCloseInLoop] at h
      split at h
      · exact handleClose_drained hs h
      · cases h
        exact hs
  | handleRead result calls => exact drained_guarded.handleRead hs h
  | handleWrite result => exact .inl ⟨trivial, handleWrite_drained hs h⟩
  | handleEvent revents answers => exact drained_guarded.handleEvent hs h

theorem Established.drained {s : InLoop} (h : s.Established) : s.Drained := by
  obtain ⟨-, -, -, -, -, hempty, -⟩ := h.spec
  exact ⟨h.waiting, fun _ => hempty, fun _ => h.writesDirectly.1⟩

/-- In every state of a run queued output is waited for, and the run drains its
output throughout exactly when every message of it is taken at once. -/
theorem pending_output_drained_iff_taken {s : InLoop} (hs : s.Established) {calls : List LoopCall}
    {t : InLoop} (hrun : run loopCall s calls = .ok t) :
    (t.conn.state ≠ .kDisConnected → t.conn.outputBuffer.readable ≠ [] → t.AwaitsWrite) ∧
      (Always loopCall Drains s calls ↔ Respects loopCall CallTaken s calls) := by
  refine ⟨?_, ?_⟩
  · have ht : t.Waiting := run_invariant_of_step (fun u c v hu h => loopCall_waiting hu h)
      hs.waiting hrun
    exact ht.awaitsWrite
  · refine always_iff_respects_of_step (fun _ h => h.drains) (fun u c v hu h => ?_) hs.drained hrun
    exact (loopCall_drained_or_pending hu h).imp_right (And.imp_right Pending.not_drains)

/-- A message that the kernel takes whole. -/
theorem pending_output_drained_iff_taken_whole_message :
    ∃ s t, s.Established ∧ run loopCall s [.user (.send [1, 2] (.wrote 2))] = .ok t ∧
      Always loopCall Drains s [.user (.send [1, 2] (.wrote 2))] := by
  obtain ⟨s, hs, -⟩ := established_exists 0 5
    (show Epoll.new.channels 5 = none from rfl) rfl (by decide)
  have hsend : s.loopCall (.user (.send [1, 2] (.wrote 2))) = .ok (s.afterWrite [1, 2] 2) :=
    hs.send_all [1, 2]
  have hrun : run loopCall s [.user (.send [1, 2] (.wrote 2))] = .ok (s.afterWrite [1, 2] 2) :=
    run_cons_ok.mpr ⟨_, hsend, rfl⟩
  refine ⟨s, _, hs, hrun, (pending_output_drained_iff_taken hs hrun).2.mpr ?_⟩
  exact ⟨fun _ => .inr (.inl ⟨2, Nat.le_refl 2, rfl⟩), fun _ _ => trivial⟩

/-- A short write leaves a byte behind; the socket becomes writable, the event
is dispatched, and the byte is still there. -/
theorem pending_output_stuck_after_short_write :
    ∃ s t u : InLoop, s.Established ∧
      s.loopCall (.user (.send [1, 2] (.wrote 1))) = .ok t ∧ t.conn.state = .kConnected ∧
      t.conn.outputBuffer.readable = [2] ∧ t.AwaitsWrite ∧
      t.handleEvent EPOLLOUT ⟨.error EWOULDBLOCK, [], .wrote 1⟩ = .ok u ∧
      u.conn.outputBuffer.readable = [2] ∧ u.conn.socket = t.conn.socket ∧ ¬ t.Drains := by
  obtain ⟨s, hs, hreg⟩ := established_exists 0 5
    (show Epoll.new.channels 5 = none from rfl) rfl (by decide)
  obtain ⟨-, hstate, -, -, hv, hempty, hw, -⟩ := hs.spec
  have hlive : s.isLive = true := (isLive_iff s).mpr (.inl hstate)
  have hroomy : s.Roomy (([1, 2] : Bytes).length + 0) := ⟨hv, ⟨_, hreg⟩, by rw [hw]; decide⟩
  obtain ⟨t, ht, -⟩ := sendInLoop_returns hroomy (by decide) (.wrote 1)
  have haccepted : s.acceptedBy [1, 2] (.wrote 1) = 1 := by
    simp only [acceptedBy, if_pos hs.writesDirectly]
    rfl
  have hshort : ¬ s.Completes [1, 2] (.wrote 1) := by
    intro hcompletes
    cases hcompletes with
    | inl hgive => cases hgive.2 <;> contradiction
    | inr hle =>
        rw [haccepted] at hle
        exact absurd hle (by decide)
  obtain ⟨-, hstate', -, hcases⟩ := sendInLoop_cases (not_down_of_live hlive) ht
  obtain ⟨-, -, ⟨-, happend⟩, -⟩ := hcases.resolve_left fun h => hshort h.1
  have hqueue : t.conn.outputBuffer.readable = [2] := by
    rw [(Buffer.append_ok hv happend).2, hempty, haccepted]
    rfl
  have hwaiting := sendInLoop_waiting hs.waiting hlive ht
  have hpending : t.Pending :=
    ⟨hwaiting, (isLive_of_state hstate').trans hlive, by rw [hqueue]; exact List.cons_ne_nil _ _⟩
  have hlost : t.handleEvent EPOLLOUT ⟨.error EWOULDBLOCK, [], .wrote 1⟩ =
      .ok (t.reported EPOLLOUT) :=
    handleEvent_writable_lost hwaiting.bound hwaiting.up _ (by decide) (by decide)
  exact ⟨s, t, _, hs, (if_pos hstate).trans ht, hstate'.trans hstate, hqueue,
    hwaiting.awaitsWrite (not_down_of_live hpending.live) hpending.queued, hlost, hqueue, rfl,
    hpending.not_drains⟩

end InLoop
end TAlib
