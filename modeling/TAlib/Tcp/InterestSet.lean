import TAlib.Tcp.Established

/-!
The interest set of a connection. While a connection is live its channel should
wait for reading and the kernel should wait for what the channel waits for.
isWriting assigns where it should compare, so every query of it on a live
connection throws the read interest away without telling the kernel. The exact
condition is proved: the sets stay as they should be as long as no call makes
such a query.
-/

namespace TAlib

open Foundation

namespace InLoop

/-- As long as the connection is live, its channel waits for reading and the
kernel waits for exactly the events of the channel. -/
def Coherent (s : InLoop) : Prop :=
  s.isLive = true → s.conn.channel.events &&& kReadEvent = kReadEvent ∧
    s.Listening s.conn.channel.events

/-- A user's call that does not come to isWriting. -/
def UserQuiet (s : InLoop) : UserCall → Prop
  | .send _ _ | .shutdown => s.conn.state ≠ .kConnected
  | .forceClose | .consume _ => True

/-- A call that does not come to isWriting on a live connection. -/
def Quiet (s : InLoop) : LoopCall → Prop
  | .user call => s.UserQuiet call
  | .sendInLoop _ _ | .shutdownInLoop | .handleWrite _ => s.isLive = false
  | .forceCloseInLoop => True
  | .handleRead result calls => s.ReadMeets UserQuiet result calls
  | .handleEvent revents answers => s.EventMeets UserQuiet revents answers

/-- A connection on which isWriting has not been queried. -/
structure Untouched (s : InLoop) : Prop where
  bound : s.Bound
  up : s.isLive = true ∨ s.conn.state = .kDisConnected
  events : s.isLive = true → s.conn.channel.events = kReadEvent
  listening : s.isLive = true → s.Listening kReadEvent

/-- A live connection that has lost its read interest. -/
structure Deaf (s : InLoop) : Prop where
  live : s.isLive = true
  events : s.conn.channel.events &&& kReadEvent = 0

theorem Untouched.coherent {s : InLoop} (h : s.Untouched) : s.Coherent := by
  intro hlive
  rw [h.events hlive]
  exact ⟨by decide, h.listening hlive⟩

theorem Deaf.not_coherent {s : InLoop} (h : s.Deaf) : ¬ s.Coherent := by
  intro hcoherent
  have hread := (hcoherent h.live).1
  rw [h.events] at hread
  exact absurd hread (by decide)

theorem Established.untouched {s : InLoop} (h : s.Established) : s.Untouched := by
  obtain ⟨hbound, hstate, hevents, hlistening, -⟩ := h.spec
  exact ⟨hbound, .inl (by rw [isLive, hstate]; decide), fun _ => hevents, fun _ => hlistening⟩

theorem not_live_iff {s : InLoop} (hup : s.isLive = true ∨ s.conn.state = .kDisConnected) :
    s.isLive = false ↔ s.conn.state = .kDisConnected := by
  constructor
  · intro hlive
    cases hup with
    | inl h => rw [hlive] at h; cases h
    | inr h => exact h
  · intro hdown
    simp [isLive, hdown]

/-- A message on a connection that is not down queries isWriting. -/
theorem sendInLoop_deaf {s s' : InLoop} {data : Bytes} {result : WriteResult}
    (hlive : s.isLive = true) (h : s.sendInLoop data result = .ok s') : s'.Deaf := by
  obtain ⟨-, hstate, -, hcases⟩ := sendInLoop_cases (not_down_of_live hlive) h
  refine ⟨(isLive_of_state hstate).trans hlive, ?_⟩
  rcases hcases with ⟨-, rfl⟩ | ⟨-, hevents, -⟩
  · exact and_write_and_read _
  · rw [hevents]
    exact write_and_read

theorem shutdownInLoop_deaf {s : InLoop} (hlive : s.isLive = true) : s.shutdownInLoop.Deaf := by
  refine ⟨(isLive_of_state (shutdownInLoop_state s)).trans hlive, ?_⟩
  rw [(shutdownInLoop_same s).2.1]
  exact and_write_and_read _

theorem shutdown_deaf {s : InLoop} (hstate : s.conn.state = .kConnected) : s.shutdown.Deaf := by
  simp only [shutdown, if_pos hstate]
  exact shutdownInLoop_deaf rfl

/-- A connection that has lost its read interest does not get it back. -/
theorem userCall_stays_deaf {s s' : InLoop} {c : UserCall} (hs : s.Deaf)
    (h : s.userCall c = .ok s') : s'.Deaf := by
  cases c with
  | send message result =>
      simp only [userCall, send] at h
      split at h
      · exact sendInLoop_deaf hs.live h
      · cases h
        exact hs
  | shutdown =>
      simp only [userCall, shutdown] at h
      split at h
      · cases h
        exact shutdownInLoop_deaf rfl
      · cases h
        exact hs
  | forceClose =>
      simp only [userCall, forceClose, hs.live, if_true] at h
      cases h
      exact ⟨rfl, hs.events⟩
  | consume len =>
      simp only [userCall, consume, bind_eq_ok] at h
      obtain ⟨b, -, h⟩ := h
      cases h
      exact ⟨hs.live, hs.events⟩

theorem userCall_quiet {s s' : InLoop} {c : UserCall} (hs : s.Untouched) (hquiet : s.UserQuiet c)
    (h : s.userCall c = .ok s') : s'.Untouched := by
  cases c with
  | send message result =>
      simp only [userCall, send, if_neg hquiet] at h
      cases h
      exact hs
  | shutdown =>
      simp only [userCall, shutdown, if_neg hquiet] at h
      cases h
      exact hs
  | forceClose =>
      simp only [userCall, forceClose] at h
      split at h
      · rename_i hlive
        cases h
        exact ⟨hs.bound.frame (.of_eq rfl ⟨_, rfl⟩), .inl rfl, fun _ => hs.events hlive,
          fun _ => hs.listening hlive⟩
      · cases h
        exact hs
  | consume len =>
      simp only [userCall, consume, bind_eq_ok] at h
      obtain ⟨b, -, h⟩ := h
      cases h
      exact ⟨hs.bound.frame (setInput_frame s b), hs.up, hs.events, hs.listening⟩

theorem userCall_loud {s s' : InLoop} {c : UserCall} (hloud : ¬ s.UserQuiet c)
    (h : s.userCall c = .ok s') : s'.Deaf := by
  cases c with
  | send message result =>
      have hstate : s.conn.state = .kConnected := not_not.mp hloud
      simp only [userCall, send, if_pos hstate] at h
      exact sendInLoop_deaf ((isLive_iff s).mpr (.inl hstate)) h
  | shutdown =>
      have hstate : s.conn.state = .kConnected := not_not.mp hloud
      cases h
      exact shutdown_deaf hstate
  | forceClose => exact absurd trivial hloud
  | consume len => exact absurd trivial hloud

theorem Untouched.of_down {s : InLoop} (hbound : s.Bound)
    (hdown : s.conn.state = .kDisConnected) : s.Untouched := by
  have hlive : s.isLive ≠ true := fun hlive => not_down_of_live hlive hdown
  exact ⟨hbound, .inr hdown, fun h => absurd h hlive, fun h => absurd h hlive⟩

theorem handleClose_untouched {s s' : InLoop} (hs : s.Untouched) (h : s.handleClose = .ok s') :
    s'.Untouched := by
  obtain ⟨-, hframe, hdown, -⟩ := handleClose_ok h
  exact .of_down (hs.bound.frame hframe) hdown

theorem untouched_guarded : Guarded UserQuiet Untouched Deaf where
  bound hs := hs.bound
  up hs := hs.up
  input b hs := ⟨hs.bound.frame (setInput_frame _ b), hs.up, hs.events, hs.listening⟩
  reports revents hs := ⟨setRevents_bound hs.bound revents, hs.up, hs.events, hs.listening⟩
  closes hs h := handleClose_untouched hs h
  good _ _ _ hs hquiet h := userCall_quiet hs hquiet h
  bad _ _ _ _ hloud h := userCall_loud hloud h
  stays _ _ _ hs h := userCall_stays_deaf hs h

/-- A call leaves the connection untouched, or deaf when it is not quiet. -/
theorem loopCall_untouched_or_deaf {s s' : InLoop} {c : LoopCall} (hs : s.Untouched)
    (h : s.loopCall c = .ok s') :
    (s.Quiet c ∧ s'.Untouched) ∨ (¬ s.Quiet c ∧ s'.Deaf) := by
  cases c with
  | user call =>
      by_cases hquiet : s.UserQuiet call
      · exact .inl ⟨hquiet, userCall_quiet hs hquiet h⟩
      · exact .inr ⟨hquiet, userCall_loud hquiet h⟩
  | sendInLoop data result =>
      by_cases hquiet : s.isLive = false
      · have hdown := (not_live_iff hs.up).mp hquiet
        simp only [loopCall, InLoop.sendInLoop, if_pos hdown] at h
        cases h
        exact .inl ⟨hquiet, hs⟩
      · exact .inr ⟨hquiet, sendInLoop_deaf (Bool.not_eq_false _ ▸ hquiet) h⟩
  | shutdownInLoop =>
      cases h
      by_cases hquiet : s.isLive = false
      · have hdown := (not_live_iff hs.up).mp hquiet
        refine .inl ⟨hquiet, .of_down (hs.bound.frame (shutdownInLoop_frame s)) ?_⟩
        rw [shutdownInLoop_state, hdown]
      · exact .inr ⟨hquiet, shutdownInLoop_deaf (Bool.not_eq_false _ ▸ hquiet)⟩
  | forceCloseInLoop =>
      refine .inl ⟨trivial, ?_⟩
      simp only [loopCall, InLoop.forceCloseInLoop] at h
      split at h
      · exact handleClose_untouched hs h
      · cases h
        exact hs
  | handleRead result calls => exact untouched_guarded.handleRead hs h
  | handleWrite result =>
      obtain ⟨hframe, hstate, -, hevents, -⟩ := handleWrite_ok h
      by_cases hquiet : s.isLive = false
      · have hdown := (not_live_iff hs.up).mp hquiet
        exact .inl ⟨hquiet, .of_down (hs.bound.frame hframe) (hstate.trans hdown)⟩
      · have hlive : s.isLive = true := Bool.not_eq_false _ ▸ hquiet
        exact .inr ⟨hquiet, (isLive_of_state hstate).trans hlive, hevents⟩
  | handleEvent revents answers => exact untouched_guarded.handleEvent hs h

/-- A query of the channel leaves its events alone exactly when it waits for
nothing but what is asked. -/
theorem query_unchanged_iff (ch : Channel Handler) :
    (ch.isWriting.2.events = ch.events ↔ ch.events &&& ~~~kWriteEvent = 0) ∧
      (ch.isReading.2.events = ch.events ↔ ch.events &&& ~~~kReadEvent = 0) :=
  ⟨and_eq_self_iff, and_eq_self_iff⟩

/-- The interest sets agree throughout a run exactly when no call of it comes to
isWriting on a live connection. -/
theorem interest_coherent_iff_quiet {s : InLoop} (hs : s.Established) :
    (∀ calls t, run loopCall s calls = .ok t →
      (Always loopCall Coherent s calls ↔ Respects loopCall Quiet s calls)) ∧
    ∀ ch : Channel Handler,
      (ch.isWriting.2.events = ch.events ↔ ch.events &&& ~~~kWriteEvent = 0) ∧
      (ch.isReading.2.events = ch.events ↔ ch.events &&& ~~~kReadEvent = 0) := by
  refine ⟨fun calls t hrun => ?_, query_unchanged_iff⟩
  refine always_iff_respects_of_step (fun _ h => h.coherent) (fun u c v hu h => ?_) hs.untouched
    hrun
  exact (loopCall_untouched_or_deaf hu h).imp_right (And.imp_right Deaf.not_coherent)

/-- A connection that the user closes and the loop then closes for good, with a
message too late. -/
theorem interest_coherent_iff_quiet_force_close :
    ∃ s t, s.Established ∧ run loopCall s [.user .forceClose, .forceCloseInLoop,
        .sendInLoop [1] (.wrote 1)] = .ok t ∧
      Always loopCall Coherent s [.user .forceClose, .forceCloseInLoop,
        .sendInLoop [1] (.wrote 1)] := by
  obtain ⟨s, hs, hreg⟩ := established_exists 0 5
    (show Epoll.new.channels 5 = none from rfl) rfl (by decide)
  obtain ⟨-, hstate, -⟩ := hs.spec
  have hlive : s.isLive = true := (isLive_iff s).mpr (.inl hstate)
  have hforce : s.forceClose = (s.setState .kDisConnecting).emit .queueForceCloseInLoop :=
    if_pos hlive
  obtain ⟨t, ht, -⟩ := handleClose_returns
    (s := (s.setState .kDisConnecting).emit .queueForceCloseInLoop) rfl hreg
  obtain ⟨-, -, hdown, -⟩ := handleClose_ok ht
  have hclose : s.forceClose.forceCloseInLoop = .ok t := by
    rw [hforce, ← ht]
    exact if_pos rfl
  have hsend : t.sendInLoop [1] (.wrote 1) = .ok t := if_pos hdown
  have hrun : run loopCall s [.user .forceClose, .forceCloseInLoop, .sendInLoop [1] (.wrote 1)] =
      .ok t := by
    simp only [run, loopCall, userCall, ok_bind, hclose, hsend]
  refine ⟨s, t, hs, hrun, ((interest_coherent_iff_quiet hs).1 _ t hrun).mpr ?_⟩
  refine ⟨trivial, fun u hu => ⟨trivial, fun v hv => ⟨?_, fun _ _ => trivial⟩⟩⟩
  cases hu
  cases hclose.symm.trans hv
  change t.isLive = false
  simp [isLive, hdown]

/-- One message that the kernel takes at once costs the connection its read
interest, and the kernel is not told. -/
theorem interest_incoherent_after_send :
    ∃ s t : InLoop, s.Established ∧ s.loopCall (.user (.send [1] (.wrote 1))) = .ok t ∧
      t.isLive = true ∧ ¬ t.Coherent ∧ t.conn.channel.events = kNoneEvent ∧
      t.Listening kReadEvent := by
  obtain ⟨s, hs, -⟩ := established_exists 0 5
    (show Epoll.new.channels 5 = none from rfl) rfl (by decide)
  obtain ⟨-, hstate, hevents, hlistening, -⟩ := hs.spec
  have hlive : s.isLive = true := (isLive_iff s).mpr (.inl hstate)
  have hsend := hs.send_all [1]
  have hdeaf := userCall_loud (c := .send [1] (.wrote 1)) (not_not.mpr hstate) hsend
  refine ⟨s, _, hs, hsend, hdeaf.live, hdeaf.not_coherent, ?_, hlistening⟩
  change s.conn.channel.events &&& kWriteEvent = kNoneEvent
  rw [hevents]
  decide

end InLoop
end TAlib
