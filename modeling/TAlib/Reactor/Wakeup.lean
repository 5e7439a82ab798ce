import TAlib.Reactor.EventLoop
import TAlib.Reactor.TaskQueue

/-!
The queued functors run in the order of their pushes, and the loop does not
sleep on them. Between the swap and the next poll every push is followed by a
wakeup: other threads always write, and the loop thread does while
m_callingPendingFunctors is set. Before the swap none is needed.
-/

namespace TAlib

open Foundation

namespace LoopPoint

variable {φ : Type}

/-- Inside doPendingFunctors, with m_callingPendingFunctors set. -/
def flagged : LoopPoint φ → Bool
  | .swapping | .batch _ | .calling _ => true
  | _ => false

/-- No swap comes before the next poll. -/
def settled : LoopPoint φ → Bool
  | .outside | .polling | .batch _ | .calling _ => true
  | _ => false

end LoopPoint

namespace TaskLoop

variable {φ : Type}

/-- Every functor that was pushed: called, about to be called, or pending. -/
def stream (s : TaskLoop φ) : List φ := s.executed ++ s.rest ++ s.pendingFunctors

/-- The loop will not sleep on what is pending. -/
def Awake (s : TaskLoop φ) : Prop :=
  s.pendingFunctors = [] ∨ 0 < s.wakeupCounter ∨ (∃ thread, s.pushed thread = true) ∨
    s.queueing = true

structure Sound (s : TaskLoop φ) : Prop where
  flag : s.callingPendingFunctors = s.point.flagged
  queueing : s.queueing = true → s.inCallBack = true
  awake : s.point.settled = true → s.Awake

theorem wakeup_pos (s : TaskLoop φ) : 0 < s.wakeup.wakeupCounter := by
  unfold wakeup
  split
  · exact Nat.succ_pos _
  · rename_i h
    exact Nat.lt_of_lt_of_le (by decide) (Nat.le_of_not_lt h)

theorem wakeup_eq (s : TaskLoop φ) : ∃ n, s.wakeup = { s with wakeupCounter := n } := by
  unfold wakeup
  split
  · exact ⟨_, rfl⟩
  · exact ⟨_, rfl⟩

theorem awake_of_unsettled {s : TaskLoop φ} (h : s.point.settled = false) :
    s.point.settled = true → s.Awake := fun h' => absurd (h.symm.trans h') Bool.false_ne_true

theorem new_sound : (new : TaskLoop φ).Sound := ⟨rfl, nofun, fun _ => .inl rfl⟩

theorem advance_sound {s t : TaskLoop φ} (hs : s.Sound) (h : s.advance = .ok t) :
    t.Sound ∧ t.stream = s.stream := by
  have idle (hpoint : s.inCallBack = false) : s.queueing ≠ true := fun hq =>
    absurd (hpoint.symm.trans (hs.queueing hq)) Bool.false_ne_true
  cases hpoint : s.point with
  | outside | polling | handling _ | calling _ =>
      simp only [advance, hpoint] at h
      cases h
  | dispatching active =>
      have hq := idle (by rw [inCallBack, hpoint])
      have hflag := hs.flag
      rw [hpoint] at hflag
      cases active with
      | nil =>
          simp only [advance, hpoint] at h
          cases h
          exact ⟨⟨hflag, fun h => absurd h hq, awake_of_unsettled rfl⟩,
            by simp only [stream, rest, hpoint]⟩
      | cons source active =>
          cases source with
          | wakeup =>
              simp only [advance, hpoint] at h
              cases h
              exact ⟨⟨hflag, fun h => absurd h hq, awake_of_unsettled rfl⟩,
                by simp only [stream, rest, hpoint, handleRead]⟩
          | other =>
              simp only [advance, hpoint] at h
              cases h
              exact ⟨⟨hflag, fun _ => rfl, awake_of_unsettled rfl⟩,
                by simp only [stream, rest, hpoint]⟩
  | flagging =>
      have hq := idle (by rw [inCallBack, hpoint])
      simp only [advance, hpoint] at h
      cases h
      exact ⟨⟨rfl, fun h => absurd h hq, awake_of_unsettled rfl⟩,
        by simp only [stream, rest, hpoint]⟩
  | swapping =>
      have hq := idle (by rw [inCallBack, hpoint])
      have hflag := hs.flag
      rw [hpoint] at hflag
      simp only [advance, hpoint] at h
      cases h
      refine ⟨⟨hflag, fun h => absurd h hq, fun _ => .inl rfl⟩, ?_⟩
      simp only [stream, rest, hpoint, List.append_nil]
  | batch functors =>
      have hq := idle (by rw [inCallBack, hpoint])
      have hawake := hs.awake (by rw [hpoint]; rfl)
      have hflag := hs.flag
      rw [hpoint] at hflag
      cases functors with
      | nil =>
          simp only [advance, hpoint] at h
          cases h
          exact ⟨⟨rfl, fun h => absurd h hq, fun _ => hawake⟩,
            by simp only [stream, rest, hpoint]⟩
      | cons f functors =>
          simp only [advance, hpoint] at h
          cases h
          refine ⟨⟨hflag, fun h => absurd h hq, fun _ => hawake⟩, ?_⟩
          simp only [stream, rest, hpoint, List.append_assoc, List.singleton_append]

theorem back_sound {s t : TaskLoop φ} (hs : s.Sound) (hq : s.queueing ≠ true)
    (h : s.back = .ok t) : t.Sound ∧ t.stream = s.stream := by
  have hflag := hs.flag
  cases hpoint : s.point with
  | handling active =>
      rw [hpoint] at hflag
      simp only [back, hpoint] at h
      cases h
      exact ⟨⟨hflag, fun h => absurd h hq, awake_of_unsettled rfl⟩,
        by simp only [stream, rest, hpoint]⟩
  | calling functors =>
      rw [hpoint] at hflag
      have hawake := hs.awake (by rw [hpoint]; rfl)
      simp only [back, hpoint] at h
      cases h
      exact ⟨⟨hflag, fun h => absurd h hq, fun _ => hawake⟩, by simp only [stream, rest, hpoint]⟩
  | outside | polling | dispatching _ | flagging | swapping | batch _ =>
      simp only [back, hpoint] at h
      cases h

/-- The second half of queueInLoop in the loop thread: without a wakeup only
where a swap is still to come. -/
theorem finishQueue_sound {s : TaskLoop φ} (hs : s.Sound) (hq : s.queueing = true) :
    Sound { (if s.callingPendingFunctors then s.wakeup else s) with queueing := false } ∧
      stream { (if s.callingPendingFunctors then s.wakeup else s) with queueing := false } =
        s.stream := by
  by_cases hflag : s.callingPendingFunctors = true
  · obtain ⟨n, hn⟩ := wakeup_eq s
    have hpos := wakeup_pos s
    rw [if_pos hflag]
    rw [hn] at hpos ⊢
    exact ⟨⟨hs.flag, nofun, fun _ => .inr (.inl hpos)⟩, rfl⟩
  · rw [if_neg hflag]
    refine ⟨⟨hs.flag, nofun, fun hsettled => ?_⟩, rfl⟩
    have hcall := hs.queueing hq
    rw [hs.flag] at hflag
    cases hpoint : s.point with
    | calling _ => exact absurd (by rw [hpoint]; rfl) hflag
    | handling _ =>
        simp only [hpoint] at hsettled
        cases hsettled
    | outside | polling | dispatching _ | flagging | swapping | batch _ =>
        simp only [inCallBack, hpoint] at hcall
        cases hcall

theorem exec_sound {s t : TaskLoop φ} (hs : s.Sound) {step : TaskStep φ}
    (h : s.exec step = .ok t) : t.Sound ∧ t.stream = s.stream ++ queuedBy [step] := by
  cases step with
  | push thread f =>
      simp only [exec] at h
      split at h
      · cases h
      · cases h
        refine ⟨⟨hs.flag, hs.queueing, fun _ => .inr (.inr (.inl ⟨thread, ?_⟩))⟩, ?_⟩
        · exact Function.update_self _ _ _
        · exact (List.append_assoc _ _ _).symm
  | wake thread =>
      simp only [exec] at h
      split at h
      · cases h
        obtain ⟨n, hn⟩ := wakeup_eq s
        have hpos := wakeup_pos s
        rw [hn] at hpos ⊢
        exact ⟨⟨hs.flag, hs.queueing, fun _ => .inr (.inl hpos)⟩, (List.append_nil _).symm⟩
      · cases h
  | queue f =>
      simp only [exec] at h
      split at h
      · rename_i hcall
        cases h
        exact ⟨⟨hs.flag, fun _ => hcall.1, fun _ => .inr (.inr (.inr rfl))⟩,
          (List.append_assoc _ _ _).symm⟩
      · cases h
  | finishQueue =>
      simp only [exec] at h
      split at h
      · rename_i hq
        cases h
        obtain ⟨hsound, hstream⟩ := finishQueue_sound hs hq
        exact ⟨hsound, hstream.trans (List.append_nil _).symm⟩
      · cases h
  | loop =>
      have hflag := hs.flag
      simp only [exec] at h
      split at h
      · rename_i hpoint
        cases h
        rw [hpoint] at hflag
        refine ⟨⟨hflag, fun hq => ?_, fun _ => hs.awake (by rw [hpoint]; rfl)⟩, ?_⟩
        · have hcall := hs.queueing hq
          rw [inCallBack, hpoint] at hcall
          cases hcall
        · simp only [stream, rest, hpoint]
          exact (List.append_nil _).symm
      · cases h
  | poll active =>
      have hflag := hs.flag
      simp only [exec] at h
      split at h
      · rename_i hpoint
        cases h
        rw [hpoint] at hflag
        refine ⟨⟨hflag, fun hq => ?_, nofun⟩, ?_⟩
        · have hcall := hs.queueing hq
          rw [inCallBack, hpoint] at hcall
          cases hcall
        · simp only [stream, rest, hpoint]
          exact (List.append_nil _).symm
      · cases h
  | back =>
      simp only [exec] at h
      split at h
      · cases h
      · rename_i hq
        obtain ⟨hsound, hstream⟩ := back_sound hs hq h
        exact ⟨hsound, hstream.trans (List.append_nil _).symm⟩
  | next =>
      obtain ⟨hsound, hstream⟩ := advance_sound hs h
      exact ⟨hsound, hstream.trans (List.append_nil _).symm⟩

theorem run_sound {s t : TaskLoop φ} (hs : s.Sound) {steps : List (TaskStep φ)}
    (h : run exec s steps = .ok t) : t.Sound ∧ t.stream = s.stream ++ queuedBy steps := by
  induction steps generalizing s with
  | nil =>
      cases h
      exact ⟨hs, (List.append_nil _).symm⟩
  | cons step steps ih =>
      obtain ⟨m, hm, ht⟩ := run_cons_ok.mp h
      obtain ⟨hsound, hstream⟩ := exec_sound hs hm
      obtain ⟨hsound', hstream'⟩ := ih hsound ht
      refine ⟨hsound', ?_⟩
      rw [hstream', hstream, List.append_assoc, ← queuedBy_append]
      rfl

/-- However the threads interleave, the functors run in the order of the pushes,
each once, and when the loop polls with functors pending, the wakeup fd is
readable or some thread is about to write to it. -/
theorem tasks_run_in_order {steps : List (TaskStep φ)} {t : TaskLoop φ}
    (h : run exec new steps = .ok t) :
    t.executed ++ t.rest ++ t.pendingFunctors = queuedBy steps ∧
      (t.point = .polling → t.pendingFunctors ≠ [] →
        0 < t.wakeupCounter ∨ ∃ thread, t.pushed thread = true) := by
  obtain ⟨hsound, hstream⟩ := run_sound new_sound h
  refine ⟨hstream, fun hpoint hpending => ?_⟩
  have hidle : t.queueing ≠ true := fun hq => by
    have hcall := hsound.queueing hq
    rw [inCallBack, hpoint] at hcall
    cases hcall
  rcases hsound.awake (by rw [hpoint]; rfl) with hempty | hcounter | hpushed | hq
  · exact absurd hempty hpending
  · exact .inl hcounter
  · exact .inr hpushed
  · exact absurd hq hidle

theorem tasks_run_in_order_push_after_swap :
    [1] ++ [] ++ [2] = queuedBy [.loop, .poll [.other], .next, .queue 1, .finishQueue, .back,
        .next, .next, .next, .push 0 2, .next, .back, .next] ∧
      ((.polling : LoopPoint Nat) = .polling → [2] ≠ [] →
        0 < 0 ∨ ∃ thread, Function.update (fun _ => false) 0 true thread = true) :=
  have hrun : run exec (new : TaskLoop Nat) [.loop, .poll [.other], .next, .queue 1, .finishQueue,
        .back, .next, .next, .next, .push 0 2, .next, .back, .next] =
      .ok ⟨.polling, false, false, [2], 0, Function.update (fun _ => false) 0 true, [1]⟩ := rfl
  tasks_run_in_order hrun

/-- The queue as the turns of the loop see it, where queueInLoop is one step and
nothing is said about waking up. -/
def view (s : TaskLoop φ) : EventLoop φ :=
  { (EventLoop.new : EventLoop φ) with
    phase := .calling s.rest
    pendingFunctors := s.pendingFunctors }

/-- What a step is for the turns of the loop: nothing, a call of queueInLoop, the
swap of doPendingFunctors, or the call of the next functor. -/
def Turns (s t : TaskLoop φ) : Prop :=
  t.view = s.view ∨ (∃ f, t.view = s.view.queueInLoop f) ∨
    (s.rest = [] ∧ t.view = s.view.doPendingFunctors) ∨
    ∃ f functors, s.view.phase = .calling (f :: functors) ∧
      t.view = { s.view with phase := .calling functors }

theorem advance_turns {s t : TaskLoop φ} (h : s.advance = .ok t) : Turns s t := by
  cases hpoint : s.point with
  | outside | polling | handling _ | calling _ =>
      simp only [advance, hpoint] at h
      cases h
  | dispatching active =>
      cases active with
      | nil =>
          simp only [advance, hpoint] at h
          cases h
          exact .inl (by simp only [view, rest, hpoint])
      | cons source active =>
          cases source with
          | wakeup | other =>
              simp only [advance, hpoint] at h
              cases h
              exact .inl (by simp only [view, rest, hpoint, handleRead])
  | flagging =>
      simp only [advance, hpoint] at h
      cases h
      exact .inl (by simp only [view, rest, hpoint])
  | swapping =>
      simp only [advance, hpoint] at h
      cases h
      exact .inr (.inr (.inl ⟨by simp only [rest, hpoint], rfl⟩))
  | batch functors =>
      cases functors with
      | nil =>
          simp only [advance, hpoint] at h
          cases h
          exact .inl (by simp only [view, rest, hpoint])
      | cons f functors =>
          simp only [advance, hpoint] at h
          cases h
          exact .inr (.inr (.inr ⟨f, functors, by simp only [view, rest, hpoint], rfl⟩))

theorem exec_turns {s t : TaskLoop φ} {step : TaskStep φ} (h : s.exec step = .ok t) :
    Turns s t := by
  have awake : s.wakeup.view = s.view := by
    obtain ⟨n, hn⟩ := wakeup_eq s
    rw [hn]
    rfl
  cases step with
  | push thread f =>
      simp only [exec] at h
      split at h
      · cases h
      · cases h
        exact .inr (.inl ⟨f, rfl⟩)
  | wake thread =>
      simp only [exec] at h
      split at h
      · cases h
        exact .inl awake
      · cases h
  | queue f =>
      simp only [exec] at h
      split at h
      · cases h
        exact .inr (.inl ⟨f, rfl⟩)
      · cases h
  | finishQueue =>
      simp only [exec] at h
      split at h
      · cases h
        refine .inl ?_
        split
        · exact awake
        · rfl
      · cases h
  | loop | poll _ =>
      simp only [exec] at h
      split at h
      · rename_i hpoint
        cases h
        exact .inl (by simp only [view, rest, hpoint])
      · cases h
  | back =>
      simp only [exec, back] at h
      split at h
      · cases h
      · split at h
        · rename_i hpoint
          cases h
          exact .inl (by simp only [view, rest, hpoint])
        · rename_i hpoint
          cases h
          exact .inl (by simp only [view, rest, hpoint])
        · cases h
  | next => exact advance_turns h

end TaskLoop
end TAlib
