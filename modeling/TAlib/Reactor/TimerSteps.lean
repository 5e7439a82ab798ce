import TAlib.Reactor.TimerExpiry
import TAlib.Reactor.TimerRuns

/-!
What each call of the loop thread does. From a sound state a call that is made
as its callers are bound to has one of the effects below, or it computes a time
that leaves its range. The invariants of whole runs are checked on the effects.
-/

namespace TAlib

open Foundation TimerQueue

/-- A timer to be created, and the clock when the timerfd may be armed for it. -/
structure Request where
  address : Nat
  when : TimeStamp
  interval : Seconds
  clock : TimeStamp

namespace TimerCall

def request : TimerCall → Option Request
  | .addTimer p when interval clock => some ⟨p, when, interval, clock⟩
  | .runAt p time clock => some ⟨p, time, Seconds.zero, clock⟩
  | .runAfter p delay now clock => some ⟨p, now + delay.microSeconds, Seconds.zero, clock⟩
  | .runEvery p interval now clock => some ⟨p, now + interval.microSeconds, interval, clock⟩
  | _ => none

/-- The sum that runAfter and runEvery compute is a time. -/
def SumFits : TimerCall → Prop
  | .runAfter _ delay now _ => TimeStamp.Adds now delay
  | .runEvery _ interval now _ => TimeStamp.Adds now interval
  | _ => True

end TimerCall

namespace TimerLoop

/-- The addresses of the timers that handleRead holds. -/
def loose (s : TimerLoop) : List Nat :=
  match s.batch with
  | none => []
  | some b => addresses b.expired

theorem loose_none {s : TimerLoop} (h : s.batch = none) : s.loose = [] := by rw [loose, h]

theorem loose_some {s : TimerLoop} {b : Batch} (h : s.batch = some b) :
    s.loose = addresses b.expired := by rw [loose, h]

structure Sound (s : TimerLoop) : Prop where
  queue : s.queue.Sound s.loose
  calling : s.queue.callingExpiredTimers = s.batch.isSome
  remaining : ∀ b, s.batch = some b → ∃ ran, b.expired = ran ++ b.remaining

theorem Sound.outside {s : TimerLoop} (hs : s.Sound) (h : s.batch = none) : s.queue.Sound [] :=
  loose_none h ▸ hs.queue

theorem Sound.inside {s : TimerLoop} (hs : s.Sound) {b : Batch} (h : s.batch = some b) :
    s.queue.Sound (addresses b.expired) :=
  loose_some h ▸ hs.queue

/-- The timer whose callback is next has expired. -/
theorem Sound.next_mem {s : TimerLoop} (hs : s.Sound) {now : TimeStamp}
    {expired remaining : List Entry} {e : Entry}
    (h : s.batch = some ⟨now, expired, e :: remaining⟩) : e ∈ expired := by
  obtain ⟨ran, hran⟩ := hs.remaining _ h
  have hran' : expired = ran ++ e :: remaining := hran
  rw [hran']
  exact List.mem_append_right _ List.mem_cons_self

theorem new_sound : new.Sound :=
  ⟨TimerQueue.new_sound, rfl, nofun⟩

/-- new returns memory that is free, and an id that is cancelled has been handed
out. -/
def Fresh (s : TimerLoop) : TimerCall → Prop
  | .addTimer p _ _ _ | .runAt p _ _ | .runAfter p _ _ _ | .runEvery p _ _ _ =>
      s.queue.heap p = none ∧ p < uintptrMax
  | .cancel id => (ofLex id).2 ≤ s.queue.numCreated
  | _ => True

/-- A cancel finds no timer. -/
def CancelMisses (s : TimerLoop) : TimerCall → Prop
  | .cancel id => id ∉ s.queue.activeTimers
  | _ => True

instance (s : TimerLoop) : DecidablePred s.Fresh
  | .addTimer p _ _ _ | .runAt p _ _ | .runAfter p _ _ _ | .runEvery p _ _ _ =>
      inferInstanceAs (Decidable (s.queue.heap p = none ∧ p < uintptrMax))
  | .cancel id => inferInstanceAs (Decidable ((ofLex id).2 ≤ s.queue.numCreated))
  | .expire | .handleRead _ | .callBack | .finish _ => isTrue trivial

instance (s : TimerLoop) : DecidablePred s.CancelMisses
  | .cancel id => inferInstanceAs (Decidable (id ∉ s.queue.activeTimers))
  | .addTimer .. | .runAt .. | .runAfter .. | .runEvery .. | .expire | .handleRead _ | .callBack
  | .finish _ => isTrue trivial

/-- The state behind addTimer, whatever it does with the timerfd. -/
def created (s : TimerLoop) (r : Request) (fd : TimerFd) : TimerLoop :=
  { s with
    queue := { s.queue.withAdded r.address r.when r.interval with timerfd := fd }
    added := s.added ++ [(r.address, ⟨r.when, r.interval, s.queue.numCreated + 1⟩)] }

inductive Effect (s : TimerLoop) : TimerCall → TimerLoop → Prop
  | created {call : TimerCall} {r : Request} {fd : TimerFd} (hcall : call.request = some r)
      (hsum : call.SumFits) (hfree : s.queue.heap r.address = none) (hp : r.address < uintptrMax)
      (hfirst : s.queue.Earliest r.when → FitsInt64 (r.when - r.clock) ∧
        TimerFd.resetTimerfd r.when r.clock = .ok fd)
      (hlater : ¬ s.queue.Earliest r.when → fd = s.queue.timerfd) : Effect s call (s.created r fd)
  | ignored {id : ActiveTimer} (hmiss : id ∉ s.queue.activeTimers)
      (hissued : (ofLex id).2 ≤ s.queue.numCreated) : Effect s (.cancel id)
        { s with queue := s.queue.withCanceling id, cancelled := s.cancelled ++ [id] }
  | expired : Effect s .expire s.expire
  | started {now : TimeStamp} {q' : TimerQueue} (hbatch : s.batch = none)
      (h : Started s.queue q' now) : Effect s (.handleRead now)
        { s with queue := q', batch := some ⟨now, s.queue.due now, s.queue.due now⟩ }
  | called {now : TimeStamp} {expired remaining : List Entry} {e : Entry} {t : Timer}
      (hbatch : s.batch = some ⟨now, expired, e :: remaining⟩)
      (ht : s.queue.heap (ofLex e).2 = some t) : Effect s .callBack
        { s with
          batch := some ⟨now, expired, remaining⟩
          fired := s.fired ++ [⟨(ofLex e).2, t, now⟩] }
  | finished {now clock : TimeStamp} {expired : List Entry} {q' : TimerQueue} {fd : TimerFd}
      (hbatch : s.batch = some ⟨now, expired, []⟩) (hres : Restartable s.queue now expired)
      (h : Restarted { s.queue with callingExpiredTimers := false } q' now expired)
      (hrearm : Rearmed q' clock fd) : Effect s (.finish clock)
        { s with queue := { q' with timerfd := fd }, batch := none }
  /-- A part of handleRead whose turn it is not. -/
  | skipped {call : TimerCall} (hcall : call.request = none)
      (hturn : ∀ clock, call = .finish clock → ∀ now expired, s.batch ≠ some ⟨now, expired, []⟩) :
      Effect s call s

/-- Where a time leaves its range. -/
def Overflows (s : TimerLoop) (call : TimerCall) : Prop :=
  ¬ call.SumFits ∨
  (∃ r, call.request = some r ∧ s.queue.Earliest r.when ∧ ¬ FitsInt64 (r.when - r.clock)) ∨
  ∃ clock now expired, call = .finish clock ∧ s.batch = some ⟨now, expired, []⟩ ∧
    (Restartable s.queue now expired → ∃ q',
      Restarted { s.queue with callingExpiredTimers := false } q' now expired ∧
        ∃ e, q'.timers.first = some e ∧ 0 < (ofLex e).1 ∧ ¬ FitsInt64 ((ofLex e).1 - clock))

/-- One of the effects, or an overflow. -/
def Outcome (s : TimerLoop) (call : TimerCall) : Prop :=
  (∃ t, s.exec call = .ok t ∧ Effect s call t) ∨
    (s.exec call = .error .overflow ∧ s.Overflows call)

theorem record_outcome {s : TimerLoop} (hs : s.Sound) {call : TimerCall} {r : Request}
    (hcall : call.request = some r) (hsum : call.SumFits) (hfree : s.queue.heap r.address = none)
    (hp : r.address < uintptrMax)
    (hexec : s.exec call = s.record (s.queue.addTimer r.address r.when r.interval r.clock)) :
    s.Outcome call := by
  rw [Outcome, hexec]
  rcases addTimer_cases r.when r.clock r.interval hs.queue hfree hp with
    ⟨fd, hadd, hfirst, hlater⟩ | ⟨hadd, hfirst, hfits⟩
  · refine .inl ⟨s.created r fd, ?_, .created hcall hsum hfree hp hfirst hlater⟩
    have returns (q' : TimerQueue)
        (h' : q'.heap r.address = some ⟨r.when, r.interval, s.queue.numCreated + 1⟩) :
        (q'.deref r.address >>= fun t =>
          .ok { s with queue := q', added := s.added ++ [(r.address, t)] }) =
            (.ok { s with
              queue := q'
              added := s.added ++ [(r.address, ⟨r.when, r.interval, s.queue.numCreated + 1⟩)] } :
                Except Fault TimerLoop) := by
      rw [TimerQueue.deref_ok h']
      rfl
    rw [record, hadd, ok_bind]
    exact returns _ (store_self ..)
  · refine .inr ⟨?_, .inr (.inl ⟨r, hcall, hfirst, hfits⟩)⟩
    rw [record, hadd]
    rfl

theorem handleRead_outcome {s : TimerLoop} (hs : s.Sound) (now : TimeStamp) :
    s.Outcome (.handleRead now) := by
  cases hbatch : s.batch with
  | some b =>
      refine .inl ⟨s, ?_, .skipped rfl nofun⟩
      simp only [exec, hbatch]
  | none =>
      obtain ⟨q', hok, hstart⟩ := startHandling_ok (hs.outside hbatch) now
      refine .inl ⟨_, ?_, .started hbatch hstart⟩
      simp only [exec, hbatch, hok, ok_bind]
      rfl

theorem callBack_outcome {s : TimerLoop} (hs : s.Sound) : s.Outcome .callBack := by
  cases hbatch : s.batch with
  | none =>
      refine .inl ⟨s, ?_, .skipped rfl nofun⟩
      simp only [exec, hbatch]
  | some b =>
      obtain ⟨now, expired, remaining⟩ := b
      cases remaining with
      | nil =>
          refine .inl ⟨s, ?_, .skipped rfl nofun⟩
          simp only [exec, hbatch]
      | cons e remaining =>
          obtain ⟨t, ht⟩ := Option.ne_none_iff_exists'.mp
            ((hs.inside hbatch).allocated _ (mem_addresses (hs.next_mem hbatch)))
          refine .inl ⟨_, ?_, .called hbatch ht⟩
          simp only [exec, hbatch, TimerQueue.deref_ok ht, ok_bind]
          rfl

theorem finish_outcome {s : TimerLoop} (hs : s.Sound) (clock : TimeStamp) :
    s.Outcome (.finish clock) := by
  cases hbatch : s.batch with
  | none =>
      refine .inl ⟨s, ?_, .skipped rfl fun _ _ _ _ h => nomatch hbatch.symm.trans h⟩
      simp only [exec, hbatch]
  | some b =>
      obtain ⟨now, expired, remaining⟩ := b
      cases remaining with
      | cons e remaining =>
          refine .inl ⟨s, ?_, .skipped rfl fun _ _ _ _ h => nomatch hbatch.symm.trans h⟩
          simp only [exec, hbatch]
      | nil =>
          rcases finishHandling_cases now clock (hs.inside hbatch) with
            ⟨hres, q', fd, hok, hend, hrearm⟩ | ⟨herror, hfirst⟩
          · refine .inl ⟨_, ?_, .finished hbatch hres hend hrearm⟩
            simp only [exec, hbatch, hok, ok_bind]
            rfl
          · refine .inr ⟨?_, .inr (.inr ⟨clock, now, expired, rfl, hbatch, hfirst⟩)⟩
            simp only [exec, hbatch, herror]
            rfl

theorem exec_outcome {s : TimerLoop} (hs : s.Sound) {call : TimerCall} (hfresh : s.Fresh call)
    (hmiss : s.CancelMisses call) : s.Outcome call := by
  cases call with
  | addTimer p when interval clock => exact record_outcome hs rfl trivial hfresh.1 hfresh.2 rfl
  | runAt p time clock => exact record_outcome hs rfl trivial hfresh.1 hfresh.2 rfl
  | runAfter p delay now clock =>
      by_cases hadds : TimeStamp.Adds now delay
      · refine record_outcome hs rfl hadds hfresh.1 hfresh.2 ?_
        rw [exec, runAfter, TimeStamp.addTime_ok hadds]
        rfl
      · refine .inr ⟨?_, .inl hadds⟩
        rw [exec, runAfter, TimeStamp.addTime_overflow hadds]
        rfl
  | runEvery p interval now clock =>
      by_cases hadds : TimeStamp.Adds now interval
      · refine record_outcome hs rfl hadds hfresh.1 hfresh.2 ?_
        rw [exec, runEvery, TimeStamp.addTime_ok hadds]
        rfl
      · refine .inr ⟨?_, .inl hadds⟩
        rw [exec, runEvery, TimeStamp.addTime_overflow hadds]
        rfl
  | cancel id =>
      refine .inl ⟨_, ?_, .ignored hmiss hfresh⟩
      simp only [exec, (cancelInLoop_miss hs.queue hmiss).1, ok_bind]
      rfl
  | expire => exact .inl ⟨s.expire, rfl, .expired⟩
  | handleRead now => exact handleRead_outcome hs now
  | callBack => exact callBack_outcome hs
  | finish clock => exact finish_outcome hs clock

section Effects

variable {s t : TimerLoop} {call : TimerCall}

theorem expire_queue (s : TimerLoop) :
    ∃ fd, s.expire = { s with queue := { s.queue with timerfd := fd } } := by
  unfold expire
  split
  · exact ⟨_, rfl⟩
  · exact ⟨_, rfl⟩

theorem Effect.sound (hs : s.Sound) (h : Effect s call t) : t.Sound := by
  cases h with
  | created hcall hsum hfree hp hfirst hlater =>
      exact ⟨(hs.queue.withAdded _ _ hfree hp).of_same rfl rfl rfl rfl, hs.calling, hs.remaining⟩
  | @ignored id hmiss hissued =>
      have hcalling : (s.queue.withCanceling id).callingExpiredTimers =
          s.queue.callingExpiredTimers := by
        unfold withCanceling
        split
        · rfl
        · rfl
      exact ⟨(cancelInLoop_miss hs.queue hmiss).2.1, hcalling.trans hs.calling, hs.remaining⟩
  | expired =>
      obtain ⟨fd, hfd⟩ := s.expire_queue
      rw [hfd]
      exact ⟨hs.queue.of_same rfl rfl rfl rfl, hs.calling, hs.remaining⟩
  | started hbatch h =>
      refine ⟨h.sound, h.calling, ?_⟩
      rintro _ ⟨⟩
      exact ⟨[], rfl⟩
  | @called now expired remaining e timer hbatch ht =>
      obtain ⟨ran, hran⟩ := hs.remaining _ hbatch
      have hq : s.queue.Sound (addresses expired) := hs.inside hbatch
      refine ⟨hq, hs.calling.trans (by rw [hbatch]; rfl), ?_⟩
      rintro _ ⟨⟩
      exact ⟨ran ++ [e], by rw [List.append_assoc]; exact hran⟩
  | finished hbatch hres h hrearm =>
      exact ⟨h.sound.of_same rfl rfl rfl rfl, h.calling, nofun⟩
  | skipped => exact hs

end Effects
end TimerLoop
end TAlib
