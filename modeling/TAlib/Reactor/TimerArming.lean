import TAlib.Reactor.TimerRange

/-!
The timerfd over whole runs without a cancel. addTimer sets it for a timer that
is alone in front, and handleRead for the first timer that is left. While the
callbacks run it may be disarmed, but not when a timer with an expiration that is
not positive has been added: handleRead does not set the timerfd for that one.
-/

namespace TAlib

open Foundation TimerQueue

/-- Also the time of a TimeStamp in nanoseconds. -/
def kNanoSecondsPerMicroSecond : Int := 1000

def TimeSpec.nanoSeconds (delay : TimeSpec) : Int :=
  delay.tvSec * (kMicroSecondsPerSecond * kNanoSecondsPerMicroSecond) + delay.tvNsec

/-- The timerfd is readable, or will be at the expiration or a hundred microseconds
after it was armed, if that is later. -/
def TimerFd.ArmedFor (expiration : TimeStamp) : TimerFd → Prop
  | .readable => True
  | .armed instant delay => delay ≠ ⟨0, 0⟩ ∧
      instant * kNanoSecondsPerMicroSecond + delay.nanoSeconds ≤
        max expiration (instant + 100) * kNanoSecondsPerMicroSecond
  | .disarmed => False

namespace TimerLoop

/-- Outside handleRead the timerfd is armed for the first timer. -/
def Armed (s : TimerLoop) : Prop :=
  s.batch = none → ∀ e, s.queue.timers.first = some e → s.queue.timerfd.ArmedFor (ofLex e).1

theorem least_wait {expiration clock wait : Int}
    (h : wait = if expiration - clock < 100 then 100 else expiration - clock) :
    100 ≤ wait ∧ clock + wait = max expiration (clock + 100) := by
  split at h
  · omega
  · omega

/-- What resetTimerfd waits for is at most the distance, or a hundred microseconds. -/
theorem resetTimerfd_armedFor {expiration clock : TimeStamp} {fd : TimerFd}
    (h : TimerFd.resetTimerfd expiration clock = .ok fd) : fd.ArmedFor expiration := by
  by_cases hfits : FitsInt64 (expiration - clock)
  · simp only [TimerFd.resetTimerfd, TimerFd.howMuchTimeFromNow, int64_ok hfits, ok_bind] at h
    obtain ⟨wait, hwait⟩ : ∃ wait : Int, wait =
        if expiration - clock < 100 then 100 else expiration - clock := ⟨_, rfl⟩
    rw [← hwait] at h
    obtain ⟨hpos, hmax⟩ := least_wait hwait
    have hnonzero : ¬ (⟨wait / kMicroSecondsPerSecond, wait % kMicroSecondsPerSecond * 1000⟩ :
        TimeSpec) = ⟨0, 0⟩ := by
      intro heq
      have hsec : wait / 1000000 = 0 := congrArg TimeSpec.tvSec heq
      have hnsec : wait % 1000000 * 1000 = 0 := congrArg TimeSpec.tvNsec heq
      omega
    have hnano : TimeSpec.nanoSeconds
        ⟨wait / kMicroSecondsPerSecond, wait % kMicroSecondsPerSecond * 1000⟩ = wait * 1000 := by
      show wait / 1000000 * (1000000 * 1000) + wait % 1000000 * 1000 = wait * 1000
      omega
    cases h
    rw [TimerFd.settime, if_neg hnonzero]
    refine ⟨hnonzero, ?_⟩
    rw [hnano, ← hmax, kNanoSecondsPerMicroSecond, Int.add_mul]
  · cases (resetTimerfd_overflow _ _ hfits).symm.trans h

/-- A new timer that is not alone in front does not change the time of the first
one. -/
theorem first_insert {timers : OrderedSet Entry} (added : Entry) {e : Entry}
    (hlater : ¬ ∀ e ∈ timers, (ofLex added).1 < (ofLex e).1)
    (he : (timers.insert added).first = some e) :
    ∃ e', timers.first = some e' ∧ (ofLex e').1 = (ofLex e).1 := by
  obtain ⟨hmem, hle⟩ := OrderedSet.first_eq_some he
  push Not at hlater
  obtain ⟨e₀, he₀, hle₀⟩ := hlater
  cases hfirst : timers.first with
  | none => exact absurd he₀ (OrderedSet.first_eq_none.mp hfirst e₀)
  | some e' =>
      obtain ⟨hmem', hle'⟩ := OrderedSet.first_eq_some hfirst
      refine ⟨e', rfl, le_antisymm ?_ ?_⟩
      · rcases OrderedSet.mem_insert.mp hmem with rfl | hold
        · exact (Prod.Lex.monotone_fst e' e₀ (hle' e₀ he₀)).trans hle₀
        · exact Prod.Lex.monotone_fst e' e (hle' e hold)
      · exact Prod.Lex.monotone_fst e e' (hle e' (OrderedSet.mem_insert.mpr (.inr hmem')))

/-- A new timer that is alone in front is the first one. -/
theorem first_insert_earliest {timers : OrderedSet Entry} (added : Entry) {e : Entry}
    (hearliest : ∀ e ∈ timers, (ofLex added).1 < (ofLex e).1)
    (he : (timers.insert added).first = some e) : e = added := by
  obtain ⟨hmem, hle⟩ := OrderedSet.first_eq_some he
  refine (OrderedSet.mem_insert.mp hmem).resolve_right fun hold => ?_
  have hback := Prod.Lex.monotone_fst e added (hle added (OrderedSet.mem_insert.mpr (.inl rfl)))
  exact absurd (hearliest e hold) (not_lt.mpr hback)

/-- The timerfd is armed for the first timer, but while handleRead runs only for one
whose expiration is not positive. -/
structure Covered (s : TimerLoop) : Prop extends Ranged s where
  armed : ∀ e, s.queue.timers.first = some e → s.batch = none ∨ (ofLex e).1 ≤ 0 →
    s.queue.timerfd.ArmedFor (ofLex e).1
  positive : ∀ b, s.batch = some b → 0 < b.now

theorem new_covered : new.Covered := ⟨new_ranged, nofun, nofun⟩

theorem Covered.isArmed {s : TimerLoop} (hs : s.Covered) : s.Armed := fun hbatch e he =>
  hs.armed e he (.inl hbatch)

section Effects

variable {s t : TimerLoop} {call : TimerCall}

theorem Covered.created (hs : s.Covered) {r : Request} {fd : TimerFd}
    (hranged : (s.created r fd).Ranged)
    (hfirst : s.queue.Earliest r.when → TimerFd.resetTimerfd r.when r.clock = .ok fd)
    (hlater : ¬ s.queue.Earliest r.when → fd = s.queue.timerfd) : (s.created r fd).Covered := by
  refine ⟨hranged, fun e he hor => ?_, hs.positive⟩
  by_cases hearliest : s.queue.Earliest r.when
  · obtain rfl := first_insert_earliest (toLex (r.when, r.address)) hearliest he
    exact resetTimerfd_armedFor (hfirst hearliest)
  · obtain ⟨e', he', heq⟩ := first_insert (toLex (r.when, r.address)) hearliest he
    have harmed := hs.armed e' he' (heq ▸ hor)
    rw [heq, ← hlater hearliest] at harmed
    exact harmed

/-- What is still in m_timers expires behind a positive time. -/
theorem Covered.started {now : TimeStamp} {q' : TimerQueue} (hpos : 0 < now)
    (h : Started s.queue q' now)
    (hranged : Ranged { s with
      queue := q', batch := some ⟨now, s.queue.due now, s.queue.due now⟩ }) :
    Covered { s with
      queue := q', batch := some ⟨now, s.queue.due now, s.queue.due now⟩ } := by
  refine ⟨hranged, fun e he hor => ?_, ?_⟩
  · have hlt := ((h.timers e).mp (OrderedSet.first_eq_some he).1).2
    exact absurd (hor.resolve_left nofun) (not_le.mpr (hpos.trans hlt))
  · rintro _ ⟨⟩
    exact hpos

/-- A timer that handleRead does not set the timerfd for was not put back. -/
theorem Covered.finished (hs : s.Covered) {now clock : TimeStamp} {expired : List Entry}
    {q' : TimerQueue} {fd : TimerFd} (hbatch : s.batch = some ⟨now, expired, []⟩)
    (h : Restarted { s.queue with callingExpiredTimers := false } q' now expired)
    (hrearm : Rearmed q' clock fd)
    (hranged : Ranged { s with queue := { q' with timerfd := fd }, batch := none }) :
    Covered { s with queue := { q' with timerfd := fd }, batch := none } := by
  have hq := hs.inside hbatch
  have hsound : TimerQueue.Sound { s.queue with callingExpiredTimers := false }
      (addresses expired) := hq.of_same rfl rfl rfl rfl
  have hnow : 0 < now := hs.positive _ hbatch
  refine ⟨hranged, fun e he _ => ?_, nofun⟩
  have he : q'.timers.first = some e := he
  show fd.ArmedFor (ofLex e).1
  obtain ⟨hmem, hle⟩ := OrderedSet.first_eq_some he
  by_cases hpos : 0 < (ofLex e).1
  · exact resetTimerfd_armedFor (hrearm.1 e he hpos)
  · have hfd : fd = s.queue.timerfd := by
      refine (hrearm.2 fun e' he' => ?_).trans h.timerfd
      cases he.symm.trans he'
      exact hpos
    obtain ⟨timer, ht, hexp⟩ := h.sound.entry e hmem
    have hold : (ofLex e).2 ∉ addresses expired ∧ s.queue.heap (ofLex e).2 = some timer := by
      refine (h.heap_cases hsound ht).resolve_right ?_
      rintro ⟨-, t₀, -, hk, rfl⟩
      refine hpos (hexp ▸ ?_)
      exact lt_of_lt_of_le hnow (Int.le_add_of_nonneg_right (t₀.interval.sign hk.1))
    have hin : e ∈ s.queue.timers := by
      have := (hq.owned _ timer hold.2).mpr hold.1
      rwa [hexp] at this
    cases hfirst : s.queue.timers.first with
    | none => exact absurd hin (OrderedSet.first_eq_none.mp hfirst e)
    | some e' =>
        obtain ⟨hmem', hle'⟩ := OrderedSet.first_eq_some hfirst
        obtain ⟨timer', ht', hexp'⟩ := hq.entry e' hmem'
        have hout' : (ofLex e').2 ∉ addresses expired := (hq.owned _ timer' ht').mp
          (by rw [hexp']; exact hmem')
        have hback : e' ∈ q'.timers := by
          have := (h.sound.owned _ timer' ((h.others _ hout').trans ht')).mpr nofun
          rwa [hexp'] at this
        obtain rfl : e' = e := le_antisymm (hle' e hin) (hle e' hback)
        rw [hfd]
        exact hs.armed e' hfirst (.inr (not_lt.mp hpos))

theorem Effect.covered (hs : s.Covered) (hplain : s.Plain call) (h : Effect s call t) :
    t.Covered := by
  have hranged := h.ranged hs.toRanged hplain
  cases h with
  | created _ _ _ _ hfirst hlater =>
      exact hs.created hranged (fun hearliest => (hfirst hearliest).2) hlater
  | ignored => exact hplain.elim
  | expired =>
      refine ⟨hranged, ?_, ?_⟩
      · unfold expire
        split
        · exact fun _ _ _ => trivial
        · exact hs.armed
      · obtain ⟨fd, hfd⟩ := s.expire_queue
        rw [hfd]
        exact hs.positive
  | started _ h => exact .started hplain.1 h hranged
  | called hbatch =>
      refine ⟨hranged, fun e he hor => hs.armed e he (.inr (hor.resolve_left nofun)), ?_⟩
      rintro _ ⟨⟩
      exact (hs.positive _ hbatch :)
  | finished hbatch _ h hrearm => exact hs.finished hbatch h hrearm hranged
  | skipped => exact hs

end Effects

/-- Over every run of the loop thread without a cancel, at positive readings of the
clock: the run returns, with the timerfd armed for the first timer outside every
handleRead, exactly when the times that its calls compute are in range. -/
theorem timerfd_armed_iff {calls : List TimerCall} (hplain : Respects exec Plain new calls) :
    ((∃ t, run exec new calls = .ok t) ∧ Always exec Armed new calls) ↔
      Respects exec InRange new calls :=
  plain_run_iff (fun _ hs => hs.toRanged) (fun _ hs => hs.isArmed)
    (fun _ _ _ hs hplain h => h.covered hs hplain) new_covered hplain

/-- A timer of the distant past is added by a callback. -/
theorem timerfd_armed_iff_past :
    let calls : List TimerCall := [.runAt 1 10 5, .expire, .handleRead 20, .runAt 2 (-7) 20,
      .callBack, .finish 21]
    ((∃ t, run exec new calls = .ok t) ∧ Always exec Armed new calls) ↔
      Respects exec InRange new calls :=
  timerfd_armed_iff (by decide +kernel)

/-- The distance to the earliest time of all is in front of it. -/
theorem timerfd_overflows :
    let calls : List TimerCall := [.runAt 1 (-2 ^ 63) 1]
    Respects exec Plain new calls ∧ run exec new calls = .error .overflow ∧
      ¬ ∃ t, run exec new calls = .ok t := by
  have herror : run exec new [.runAt 1 (-2 ^ 63) 1] = .error .overflow :=
    faultOf_eq_some.mp (by decide +kernel)
  refine ⟨by decide +kernel, herror, ?_⟩
  rintro ⟨t, ht⟩
  cases herror.symm.trans ht

end TimerLoop
end TAlib
