import TAlib.Reactor.TimerSteps

/-!
Runs of the loop thread's timers without a cancel, at positive readings of the
clock. A call returns exactly when the times it computes are in the range of
int64_t: a sum of runAfter or runEvery, the distance to a first timer, or the
next expiration of a repeating one. None of them is checked by the code.
-/

namespace TAlib

open Foundation TimerQueue

/-- What a clock shows. -/
def Reading (clock : TimeStamp) : Prop := 0 < clock ∧ FitsInt64 clock

instance (clock : TimeStamp) : Decidable (Reading clock) := inferInstanceAs (Decidable (_ ∧ _))

/-- The time of a positive distance to a reading is in front of it. -/
theorem Reading.distance {clock time : TimeStamp} (h : Reading clock) (hpos : 0 < time)
    (hfits : FitsInt64 time) : FitsInt64 (time - clock) := by
  have hclock : (0 : Int) < clock := h.1
  have htime : (0 : Int) < time := hpos
  obtain ⟨-, hupper⟩ := h.2
  obtain ⟨-, hbound⟩ := hfits
  exact ⟨by omega, by omega⟩

namespace TimerQueue

variable {q q' : TimerQueue} {now : TimeStamp} {entries : List Entry} {p : Nat} {t : Timer}

/-- A timer behind the for loop of reset is as before, or was put back. -/
theorem Restarted.heap_cases (h : Restarted q q' now entries) (hq : q.Sound (addresses entries))
    (ht : q'.heap p = some t) :
    (p ∉ addresses entries ∧ q.heap p = some t) ∨
      (p ∈ addresses entries ∧ ∃ t₀, q.heap p = some t₀ ∧ q.Kept p t₀ ∧
        t = { t₀ with expiration := now + t₀.interval.microSeconds }) := by
  by_cases hp : p ∈ addresses entries
  · obtain ⟨t₀, ht₀⟩ := Option.ne_none_iff_exists'.mp (hq.allocated p hp)
    by_cases hk : q.Kept p t₀
    · exact .inr ⟨hp, t₀, ht₀, hk, Option.some.inj (ht.symm.trans (h.kept p hp t₀ ht₀ hk))⟩
    · cases (h.deleted p hp t₀ ht₀ hk).symm.trans ht
  · exact .inl ⟨hp, (h.others p hp).symm.trans ht⟩

theorem withAdded_heap_self (q : TimerQueue) (p : Nat) (when : TimeStamp) (interval : Seconds) :
    (q.withAdded p when interval).heap p = some ⟨when, interval, q.numCreated + 1⟩ :=
  store_self ..

theorem withAdded_heap_of_ne (q : TimerQueue) {p p' : Nat} (when : TimeStamp) (interval : Seconds)
    (h : p' ≠ p) : (q.withAdded p when interval).heap p' = q.heap p' :=
  store_of_ne _ _ h

/-- A timer behind addTimer is the new one or as before. -/
theorem withAdded_heap_cases {when : TimeStamp} {interval : Seconds} {p' : Nat}
    (ht : (q.withAdded p when interval).heap p' = some t) :
    (p' = p ∧ t = ⟨when, interval, q.numCreated + 1⟩) ∨ (p' ≠ p ∧ q.heap p' = some t) := by
  by_cases hp : p' = p
  · subst hp
    rw [withAdded_heap_self] at ht
    exact .inl ⟨rfl, (Option.some.inj ht).symm⟩
  · rw [withAdded_heap_of_ne _ _ _ hp] at ht
    exact .inr ⟨hp, ht⟩

end TimerQueue

namespace TimerLoop

/-- new returns free memory, the clock shows positive times, and nothing is
cancelled. -/
def Plain (s : TimerLoop) : TimerCall → Prop
  | .addTimer p time _ clock | .runAt p time clock =>
      (s.queue.heap p = none ∧ p < uintptrMax) ∧ FitsInt64 time ∧ Reading clock
  | .runAfter p _ now clock | .runEvery p _ now clock =>
      (s.queue.heap p = none ∧ p < uintptrMax) ∧ Reading now ∧ Reading clock
  | .cancel _ => False
  | .handleRead now => Reading now
  | .finish clock => Reading clock
  | .expire | .callBack => True

instance (s : TimerLoop) : DecidablePred s.Plain
  | .addTimer p time _ clock | .runAt p time clock =>
      inferInstanceAs (Decidable ((s.queue.heap p = none ∧ p < uintptrMax) ∧
        FitsInt64 time ∧ Reading clock))
  | .runAfter p _ now clock | .runEvery p _ now clock =>
      inferInstanceAs (Decidable ((s.queue.heap p = none ∧ p < uintptrMax) ∧
        Reading now ∧ Reading clock))
  | .cancel _ => isFalse id
  | .handleRead now => inferInstanceAs (Decidable (Reading now))
  | .finish clock => inferInstanceAs (Decidable (Reading clock))
  | .expire | .callBack => isTrue trivial

/-- The times that the call computes are in the range of int64_t: its sum, the
distance to a timer that will be first, and the next expirations of the repeating
timers that are put back. -/
structure InRange (s : TimerLoop) (call : TimerCall) : Prop where
  sum : call.SumFits
  first : ∀ r, call.request = some r → s.queue.Earliest r.when → FitsInt64 (r.when - r.clock)
  restart : ∀ clock now expired, call = .finish clock → s.batch = some ⟨now, expired, []⟩ →
    Restartable s.queue now expired

variable {s t : TimerLoop} {call : TimerCall}

theorem Plain.fresh (h : s.Plain call) : s.Fresh call := by
  cases call with
  | addTimer | runAt | runAfter | runEvery => exact h.1
  | cancel => exact h.elim
  | expire | handleRead | callBack | finish => trivial

theorem Plain.misses (h : s.Plain call) : s.CancelMisses call := by
  cases call with
  | cancel => exact h.elim
  | addTimer | runAt | runAfter | runEvery | expire | handleRead | callBack | finish => trivial

theorem Plain.when_fits (h : s.Plain call) (hsum : call.SumFits) {r : Request}
    (hr : call.request = some r) : FitsInt64 r.when := by
  cases call with
  | addTimer | runAt =>
      cases hr
      exact h.2.1
  | runAfter | runEvery =>
      cases hr
      exact hsum.2
  | cancel | expire | handleRead | callBack | finish => cases hr

/-- A sound state whose timers expire at times in the range of int64_t. -/
structure Ranged (s : TimerLoop) : Prop extends Sound s where
  fits : ∀ p t, s.queue.heap p = some t → FitsInt64 t.expiration

theorem new_ranged : new.Ranged := ⟨new_sound, nofun⟩

theorem Effect.inRange (h : Effect s call t) : s.InRange call := by
  cases h with
  | created hcall hsum _ _ hfirst _ =>
      refine ⟨hsum, fun r hr hearliest => ?_, ?_⟩
      · cases hcall.symm.trans hr
        exact (hfirst hearliest).1
      · rintro _ _ _ rfl
        cases hcall
  | ignored | expired | started | called =>
      exact ⟨trivial, fun _ hr => (nomatch hr), fun _ _ _ hfinish => (nomatch hfinish)⟩
  | finished hbatch hres =>
      refine ⟨trivial, nofun, fun _ _ _ _ hb => ?_⟩
      cases hbatch.symm.trans hb
      exact hres
  | skipped hcall hturn =>
      refine ⟨?_, fun r hr => (nomatch hcall.symm.trans hr), fun clock now expired hcall' hb =>
        absurd hb (hturn clock hcall' now expired)⟩
      cases call with
      | addTimer | runAt | runAfter | runEvery => cases hcall
      | cancel | expire | handleRead | callBack | finish => trivial

theorem Effect.ranged (hs : s.Ranged) (hplain : s.Plain call) (h : Effect s call t) : t.Ranged := by
  refine ⟨h.sound hs.toSound, fun p timer ht => ?_⟩
  cases h with
  | created hcall hsum =>
      rcases withAdded_heap_cases ht with ⟨-, rfl⟩ | ⟨-, hold⟩
      · exact hplain.when_fits hsum hcall
      · exact hs.fits p timer hold
  | ignored => exact hplain.elim
  | expired =>
      obtain ⟨fd, hfd⟩ := s.expire_queue
      rw [hfd] at ht
      exact hs.fits p timer ht
  | started hbatch h => exact hs.fits p timer (h.heap ▸ ht)
  | called => exact hs.fits p timer ht
  | finished hbatch hres h =>
      have hsound : TimerQueue.Sound { s.queue with callingExpiredTimers := false } _ :=
        (hs.inside hbatch).of_same rfl rfl rfl rfl
      rcases h.heap_cases hsound ht with ⟨-, hold⟩ | ⟨hp, t₀, ht₀, hk, rfl⟩
      · exact hs.fits p timer hold
      · obtain ⟨e, he, rfl⟩ := List.mem_map.mp hp
        exact (hres e he t₀ ht₀ hk).2
  | skipped => exact hs.fits p timer ht

/-- Behind handleRead the distance to the first timer is in range. -/
theorem Overflows.not_inRange (hs : s.Ranged) (hplain : s.Plain call) (h : s.Overflows call) :
    ¬ s.InRange call := by
  intro hrange
  rcases h with hsum | ⟨r, hr, hearliest, hfits⟩ | ⟨clock, now, expired, rfl, hbatch, hend⟩
  · exact hsum hrange.sum
  · exact hfits (hrange.first r hr hearliest)
  · have hres := hrange.restart clock now expired rfl hbatch
    obtain ⟨q', h, e, hfirst, hpos, hfits⟩ := hend hres
    obtain ⟨timer, ht, hexp⟩ := h.sound.entry e (OrderedSet.first_eq_some hfirst).1
    have hsound : TimerQueue.Sound { s.queue with callingExpiredTimers := false } _ :=
      (hs.inside hbatch).of_same rfl rfl rfl rfl
    have htime : FitsInt64 timer.expiration := by
      rcases h.heap_cases hsound ht with ⟨-, hold⟩ | ⟨hp, t₀, ht₀, hk, heq⟩
      · exact hs.fits _ _ hold
      · obtain ⟨e', he', heq'⟩ := List.mem_map.mp hp
        rw [← heq'] at ht₀ hk
        rw [heq]
        exact (hres e' he' t₀ ht₀ hk).2
    exact hfits (Reading.distance hplain hpos (hexp ▸ htime))

/-- A call whose times are in range has its effect, any other one overflows. -/
theorem exec_plain (hs : s.Ranged) (hplain : s.Plain call) :
    (s.InRange call ∧ ∃ t, s.exec call = .ok t ∧ Effect s call t) ∨
      (¬ s.InRange call ∧ s.exec call = .error .overflow) := by
  rcases exec_outcome hs.toSound hplain.fresh hplain.misses with ⟨t, ht, h⟩ | ⟨herror, h⟩
  · exact .inl ⟨h.inRange, t, ht, h⟩
  · exact .inr ⟨h.not_inRange hs hplain, herror⟩

/-- An invariant of the effects holds throughout a run, which returns exactly when
the times stay in range. -/
theorem plain_run_iff {I P : TimerLoop → Prop} (hI : ∀ s, I s → s.Ranged) (hP : ∀ s, I s → P s)
    (hstep : ∀ s call t, I s → s.Plain call → Effect s call t → I t) (hnew : I new)
    {calls : List TimerCall} (hplain : Respects exec Plain new calls) :
    ((∃ t, run exec new calls = .ok t) ∧ Always exec P new calls) ↔
      Respects exec InRange new calls := by
  have hreturns : (∃ t, run exec new calls = .ok t) ↔
      ∀ e, run exec new calls = .error e → False := by
    cases run exec new calls with
    | error e => exact iff_of_false nofun fun h => h e rfl
    | ok t => exact iff_of_true ⟨t, rfl⟩ nofun
  rw [hreturns]
  refine safe_iff_respects hP (fun s call hs hplain hrange => ?_)
    (fun s call hs hplain hrange => ?_) hnew hplain
  · rcases exec_plain (hI s hs) hplain with ⟨-, t, ht, h⟩ | ⟨hnot, -⟩
    · exact .inl ⟨t, ht, hstep s call t hs hplain h⟩
    · exact absurd hrange hnot
  · rcases exec_plain (hI s hs) hplain with ⟨h, -⟩ | ⟨-, herror⟩
    · exact absurd h hrange
    · exact ⟨.overflow, herror, id⟩

end TimerLoop
end TAlib
