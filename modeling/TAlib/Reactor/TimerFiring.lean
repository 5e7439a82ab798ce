import TAlib.Reactor.TimerRange

/-!
Which timers run, over whole runs without a cancel. The record of a run tells a
timer by its sequence. As long as the times stay in range, a handleRead runs the
timers that are due when it begins, a one-shot timer runs once, and a timer that
has not run is still in m_timers outside handleRead.
-/

namespace TAlib

open Foundation TimerQueue

/-- The place of a timer in m_timers when it was run. -/
def Firing.entry (f : Firing) : Entry := toLex (f.timer.expiration, f.address)

namespace TimerLoop

/-- What a handleRead that begins at `now` in `s` and ends in `t` has run: the
timers present in `s` that are due, each once and in the order of their
expirations; those that repeat are back in m_timers. -/
def RunsDue (s : TimerLoop) (now : TimeStamp) (t : TimerLoop) : Prop :=
  ∃ firings : List Firing, t.fired = s.fired ++ firings ∧
    (∀ p timer, (∃ f ∈ firings, f.address = p ∧ f.timer = timer) ↔
      s.queue.heap p = some timer ∧ toLex (timer.expiration, p) ∈ s.queue.timers ∧
        timer.expiration ≤ now) ∧
    (firings.map Firing.address).Nodup ∧
    firings.Pairwise (fun f g => f.timer.expiration ≤ g.timer.expiration) ∧
    (∀ f ∈ firings, f.now = now) ∧
    ∀ f ∈ firings, f.timer.repeats = true →
      t.queue.heap f.address =
          some { f.timer with expiration := now + f.timer.interval.microSeconds } ∧
        toLex (now + f.timer.interval.microSeconds, f.address) ∈ t.queue.timers

/-- Each handleRead of the run runs the timers that are due when it begins. -/
def HandlesDue (calls : List TimerCall) : Prop :=
  ∀ before now body clock after s t,
    calls = before ++ .handleRead now :: (body ++ .finish clock :: after) →
    (∀ c, .finish c ∉ body) → run exec new before = .ok s → s.batch = none →
    run exec s (.handleRead now :: (body ++ [.finish clock])) = .ok t → t.batch = none →
    RunsDue s now t

/-- The timers that were added are told apart by their sequences. One that does not
repeat has run at most once, as it was added, no timer has run before its
expiration, and outside handleRead a timer that has not run is in m_timers. -/
structure OnTime (s : TimerLoop) : Prop where
  numbered : (s.added.map fun a => a.2.sequence).Nodup
  added : ∀ f ∈ s.fired, ∃ a ∈ s.added, a.2.sequence = f.timer.sequence ∧ a.1 = f.address ∧
    a.2.interval = f.timer.interval ∧ (f.timer.repeats = false → a.2 = f.timer)
  once : ∀ a ∈ s.added, a.2.repeats = false →
    s.fired.countP (fun f => f.timer.sequence = a.2.sequence) ≤ 1
  due : ∀ f ∈ s.fired, f.timer.expiration ≤ f.now
  kept : s.batch = none → ∀ a ∈ s.added,
    (∀ f ∈ s.fired, f.timer.sequence ≠ a.2.sequence) →
      s.queue.heap a.1 = some a.2 ∧ toLex (a.2.expiration, a.1) ∈ s.queue.timers

/-- The timer at this address is one that was added; it repeats, or is as it was. -/
def Origin (s : TimerLoop) (p : Nat) (t : Timer) : Prop :=
  ∃ a ∈ s.added, a.2.sequence = t.sequence ∧ a.1 = p ∧ a.2.interval = t.interval ∧
    (t.repeats = false → a.2 = t)

/-- The callbacks of the batch so far have been recorded. -/
structure Underway (s : TimerLoop) (b : Batch) : Prop where
  due : ∀ e ∈ b.expired, (ofLex e).1 ≤ b.now ∧
    ∃ t, s.queue.heap (ofLex e).2 = some t ∧ t.expiration = (ofLex e).1
  ran : ∃ ran, b.expired = ran ++ b.remaining ∧ ∀ e ∈ ran, ∃ f ∈ s.fired,
    s.queue.heap (ofLex e).2 = some f.timer

/-- The allocated timers and the record of the run. -/
structure Recorded (s : TimerLoop) : Prop extends Ranged s where
  canceling : s.queue.cancelingTimers = .empty
  numbered : (s.added.map fun a => a.2.sequence).Nodup
  issued : ∀ a ∈ s.added, a.2.sequence ≤ s.queue.numCreated
  origin : ∀ p t, s.queue.heap p = some t → s.Origin p t
  firedOrigin : ∀ f ∈ s.fired, s.Origin f.address f.timer
  due : ∀ f ∈ s.fired, f.timer.expiration ≤ f.now
  once : ∀ a ∈ s.added, a.2.repeats = false →
    s.fired.countP (fun f => f.timer.sequence = a.2.sequence) ≤ 1
  held : ∀ a ∈ s.added, (∀ f ∈ s.fired, f.timer.sequence ≠ a.2.sequence) →
    s.queue.heap a.1 = some a.2
  passed : ∀ f ∈ s.fired, ∀ p t, s.queue.heap p = some t → t.sequence = f.timer.sequence →
    t.repeats = false → ∃ b, s.batch = some b ∧ p ∈ addresses b.expired ∧
      p ∉ addresses b.remaining
  batch : ∀ b, s.batch = some b → s.Underway b

theorem new_recorded : new.Recorded where
  toRanged := new_ranged
  canceling := rfl
  numbered := .nil
  issued := nofun
  origin := nofun
  firedOrigin := nofun
  due := nofun
  once := nofun
  held := nofun
  passed := nofun
  batch := nofun

theorem Recorded.onTime {s : TimerLoop} (hs : s.Recorded) : s.OnTime where
  numbered := hs.numbered
  added := hs.firedOrigin
  once := hs.once
  due := hs.due
  kept := fun hbatch a ha hunfired => by
    have hheap := hs.held a ha hunfired
    exact ⟨hheap, ((hs.outside hbatch).owned _ _ hheap).mpr nofun⟩

section Effects

variable {s t : TimerLoop} {call : TimerCall}

theorem Origin.created {p : Nat} {timer : Timer} (h : s.Origin p timer) (r : Request)
    (fd : TimerFd) : (s.created r fd).Origin p timer := by
  obtain ⟨a, ha, hrest⟩ := h
  exact ⟨a, List.mem_append_left _ ha, hrest⟩

/-- A timer is created; its sequence is new. -/
theorem Recorded.created (hs : s.Recorded) {r : Request} {fd : TimerFd}
    (hranged : (s.created r fd).Ranged) (hfree : s.queue.heap r.address = none) :
    (s.created r fd).Recorded := by
  have hheap (p : Nat) (timer : Timer) (hp : s.queue.heap p = some timer) :
      (s.created r fd).queue.heap p = some timer := by
    refine (withAdded_heap_of_ne _ _ _ ?_).trans hp
    rintro rfl
    cases hfree.symm.trans hp
  have hnew : (r.address, (⟨r.when, r.interval, s.queue.numCreated + 1⟩ : Timer)) ∈
      (s.created r fd).added := List.mem_append_right _ List.mem_cons_self
  have hadded (a : Nat × Timer) (ha : a ∈ (s.created r fd).added) :
      a ∈ s.added ∨ a = (r.address, ⟨r.when, r.interval, s.queue.numCreated + 1⟩) :=
    (List.mem_append.mp ha).imp_right List.mem_singleton.mp
  have hearlier (f : Firing) (hf : f ∈ s.fired) : f.timer.sequence ≤ s.queue.numCreated := by
    obtain ⟨a, ha, hseq, -⟩ := hs.firedOrigin f hf
    exact hseq ▸ hs.issued a ha
  refine ⟨hranged, hs.canceling, ?_, fun a ha => ?_, fun p timer ht => ?_,
    fun f hf => (hs.firedOrigin f hf).created r fd, hs.due, fun a ha hrep => ?_, fun a ha hun => ?_,
    fun f hf p timer ht hseq hrep => ?_, fun b hb => ?_⟩
  · rw [TimerLoop.created, List.map_append, List.nodup_append]
    refine ⟨hs.numbered, List.nodup_singleton _, fun x hx y hy heq => ?_⟩
    obtain ⟨a, ha, rfl⟩ := List.mem_map.mp hx
    have hlast := hs.issued a ha
    rw [heq, List.mem_singleton.mp hy] at hlast
    exact absurd hlast (not_le.mpr (Int.lt_succ _))
  · rcases hadded a ha with hold | rfl
    · exact (hs.issued a hold).trans (Int.le_add_one (le_refl _))
    · exact le_refl _
  · rcases withAdded_heap_cases ht with ⟨rfl, rfl⟩ | ⟨-, hold⟩
    · exact ⟨_, hnew, rfl, rfl, rfl, fun _ => rfl⟩
    · exact (hs.origin p timer hold).created r fd
  · rcases hadded a ha with hold | rfl
    · exact hs.once a hold hrep
    · refine (List.countP_eq_zero.mpr fun f hf hseq => ?_).trans_le (Nat.zero_le 1)
      have hlast := hearlier f hf
      rw [of_decide_eq_true hseq] at hlast
      exact absurd hlast (not_le.mpr (Int.lt_succ _))
  · rcases hadded a ha with hold | rfl
    · exact hheap _ _ (hs.held a hold hun)
    · exact withAdded_heap_self ..
  · rcases withAdded_heap_cases ht with ⟨-, rfl⟩ | ⟨-, hold⟩
    · have hlast := hearlier f hf
      rw [← hseq] at hlast
      exact absurd hlast (not_le.mpr (Int.lt_succ _))
    · exact hs.passed f hf p timer hold hseq hrep
  · obtain ⟨hdue, ran, hran, hfired⟩ := hs.batch b hb
    refine ⟨fun e he => ?_, ran, hran, fun e he => ?_⟩
    · obtain ⟨hle, timer, ht, hexp⟩ := hdue e he
      exact ⟨hle, timer, hheap _ _ ht, hexp⟩
    · obtain ⟨f, hf, ht⟩ := hfired e he
      exact ⟨f, hf, hheap _ _ ht⟩

/-- handleRead begins; the timers that do not repeat and have run are gone. -/
theorem Recorded.started (hs : s.Recorded) (hbatch : s.batch = none) {now : TimeStamp}
    {q' : TimerQueue} (h : Started s.queue q' now)
    (hranged : Ranged { s with
      queue := q', batch := some ⟨now, s.queue.due now, s.queue.due now⟩ }) :
    Recorded { s with
      queue := q', batch := some ⟨now, s.queue.due now, s.queue.due now⟩ } := by
  have hq := hs.outside hbatch
  refine ⟨hranged, h.canceling, hs.numbered, fun a ha => h.numCreated ▸ hs.issued a ha,
    fun p timer ht => hs.origin p timer (h.heap ▸ ht), hs.firedOrigin, hs.due, hs.once,
    fun a ha hun => (congrFun h.heap a.1).trans (hs.held a ha hun),
    fun f hf p timer ht hseq hrep => ?_, fun b hb => ?_⟩
  · obtain ⟨b, hb, -⟩ := hs.passed f hf p timer (h.heap ▸ ht) hseq hrep
    cases hbatch.symm.trans hb
  · cases hb
    refine ⟨fun e he => ?_, [], rfl, nofun⟩
    obtain ⟨hmem, hle⟩ := hq.mem_due.mp he
    obtain ⟨timer, ht, hexp⟩ := hq.entry e hmem
    exact ⟨hle, timer, (congrFun h.heap _).trans ht, hexp⟩

/-- A callback is called; if its timer does not repeat, it has not run before. -/
theorem Recorded.called (hs : s.Recorded) {now : TimeStamp} {expired remaining : List Entry}
    {e : Entry} {timer : Timer} (hbatch : s.batch = some ⟨now, expired, e :: remaining⟩)
    (ht : s.queue.heap (ofLex e).2 = some timer)
    (hranged : Ranged { s with
      batch := some ⟨now, expired, remaining⟩
      fired := s.fired ++ [⟨(ofLex e).2, timer, now⟩] }) :
    Recorded { s with
      batch := some ⟨now, expired, remaining⟩
      fired := s.fired ++ [⟨(ofLex e).2, timer, now⟩] } := by
  have hmem : e ∈ expired := hs.next_mem hbatch
  obtain ⟨hdue, ran, hran, hfired⟩ := hs.batch _ hbatch
  have hran : expired = ran ++ e :: remaining := hran
  have hnodup : (addresses expired).Nodup := (hs.inside hbatch).nodup
  have hout : (ofLex e).2 ∉ addresses remaining := by
    rw [hran, addresses, List.map_append, List.map_cons] at hnodup
    exact (List.nodup_cons.mp (List.nodup_append.mp hnodup).2.1).1
  have hcases (f : Firing) (hf : f ∈ s.fired ++ [⟨(ofLex e).2, timer, now⟩]) :
      f ∈ s.fired ∨ f = ⟨(ofLex e).2, timer, now⟩ :=
    (List.mem_append.mp hf).imp_right List.mem_singleton.mp
  -- the timer waits for its turn, so it has not passed
  have hfirst (hrep : timer.repeats = false) (f : Firing) (hf : f ∈ s.fired) :
      f.timer.sequence ≠ timer.sequence := by
    intro hseq
    obtain ⟨b, hb, -, hnot⟩ := hs.passed f hf _ timer ht hseq.symm hrep
    cases hbatch.symm.trans hb
    exact hnot List.mem_cons_self
  refine ⟨hranged, hs.canceling, hs.numbered, hs.issued, hs.origin, fun f hf => ?_,
    fun f hf => ?_, fun a ha hrep => ?_, fun a ha hun => ?_, fun f hf p t' ht' hseq hrep => ?_,
    fun b hb => ?_⟩
  · rcases hcases f hf with hold | rfl
    · exact hs.firedOrigin f hold
    · exact hs.origin _ timer ht
  · rcases hcases f hf with hold | rfl
    · exact hs.due f hold
    · obtain ⟨hle, t', ht', hexp⟩ := hdue e hmem
      cases ht.symm.trans ht'
      exact hexp.trans_le hle
  · rw [List.countP_append, List.countP_singleton]
    by_cases hseq : timer.sequence = a.2.sequence
    · obtain ⟨a', ha', hseq', -, hinterval, -⟩ := hs.origin _ timer ht
      obtain rfl : a' = a := List.inj_on_of_nodup_map hs.numbered ha' ha (hseq'.trans hseq)
      have hrep' : timer.repeats = false := by
        rw [Timer.repeats, ← hinterval]
        exact hrep
      rw [List.countP_eq_zero.mpr fun f hf hf' =>
        hfirst hrep' f hf ((of_decide_eq_true hf').trans hseq.symm)]
      simp [hseq]
    · simp only [hseq, decide_false, Bool.false_eq_true, if_false, Nat.add_zero]
      exact hs.once a ha hrep
  · exact hs.held a ha fun f hf => hun f (List.mem_append_left _ hf)
  · refine ⟨_, rfl, ?_⟩
    rcases hcases f hf with hold | rfl
    · obtain ⟨b, hb, hin, hnot⟩ := hs.passed f hold p t' ht' hseq hrep
      cases hbatch.symm.trans hb
      exact ⟨hin, fun hmem => hnot (List.mem_cons_of_mem _ hmem)⟩
    · obtain rfl : p = (ofLex e).2 := (hs.queue.unique _ _ _ _ ht' ht hseq)
      exact ⟨mem_addresses hmem, hout⟩
  · cases hb
    refine ⟨hdue, ran ++ [e], by rw [List.append_assoc]; exact hran, fun e' he' => ?_⟩
    rcases List.mem_append.mp he' with hold | hlast
    · obtain ⟨f, hf, ht'⟩ := hfired e' hold
      exact ⟨f, List.mem_append_left _ hf, ht'⟩
    · obtain rfl := List.mem_singleton.mp hlast
      exact ⟨_, List.mem_append_right _ List.mem_cons_self, ht⟩

/-- handleRead ends; a timer that has not run was not in the batch. -/
theorem Recorded.finished (hs : s.Recorded) {now : TimeStamp} {expired : List Entry}
    {q' : TimerQueue} {fd : TimerFd} (hbatch : s.batch = some ⟨now, expired, []⟩)
    (h : Restarted { s.queue with callingExpiredTimers := false } q' now expired)
    (hranged : Ranged { s with queue := { q' with timerfd := fd }, batch := none }) :
    Recorded { s with queue := { q' with timerfd := fd }, batch := none } := by
  have hsound : TimerQueue.Sound { s.queue with callingExpiredTimers := false }
      (addresses expired) := (hs.inside hbatch).of_same rfl rfl rfl rfl
  obtain ⟨hdue, ran, hran, hfired⟩ := hs.batch _ hbatch
  have hran : expired = ran ++ [] := hran
  rw [List.append_nil] at hran
  refine ⟨hranged, h.canceling.trans hs.canceling, hs.numbered,
    fun a ha => h.numCreated ▸ hs.issued a ha, fun p timer ht => ?_, hs.firedOrigin, hs.due,
    hs.once, fun a ha hun => ?_, fun f hf p timer ht hseq hrep => ?_, nofun⟩
  · rcases h.heap_cases hsound ht with ⟨-, hold⟩ | ⟨-, t₀, ht₀, hk, rfl⟩
    · exact hs.origin p timer hold
    · obtain ⟨a, ha, hseq, haddress, hinterval, -⟩ := hs.origin p t₀ ht₀
      exact ⟨a, ha, hseq, haddress, hinterval, fun hrep => nomatch hk.1.symm.trans hrep⟩
  · have hheap := hs.held a ha hun
    refine (h.others a.1 fun hin => ?_).trans hheap
    obtain ⟨e, he, heq⟩ := List.mem_map.mp hin
    obtain ⟨f, hf, ht⟩ := hfired e (hran ▸ he)
    rw [heq] at ht
    exact hun f hf (congrArg Timer.sequence (Option.some.inj (ht.symm.trans hheap)))
  · rcases h.heap_cases hsound ht with ⟨hout, hold⟩ | ⟨-, t₀, ht₀, hk, rfl⟩
    · obtain ⟨b, hb, hin, -⟩ := hs.passed f hf p timer hold hseq hrep
      cases hbatch.symm.trans hb
      exact absurd hin hout
    · exact nomatch hk.1.symm.trans hrep

theorem Effect.recorded (hs : s.Recorded) (hplain : s.Plain call) (h : Effect s call t) :
    t.Recorded := by
  have hranged := h.ranged hs.toRanged hplain
  cases h with
  | created _ _ hfree => exact hs.created hranged hfree
  | ignored => exact hplain.elim
  | expired =>
      obtain ⟨fd, hfd⟩ := s.expire_queue
      rw [hfd] at hranged ⊢
      exact ⟨hranged, hs.canceling, hs.numbered, hs.issued, hs.origin, hs.firedOrigin, hs.due,
        hs.once, hs.held, hs.passed, fun b hb => ⟨(hs.batch b hb).due, (hs.batch b hb).ran⟩⟩
  | started hbatch h => exact hs.started hbatch h hranged
  | called hbatch ht => exact hs.called hbatch ht hranged
  | finished hbatch _ h => exact hs.finished hbatch h hranged
  | skipped => exact hs

/-- In the course of a handleRead that began at `now` in `s`. -/
structure During (s : TimerLoop) (now : TimeStamp) (m : TimerLoop) : Prop where
  recorded : m.Recorded
  run : ∃ firings remaining, m.batch = some ⟨now, s.queue.due now, remaining⟩ ∧
    s.queue.due now = firings.map Firing.entry ++ remaining ∧ m.fired = s.fired ++ firings ∧
    ∀ f ∈ firings, s.queue.heap f.address = some f.timer ∧ f.now = now
  heap : ∀ p ∈ addresses (s.queue.due now), m.queue.heap p = s.queue.heap p

theorem During.started {now : TimeStamp} {q' : TimerQueue} (h : Started s.queue q' now)
    (hrecorded : Recorded { s with
      queue := q', batch := some ⟨now, s.queue.due now, s.queue.due now⟩ }) :
    During s now { s with
      queue := q', batch := some ⟨now, s.queue.due now, s.queue.due now⟩ } :=
  ⟨hrecorded, ⟨[], _, rfl, rfl, (List.append_nil _).symm, nofun⟩, fun _ _ => congrFun h.heap _⟩

/-- The next callback is that of the next entry. -/
theorem During.called {m : TimerLoop} {now now' : TimeStamp} (hm : During s now m)
    {expired remaining : List Entry} {e : Entry} {timer : Timer}
    (hbatch : m.batch = some ⟨now', expired, e :: remaining⟩)
    (ht : m.queue.heap (ofLex e).2 = some timer)
    (hrecorded : Recorded { m with
      batch := some ⟨now', expired, remaining⟩
      fired := m.fired ++ [⟨(ofLex e).2, timer, now'⟩] }) :
    During s now { m with
      batch := some ⟨now', expired, remaining⟩
      fired := m.fired ++ [⟨(ofLex e).2, timer, now'⟩] } := by
  obtain ⟨firings, rest, hb, hdue, hfired, hfirings⟩ := hm.run
  cases hbatch.symm.trans hb
  have hmem : e ∈ s.queue.due now := hm.recorded.next_mem hbatch
  obtain ⟨-, timer', ht', hexp⟩ := (hm.recorded.batch _ hbatch).due e hmem
  cases ht.symm.trans ht'
  have hentry : Firing.entry ⟨(ofLex e).2, timer, now⟩ = e :=
    congrArg toLex (Prod.ext hexp rfl)
  refine ⟨hrecorded, ⟨firings ++ [⟨(ofLex e).2, timer, now⟩], remaining, rfl, ?_, ?_,
    fun f hf => ?_⟩, hm.heap⟩
  · rw [List.map_append, List.map_singleton, hentry, List.append_assoc]
    exact hdue
  · simp only [hfired, List.append_assoc]
  · rcases List.mem_append.mp hf with hold | hlast
    · exact hfirings f hold
    · obtain rfl := List.mem_singleton.mp hlast
      exact ⟨(hm.heap _ (mem_addresses hmem)).symm.trans ht, rfl⟩

/-- Until handleRead ends. -/
theorem Effect.during {m : TimerLoop} {now : TimeStamp} (hm : During s now m)
    (hplain : m.Plain call) (hcall : ∀ c, call ≠ .finish c) (h : Effect m call t) :
    During s now t := by
  have hrecorded := h.recorded hm.recorded hplain
  obtain ⟨firings, remaining, hb, hdue, hfired, hfirings⟩ := hm.run
  cases h with
  | created _ _ hfree =>
      refine ⟨hrecorded, ⟨firings, remaining, hb, hdue, hfired, hfirings⟩, fun p hp => ?_⟩
      refine (withAdded_heap_of_ne _ _ _ ?_).trans (hm.heap p hp)
      rintro rfl
      exact (hm.recorded.inside hb).allocated _ hp hfree
  | ignored => exact hplain.elim
  | expired =>
      obtain ⟨fd, hfd⟩ := m.expire_queue
      rw [hfd] at hrecorded ⊢
      exact ⟨hrecorded, ⟨firings, remaining, hb, hdue, hfired, hfirings⟩, hm.heap⟩
  | started hbatch => cases hbatch.symm.trans hb
  | called hbatch ht => exact hm.called hbatch ht hrecorded
  | finished => exact absurd rfl (hcall _)
  | skipped => exact hm

/-- handleRead has ended. -/
theorem Effect.runsDue {m : TimerLoop} {now clock : TimeStamp} (hs : s.Recorded)
    (hbatch : s.batch = none) (hm : During s now m) (h : Effect m (.finish clock) t)
    (hend : t.batch = none) : RunsDue s now t := by
  obtain ⟨firings, remaining, hb, hdue, hfired, hfirings⟩ := hm.run
  have hq := hs.outside hbatch
  cases h with
  | created hcall => cases hcall
  | skipped => cases hend.symm.trans hb
  | @finished _ _ _ q' fd hbatch' _ h =>
      cases hb.symm.trans hbatch'
      rw [List.append_nil] at hdue
      have haddresses : firings.map Firing.address = addresses (s.queue.due now) := by
        rw [hdue, addresses, List.map_map]
        rfl
      refine ⟨firings, hfired, fun p timer => ⟨?_, ?_⟩, ?_, ?_, fun f hf => (hfirings f hf).2,
        fun f hf hrep => ?_⟩
      · rintro ⟨f, hf, rfl, rfl⟩
        have hmem : f.entry ∈ s.queue.due now := hdue ▸ List.mem_map_of_mem hf
        exact ⟨(hfirings f hf).1, hq.mem_due.mp hmem⟩
      · rintro ⟨hheap, hin⟩
        have hmem : toLex (timer.expiration, p) ∈ s.queue.due now := hq.mem_due.mpr hin
        rw [hdue] at hmem
        obtain ⟨f, hf, heq⟩ := List.mem_map.mp hmem
        have haddress : f.address = p := congrArg (fun e => (ofLex e).2) heq
        refine ⟨f, hf, haddress, ?_⟩
        have hfheap := (hfirings f hf).1
        rw [haddress] at hfheap
        exact Option.some.inj (hfheap.symm.trans hheap)
      · rw [haddresses]
        exact hq.addresses_nodup now
      · have hsorted := s.queue.timers.below_increasing (toLex (now, uintptrMax))
        rw [show s.queue.timers.below (toLex (now, uintptrMax)) = _ from hdue, List.pairwise_map]
          at hsorted
        exact hsorted.imp fun {f g} hlt => Prod.Lex.monotone_fst f.entry g.entry (le_of_lt hlt)
      · have hmem : f.address ∈ addresses (s.queue.due now) :=
          haddresses ▸ List.mem_map_of_mem hf
        have hheap : m.queue.heap f.address = some f.timer :=
          (hm.heap _ hmem).trans (hfirings f hf).1
        have hkept : TimerQueue.Kept { m.queue with callingExpiredTimers := false } f.address
            f.timer := by
          refine ⟨hrep, ?_⟩
          rw [show TimerQueue.cancelingTimers _ = .empty from hm.recorded.canceling]
          exact OrderedSet.not_mem_empty _
        have hput := h.kept _ hmem _ hheap hkept
        exact ⟨hput, (h.sound.owned _ _ hput).mpr List.not_mem_nil⟩

end Effects

theorem exec_effect {s t : TimerLoop} {call : TimerCall} (hs : s.Ranged) (hplain : s.Plain call)
    (ht : s.exec call = .ok t) : Effect s call t := by
  rcases exec_plain hs hplain with ⟨-, t', ht', h⟩ | ⟨-, herror⟩
  · cases ht.symm.trans ht'
    exact h
  · cases ht.symm.trans herror

/-- The batches of a run without a cancel. -/
theorem handles_due {calls : List TimerCall} (hplain : Respects exec Plain new calls) :
    HandlesDue calls := by
  rintro before now body clock after s t rfl hbody hbefore hbatch hrun hend
  have hs : s.Recorded := run_invariant (I := Recorded)
    (fun s call t hs hplain ht => (exec_effect hs.toRanged hplain ht).recorded hs hplain)
    new_recorded hplain.initial hbefore
  have hrest := hplain.suffix hbefore
  -- handleRead begins
  obtain ⟨q', hok, hstart⟩ := startHandling_ok (hs.outside hbatch) now
  have hread : s.exec (.handleRead now) = .ok { s with
      queue := q', batch := some ⟨now, s.queue.due now, s.queue.due now⟩ } := by
    simp only [exec, hbatch, hok, ok_bind]
    rfl
  have hbegun := During.started hstart
    ((exec_effect hs.toRanged hrest.1 hread).recorded hs hrest.1)
  obtain ⟨m, hm, hrun⟩ := run_cons_ok.mp hrun
  cases hread.symm.trans hm
  -- the callbacks, and what is called meanwhile
  obtain ⟨m, hm, hrun⟩ := run_append_ok.mp hrun
  have hrest := hrest.2 _ hread
  have hopen (s : TimerLoop) : Respects exec (fun _ call => ∀ c, call ≠ .finish c) s body :=
    respects_of_forall (fun call hcall _ c heq => hbody c (by rw [← heq]; exact hcall)) s
  have hpre := hrest.initial.and (hopen _)
  have hduring : During s now m := run_invariant (I := During s now)
    (fun m call t hm hpre ht =>
      (exec_effect hm.recorded.toRanged hpre.1 ht).during hm hpre.1 hpre.2) hbegun hpre hm
  -- handleRead ends
  have hplain := (hrest.suffix hm).1
  obtain ⟨t', ht, hnil⟩ := run_cons_ok.mp hrun
  cases hnil
  exact (exec_effect hduring.recorded.toRanged hplain ht).runsDue hs hbatch hduring hend

/-- Over every run of the loop thread without a cancel, at positive readings of the
clock: the run returns, with its timers on time and every handleRead running what is
due, exactly when the times that its calls compute are in range. -/
theorem timers_on_time_iff {calls : List TimerCall} (hplain : Respects exec Plain new calls) :
    ((∃ t, run exec new calls = .ok t) ∧ Always exec OnTime new calls ∧ HandlesDue calls) ↔
      Respects exec InRange new calls := by
  have hiff := plain_run_iff (fun s hs => hs.toRanged) (fun s hs => hs.onTime)
    (fun s call t hs hplain h => h.recorded hs hplain) new_recorded hplain
  rw [← hiff, and_iff_left (handles_due hplain)]

/-- A timer that repeats and one that does not are both due. -/
theorem timers_on_time_iff_two :
    let calls : List TimerCall := [.runAt 1 10 5, .runEvery 2 ⟨true, 3, fun _ => by decide⟩ 5 6,
      .expire, .handleRead 20, .callBack, .callBack, .finish 21]
    ((∃ t, run exec new calls = .ok t) ∧ Always exec OnTime new calls ∧ HandlesDue calls) ↔
      Respects exec InRange new calls :=
  timers_on_time_iff (by decide +kernel)

/-- The first expiration of a timer that repeats after a long time is behind the last
time that an int64_t holds. -/
theorem timer_overflows :
    let calls : List TimerCall := [.runEvery 1 ⟨true, 2 ^ 63 - 1024, fun _ => by decide⟩
      1700000000000000 1700000000000000]
    Respects exec Plain new calls ∧ run exec new calls = .error .overflow ∧
      ¬ ∃ t, run exec new calls = .ok t := by
  have herror : run exec new [.runEvery 1 ⟨true, 2 ^ 63 - 1024, fun _ => by decide⟩
      1700000000000000 1700000000000000] = .error .overflow :=
    faultOf_eq_some.mp (by decide +kernel)
  refine ⟨by decide +kernel, herror, ?_⟩
  rintro ⟨t, ht⟩
  cases herror.symm.trans ht

end TimerLoop
end TAlib
