import TAlib.Reactor.TimerSteps

/-!
The sets of a timer queue over whole runs, with callbacks that add and cancel
timers. cancelInLoop forgets to erase the timer from m_activeTimers, so it fails
its own assert whenever it finds the timer; as long as it never does, the sets
agree outside the callbacks and no assert fails.
-/

namespace TAlib

open Foundation TimerQueue

/-- The two sets describe the timers that are allocated, and only these. -/
structure SetsAgree (q : TimerQueue) : Prop where
  agree : ∀ p t, q.heap p = some t →
    (toLex (t.expiration, p) ∈ q.timers ↔ toLex (p, t.sequence) ∈ q.activeTimers)
  held : ∀ p t, q.heap p = some t → toLex (t.expiration, p) ∈ q.timers
  entries : ∀ e ∈ q.timers, ∃ t, q.heap (ofLex e).2 = some t ∧ t.expiration = (ofLex e).1
  actives : ∀ id ∈ q.activeTimers, ∃ t, q.heap (ofLex id).1 = some t ∧ t.sequence = (ofLex id).2

/-- cancel returns and leaves both sets as they are. -/
def CancelIgnored (q : TimerQueue) (id : ActiveTimer) : Prop :=
  ∃ q', q.cancelInLoop id = .ok q' ∧ q'.timers = q.timers ∧ q'.activeTimers = q.activeTimers

namespace TimerLoop

/-- The ids that were cancelled before, and those of the one-shot timers that ran. -/
def spent (s : TimerLoop) : List ActiveTimer :=
  s.cancelled ++ (s.fired.filter fun f => !f.timer.repeats).map fun f =>
    toLex (f.address, f.timer.sequence)

/-- Outside the callbacks the sets agree, and at any time a spent id cancels
nothing. -/
def Agrees (s : TimerLoop) : Prop :=
  (s.batch = none → SetsAgree s.queue) ∧ ∀ id ∈ s.spent, CancelIgnored s.queue id

/-- The id is not active and will not be: its timer is gone, or about to be
deleted by handleRead. -/
structure Retired (s : TimerLoop) (id : ActiveTimer) : Prop where
  idle : id ∉ s.queue.activeTimers
  issued : (ofLex id).2 ≤ s.queue.numCreated
  leaving : ∀ t, s.queue.heap (ofLex id).1 = some t → t.sequence = (ofLex id).2 →
    (ofLex id).1 ∈ s.loose ∧ (id ∈ s.queue.cancelingTimers ∨ t.repeats = false)

/-- A sound state whose spent ids are retired. -/
structure Settled (s : TimerLoop) : Prop extends Sound s where
  retired : ∀ id ∈ s.spent, s.Retired id

theorem new_settled : new.Settled := ⟨new_sound, nofun⟩

theorem Settled.agrees {s : TimerLoop} (hs : s.Settled) : s.Agrees := by
  constructor
  · intro hbatch
    have hq := hs.outside hbatch
    have hheld : ∀ p t, s.queue.heap p = some t → toLex (t.expiration, p) ∈ s.queue.timers :=
      fun p t ht => (hq.owned p t ht).mpr nofun
    refine ⟨fun p t ht => iff_of_true (hheld p t ht) ?_, hheld, hq.entry, fun id hid => ?_⟩
    · exact (hq.active _).mpr ⟨t, ht, rfl, hheld p t ht⟩
    · obtain ⟨t, ht, hseq, -⟩ := (hq.active id).mp hid
      exact ⟨t, ht, hseq⟩
  · intro id hid
    obtain ⟨hok, -, htimers, hactive⟩ := cancelInLoop_miss hs.queue (hs.retired id hid).idle
    exact ⟨_, hok, htimers, hactive⟩

section Effects

variable {s t : TimerLoop} {id : ActiveTimer}

/-- A timer that is created has a sequence that no retired id has. -/
theorem Retired.created (h : s.Retired id) (r : Request) (fd : TimerFd) :
    (s.created r fd).Retired id := by
  obtain ⟨hidle, hissued, hleaving⟩ := h
  refine ⟨fun hmem => ?_, hissued.trans (Int.le_add_one (le_refl _)), fun t ht hseq => ?_⟩
  · cases OrderedSet.mem_insert.mp hmem with
    | inl heq =>
        rw [heq] at hissued
        exact absurd hissued (not_le.mpr (Int.lt_add_one_of_le (le_refl _)))
    | inr hmem => exact hidle hmem
  · by_cases hne : (ofLex id).1 = r.address
    · have hself : (s.queue.withAdded r.address r.when r.interval).heap r.address =
          some ⟨r.when, r.interval, s.queue.numCreated + 1⟩ := store_self ..
      rw [hne] at ht
      cases hself.symm.trans ht
      rw [← hseq] at hissued
      exact absurd hissued (not_le.mpr (Int.lt_add_one_of_le (le_refl _)))
    · have hother : (s.queue.withAdded r.address r.when r.interval).heap (ofLex id).1 =
          s.queue.heap (ofLex id).1 := store_of_ne _ _ hne
      exact hleaving t (hother.symm.trans ht) hseq

/-- A cancel that finds no timer retires its id. -/
theorem Settled.ignored (hs : s.Settled) (hmiss : id ∉ s.queue.activeTimers)
    (hissued : (ofLex id).2 ≤ s.queue.numCreated) {id' : ActiveTimer}
    (hid' : id' ∈ s.spent ∨ id' = id) :
    Retired { s with queue := s.queue.withCanceling id, cancelled := s.cancelled ++ [id] } id' := by
  have hsame : (s.queue.withCanceling id).heap = s.queue.heap ∧
      (s.queue.withCanceling id).numCreated = s.queue.numCreated ∧
      (s.queue.callingExpiredTimers = true → id ∈ (s.queue.withCanceling id).cancelingTimers) ∧
      ∀ id', id' ∈ s.queue.cancelingTimers →
        id' ∈ (s.queue.withCanceling id).cancelingTimers := by
    rw [withCanceling]
    split
    · exact ⟨rfl, rfl, fun _ => OrderedSet.mem_insert.mpr (.inl rfl),
        fun _ h => OrderedSet.mem_insert.mpr (.inr h)⟩
    · rename_i hcalling
      exact ⟨rfl, rfl, fun h => absurd h hcalling, fun _ h => h⟩
  obtain ⟨hheap, hcreated, hself, hkeeps⟩ := hsame
  obtain ⟨-, -, -, hactive⟩ := cancelInLoop_miss hs.queue hmiss
  cases hid' with
  | inl hold =>
      obtain ⟨hidle, hissued', hleaving⟩ := hs.retired id' hold
      refine ⟨hactive ▸ hidle, hcreated ▸ hissued', fun t ht hseq => ?_⟩
      obtain ⟨hloose, hor⟩ := hleaving t (hheap ▸ ht) hseq
      exact ⟨hloose, hor.imp_left (hkeeps id')⟩
  | inr heq =>
      subst heq
      refine ⟨hactive ▸ hmiss, hcreated ▸ hissued, fun t ht hseq => ?_⟩
      have ht' : s.queue.heap (ofLex id').1 = some t := hheap ▸ ht
      have hloose : (ofLex id').1 ∈ s.loose := by
        by_contra hnot
        have hmem := (hs.queue.owned _ t ht').mpr hnot
        exact hmiss ((hs.queue.active id').mpr ⟨t, ht', hseq, hmem⟩)
      refine ⟨hloose, .inl (hself ?_)⟩
      rw [hs.calling]
      cases hbatch : s.batch with
      | none =>
          rw [loose_none hbatch] at hloose
          cases hloose
      | some b => rfl

/-- handleRead starts with no timer on its way out. -/
theorem Settled.started (hs : s.Settled) (hbatch : s.batch = none) {now : TimeStamp}
    {q' : TimerQueue} (h : Started s.queue q' now) (hid : id ∈ s.spent) :
    Retired { s with queue := q', batch := some ⟨now, s.queue.due now, s.queue.due now⟩ } id := by
  obtain ⟨hidle, hissued, hleaving⟩ := hs.retired id hid
  refine ⟨fun hmem => hidle ?_, h.numCreated ▸ hissued, fun t ht hseq => ?_⟩
  · obtain ⟨t, ht, hseq, hin⟩ := (h.sound.active id).mp hmem
    exact (hs.queue.active id).mpr ⟨t, h.heap ▸ ht, hseq, ((h.timers _).mp hin).1⟩
  · have hin := (hleaving t (h.heap ▸ ht) hseq).1
    rw [loose_none hbatch] at hin
    cases hin

/-- A one-shot timer that ran is deleted when handleRead ends. -/
theorem Settled.called (hs : s.Settled) {now : TimeStamp} {expired remaining : List Entry}
    {e : Entry} {timer : Timer} (hbatch : s.batch = some ⟨now, expired, e :: remaining⟩)
    (ht : s.queue.heap (ofLex e).2 = some timer)
    (hid : id ∈ s.spent ∨ timer.repeats = false ∧ id = toLex ((ofLex e).2, timer.sequence)) :
    Retired { s with
      batch := some ⟨now, expired, remaining⟩
      fired := s.fired ++ [⟨(ofLex e).2, timer, now⟩] } id := by
  have hloose : s.loose = addresses expired := loose_some hbatch
  have hmem : (ofLex e).2 ∈ addresses expired := mem_addresses (hs.next_mem hbatch)
  rcases hid with hold | ⟨hrep, rfl⟩
  · obtain ⟨hidle, hissued, hleaving⟩ := hs.retired id hold
    rw [hloose] at hleaving
    exact ⟨hidle, hissued, hleaving⟩
  · refine ⟨fun hact => ?_, (hs.queue.sequence _ timer ht).2, fun t' ht' _ => ?_⟩
    · obtain ⟨t', ht', -, hin⟩ := (hs.queue.active _).mp hact
      exact (hs.queue.owned _ t' ht').mp hin (hloose ▸ hmem)
    · cases ht.symm.trans ht'
      exact ⟨hmem, .inr hrep⟩

/-- Behind handleRead the timer of a retired id is gone. -/
theorem Settled.finished (hs : s.Settled) {now : TimeStamp} {expired : List Entry}
    {q' : TimerQueue} {fd : TimerFd} (hbatch : s.batch = some ⟨now, expired, []⟩)
    (h : Restarted { s.queue with callingExpiredTimers := false } q' now expired)
    (hid : id ∈ s.spent) :
    Retired { s with queue := { q' with timerfd := fd }, batch := none } id := by
  have hloose : s.loose = addresses expired := loose_some hbatch
  obtain ⟨-, hissued, hleaving⟩ := hs.retired id hid
  -- what was leaving is deleted, and the rest is as before
  have hgone : ∀ t, q'.heap (ofLex id).1 = some t → t.sequence ≠ (ofLex id).2 := by
    intro t ht hseq
    by_cases hin : (ofLex id).1 ∈ addresses expired
    · obtain ⟨t₀, ht₀⟩ := Option.ne_none_iff_exists'.mp ((hs.inside hbatch).allocated _ hin)
      by_cases hk : TimerQueue.Kept s.queue (ofLex id).1 t₀
      · cases (h.kept _ hin t₀ ht₀ hk).symm.trans ht
        have hid' : toLex ((ofLex id).1, t₀.sequence) = id := congrArg toLex (Prod.ext rfl hseq)
        cases (hleaving t₀ ht₀ hseq).2 with
        | inl hcancel => exact hk.2 (hid'.symm ▸ hcancel)
        | inr hrep => exact nomatch hk.1.symm.trans hrep
      · exact nomatch (h.deleted _ hin t₀ ht₀ hk).symm.trans ht
    · have ht₀ : s.queue.heap (ofLex id).1 = some t := (h.others _ hin).symm.trans ht
      exact hin (hloose ▸ (hleaving t ht₀ hseq).1)
  refine ⟨fun hact => ?_, h.numCreated ▸ hissued, fun t ht hseq => absurd hseq (hgone t ht)⟩
  obtain ⟨t, ht, hseq, -⟩ := (h.sound.active id).mp hact
  exact hgone t ht hseq

theorem Effect.settled {call : TimerCall} (hs : s.Settled) (h : Effect s call t) : t.Settled := by
  refine ⟨h.sound hs.toSound, fun id hid => ?_⟩
  cases h with
  | created => exact (hs.retired id hid).created _ _
  | ignored hmiss hissued =>
      refine hs.ignored hmiss hissued ?_
      simp only [spent, List.mem_append, List.mem_singleton] at hid ⊢
      tauto
  | expired =>
      obtain ⟨fd, hfd⟩ := s.expire_queue
      rw [hfd] at hid ⊢
      obtain ⟨hidle, hissued, hleaving⟩ := hs.retired id hid
      exact ⟨hidle, hissued, hleaving⟩
  | started hbatch h => exact hs.started hbatch h hid
  | @called _ _ _ _ timer hbatch ht =>
      refine hs.called hbatch ht ?_
      simp only [spent, List.mem_append, List.filter_append, List.map_append] at hid ⊢
      rcases hid with hid | hid | hid
      · exact .inl (.inl hid)
      · exact .inl (.inr hid)
      · by_cases hrep : timer.repeats = true
        · simp [hrep] at hid
        · rw [Bool.not_eq_true] at hrep
          simp [hrep] at hid
          exact .inr ⟨hrep, hid⟩
  | finished hbatch _ h _ => exact hs.finished hbatch h hid
  | skipped => exact hs.retired id hid

end Effects

/-- Over every run of the loop thread, with new returning free memory and cancel
given ids that were handed out, the two sets agree and no assert fails exactly
when no cancel finds its timer. -/
theorem timer_sets_agree_iff {calls : List TimerCall} (hfresh : Respects exec Fresh new calls) :
    ((∀ e, run exec new calls = .error e → e = .overflow) ∧ Always exec Agrees new calls) ↔
      Respects exec CancelMisses new calls := by
  refine safe_iff_respects (fun s hs => hs.agrees) (fun s call hs hfresh hmiss => ?_)
    (fun s call hs _ hhit => ?_) new_settled hfresh
  · rcases exec_outcome hs.toSound hfresh hmiss with ⟨t, ht, heffect⟩ | ⟨herror, -⟩
    · exact .inl ⟨t, ht, heffect.settled hs⟩
    · exact .inr ⟨.overflow, herror, rfl⟩
  cases call with
  | cancel id =>
      refine ⟨.assertion .cancelSizesAfter, ?_, nofun⟩
      rw [exec, cancelInLoop_hit hs.queue (not_not.mp hhit)]
      rfl
  | _ => exact absurd trivial hhit

/-- A timer that is cancelled by its own callback and once more after that. -/
theorem timer_sets_agree_iff_own_cancel :
    let calls : List TimerCall := [.addTimer 1 10 Seconds.zero 5, .expire, .handleRead 20,
      .callBack, .cancel (toLex (1, 1)), .finish 21, .cancel (toLex (1, 1))]
    (∀ e, run exec new calls = .error e → e = .overflow) ∧ Always exec Agrees new calls :=
  (timer_sets_agree_iff (by decide +kernel)).mpr (by decide +kernel)

theorem timer_sets_differ_after_cancel :
    let calls : List TimerCall := [.addTimer 1 10 Seconds.zero 5, .cancel (toLex (1, 1))]
    Respects exec Fresh new calls ∧
      run exec new calls = .error (.assertion .cancelSizesAfter) :=
  ⟨by decide +kernel, faultOf_eq_some.mp (by decide +kernel)⟩

end TimerLoop
end TAlib
