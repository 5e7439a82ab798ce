import Mathlib.Data.List.TakeWhile
import TAlib.Logger.Conservation

/-!
What a call of stop() leaves behind. The while loop of threadRoutine tests
m_isRunning before it looks at the buffers, so what was appended after the last
swap is written only by a thread that has passed the test and not yet swapped
when stop() clears the flag; and a thread that has not begun by then fails its
first assert.
-/

namespace TAlib

open Foundation LogBuffer

/-- The lines of the calls of append that were over when stop() was called. -/
def linesBeforeStop (steps : List LogStep) : List Bytes :=
  linesOf (steps.takeWhile (· ≠ .stop))

namespace Logging

/-- The first assert of threadRoutine holds, and when stop() has returned the
lines appended before it was called are written. -/
def LosesNothing (steps : List LogStep) : Prop :=
  Avoids (.assertion .threadRoutineRunning) (run exec started steps) ∧
    ∀ t, run exec started steps = .ok t → t.stopPoint = .returned →
      (linesBeforeStop steps).flatten <+: t.output

/-- The run does not end before stop() has returned, unless it faults. -/
def Finished (steps : List LogStep) : Prop :=
  ∀ t, run exec started steps = .ok t → t.stopPoint = .returned

/-- The thread has begun, and either it is about to swap the buffers or these
bytes are out of them. -/
def InTime (due : Bytes) (s : Logging) : Prop :=
  s.routine.point ≠ .entry ∧ (s.routine.point.waits = true ∨ due <+: s.taken)

/-- Until stop() is called the lines are short enough for a buffer, and stop()
clears the flag in time. -/
def StopsInTime (due : Bytes) (s : Logging) : LogStep → Prop
  | .append line => s.stopPoint = .notCalled → line.length < kLargeBuffer
  | .routine => True
  | .stop => s.stopPoint = .clearing → InTime due s

instance (due : Bytes) (s : Logging) : Decidable (InTime due s) :=
  inferInstanceAs (Decidable (_ ∧ (_ ∨ _)))

instance (due : Bytes) (s : Logging) : (step : LogStep) → Decidable (StopsInTime due s step)
  | .append line => inferInstanceAs (Decidable (_ → line.length < _))
  | .routine => inferInstanceAs (Decidable True)
  | .stop => inferInstanceAs (Decidable (_ → InTime due s))

/-- What every step of a sound state keeps. -/
structure Follows (s : Logging) (step : LogStep) (t : Logging) : Prop where
  sound : t.Sound
  stream : s.stream <+: t.stream
  called : s.stopPoint ≠ .notCalled → t.stopPoint ≠ .notCalled
  stays : s.logger.isRunning = false → t.logger.isRunning = false
  clears : s.logger.isRunning = true → t.logger.isRunning = false →
    step = .stop ∧ s.stopPoint = .clearing
  inTime : t.logger.isRunning = false → ∀ due, due <+: s.stream → (InTime due t ↔ InTime due s)

theorem Follows.refl {s : Logging} (hs : s.Sound) (step : LogStep) : Follows s step s :=
  ⟨hs, List.prefix_rfl, id, id, fun h h' => (nomatch h.symm.trans h'), fun _ _ _ => Iff.rfl⟩

/-- Once the flag is cleared, a step of the thread decides nothing any more. -/
theorem Moves.follows {s t : Logging} (h : Moves s t)
    (hentry : s.routine.point = .entry → s.logger.isRunning = true) : Follows s .routine t where
  sound := h.sound
  stream := h.stream ▸ List.prefix_rfl
  called := by rw [h.stopPoint]; exact id
  stays := by rw [h.isRunning]; exact id
  clears := fun hs ht => absurd ((h.isRunning.symm.trans ht).symm.trans hs) Bool.false_ne_true
  inTime := by
    intro hstopped due hdue
    rw [h.isRunning] at hstopped
    constructor
    · intro ht
      refine ⟨fun hs => absurd (hstopped.symm.trans (hentry hs)) Bool.false_ne_true, ?_⟩
      cases ht.2 with
      | inl hwaits =>
          refine .inl ((h.enters hwaits).resolve_right fun hs => ?_)
          exact Bool.false_ne_true (hstopped.symm.trans hs)
      | inr htaken =>
          cases h.taken with
          | inl hsame => exact .inr (hsame ▸ htaken)
          | inr hswap => exact .inl hswap.1
    · intro hs
      refine ⟨h.begun, ?_⟩
      cases hs.2 with
      | inl hwaits =>
          cases h.leaves hwaits with
          | inl hstill => exact .inl hstill
          | inr hall => exact .inr (hall ▸ hdue)
      | inr htaken =>
          cases h.taken with
          | inl hsame => exact .inr (hsame ▸ htaken)
          | inr hswap => exact .inr (hswap.2 ▸ hdue)

/-- A step from a sound state returns, unless it is the first step of a thread
that begins too late. -/
theorem exec_cases {s : Logging} (hs : s.Sound) (step : LogStep) :
    (∃ t, s.exec step = .ok t ∧ Follows s step t) ∨
      s.exec step = .error (.assertion .threadRoutineRunning) ∧ s.routine.point = .entry ∧
        s.logger.isRunning = false := by
  cases step with
  | append line =>
      obtain ⟨a, ha, hsound, hrunning, hstream⟩ := append_step_ok hs line
      refine .inl ⟨_, ha, hsound, ?_, id, fun h => hrunning.trans h, fun h h' => ?_,
        fun _ _ _ => Iff.rfl⟩
      · simp only [stream_eq, hstream, ← List.append_assoc]
        exact List.prefix_append _ _
      · cases h.symm.trans (hrunning.symm.trans h')
  | routine =>
      by_cases hlate : s.routine.point = .entry ∧ s.logger.isRunning = false
      · refine .inr ⟨?_, hlate⟩
        have hfalse : ¬ s.logger.isRunning = true := Bool.eq_false_iff.mp hlate.2
        simp only [exec, routineStep, hlate.1, require_of_false hfalse]
        rfl
      · have hentry : s.routine.point = .entry → s.logger.isRunning = true := fun h =>
          Bool.of_not_eq_false fun h' => hlate ⟨h, h'⟩
        obtain ⟨t, ht, hmoves⟩ := routineStep_moves hs hentry
        cases hmoves with
        | inl hmoves => exact .inl ⟨t, ht, hmoves.follows hentry⟩
        | inr hsame =>
            rw [hsame.1] at ht
            exact .inl ⟨s, ht, .refl hs _⟩
  | stop =>
      obtain ⟨t, ht, hsound, houtput, hroutine, hlogger⟩ := stopStep_ok hs
      have htaken : t.taken = s.taken := by rw [taken, houtput, hroutine, taken]
      have hpoints : s.stopPoint ≠ .notCalled → t.stopPoint ≠ .notCalled ∧
          (s.stopPoint ≠ .clearing → t.stopPoint ≠ .clearing) := by
        intro hcalled
        cases hpoint : s.stopPoint with
        | notCalled => exact absurd hpoint hcalled
        | clearing | notifying | returned =>
            simp only [stopStep, hpoint] at ht
            cases ht
            simp [hpoint]
        | joining =>
            simp only [stopStep, hpoint, bind_eq_ok] at ht
            obtain ⟨-, -, -, -, ht⟩ := ht
            cases ht
            simp
        | joined =>
            simp only [stopStep, hpoint] at ht
            split at ht
            · cases ht
              simp
            · cases ht
              simp [hpoint]
      have hfirst : s.stopPoint = .notCalled → t.stopPoint = .clearing := by
        intro hpoint
        simp only [stopStep, hpoint] at ht
        cases ht
        rfl
      refine .inl ⟨t, ht, hsound, ?_, fun h => (hpoints h).1, fun h => ?_, fun h h' => ⟨rfl, ?_⟩,
        fun _ due _ => ?_⟩
      · have hstream : t.stream = s.stream := by rw [stream_eq, stream_eq, htaken, hlogger]
        exact hstream ▸ List.prefix_rfl
      · have hs' := mt hs.running.mpr (Bool.eq_false_iff.mp h)
        rw [not_or] at hs'
        refine Bool.eq_false_iff.mpr fun htrue => ?_
        cases hsound.running.mp htrue with
        | inl hpoint => exact (hpoints hs'.1).1 hpoint
        | inr hpoint => exact (hpoints hs'.1).2 hs'.2 hpoint
      · refine (hs.running.mp h).resolve_left fun hpoint => ?_
        have htrue := hsound.running.mpr (.inr (hfirst hpoint))
        cases htrue.symm.trans h'
      · rw [InTime, InTime, hroutine, htaken]

/-- In the call of stop(), with the lines it finds: the flag is still set, or it
was cleared in time. -/
structure Safe (due : Bytes) (s : Logging) : Prop where
  sound : s.Sound
  called : s.stopPoint ≠ .notCalled
  appended : due <+: s.stream
  inTime : s.logger.isRunning = false → s.InTime due

/-- In the call of stop(), which cleared the flag too late. -/
structure Late (due : Bytes) (s : Logging) : Prop where
  sound : s.Sound
  appended : due <+: s.stream
  stopped : s.logger.isRunning = false
  late : ¬ s.InTime due

theorem Safe.begun {due : Bytes} {s : Logging} (h : s.Safe due) :
    s.routine.point = .entry → s.logger.isRunning = true :=
  fun hentry => Bool.of_not_eq_false fun hstopped => (h.inTime hstopped).1 hentry

theorem follows_of_ok {s t : Logging} (hs : s.Sound) {step : LogStep}
    (h : s.exec step = .ok t) : Follows s step t := by
  cases exec_cases hs step with
  | inl hok =>
      obtain ⟨t', ht', hfollows⟩ := hok
      cases Except.ok.inj (ht'.symm.trans h)
      exact hfollows
  | inr hbad => exact nomatch hbad.1.symm.trans h

theorem safe_step {due : Bytes} {s t : Logging} {step : LogStep} (hs : s.Safe due)
    (hpre : StopsInTime due s step) (h : s.exec step = .ok t) : t.Safe due := by
  have hf := follows_of_ok hs.sound h
  refine ⟨hf.sound, hf.called hs.called, hs.appended.trans hf.stream, fun hstopped => ?_⟩
  rw [hf.inTime hstopped due hs.appended]
  by_cases hrunning : s.logger.isRunning = true
  · obtain ⟨rfl, hclearing⟩ := hf.clears hrunning hstopped
    exact hpre hclearing
  · exact hs.inTime (Bool.eq_false_iff.mpr hrunning)

theorem late_step {due : Bytes} {s t : Logging} {step : LogStep} (hs : s.Late due)
    (h : s.exec step = .ok t) : t.Late due := by
  have hf := follows_of_ok hs.sound h
  have hstopped := hf.stays hs.stopped
  refine ⟨hf.sound, hs.appended.trans hf.stream, hstopped, ?_⟩
  rw [hf.inTime hstopped due hs.appended]
  exact hs.late

theorem safe_to_late {due : Bytes} {s t : Logging} {step : LogStep} (hs : s.Safe due)
    (hpre : ¬ StopsInTime due s step) (h : s.exec step = .ok t) : t.Late due := by
  have hf := follows_of_ok hs.sound h
  cases step with
  | append line => exact absurd (fun hcalled => absurd hcalled hs.called) hpre
  | routine => exact absurd trivial hpre
  | stop =>
      obtain ⟨hclearing, hlate⟩ := Classical.not_imp.mp hpre
      have hstopped : t.logger.isRunning = false := by
        simp only [exec, stopStep, hclearing] at h
        cases h
        rfl
      refine ⟨hf.sound, hs.appended.trans hf.stream, hstopped, ?_⟩
      rw [hf.inTime hstopped due hs.appended]
      exact hlate

/-- After stop() has returned the thread writes nothing any more. -/
theorem output_of_returned {s : Logging} (hs : s.Sound) (hreturned : s.stopPoint = .returned) :
    s.routine.point.waits = false ∧ s.routine.point ≠ .entry ∧ s.taken = s.output := by
  have hended := hs.ended hreturned
  refine ⟨by rw [hended]; rfl, by rw [hended]; nofun, ?_⟩
  simp only [taken, ThreadRoutine.pending, hended, contents_nil, List.append_nil]

theorem Safe.written {due : Bytes} {s : Logging} (h : s.Safe due)
    (hreturned : s.stopPoint = .returned) : due <+: s.output := by
  obtain ⟨hwaits, -, htaken⟩ := output_of_returned h.sound hreturned
  have hstopped : s.logger.isRunning = false := Bool.eq_false_iff.mpr fun hrunning => by
    have hpoint := h.sound.running.mp hrunning
    rw [hreturned] at hpoint
    cases hpoint with
    | inl hnot => cases hnot
    | inr hclearing => cases hclearing
  have hin := (h.inTime hstopped).2
  rw [hwaits, htaken] at hin
  exact hin.resolve_left Bool.false_ne_true

theorem Late.unwritten {due : Bytes} {s : Logging} (h : s.Late due)
    (hreturned : s.stopPoint = .returned) : ¬ due <+: s.output := by
  obtain ⟨-, hbegun, htaken⟩ := output_of_returned h.sound hreturned
  exact fun hwritten => h.late ⟨hbegun, .inr (htaken ▸ hwritten)⟩

/-- A run from a sound state faults at the first assert of the thread only. -/
theorem run_fault {s : Logging} (hs : s.Sound) (steps : List LogStep) :
    (∃ t, run exec s steps = .ok t) ∨
      run exec s steps = .error (.assertion .threadRoutineRunning) := by
  induction steps generalizing s with
  | nil => exact .inl ⟨s, rfl⟩
  | cons step steps ih =>
      cases exec_cases hs step with
      | inl hok =>
          obtain ⟨m, hm, hf⟩ := hok
          simp only [run, hm, ok_bind]
          exact ih hf.sound
      | inr hbad =>
          refine .inr ?_
          simp only [run, hbad.1]
          rfl

/-- Before stop() is called, admitted lines are the short ones. -/
theorem short_of_respects {due : Bytes} {s : Logging} (hs : s.Sound)
    (hcalled : s.stopPoint = .notCalled) {steps : List LogStep} (hsteps : .stop ∉ steps)
    (h : Respects exec (StopsInTime due) s steps) :
    ∀ line ∈ linesOf steps, line.length < kLargeBuffer := by
  induction steps generalizing s with
  | nil => nofun
  | cons step steps ih =>
      have hfirst : ∀ line ∈ linesOf [step], line.length < kLargeBuffer := by
        intro line hline
        cases step with
        | append line' =>
            cases List.mem_singleton.mp hline
            exact h.1 hcalled
        | routine | stop => exact nomatch hline
      obtain ⟨m, hm, hsound, hpoint, -⟩ := exec_running hs hcalled
        (fun heq => hsteps (heq ▸ List.mem_cons_self)) hfirst
      intro line hline
      rw [show linesOf (step :: steps) = linesOf [step] ++ linesOf steps from
        linesOf_append [step] steps] at hline
      cases List.mem_append.mp hline with
      | inl hline => exact hfirst line hline
      | inr hline =>
          exact ih hsound hpoint (fun hmem => hsteps (List.mem_cons_of_mem _ hmem)) (h.2 m hm) line
            hline

/-- The steps up to the call of stop(), and those from it on. -/
theorem split_at_stop (steps : List LogStep) :
    ∃ before after, .stop ∉ before ∧ linesBeforeStop steps = linesOf before ∧
      (steps = before ∨ steps = before ++ .stop :: after) := by
  refine ⟨steps.takeWhile (· ≠ .stop), (steps.dropWhile (· ≠ .stop)).tail, fun hmem => ?_, rfl, ?_⟩
  · simpa using List.mem_takeWhile_imp hmem
  · have hsplit : steps.takeWhile (· ≠ .stop) ++ steps.dropWhile (· ≠ .stop) = steps :=
      List.takeWhile_append_dropWhile
    cases hrest : steps.dropWhile (· ≠ .stop) with
    | nil =>
        rw [hrest, List.append_nil] at hsplit
        exact .inl hsplit.symm
    | cons step rest =>
        have hne : steps.dropWhile (· ≠ .stop) ≠ [] := by rw [hrest]; nofun
        have hstop : step = .stop := by
          have hhead := List.head_dropWhile_not _ hne
          simp only [hrest, List.head_cons] at hhead
          simpa using hhead
        rw [hrest, hstop] at hsplit
        exact .inr hsplit.symm

/-- The call of stop() itself. -/
theorem call_stop {s : Logging} (hs : s.Sound) (hcalled : s.stopPoint = .notCalled) :
    ∃ t, s.exec .stop = .ok t ∧ Safe s.stream t := by
  have hstep : s.exec .stop = .ok { s with stopPoint := .clearing } := by
    simp only [exec, stopStep, hcalled]
  have hf := follows_of_ok hs hstep
  refine ⟨_, hstep, hf.sound, by simp, hf.stream, fun hstopped => ?_⟩
  cases (hs.running.mpr (.inl hcalled)).symm.trans hstopped

theorem not_returned {s : Logging} (h : s.stopPoint = .notCalled) : s.stopPoint ≠ .returned :=
  fun h' => nomatch h.symm.trans h'

/-- The flag cleared in time is enough in every run; in a run that ends with the
return of stop() nothing else will do. -/
theorem shutdown_loses_nothing_iff (steps : List LogStep) :
    (Respects exec (StopsInTime (linesBeforeStop steps).flatten) started steps →
        LosesNothing steps) ∧
      ((∀ line ∈ linesBeforeStop steps, line.length < kLargeBuffer) → Finished steps →
        LosesNothing steps →
          Respects exec (StopsInTime (linesBeforeStop steps).flatten) started steps) := by
  obtain ⟨before, after, hbefore, hlines, hsteps⟩ := split_at_stop steps
  rw [LosesNothing, hlines]
  constructor
  · intro h
    have hintime : Respects exec (StopsInTime (linesOf before).flatten) started before := by
      cases hsteps with
      | inl heq => exact heq ▸ h
      | inr heq => exact (heq ▸ h : Respects _ _ _ (before ++ _)).initial
    have hshort := short_of_respects started_sound rfl hbefore hintime
    obtain ⟨m, hm, hsound, hcalled, hstream⟩ := run_running started_sound rfl hbefore hshort
    cases hsteps with
    | inl heq =>
        rw [heq, hm]
        refine ⟨.ok _ _, fun t ht hreturned => ?_⟩
        cases ht
        exact absurd hreturned (not_returned hcalled)
    | inr heq =>
        obtain ⟨m', hm', hsafe⟩ := call_stop hsound hcalled
        have hcall : Respects exec _ m (.stop :: after) :=
          (heq ▸ h : Respects _ _ _ (before ++ _)).suffix hm
        have hrest := hcall.2 m' hm'
        rw [hstream] at hsafe
        rw [heq, run_append_of_ok hm]
        simp only [run, hm', ok_bind]
        constructor
        · refine run_avoids_of_invariant (fun s a t hs => safe_step hs) (fun s a hs _ => ?_) hsafe
            hrest
          cases exec_cases hs.sound a with
          | inl hok =>
              obtain ⟨t, ht, -⟩ := hok
              rw [ht]
              exact .ok _ _
          | inr hbad => cases (hs.begun hbad.2.1).symm.trans hbad.2.2
        · intro t ht
          exact (run_invariant (fun s a t hs => safe_step hs) hsafe hrest ht).written
  · intro hshort hfinished hnothing
    obtain ⟨m, hm, hsound, hcalled, hstream⟩ := run_running started_sound rfl hbefore hshort
    cases hsteps with
    | inl heq => exact absurd (hfinished m (heq ▸ hm)) (not_returned hcalled)
    | inr heq =>
        obtain ⟨m', hm', hsafe⟩ := call_stop hsound hcalled
        rw [hstream] at hsafe
        obtain ⟨t, ht⟩ := (run_fault started_sound steps).resolve_right hnothing.1
        have hreturned := hfinished t ht
        rw [heq, run_append_of_ok hm] at ht
        obtain ⟨m'', hm'', hrun⟩ := run_cons_ok.mp ht
        cases Except.ok.inj (hm'.symm.trans hm'')
        have hrest : Respects exec (StopsInTime (linesOf before).flatten) m' after := by
          have hends := run_good_or_bad (fun s a t hs => safe_step hs)
            (fun s a t hs => safe_to_late hs) (fun s a t hs => late_step hs) hsafe hrun
          cases hends with
          | inl hgood => exact hgood.1
          | inr hbad =>
              refine absurd ?_ (hbad.2.unwritten hreturned)
              exact hnothing.2 t (by rw [heq, run_append_of_ok hm]; exact ht) hreturned
        rw [heq]
        refine Respects.append (respects_of_forall (fun step hmem s => ?_) _) fun n hn => ?_
        · cases step with
          | append line =>
              exact fun _ => hshort line (List.mem_filterMap.mpr ⟨_, hmem, rfl⟩)
          | routine => trivial
          | stop => exact absurd hmem hbefore
        · cases Except.ok.inj (hn.symm.trans hm)
          refine ⟨fun hclearing => ?_, fun n' hn' => ?_⟩
          · cases hcalled.symm.trans hclearing
          · cases Except.ok.inj (hn'.symm.trans hm')
            exact hrest

/-- A line is appended while the thread is about to take m_mutex, and the flag is cleared
before it has it. -/
def stopInTime : List LogStep :=
  List.replicate 2 .routine ++ [.append [97, 10]] ++ List.replicate 3 .stop ++
    List.replicate 6 .routine ++ List.replicate 3 .stop

theorem shutdown_loses_nothing_iff_in_time :
    ∃ t, run exec started stopInTime = .ok t ∧ t.stopPoint = .returned ∧
      LosesNothing stopInTime ∧ [97, 10] <+: t.output := by
  have hintime : Respects exec (StopsInTime [97, 10]) started stopInTime := by decide +kernel
  have hnothing := (shutdown_loses_nothing_iff stopInTime).1 hintime
  obtain ⟨t, ht, hreturned⟩ := resultHolds_iff.mp
    (show resultHolds (fun t : Logging => t.stopPoint = .returned)
      (run exec started stopInTime) = true by decide +kernel)
  exact ⟨t, ht, hreturned, hnothing, hnothing.2 t ht hreturned⟩

/-- A thread that has not begun fails its assert; one that is writing when the
flag is cleared never looks at the line appended meanwhile. -/
theorem shutdown_loses_line :
    ¬ LosesNothing [.stop, .stop, .routine] ∧
      ¬ LosesNothing (List.replicate 6 .routine ++ [.append [97, 10]] ++ List.replicate 4 .stop ++
        [.routine, .routine, .stop]) := by
  constructor
  · intro h
    exact h.1 rfl
  · intro h
    have hlost : resultHolds (fun t : Logging => t.stopPoint = .returned ∧ t.output = [])
        (run exec started (List.replicate 6 .routine ++ [.append [97, 10]] ++
          List.replicate 4 .stop ++ [.routine, .routine, .stop])) = true := by
      decide +kernel
    obtain ⟨t, ht, hreturned, houtput⟩ := resultHolds_iff.mp hlost
    have hwritten := h.2 t ht hreturned
    rw [houtput] at hwritten
    exact nomatch List.prefix_nil.mp hwritten

end Logging
end TAlib
