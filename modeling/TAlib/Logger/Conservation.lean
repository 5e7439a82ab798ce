import TAlib.Logger.AsyncLogging

/-!
No log line is lost, doubled or moved while the logger runs. What keeps the
thread supplied with empty buffers is that m_nextBuffer is missing only when
a producer took it, and that producer left a full buffer in m_buffers.
-/

namespace TAlib

open Foundation LogBuffer

namespace AsyncLogging

/-- The bytes that wait in the shared buffers. -/
def stream (a : AsyncLogging) : Bytes := contents a.buffers ++ dataOf a.currentBuffer

structure Ready (a : AsyncLogging) : Prop where
  current : a.currentBuffer ≠ none
  clean : ∀ b ∈ a.nextBuffer, b.data = []
  left : a.nextBuffer = none → a.buffers ≠ []

/-- What append keeps of a line. -/
def kept (line : Bytes) : Bytes := if line.length < kLargeBuffer then line else []

theorem append_ok {a : AsyncLogging} (h : a.Ready) (line : Bytes) :
    ∃ a', a.append line = .ok a' ∧ a'.Ready ∧ a'.isRunning = a.isRunning ∧
      a'.stream = a.stream ++ kept line := by
  obtain ⟨current, hcurrent⟩ := Option.ne_none_iff_exists'.mp h.current
  by_cases hfits : current.avail > line.length
  · have hshort : line.length < kLargeBuffer := Nat.lt_of_lt_of_le hfits (Nat.sub_le _ _)
    refine ⟨{ a with currentBuffer := some (current.append line) }, ?_, ⟨nofun, h.clean, h.left⟩,
      rfl, ?_⟩
    · simp only [append, hcurrent, if_pos hfits]
    · simp only [stream, hcurrent, dataOf, append_data hfits, kept, if_pos hshort,
        List.append_assoc]
  · have hclean : (a.nextBuffer.getD LogBuffer.new).data = [] := by
      cases hnext : a.nextBuffer with
      | none => rfl
      | some b => exact h.clean b hnext
    refine ⟨{ a with
        buffers := a.buffers ++ [current]
        nextBuffer := none
        currentBuffer := some ((a.nextBuffer.getD LogBuffer.new).append line) },
      ?_, ⟨nofun, nofun, fun _ => List.append_ne_nil_of_right_ne_nil _ nofun⟩, rfl, ?_⟩
    · simp only [append, hcurrent, if_neg hfits]
      rfl
    · simp only [stream, hcurrent, dataOf, append_data_of_empty hclean, kept, contents_append,
        contents_cons, contents_nil, List.append_nil]

end AsyncLogging

/-- Between the swap and the end of the recycling. -/
def RoutinePoint.busy : RoutinePoint → Bool
  | .write _ | .recycle => true
  | _ => false

/-- Past the condition of the while loop and before the swap. -/
def RoutinePoint.waits : RoutinePoint → Bool
  | .lock | .wait => true
  | _ => false

namespace ThreadRoutine

/-- The buffers of buffersToWrite that are not written yet. -/
def pending (r : ThreadRoutine) : PtrVector (LogBuffer kLargeBuffer) :=
  match r.point with
  | .write i => r.buffersToWrite.drop i
  | _ => []

structure Stocked (r : ThreadRoutine) : Prop where
  clean1 : ∀ b ∈ r.backupBuffer1, b.data = []
  clean2 : ∀ b ∈ r.backupBuffer2, b.data = []
  resting : r.point.busy = false →
    r.backupBuffer1 ≠ none ∧ r.backupBuffer2 ≠ none ∧ r.buffersToWrite = []
  working : r.point.busy = true → r.backupBuffer1 = none ∧ r.buffersToWrite ≠ [] ∧
    (r.backupBuffer2 = none → 2 ≤ r.buffersToWrite.length)

theorem Stocked.setPoint {r : ThreadRoutine} (h : r.Stocked) {point : RoutinePoint}
    (hbusy : point.busy = r.point.busy) : Stocked { r with point := point } :=
  ⟨h.clean1, h.clean2, fun hp => h.resting (hbusy ▸ hp), fun hp => h.working (hbusy ▸ hp)⟩

end ThreadRoutine

namespace Logging

/-- Everything that was appended, in the order in which it is written: what was
passed to output.append, and what still waits for it. -/
def stream (s : Logging) : Bytes :=
  s.output ++ contents s.routine.pending ++ contents s.logger.buffers ++
    dataOf s.logger.currentBuffer

/-- What no longer waits in the shared buffers. -/
def taken (s : Logging) : Bytes := s.output ++ contents s.routine.pending

/-- The buffers that are kept to be filled later. -/
def spares (s : Logging) : List (LogBuffer kLargeBuffer) :=
  s.logger.nextBuffer.toList ++ s.routine.backupBuffer1.toList ++ s.routine.backupBuffer2.toList

structure Sound (s : Logging) : Prop where
  logger : s.logger.Ready
  routine : s.routine.Stocked
  isStarted : s.isStarted = true
  joins : s.stopPoint ≠ .joined → s.stopPoint ≠ .returned → s.isJoined = false
  running : s.logger.isRunning = true ↔ s.stopPoint = .notCalled ∨ s.stopPoint = .clearing
  ended : s.stopPoint = .returned → s.routine.point = .ended

theorem stream_eq (s : Logging) : s.stream = s.taken ++ s.logger.stream := by
  simp only [stream, taken, AsyncLogging.stream, List.append_assoc]

theorem swap_ok {s : Logging} (ha : s.logger.Ready) (hr : s.routine.Stocked)
    (hresting : s.routine.point.busy = false) :
    ∃ a r, s.swap = .ok { s with logger := a, routine := r } ∧ a.Ready ∧ r.Stocked ∧
      a.isRunning = s.logger.isRunning ∧ r.point = .write 0 ∧
      contents r.buffersToWrite = s.logger.stream ∧ a.stream = [] := by
  obtain ⟨current, hcurrent⟩ := Option.ne_none_iff_exists'.mp ha.current
  obtain ⟨hone, htwo, hempty⟩ := hr.resting hresting
  have hfilled : s.logger.buffers ++ [current] ≠ [] := List.append_ne_nil_of_right_ne_nil _ nofun
  have hwritten : contents (s.logger.buffers ++ [current]) = s.logger.stream := by
    simp only [AsyncLogging.stream, hcurrent, dataOf, contents_append, contents_cons, contents_nil,
      List.append_nil]
  have hnothing : dataOf s.routine.backupBuffer1 = [] := by
    cases hbackup : s.routine.backupBuffer1 with
    | none => rfl
    | some b => exact hr.clean1 b hbackup
  by_cases hnext : s.logger.nextBuffer = none
  · refine ⟨{ s.logger with
        currentBuffer := s.routine.backupBuffer1
        nextBuffer := s.routine.backupBuffer2
        buffers := s.routine.buffersToWrite },
      ⟨.write 0, none, none, s.logger.buffers ++ [current]⟩, ?_, ?_, ?_, rfl, rfl, hwritten, ?_⟩
    · simp only [swap, hcurrent, PtrVector.pushBack, ok_bind, if_pos hnext, require_of_true hfilled]
      rfl
    · exact ⟨hone, hr.clean2, fun h => absurd h htwo⟩
    · refine ⟨nofun, nofun, nofun, fun _ => ⟨rfl, hfilled, fun _ => ?_⟩⟩
      rw [List.length_append]
      exact Nat.succ_le_succ (List.length_pos_iff.mpr (ha.left hnext))
    · simp only [AsyncLogging.stream, hempty, contents_nil, hnothing, List.append_nil]
  · refine ⟨{ s.logger with
        currentBuffer := s.routine.backupBuffer1
        buffers := s.routine.buffersToWrite },
      ⟨.write 0, none, s.routine.backupBuffer2, s.logger.buffers ++ [current]⟩, ?_, ?_, ?_, rfl,
      rfl, hwritten, ?_⟩
    · simp only [swap, hcurrent, PtrVector.pushBack, ok_bind, if_neg hnext, require_of_true hfilled]
      rfl
    · exact ⟨hone, ha.clean, fun h => absurd h hnext⟩
    · exact ⟨nofun, hr.clean2, nofun, fun _ => ⟨rfl, hfilled, fun h => absurd h htwo⟩⟩
    · simp only [AsyncLogging.stream, hempty, contents_nil, hnothing, List.append_nil]

theorem refill_ok {backup : Option (LogBuffer kLargeBuffer)}
    {v : PtrVector (LogBuffer kLargeBuffer)} (source : Assertion)
    (hclean : ∀ b ∈ backup, b.data = []) (hv : backup = none → v ≠ []) :
    ∃ b, refill backup v source = .ok (some b, if backup = none then v.dropLast else v) ∧
      b.data = [] := by
  cases backup with
  | some b => exact ⟨b, rfl, hclean b rfl⟩
  | none =>
      obtain ⟨b, hpop⟩ := PtrVector.popBack_ok (hv rfl)
      refine ⟨b.reset, ?_, rfl⟩
      simp only [refill, require_of_true (hv rfl), hpop, ok_bind]
      rfl

theorem trim_ok (v : PtrVector (LogBuffer kLargeBuffer)) :
    ∃ v', trim v = .ok v' ∧ v'.length = min v.length 2 := by
  by_cases hlong : v.length > 2
  · refine ⟨v.take 2, ?_, ?_⟩
    · rw [trim, if_pos hlong, PtrVector.resize_of_lt hlong]
    · rw [List.length_take, Nat.min_comm]
  · exact ⟨v, if_neg hlong, by omega⟩

theorem recycle_ok {r : ThreadRoutine} (h : r.Stocked) (hbusy : r.point.busy = true) :
    ∃ r', recycle r = .ok r' ∧ r'.Stocked ∧ r'.point = .test := by
  obtain ⟨hone, hfilled, htwo⟩ := h.working hbusy
  obtain ⟨v, hv, hlen⟩ := trim_ok r.buffersToWrite
  have hpos := List.length_pos_iff.mpr hfilled
  have hne : v ≠ [] := List.length_pos_iff.mp (by omega)
  obtain ⟨b, hb, hclean⟩ := refill_ok (v := v) .backupBuffer1Source h.clean1 fun _ => hne
  rw [if_pos hone] at hb
  obtain ⟨b', hb', hclean'⟩ := refill_ok (v := v.dropLast) .backupBuffer2Source h.clean2
    fun hnone => by
      have := htwo hnone
      refine List.length_pos_iff.mp ?_
      rw [List.length_dropLast]
      omega
  refine ⟨⟨.test, some b, some b', []⟩, ?_, ⟨?_, ?_, fun _ => ⟨nofun, nofun, rfl⟩, nofun⟩, rfl⟩
  · simp only [recycle, hv, hb, hb', ok_bind]
    rfl
  · rintro _ ⟨⟩
    exact hclean
  · rintro _ ⟨⟩
    exact hclean'

/-- What a step of threadRoutine does to the whole. -/
structure Moves (s t : Logging) : Prop where
  sound : t.Sound
  stream : t.stream = s.stream
  stopPoint : t.stopPoint = s.stopPoint
  isRunning : t.logger.isRunning = s.logger.isRunning
  begun : t.routine.point ≠ .entry
  taken : t.taken = s.taken ∨ s.routine.point.waits = true ∧ t.taken = s.stream
  leaves : s.routine.point.waits = true → t.routine.point.waits = true ∨ t.taken = s.stream
  enters : t.routine.point.waits = true →
    s.routine.point.waits = true ∨ s.logger.isRunning = true

theorem setPoint_moves {s : Logging} (hs : s.Sound) (hlive : s.routine.point ≠ .ended)
    {point : RoutinePoint} (hbusy : point.busy = s.routine.point.busy)
    (hpending : (s.setPoint point).routine.pending = s.routine.pending) (hbegun : point ≠ .entry)
    (hleaves : s.routine.point.waits = true → point.waits = true)
    (henters : point.waits = true → s.routine.point.waits = true ∨ s.logger.isRunning = true) :
    Moves s (s.setPoint point) where
  sound := ⟨hs.logger, hs.routine.setPoint hbusy, hs.isStarted, hs.joins, hs.running,
    fun h => absurd (hs.ended h) hlive⟩
  stream := by simp only [Logging.stream, hpending]; rfl
  stopPoint := rfl
  isRunning := rfl
  begun := hbegun
  taken := .inl (by simp only [Logging.taken, hpending]; rfl)
  leaves := fun h => .inl (hleaves h)
  enters := henters

theorem swap_moves {s : Logging} (hs : s.Sound) (hwaits : s.routine.point.waits = true) :
    ∃ t, s.swap = .ok t ∧ Moves s t := by
  have hresting : s.routine.point.busy = false ∧ s.routine.pending = [] ∧
      s.routine.point ≠ .ended := by
    cases hpoint : s.routine.point with
    | lock | wait => exact ⟨rfl, by rw [ThreadRoutine.pending, hpoint], nofun⟩
    | entry | test | write _ | recycle | ended => exact nomatch hpoint ▸ hwaits
  obtain ⟨a, r, hswap, hready, hstocked, hrunning, hfirst, htaken, hleft⟩ :=
    swap_ok hs.logger hs.routine hresting.1
  have hall : r.pending = r.buffersToWrite := by
    rw [ThreadRoutine.pending, hfirst]
    rfl
  have hstream : s.output ++ contents r.pending = s.stream := by
    rw [hall, htaken, stream_eq, taken, hresting.2.1, contents_nil, List.append_nil]
  refine ⟨_, hswap, ⟨⟨hready, hstocked, hs.isStarted, hs.joins, ?_, fun h => absurd (hs.ended h)
    hresting.2.2⟩, ?_, rfl, hrunning, ?_, .inr ⟨hwaits, hstream⟩, fun _ => .inr hstream,
    fun _ => .inl hwaits⟩⟩
  · rw [hrunning]
    exact hs.running
  · rw [stream_eq, hleft, List.append_nil]
    exact hstream
  · rw [hfirst]
    nofun

/-- A buffer on its way from the thread to the file. -/
theorem write_moves {s : Logging} (hs : s.Sound) {i : Nat} (hpoint : s.routine.point = .write i)
    (hi : i < s.routine.buffersToWrite.length) :
    Moves s { s.setPoint (.write (i + 1)) with
      output := s.output ++ s.routine.buffersToWrite[i].data } := by
  have hsame : s.output ++ s.routine.buffersToWrite[i].data ++
      contents (s.routine.buffersToWrite.drop (i + 1)) = s.taken := by
    simp only [taken, ThreadRoutine.pending, hpoint, List.drop_eq_getElem_cons hi,
      contents_cons, List.append_assoc]
  refine ⟨⟨hs.logger, hs.routine.setPoint (by rw [hpoint]; rfl), hs.isStarted, hs.joins, hs.running,
    fun h => ?_⟩, ?_, rfl, rfl, nofun, .inl hsame, ?_, nofun⟩
  · refine absurd (hs.ended h) ?_
    rw [hpoint]
    nofun
  · rw [stream_eq, stream_eq, ← hsame]
    rfl
  · rw [hpoint]
    nofun

theorem recycle_moves {s : Logging} (hs : s.Sound) (hpoint : s.routine.point = .recycle) :
    ∃ r, recycle s.routine = .ok r ∧ Moves s { s with routine := r } := by
  obtain ⟨r, hr, hstocked, htest⟩ := recycle_ok hs.routine (by rw [hpoint]; rfl)
  have hsame : taken { s with routine := r } = s.taken := by
    simp only [taken, ThreadRoutine.pending, hpoint, htest]
  refine ⟨r, hr, ⟨⟨hs.logger, hstocked, hs.isStarted, hs.joins, hs.running, fun h => ?_⟩, ?_, rfl,
    rfl, ?_, .inl hsame, ?_, ?_⟩⟩
  · refine absurd (hs.ended h) ?_
    rw [hpoint]
    nofun
  · rw [stream_eq, stream_eq, hsame]
  · rw [htest]
    nofun
  · rw [hpoint]
    nofun
  · rw [htest]
    nofun

/-- A step of a thread that does not stop at the first assert. -/
theorem routineStep_moves {s : Logging} (hs : s.Sound)
    (hentry : s.routine.point = .entry → s.logger.isRunning = true) :
    ∃ t, s.routineStep = .ok t ∧ (Moves s t ∨ t = s ∧ s.routine.point = .ended) := by
  have live {point : RoutinePoint} (hpoint : s.routine.point = point) (hne : point ≠ .ended) :
      s.routine.point ≠ .ended := hpoint ▸ hne
  cases hpoint : s.routine.point with
  | entry =>
      refine ⟨s.setPoint .test, ?_,
        .inl (setPoint_moves hs (live hpoint nofun) ?_ ?_ nofun ?_ nofun)⟩
      · simp only [routineStep, hpoint, require_of_true (hentry hpoint), ok_bind]
        rfl
      · rw [hpoint]
        rfl
      · simp only [setPoint, ThreadRoutine.pending, hpoint]
      · rw [hpoint]
        nofun
  | test =>
      have hrest : s.routine.point.busy = false := by rw [hpoint]; rfl
      obtain ⟨-, -, hempty⟩ := hs.routine.resting hrest
      by_cases hrunning : s.logger.isRunning = true
      · refine ⟨s.setPoint .lock, ?_,
          .inl (setPoint_moves hs (live hpoint nofun) hrest.symm ?_ nofun (fun _ => rfl)
            fun _ => .inr hrunning)⟩
        · simp only [routineStep, hpoint, if_pos hrunning, require_of_true hempty, ok_bind]
          rfl
        · simp only [setPoint, ThreadRoutine.pending, hpoint]
      · refine ⟨s.setPoint .ended, ?_,
          .inl (setPoint_moves hs (live hpoint nofun) hrest.symm ?_ nofun ?_ nofun)⟩
        · simp only [routineStep, hpoint, if_neg hrunning]
        · simp only [setPoint, ThreadRoutine.pending, hpoint]
        · rw [hpoint]
          nofun
  | lock =>
      have hwaits : s.routine.point.waits = true := by rw [hpoint]; rfl
      by_cases hempty : s.logger.buffers = []
      · refine ⟨s.setPoint .wait, ?_,
          .inl (setPoint_moves hs (live hpoint nofun) ?_ ?_ nofun (fun _ => rfl)
            fun _ => .inl hwaits)⟩
        · simp only [routineStep, hpoint, if_pos hempty]
        · rw [hpoint]
          rfl
        · simp only [setPoint, ThreadRoutine.pending, hpoint]
      · simp only [routineStep, hpoint, if_neg hempty]
        obtain ⟨t, ht, hmoves⟩ := swap_moves hs hwaits
        exact ⟨t, ht, .inl hmoves⟩
  | wait =>
      simp only [routineStep, hpoint]
      obtain ⟨t, ht, hmoves⟩ := swap_moves hs (by rw [hpoint]; rfl)
      exact ⟨t, ht, .inl hmoves⟩
  | write i =>
      by_cases hi : i < s.routine.buffersToWrite.length
      · refine ⟨_, ?_, .inl (write_moves hs hpoint hi)⟩
        simp only [routineStep, hpoint, if_pos hi, PtrVector.get_ok hi, ok_bind]
        rfl
      · refine ⟨s.setPoint .recycle, ?_,
          .inl (setPoint_moves hs (live hpoint nofun) ?_ ?_ nofun ?_ nofun)⟩
        · simp only [routineStep, hpoint, if_neg hi]
        · rw [hpoint]
          rfl
        · simp only [setPoint, ThreadRoutine.pending, hpoint,
            List.drop_eq_nil_of_le (Nat.le_of_not_lt hi)]
        · rw [hpoint]
          nofun
  | recycle =>
      obtain ⟨r, hr, hmoves⟩ := recycle_moves hs hpoint
      refine ⟨_, ?_, .inl hmoves⟩
      simp only [routineStep, hpoint, hr, ok_bind]
      rfl
  | ended =>
      refine ⟨s, ?_, .inr ⟨rfl, rfl⟩⟩
      simp only [routineStep, hpoint]

/-- A step of the caller of stop() moves no buffer. -/
theorem stopStep_ok {s : Logging} (hs : s.Sound) :
    ∃ t, s.stopStep = .ok t ∧ t.Sound ∧ t.output = s.output ∧ t.routine = s.routine ∧
      t.logger.stream = s.logger.stream := by
  have unjoined {point : StopPoint} (hpoint : s.stopPoint = point) (hjoined : point ≠ .joined)
      (hreturned : point ≠ .returned) : s.isJoined = false :=
    hs.joins (hpoint ▸ hjoined) (hpoint ▸ hreturned)
  have stopped {point : StopPoint} (hpoint : s.stopPoint = point) (hcalled : point ≠ .notCalled)
      (hclearing : point ≠ .clearing) : s.logger.isRunning ≠ true := fun h => by
    rw [hs.running, hpoint] at h
    exact h.elim hcalled hclearing
  cases hpoint : s.stopPoint with
  | notCalled =>
      refine ⟨{ s with stopPoint := .clearing }, ?_, ⟨hs.logger, hs.routine, hs.isStarted,
        fun _ _ => unjoined hpoint nofun nofun, ?_, nofun⟩, rfl, rfl, rfl⟩
      · simp only [stopStep, hpoint]
      · exact iff_of_true (hs.running.mpr (.inl hpoint)) (.inr rfl)
  | clearing =>
      refine ⟨{ s with
        logger := { s.logger with isRunning := false }, stopPoint := .notifying }, ?_,
        ⟨⟨hs.logger.current, hs.logger.clean, hs.logger.left⟩, hs.routine, hs.isStarted,
          fun _ _ => unjoined hpoint nofun nofun, iff_of_false nofun nofun, nofun⟩, rfl, rfl, rfl⟩
      simp only [stopStep, hpoint]
  | notifying =>
      refine ⟨{ s with stopPoint := .joining }, ?_, ⟨hs.logger, hs.routine, hs.isStarted,
        fun _ _ => unjoined hpoint nofun nofun,
        iff_of_false (stopped hpoint nofun nofun) nofun, nofun⟩, rfl, rfl, rfl⟩
      simp only [stopStep, hpoint]
  | joining =>
      have hjoined := unjoined hpoint nofun nofun
      refine ⟨{ s with isJoined := true, stopPoint := .joined }, ?_,
        ⟨hs.logger, hs.routine, hs.isStarted, fun h => absurd rfl h,
          iff_of_false (stopped hpoint nofun nofun) nofun, nofun⟩, rfl, rfl, rfl⟩
      simp only [stopStep, hpoint, require_of_true hs.isStarted, require_of_true hjoined, ok_bind]
      rfl
  | joined =>
      by_cases hended : s.routine.point = .ended
      · refine ⟨{ s with stopPoint := .returned }, ?_,
          ⟨hs.logger, hs.routine, hs.isStarted, fun _ h => absurd rfl h,
            iff_of_false (stopped hpoint nofun nofun) nofun, fun _ => hended⟩, rfl, rfl, rfl⟩
        simp only [stopStep, hpoint, if_pos hended]
      · refine ⟨s, ?_, hs, rfl, rfl, rfl⟩
        simp only [stopStep, hpoint, if_neg hended]
  | returned =>
      refine ⟨s, ?_, hs, rfl, rfl, rfl⟩
      simp only [stopStep, hpoint]

theorem append_step_ok {s : Logging} (hs : s.Sound) (line : Bytes) :
    ∃ a, s.exec (.append line) = .ok { s with logger := a } ∧ Sound { s with logger := a } ∧
      a.isRunning = s.logger.isRunning ∧
      a.stream = s.logger.stream ++ AsyncLogging.kept line := by
  obtain ⟨a, ha, hready, hrunning, hstream⟩ := AsyncLogging.append_ok hs.logger line
  refine ⟨a, ?_, ⟨hready, hs.routine, hs.isStarted, hs.joins, ?_, hs.ended⟩, hrunning, hstream⟩
  · simp only [exec, ha, ok_bind]
    rfl
  · rw [hrunning]
    exact hs.running

theorem started_sound : started.Sound where
  logger := ⟨nofun, by rintro _ ⟨⟩; rfl, nofun⟩
  routine := ⟨by rintro _ ⟨⟩; rfl, by rintro _ ⟨⟩; rfl, fun _ => ⟨nofun, nofun, rfl⟩, nofun⟩
  isStarted := rfl
  joins := fun _ _ => rfl
  running := iff_of_true rfl (.inl rfl)
  ended := nofun

/-- A step while stop() is not called, for a line that a buffer can hold. -/
theorem exec_running {s : Logging} (hs : s.Sound) (hrunning : s.stopPoint = .notCalled)
    {step : LogStep} (hstep : step ≠ .stop)
    (hshort : ∀ line ∈ linesOf [step], line.length < kLargeBuffer) :
    ∃ t, s.exec step = .ok t ∧ t.Sound ∧ t.stopPoint = .notCalled ∧
      t.stream = s.stream ++ (linesOf [step]).flatten := by
  cases step with
  | append line =>
      obtain ⟨a, ha, hsound, -, hstream⟩ := append_step_ok hs line
      refine ⟨_, ha, hsound, hrunning, ?_⟩
      rw [AsyncLogging.kept, if_pos (hshort line (List.mem_singleton_self _))] at hstream
      simp only [stream_eq, hstream, linesOf, List.filterMap_cons, List.filterMap_nil,
        List.flatten_cons, List.flatten_nil, List.append_nil, List.append_assoc]
      rfl
  | routine =>
      obtain ⟨t, ht, hmoves⟩ := routineStep_moves hs fun _ => hs.running.mpr (.inl hrunning)
      cases hmoves with
      | inl hmoves =>
          refine ⟨t, ht, hmoves.sound, hmoves.stopPoint.trans hrunning, ?_⟩
          exact hmoves.stream.trans (List.append_nil _).symm
      | inr hsame =>
          refine ⟨t, ht, ?_⟩
          rw [hsame.1]
          exact ⟨hs, hrunning, (List.append_nil _).symm⟩
  | stop => exact absurd rfl hstep

theorem run_running {s : Logging} (hs : s.Sound) (hrunning : s.stopPoint = .notCalled)
    {steps : List LogStep} (hsteps : .stop ∉ steps)
    (hshort : ∀ line ∈ linesOf steps, line.length < kLargeBuffer) :
    ∃ t, run exec s steps = .ok t ∧ t.Sound ∧ t.stopPoint = .notCalled ∧
      t.stream = s.stream ++ (linesOf steps).flatten := by
  induction steps generalizing s with
  | nil => exact ⟨s, rfl, hs, hrunning, (List.append_nil _).symm⟩
  | cons step steps ih =>
      have hlines : linesOf (step :: steps) = linesOf [step] ++ linesOf steps :=
        linesOf_append [step] steps
      rw [hlines] at hshort
      obtain ⟨m, hm, hsound, hpoint, hstream⟩ := exec_running hs hrunning
        (fun heq => hsteps (heq ▸ List.mem_cons_self))
        fun line hline => hshort line (List.mem_append_left _ hline)
      obtain ⟨t, ht, hsound', hpoint', hstream'⟩ := ih hsound hpoint
        (fun hmem => hsteps (List.mem_cons_of_mem _ hmem))
        fun line hline => hshort line (List.mem_append_right _ hline)
      refine ⟨t, run_cons_ok.mpr ⟨m, hm, ht⟩, hsound', hpoint', ?_⟩
      rw [hstream', hstream, hlines, List.flatten_append, List.append_assoc]

/-- While the logger runs, what was written and what waits to be written is what
was appended, whatever the threads do: every step returns, there is a buffer to
append to, and the buffers kept for later are empty. -/
theorem log_lines_conserved {steps : List LogStep} (hsteps : .stop ∉ steps)
    (hshort : ∀ line ∈ linesOf steps, line.length < kLargeBuffer) :
    ∃ t, run exec started steps = .ok t ∧ t.stream = (linesOf steps).flatten ∧
      t.logger.currentBuffer ≠ none ∧ ∀ b ∈ t.spares, b.length = 0 := by
  obtain ⟨t, ht, hsound, -, hstream⟩ := run_running started_sound rfl hsteps hshort
  refine ⟨t, ht, hstream, hsound.logger.current, fun b hb => List.length_eq_zero_iff.mpr ?_⟩
  simp only [spares, List.mem_append, Option.mem_toList] at hb
  rcases hb with (hb | hb) | hb
  · exact hsound.logger.clean b hb
  · exact hsound.routine.clean1 b hb
  · exact hsound.routine.clean2 b hb

theorem log_lines_conserved_two_lines :
    ∃ t, run exec started [.routine, .append [97, 10], .routine, .routine, .routine,
        .append [98, 10]] = .ok t ∧
      t.stream = [97, 10, 98, 10] ∧ t.logger.currentBuffer ≠ none ∧ ∀ b ∈ t.spares, b.length = 0 :=
  log_lines_conserved (by decide) (by decide)

end Logging
end TAlib
