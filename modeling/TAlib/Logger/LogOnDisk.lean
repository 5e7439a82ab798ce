import Mathlib.Data.List.Forall2
import TAlib.Logger.LogRolling
import TAlib.Logger.Shutdown

/-!
The thread of AsyncLogging together with the LogFile that it owns and the disk. A
buffer goes to output.append as a whole, and the file is rolled at the end of an
append only. So however the lines are spread over buffers and the buffers over
appends, the file begins and ends between two lines.
-/

namespace TAlib

open Foundation LogBuffer

/-- AsyncLogging, the local `output` of its thread and the disk. The constructor of
`output` runs after the assert of threadRoutine; nothing uses the file before. -/
structure LogService where
  logging : Logging
  output : LogFile
  disk : LogDisk
  deriving DecidableEq

/-- As LogStep; of what the FILE holds after a write, `written` bytes reach the file. -/
inductive ServiceStep where
  | append (line : Bytes)
  | routine (written : Nat)
  | stop
  deriving DecidableEq

def ServiceStep.toLogStep : ServiceStep → LogStep
  | .append line => .append line
  | .routine _ => .routine
  | .stop => .stop

/-- What the next step of threadRoutine does with `output`. -/
def Logging.outputCall (s : Logging) (written : Nat) : Option LogFileCall :=
  match s.routine.point with
  | .write i => s.routine.buffersToWrite[i]?.map fun b => .append b.data written
  | .recycle => some .flush
  | .test => if s.logger.isRunning then none else some .flush
  | _ => none

namespace LogService

def callOutput (s : LogService) : Option LogFileCall → Except Fault (LogFile × LogDisk)
  | none => .ok (s.output, s.disk)
  | some (.append logline written) => s.output.append s.disk logline written
  | some .flush => .ok (s.output.flush s.disk)

def outputCall (s : LogService) : ServiceStep → Option LogFileCall
  | .routine written => s.logging.outputCall written
  | _ => none

def exec (s : LogService) (step : ServiceStep) : Except Fault LogService := do
  let logging ← s.logging.exec step.toLogStep
  let (output, disk) ← s.callOutput (s.outputCall step)
  return ⟨logging, output, disk⟩

/-- After start(), with what stands at the path before, if there is a file. -/
def started (filePath : Bytes) (rollSize : Int) (before : Option Bytes) : LogService :=
  let file := LogRun.start filePath rollSize before
  ⟨.started, file.log, file.disk⟩

end LogService

namespace Logging

/-- The lines that were written, the lines of each buffer on its way to the file, and
the lines of the current buffer. -/
structure Grouped (lines : List Bytes) (s : Logging) (done : List Bytes)
    (groups : List (List Bytes)) (rest : List Bytes) : Prop where
  all : lines = done ++ groups.flatten ++ rest
  output : s.output = done.flatten
  buffers : List.Forall₂ (fun b group => b.data = group.flatten)
    (s.routine.pending ++ s.logger.buffers) groups
  current : dataOf s.logger.currentBuffer = rest.flatten

section Steps

variable {s t : Logging} {lines done rest : List Bytes} {groups : List (List Bytes)}

/-- A line that finds no room pushes the current buffer into m_buffers. -/
theorem append_cases {line : Bytes} {a : AsyncLogging} (h : s.logger.append line = .ok a) :
    ∃ current, s.logger.currentBuffer = some current ∧
      (current.avail > line.length ∧ a.buffers = s.logger.buffers ∧
          a.currentBuffer = some (current.append line) ∨
        a.buffers = s.logger.buffers ++ [current] ∧
          a.currentBuffer = some ((s.logger.nextBuffer.getD .new).append line)) := by
  cases hcurrent : s.logger.currentBuffer with
  | none =>
      simp only [AsyncLogging.append, hcurrent] at h
      cases h
  | some current =>
      refine ⟨current, rfl, ?_⟩
      by_cases hfits : current.avail > line.length
      · simp only [AsyncLogging.append, hcurrent, if_pos hfits] at h
        cases h
        exact .inl ⟨hfits, rfl, rfl⟩
      · simp only [AsyncLogging.append, hcurrent, if_neg hfits] at h
        cases h
        exact .inr ⟨rfl, rfl⟩

theorem Grouped.append (hg : Grouped lines s done groups rest) (hs : s.Sound) {line : Bytes}
    {a : AsyncLogging} (h : s.logger.append line = .ok a) :
    ∃ groups' rest', Grouped (lines ++ [AsyncLogging.kept line]) { s with logger := a } done
      groups' rest' := by
  obtain ⟨current, hcurrent, hcases⟩ := append_cases h
  have hrest : current.data = rest.flatten := by
    rw [← hg.current, hcurrent]
    rfl
  cases hcases with
  | inl hfits =>
      obtain ⟨hfits, hbuffers, hnew⟩ := hfits
      have hkept : AsyncLogging.kept line = line :=
        if_pos (Nat.lt_of_lt_of_le hfits (Nat.sub_le _ _))
      refine ⟨groups, rest ++ [line], ?_, hg.output, ?_, ?_⟩
      · rw [hg.all, hkept, List.append_assoc]
      · rw [hbuffers]
        exact hg.buffers
      · rw [hnew, dataOf, append_data hfits, hrest, List.flatten_append, List.flatten_singleton]
  | inr hfull =>
      obtain ⟨hbuffers, hnew⟩ := hfull
      have hclean : (s.logger.nextBuffer.getD LogBuffer.new).data = [] := by
        cases hnext : s.logger.nextBuffer with
        | none => rfl
        | some b => exact hs.logger.clean b hnext
      refine ⟨groups ++ [rest], [AsyncLogging.kept line], ?_, hg.output, ?_, ?_⟩
      · rw [hg.all, List.flatten_append, List.flatten_singleton, ← List.append_assoc]
      · rw [hbuffers, ← List.append_assoc]
        exact List.rel_append hg.buffers (.cons hrest .nil)
      · rw [hnew, dataOf, append_data_of_empty hclean, List.flatten_singleton]
        rfl

/-- The caller of stop() has nothing to do with the buffers. -/
theorem stopStep_keeps (h : s.stopStep = .ok t) : t.output = s.output ∧ t.routine = s.routine ∧
    t.logger.buffers = s.logger.buffers ∧ t.logger.currentBuffer = s.logger.currentBuffer := by
  cases hpoint : s.stopPoint with
  | notCalled | clearing | notifying | returned =>
      simp only [stopStep, hpoint] at h
      cases h
      exact ⟨rfl, rfl, rfl, rfl⟩
  | joining =>
      simp only [stopStep, hpoint, bind_eq_ok] at h
      obtain ⟨-, -, -, -, h⟩ := h
      cases h
      exact ⟨rfl, rfl, rfl, rfl⟩
  | joined =>
      simp only [stopStep, hpoint] at h
      split at h
      · cases h
        exact ⟨rfl, rfl, rfl, rfl⟩
      · cases h
        exact ⟨rfl, rfl, rfl, rfl⟩

/-- What a step of threadRoutine does with the lines, and with `output`. -/
inductive Carries (s t : Logging) (written : Nat) : Prop where
  | nothing (output : t.output = s.output) (pending : t.routine.pending = s.routine.pending)
      (logger : t.logger = s.logger)
      (call : s.outputCall written = none ∧ t.routine.point.busy = s.routine.point.busy ∨
        s.outputCall written = some .flush)
  | swap (b : LogBuffer kLargeBuffer) (current : s.logger.currentBuffer = some b)
      (output : t.output = s.output) (resting : s.routine.pending = [])
      (pending : t.routine.pending ++ t.logger.buffers = s.logger.buffers ++ [b])
      (emptied : dataOf t.logger.currentBuffer = [])
      (call : s.outputCall written = none) (busy : t.routine.point.busy = true)
  | write (b : LogBuffer kLargeBuffer) (output : t.output = s.output ++ b.data)
      (pending : s.routine.pending = b :: t.routine.pending) (logger : t.logger = s.logger)
      (call : s.outputCall written = some (.append b.data written))
      (busy : t.routine.point.busy = true)

theorem swap_carries (hs : s.Sound) (hwaits : s.routine.point.waits = true) (written : Nat)
    (h : s.swap = .ok t) : Carries s t written := by
  have hresting : s.routine.point.busy = false ∧ s.routine.pending = [] ∧
      s.outputCall written = none := by
    cases hpoint : s.routine.point with
    | lock | wait =>
        refine ⟨rfl, ?_, ?_⟩
        · rw [ThreadRoutine.pending, hpoint]
        · rw [outputCall, hpoint]
    | entry | test | write _ | recycle | ended => cases hpoint ▸ hwaits
  obtain ⟨current, hcurrent⟩ := Option.ne_none_iff_exists'.mp hs.logger.current
  obtain ⟨-, -, hempty⟩ := hs.routine.resting hresting.1
  have hfilled : s.logger.buffers ++ [current] ≠ [] := List.concat_ne_nil _ _
  have hclean : dataOf s.routine.backupBuffer1 = [] := by
    cases hbackup : s.routine.backupBuffer1 with
    | none => rfl
    | some b => exact hs.routine.clean1 b hbackup
  by_cases hnext : s.logger.nextBuffer = none
  · simp only [swap, hcurrent, PtrVector.pushBack, ok_bind, if_pos hnext,
      require_of_true hfilled] at h
    cases h
    refine .swap current hcurrent rfl hresting.2.1 ?_ hclean hresting.2.2 rfl
    rw [hempty, List.append_nil]
    rfl
  · simp only [swap, hcurrent, PtrVector.pushBack, ok_bind, if_neg hnext,
      require_of_true hfilled] at h
    cases h
    refine .swap current hcurrent rfl hresting.2.1 ?_ hclean hresting.2.2 rfl
    rw [hempty, List.append_nil]
    rfl

theorem routineStep_carries (hs : s.Sound) (written : Nat) (h : s.routineStep = .ok t) :
    Carries s t written := by
  cases hpoint : s.routine.point with
  | entry =>
      simp only [routineStep, hpoint, bind_eq_ok] at h
      obtain ⟨-, -, h⟩ := h
      cases h
      refine .nothing rfl ?_ rfl (.inl ⟨?_, ?_⟩)
      · simp only [setPoint, ThreadRoutine.pending, hpoint]
      · rw [outputCall, hpoint]
      · rw [hpoint]
        rfl
  | test =>
      simp only [routineStep, hpoint] at h
      by_cases hrunning : s.logger.isRunning = true
      · simp only [if_pos hrunning, bind_eq_ok] at h
        obtain ⟨-, -, h⟩ := h
        cases h
        refine .nothing rfl ?_ rfl (.inl ⟨?_, ?_⟩)
        · simp only [setPoint, ThreadRoutine.pending, hpoint]
        · simp only [outputCall, hpoint, if_pos hrunning]
        · rw [hpoint]
          rfl
      · simp only [if_neg hrunning] at h
        cases h
        refine .nothing rfl ?_ rfl (.inr ?_)
        · simp only [setPoint, ThreadRoutine.pending, hpoint]
        · simp only [outputCall, hpoint, if_neg hrunning]
  | lock =>
      have hwaits : s.routine.point.waits = true := by
        rw [hpoint]
        rfl
      simp only [routineStep, hpoint] at h
      by_cases hempty : s.logger.buffers = []
      · rw [if_pos hempty] at h
        cases h
        refine .nothing rfl ?_ rfl (.inl ⟨?_, ?_⟩)
        · simp only [setPoint, ThreadRoutine.pending, hpoint]
        · rw [outputCall, hpoint]
        · rw [hpoint]
          rfl
      · rw [if_neg hempty] at h
        exact swap_carries hs hwaits written h
  | wait =>
      have hwaits : s.routine.point.waits = true := by
        rw [hpoint]
        rfl
      simp only [routineStep, hpoint] at h
      exact swap_carries hs hwaits written h
  | write i =>
      simp only [routineStep, hpoint] at h
      by_cases hi : i < s.routine.buffersToWrite.length
      · simp only [if_pos hi, PtrVector.get_ok hi, ok_bind] at h
        cases h
        refine .write s.routine.buffersToWrite[i] rfl ?_ rfl ?_ rfl
        · simp only [setPoint, ThreadRoutine.pending, hpoint, List.drop_eq_getElem_cons hi]
        · simp only [outputCall, hpoint, List.getElem?_eq_getElem hi, Option.map_some]
      · have hend := Nat.le_of_not_lt hi
        rw [if_neg hi] at h
        cases h
        refine .nothing rfl ?_ rfl (.inl ⟨?_, ?_⟩)
        · simp only [setPoint, ThreadRoutine.pending, hpoint, List.drop_eq_nil_of_le hend]
        · simp only [outputCall, hpoint, List.getElem?_eq_none hend, Option.map_none]
        · rw [hpoint]
          rfl
  | recycle =>
      simp only [routineStep, hpoint, bind_eq_ok] at h
      obtain ⟨r, hr, h⟩ := h
      cases h
      obtain ⟨r', hr', -, htest⟩ := recycle_ok hs.routine (by rw [hpoint]; rfl)
      cases hr.symm.trans hr'
      refine .nothing rfl ?_ rfl (.inr ?_)
      · simp only [ThreadRoutine.pending, hpoint, htest]
      · rw [outputCall, hpoint]
  | ended =>
      simp only [routineStep, hpoint] at h
      cases h
      refine .nothing rfl rfl rfl (.inl ⟨?_, rfl⟩)
      rw [outputCall, hpoint]


/-- The thread flushes when it has written out the buffers of a swap. -/
theorem Carries.flushes {written : Nat} (hc : Carries s t written)
    (hrest : t.routine.point.busy = false) : s.outputCall written = some .flush ∨
      s.outputCall written = none ∧ s.routine.point.busy = false := by
  cases hc with
  | nothing output pending logger call =>
      cases call with
      | inl hnone => exact .inr ⟨hnone.1, hnone.2.symm.trans hrest⟩
      | inr hflush => exact .inl hflush
  | swap b current output resting pending emptied call busy => cases busy.symm.trans hrest
  | write b output pending logger call busy => cases busy.symm.trans hrest

theorem Grouped.carries (hg : Grouped lines s done groups rest) {written : Nat}
    (hc : Carries s t written) : ∃ done' groups' rest', Grouped lines t done' groups' rest' ∧
      ((s.outputCall written = none ∨ s.outputCall written = some .flush) ∧ done' = done ∨
        ∃ group, s.outputCall written = some (.append group.flatten written) ∧
          done' = done ++ group) := by
  cases hc with
  | nothing output pending logger call =>
      refine ⟨done, groups, rest, ⟨hg.all, output.trans hg.output, ?_, ?_⟩, .inl ⟨?_, rfl⟩⟩
      · rw [pending, logger]
        exact hg.buffers
      · rw [logger]
        exact hg.current
      · exact call.imp And.left id
  | swap b current output resting pending emptied call busy =>
      have hb : b.data = rest.flatten := by
        rw [← hg.current, current]
        rfl
      refine ⟨done, groups ++ [rest], [], ⟨?_, output.trans hg.output, ?_, emptied⟩,
        .inl ⟨.inl call, rfl⟩⟩
      · rw [hg.all, List.flatten_append, List.flatten_singleton, List.append_nil,
          List.append_assoc]
      · have hbuffers := hg.buffers
        rw [resting, List.nil_append] at hbuffers
        rw [pending]
        exact List.rel_append hbuffers (.cons hb .nil)
  | write b output pending logger call busy =>
      have hbuffers := hg.buffers
      rw [pending, List.cons_append] at hbuffers
      cases hbuffers with
      | @cons _ group _ groups hb hbuffers =>
          refine ⟨done ++ group, groups, rest, ⟨?_, ?_, ?_, ?_⟩, .inr ⟨group, hb ▸ call, rfl⟩⟩
          · simp only [hg.all, List.flatten_cons, List.append_assoc]
          · rw [output, hg.output, hb, List.flatten_append]
          · rw [logger]
            exact hbuffers
          · rw [logger]
            exact hg.current

/-- Nothing is on its way to the file but these lines. -/
theorem Grouped.stream_eq (hg : Grouped lines s done groups rest) : s.stream = lines.flatten := by
  have hqueue {v : List (LogBuffer kLargeBuffer)} {gs : List (List Bytes)}
      (h : List.Forall₂ (fun b group => b.data = group.flatten) v gs) :
      contents v = gs.flatten.flatten := by
    induction h with
    | nil => rfl
    | cons hb _ ih => rw [contents_cons, hb, ih, List.flatten_cons, List.flatten_append]
  have hbuffers := hqueue hg.buffers
  rw [contents_append] at hbuffers
  rw [stream, List.append_assoc s.output, hbuffers, hg.output, hg.current, hg.all,
    List.flatten_append, List.flatten_append]

end Steps

end Logging

section File

variable {l : LogFile} {d : LogDisk}

/-- The bytes that a reader finds after a flush. -/
def LogFile.held (l : LogFile) (d : LogDisk) : Bytes := d.content l.file.fp ++ l.file.pending

/-- The only file with a name is the open one, and its size is known. -/
structure LogFile.Tidy (l : LogFile) (d : LogDisk) : Prop where
  named : d.dir = [(l.filePath, l.file.fp)]
  exists_file : l.file.fp < d.files.length
  measured : l.file.writtenBytes = (l.held d).length

theorem LogFile.Tidy.open (h : l.Tidy d) : (⟨l, d, []⟩ : LogRun).Open :=
  ⟨⟨h.named, h.exists_file⟩, List.nil_suffix⟩

theorem LogRun.rolled_written {s : LogRun} (hs : s.OnlyOpen) :
    s.rolled.log.file.writtenBytes = 0 := by
  have hopen : (⟨s.disk.files, []⟩ : LogDisk).openAppend s.log.filePath =
      (s.disk.files.length, ⟨s.disk.files ++ [[]], [(s.log.filePath, s.disk.files.length)]⟩) :=
    Disk.openAppend_nil rfl
  simp only [LogRun.rolled, Disk.remove_single hs.named, LogFile.reopen, AppendFile.new, hopen,
    Disk.size_created]
  rfl

/-- The file takes what it is given, or it is rolled and empty. -/
theorem LogFile.Tidy.append (h : l.Tidy d) (logline : Bytes) (written : Nat) :
    ∃ l' d', l.append d logline written = .ok (l', d') ∧ l'.Tidy d' ∧ l'.filePath = l.filePath ∧
      l'.rollSize = l.rollSize ∧ (l'.held d' = [] ∨
        l'.held d' = l.held d ++ logline ∧ ((l'.held d').length : Int) ≤ l.rollSize) := by
  let u := (⟨l, d, []⟩ : LogRun).appendedTo logline written
  have hexec := LogRun.exec_append h.open logline written
  obtain ⟨⟨l', d'⟩, happend, hu⟩ := bind_eq_ok.mp hexec
  have hopen : u.Open := LogRun.appendedTo_open h.open logline written
  have hheld : u.log.held u.disk = l.held d ++ logline := by
    have hcontent : u.disk.content l.file.fp =
        d.content l.file.fp ++ (l.file.pending ++ logline).take written :=
      Disk.content_append_self h.exists_file _
    show u.disk.content l.file.fp ++ (l.file.pending ++ logline).drop written = _
    rw [hcontent, List.append_assoc, List.take_append_drop, ← List.append_assoc]
    rfl
  have hwritten : u.log.file.writtenBytes = (u.log.held u.disk).length := by
    rw [hheld, List.length_append, Int.natCast_add, ← h.measured]
    rfl
  have hu : (⟨l', d', logline⟩ : LogRun) = _ := Except.ok.inj hu
  refine ⟨l', d', happend, ?_⟩
  by_cases hlarge : l.file.writtenBytes + logline.length > l.rollSize
  · rw [if_pos hlarge] at hu
    obtain rfl : l' = u.rolled.log := congrArg LogRun.log hu
    obtain rfl : d' = u.rolled.disk := congrArg LogRun.disk hu
    obtain ⟨honly, hempty⟩ := LogRun.rolled_onlyOpen hopen.toOnlyOpen
    refine ⟨⟨honly.named, honly.exists_file, ?_⟩, rfl, rfl, .inl hempty⟩
    rw [LogFile.held, hempty]
    exact LogRun.rolled_written hopen.toOnlyOpen
  · rw [if_neg hlarge] at hu
    obtain rfl : l' = u.log := congrArg LogRun.log hu
    obtain rfl : d' = u.disk := congrArg LogRun.disk hu
    refine ⟨⟨hopen.named, hopen.exists_file, hwritten⟩, rfl, rfl, .inr ⟨hheld, ?_⟩⟩
    rw [hheld, List.length_append, Int.natCast_add, ← h.measured]
    exact Int.not_lt.mp hlarge

theorem LogFile.Tidy.flush (h : l.Tidy d) : (l.flush d).1.Tidy (l.flush d).2 ∧
    (l.flush d).1.held (l.flush d).2 = l.held d := by
  have hopen := LogRun.flush_open h.open
  have hheld : (l.flush d).1.held (l.flush d).2 = l.held d := by
    have hcontent : (l.flush d).2.content l.file.fp = d.content l.file.fp ++ l.file.pending :=
      Disk.content_append_self h.exists_file _
    show (l.flush d).2.content l.file.fp ++ [] = _
    rw [hcontent, List.append_nil]
    rfl
  refine ⟨⟨hopen.named, hopen.exists_file, ?_⟩, hheld⟩
  rw [hheld]
  exact h.measured

end File

namespace LogService

variable {s t : LogService} {filePath before : Bytes} {rollSize : Int} {lines : List Bytes}

/-- The lines of the calls of append among the steps that a buffer can hold, and nothing
for the others. -/
def keptLines (steps : List ServiceStep) : List Bytes :=
  (linesOf (steps.map ServiceStep.toLogStep)).map AsyncLogging.kept

/-- The file has all lines that were written, behind what it had before; or it was
rolled, and has the lines since then. -/
def Holds (before : Bytes) (done : List Bytes) (held : Bytes) : Prop :=
  held = before ++ done.flatten ∨ ∃ lost since, done = lost ++ since ∧ held = since.flatten

theorem Holds.append {done group : List Bytes} {held held' : Bytes} (h : Holds before done held)
    (hheld : held' = [] ∨ held' = held ++ group.flatten) : Holds before (done ++ group) held' := by
  cases hheld with
  | inl hempty => exact .inr ⟨done ++ group, [], (List.append_nil _).symm, hempty⟩
  | inr hgrown =>
      cases h with
      | inl hall =>
          refine .inl ?_
          rw [hgrown, hall, List.flatten_append, List.append_assoc]
      | inr hrolled =>
          obtain ⟨lost, since, hsplit, hsince⟩ := hrolled
          refine .inr ⟨lost, since ++ group, ?_, ?_⟩
          · rw [hsplit, List.append_assoc]
          · rw [hgrown, hsince, List.flatten_append]

/-- What every step keeps. -/
structure Tended (filePath : Bytes) (rollSize : Int) (before : Bytes) (lines : List Bytes)
    (s : LogService) : Prop where
  sound : s.logging.Sound
  tidy : s.output.Tidy s.disk
  path : s.output.filePath = filePath
  roll : s.output.rollSize = rollSize
  grouped : ∃ done groups rest, s.logging.Grouped lines done groups rest ∧
    Holds before done (s.output.held s.disk)
  flushed : s.logging.routine.point.busy = false → s.output.file.pending = []
  small : ((s.output.held s.disk).length : Int) ≤ max rollSize before.length

theorem exec_ok {step : ServiceStep} {logging : Logging} {output : LogFile} {disk : LogDisk}
    (hstep : s.logging.exec step.toLogStep = .ok logging)
    (hcall : s.callOutput (s.outputCall step) = .ok (output, disk)) :
    s.exec step = .ok ⟨logging, output, disk⟩ := by
  rw [exec, hstep, ok_bind, hcall]
  rfl

theorem exec_error {step : ServiceStep} {fault : Fault}
    (hstep : s.logging.exec step.toLogStep = .error fault) : s.exec step = .error fault := by
  rw [exec, hstep]
  rfl

/-- A step returns and keeps the lines in order, unless it is the first step of a thread
that begins too late. -/
theorem Tended.step (h : s.Tended filePath rollSize before lines) (step : ServiceStep) :
    s.exec step = .error (.assertion .threadRoutineRunning) ∨
      ∃ t, s.exec step = .ok t ∧ t.Tended filePath rollSize before (lines ++ keptLines [step]) := by
  obtain ⟨done, groups, rest, hg, hholds⟩ := h.grouped
  cases step with
  | append line =>
      obtain ⟨a, ha, hsound, -⟩ := Logging.append_step_ok h.sound line
      obtain ⟨a', ha', heq⟩ := bind_eq_ok.mp ha
      cases heq
      obtain ⟨groups', rest', hg'⟩ := hg.append h.sound ha'
      exact .inr ⟨_, exec_ok ha rfl, hsound, h.tidy, h.path, h.roll,
        ⟨done, groups', rest', hg', hholds⟩, h.flushed, h.small⟩
  | stop =>
      cases Logging.exec_cases h.sound .stop with
      | inr hbad => exact .inl (exec_error hbad.1)
      | inl hok =>
          obtain ⟨logging, hstop, hfollows⟩ := hok
          obtain ⟨houtput, hroutine, hbuffers, hcurrent⟩ := Logging.stopStep_keeps hstop
          refine .inr ⟨_, exec_ok hstop rfl, hfollows.sound, h.tidy, h.path, h.roll,
            ⟨done, groups, rest, ⟨?_, houtput.trans hg.output, ?_, ?_⟩, hholds⟩, ?_, h.small⟩
          · rw [hg.all]
            exact List.append_nil _
          · rw [hroutine, hbuffers]
            exact hg.buffers
          · rw [hcurrent]
            exact hg.current
          · rw [hroutine]
            exact h.flushed
  | routine written =>
      cases Logging.exec_cases h.sound .routine with
      | inr hbad => exact .inl (exec_error hbad.1)
      | inl hok =>
          obtain ⟨logging, hstep, hfollows⟩ := hok
          have hc := Logging.routineStep_carries h.sound written hstep
          obtain ⟨done', groups', rest', hg', hcall⟩ := hg.carries hc
          have hlines : lines ++ keptLines [.routine written] = lines := List.append_nil _
          rw [hlines]
          cases hcall with
          | inl hquiet =>
              obtain ⟨hcall, hdone⟩ := hquiet
              subst hdone
              cases hcall with
              | inl hnone =>
                  refine .inr ⟨_, exec_ok hstep ?_, hfollows.sound, h.tidy, h.path, h.roll,
                    ⟨done', groups', rest', hg', hholds⟩, fun hrest => ?_, h.small⟩
                  · rw [outputCall, hnone, callOutput]
                  · cases hc.flushes hrest with
                    | inl hflush => cases hnone.symm.trans hflush
                    | inr hsame => exact h.flushed hsame.2
              | inr hflush =>
                  obtain ⟨htidy, hsame⟩ := h.tidy.flush
                  refine .inr ⟨_, exec_ok hstep ?_, hfollows.sound, htidy, h.path, h.roll,
                    ⟨done', groups', rest', hg', ?_⟩, fun _ => rfl, ?_⟩
                  · rw [outputCall, hflush, callOutput]
                  · rw [hsame]
                    exact hholds
                  · rw [hsame]
                    exact h.small
          | inr hwrite =>
              obtain ⟨group, hcall, hdone⟩ := hwrite
              obtain ⟨output, disk, happend, htidy, hpath, hroll, hheld⟩ :=
                h.tidy.append group.flatten written
              refine .inr ⟨_, exec_ok hstep ?_, hfollows.sound, htidy, hpath.trans h.path,
                hroll.trans h.roll, ⟨done', groups', rest', hg', ?_⟩, ?_, ?_⟩
              · rw [outputCall, hcall, callOutput, happend]
              · rw [hdone]
                exact hholds.append (hheld.imp_right And.left)
              · intro hrest
                cases hc.flushes hrest with
                | inl hflush => cases hcall.symm.trans hflush
                | inr hnone => cases hcall.symm.trans hnone.1
              · cases hheld with
                | inl hempty =>
                    rw [hempty]
                    exact Int.le_trans (Int.natCast_nonneg _) (Int.le_max_right _ _)
                | inr hgrown =>
                    rw [h.roll] at hgrown
                    exact Int.le_trans hgrown.2 (Int.le_max_left _ _)

theorem Tended.run (h : s.Tended filePath rollSize before lines) (steps : List ServiceStep) :
    Foundation.run exec s steps = .error (.assertion .threadRoutineRunning) ∨
      ∃ t, Foundation.run exec s steps = .ok t ∧
        t.Tended filePath rollSize before (lines ++ keptLines steps) := by
  induction steps generalizing s lines with
  | nil =>
      refine .inr ⟨s, rfl, ?_⟩
      rw [keptLines, List.map_nil, linesOf, List.filterMap_nil, List.map_nil, List.append_nil]
      exact h
  | cons step steps ih =>
      have hkept : keptLines (step :: steps) = keptLines [step] ++ keptLines steps := by
        rw [keptLines, keptLines, keptLines, ← List.map_append, ← linesOf_append, ← List.map_append]
        rfl
      cases h.step step with
      | inl hbad =>
          refine .inl ?_
          rw [Foundation.run, hbad]
          rfl
      | inr hok =>
          obtain ⟨m, hm, hkeeps⟩ := hok
          rw [Foundation.run, hm, ok_bind, hkept, ← List.append_assoc]
          exact ih hkeeps

end LogService

end TAlib
