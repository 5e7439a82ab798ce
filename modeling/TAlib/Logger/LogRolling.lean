import TAlib.Common.CString
import TAlib.Logger.LogFile

/-!
What rolling does to the log. The file that has grown too large is not renamed but
removed, with the line that made it so, and what the FILE still holds is written
to the removed file. A log keeps its bytes only as long as it does not roll.
-/

namespace TAlib

open Foundation

namespace LogRun

/-- With a flush all bytes that were appended are found, in order, in the files
that have a name. -/
def Kept (s : LogRun) : Prop := s.appended <:+ s.flush.disk.present

instance (s : LogRun) : Decidable s.Kept := inferInstanceAs (Decidable (_ <:+ _))

/-- The append does not make the file larger than the roll size, or no byte has been
appended with it. -/
def StaysBelow (s : LogRun) : LogFileCall → Prop
  | .append logline _ =>
      s.log.file.writtenBytes + logline.length ≤ s.log.rollSize ∨ s.appended ++ logline = []
  | .flush => True

/-- The only file with a name is the open one. -/
structure OnlyOpen (s : LogRun) : Prop where
  named : s.disk.dir = [(s.log.filePath, s.log.file.fp)]
  exists_file : s.log.file.fp < s.disk.files.length

theorem OnlyOpen.flush_present {s : LogRun} (hs : s.OnlyOpen) :
    s.flush.disk.present = s.disk.content s.log.file.fp ++ s.log.file.pending := by
  have hlen : s.log.file.fp < s.flush.disk.files.length :=
    Nat.lt_of_lt_of_eq hs.exists_file (Disk.append_files_length _).symm
  rw [Disk.present_single (d := s.flush.disk) hs.named hlen]
  exact Disk.content_append_self hs.exists_file _

/-- What was appended is in the file or pending. -/
structure Open (s : LogRun) : Prop extends OnlyOpen s where
  appended : s.appended <:+ s.disk.content s.log.file.fp ++ s.log.file.pending

theorem Open.kept {s : LogRun} (hs : s.Open) : s.Kept := by
  rw [Kept, hs.flush_present]
  exact hs.appended

theorem start_open (filePath : Bytes) (rollSize : Int) (before : Option Bytes) :
    (start filePath rollSize before).Open := by
  cases before with
  | none => exact ⟨⟨rfl, Nat.zero_lt_one⟩, List.suffix_refl _⟩
  | some bytes =>
      have hlookup : (⟨[bytes], [(filePath, 0)]⟩ : LogDisk).lookup filePath = some 0 :=
        Disk.lookup_single rfl
      refine ⟨⟨?_, ?_⟩, List.nil_suffix⟩
      · simp only [start, LogFile.new, AppendFile.new, Disk.openAppend, hlookup]
      · simp only [start, LogFile.new, AppendFile.new, Disk.openAppend, hlookup]
        exact Nat.zero_lt_one

theorem flush_open {s : LogRun} (hs : s.Open) : s.flush.Open := by
  refine ⟨⟨hs.named, ?_⟩, ?_⟩
  · exact Nat.lt_of_lt_of_eq hs.exists_file (Disk.append_files_length _).symm
  · have hcontent : s.flush.disk.content s.log.file.fp =
        s.disk.content s.log.file.fp ++ s.log.file.pending :=
      Disk.content_append_self hs.exists_file _
    show s.appended <:+ s.flush.disk.content s.log.file.fp ++ []
    rw [hcontent, List.append_nil]
    exact hs.appended

/-- The state after the append of AppendFile. -/
def appendedTo (s : LogRun) (logline : Bytes) (written : Nat) : LogRun :=
  let (file, d) := s.log.file.append s.disk logline written
  ⟨{ s.log with file := file }, d, s.appended ++ logline⟩

theorem appendedTo_open {s : LogRun} (hs : s.Open) (logline : Bytes) (written : Nat) :
    (s.appendedTo logline written).Open := by
  refine ⟨⟨hs.named, ?_⟩, ?_⟩
  · exact Nat.lt_of_lt_of_eq hs.exists_file (Disk.append_files_length _).symm
  · obtain ⟨before, hbefore⟩ := hs.appended
    refine ⟨before, ?_⟩
    show before ++ (s.appended ++ logline) =
      (s.disk.append s.log.file.fp ((s.log.file.pending ++ logline).take written)).content
        s.log.file.fp ++ (s.log.file.pending ++ logline).drop written
    rw [Disk.content_append_self hs.exists_file, List.append_assoc, List.take_append_drop,
      ← List.append_assoc, hbefore, List.append_assoc]

/-- The state after rolling: a new file with the old name. -/
def rolled (s : LogRun) : LogRun :=
  let (_, d) := s.disk.remove s.log.filePath
  let (log, d) := s.log.reopen d
  ⟨log, d, s.appended⟩

theorem rolled_onlyOpen {s : LogRun} (hs : s.OnlyOpen) :
    s.rolled.OnlyOpen ∧
      s.rolled.disk.content s.rolled.log.file.fp ++ s.rolled.log.file.pending = [] := by
  have hnew : s.rolled = ⟨{ s.log with file := ⟨s.disk.files.length, [], 0⟩ },
      (⟨s.disk.files ++ [[]], [(s.log.filePath, s.disk.files.length)]⟩ : LogDisk).append
        s.log.file.fp s.log.file.pending, s.appended⟩ := by
    have hopen : (⟨s.disk.files, []⟩ : LogDisk).openAppend s.log.filePath =
        (s.disk.files.length, ⟨s.disk.files ++ [[]], [(s.log.filePath, s.disk.files.length)]⟩) :=
      Disk.openAppend_nil rfl
    simp only [rolled, Disk.remove_single hs.named, LogFile.reopen, AppendFile.new, hopen,
      Disk.size_created, AppendFile.close]
    rfl
  rw [hnew]
  refine ⟨⟨rfl, ?_⟩, ?_⟩
  · simp
  · rw [List.append_nil, Disk.content_append_of_ne (Nat.ne_of_gt hs.exists_file)]
    simp [Disk.content]

/-- Nothing is left of a log that has rolled. -/
theorem rolled_present {s : LogRun} (hs : s.OnlyOpen) : s.rolled.flush.disk.present = [] := by
  obtain ⟨honly, hempty⟩ := rolled_onlyOpen hs
  rw [honly.flush_present, hempty]

/-- rollFile is called above the roll size only, so it always removes the file. -/
theorem rollFile_onlyOpen {s : LogRun} (hs : s.OnlyOpen)
    (hlarge : s.log.file.writtenBytes > s.log.rollSize) :
    s.log.rollFile s.disk = .ok (s.rolled.log, s.rolled.disk) := by
  have hnot : ¬ s.log.file.writtenBytes < s.log.rollSize := by omega
  simp only [LogFile.rollFile, if_neg hnot, rolled, Disk.remove_single hs.named, require_of_true,
    ok_bind]
  rfl

theorem exec_append {s : LogRun} (hs : s.Open) (logline : Bytes) (written : Nat) :
    s.exec (.append logline written) = .ok
      (if s.log.file.writtenBytes + logline.length > s.log.rollSize then
        (s.appendedTo logline written).rolled else s.appendedTo logline written) := by
  have happend : s.log.append s.disk logline written =
      if s.log.file.writtenBytes + logline.length > s.log.rollSize then
        (s.appendedTo logline written).log.rollFile (s.appendedTo logline written).disk
      else .ok ((s.appendedTo logline written).log, (s.appendedTo logline written).disk) := rfl
  rw [exec, happend]
  by_cases hlarge : s.log.file.writtenBytes + logline.length > s.log.rollSize
  · rw [if_pos hlarge, if_pos hlarge, rollFile_onlyOpen
      (appendedTo_open hs logline written).toOnlyOpen hlarge]
    rfl
  · rw [if_neg hlarge, if_neg hlarge]
    rfl

theorem exec_open {s t : LogRun} {call : LogFileCall} (hs : s.Open) (hbelow : s.StaysBelow call)
    (h : s.exec call = .ok t) : t.Open := by
  cases call with
  | flush =>
      cases h
      exact flush_open hs
  | append logline written =>
      rw [exec_append hs] at h
      cases h
      have hopen := appendedTo_open hs logline written
      split
      · rename_i hlarge
        have hnone : (s.appendedTo logline written).rolled.appended = [] :=
          hbelow.resolve_left (Int.not_le.mpr hlarge)
        refine ⟨(rolled_onlyOpen hopen.toOnlyOpen).1, ?_⟩
        rw [hnone]
        exact List.nil_suffix
      · exact hopen

/-- An append that makes the file too large loses what was appended. -/
theorem exec_loses {s : LogRun} {call : LogFileCall} (hs : s.Open) (hbelow : ¬ s.StaysBelow call) :
    ∃ t, s.exec call = .ok t ∧ ¬ t.Kept := by
  cases call with
  | flush => exact absurd trivial hbelow
  | append logline written =>
      simp only [StaysBelow, not_or] at hbelow
      obtain ⟨hlarge, hsome⟩ := hbelow
      have hopen := appendedTo_open hs logline written
      refine ⟨_, exec_append hs logline written, fun hkept => ?_⟩
      rw [if_pos (Int.not_le.mp hlarge), Kept, rolled_present hopen.toOnlyOpen] at hkept
      exact hsome (List.suffix_nil.mp hkept)

/-- After every call a flush finds all bytes that were appended exactly when no
append makes the file larger than the roll size. -/
theorem kept_iff (filePath : Bytes) (rollSize : Int) (before : Option Bytes)
    (calls : List LogFileCall) :
    Always exec Kept (start filePath rollSize before) calls ↔
      Respects exec StaysBelow (start filePath rollSize before) calls :=
  always_iff_respects_of_breaks (fun _ hs => hs.kept)
    (fun _ _ _ hs hbelow h => exec_open hs hbelow h)
    (fun _ _ hs hbelow => exec_loses hs hbelow) (start_open filePath rollSize before) calls

/-- One line of twelve bytes with a roll size of ten, the default of AsyncLogging. -/
theorem not_kept_past_roll_size :
    ∃ s, run exec (start (bytesOf "a.log".toList) 10 none)
        [.append (bytesOf "hello, world".toList) 0, .flush] = .ok s ∧
      s.appended = bytesOf "hello, world".toList ∧ s.disk.present = [] ∧ ¬ s.Kept := by
  refine resultHolds_iff.mp ?_
  decide +kernel

end LogRun
end TAlib
