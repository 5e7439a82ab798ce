import TAlib.Common.Outcome
import TAlib.Foundation.Disk

/-!
The log file of src/Logger/LogFile.h and LogFile.cpp over the AppendFile of
FileUtil.h and FileUtil.cpp. The calls of the system succeed: a file that is
opened is there, and fwrite takes all it is given, so the loop behind it has
nothing to do. What a FILE holds back of the bytes it was given is up to the
library, so it is chosen anew with each append. The calls of one object come one
after another, under its mutex or from its only thread.
-/

namespace TAlib

open Foundation

abbrev LogDisk := Disk Bytes UInt8

/-- FileUtil::AppendFile. The bytes that fp has not written yet are `pending`. -/
structure AppendFile where
  fp : Nat
  pending : Bytes
  writtenBytes : Int
  deriving DecidableEq, Repr

namespace AppendFile

/-- Opened with "ae", and then asked for its size. -/
def new (filePath : Bytes) (d : LogDisk) : AppendFile × LogDisk :=
  let (fp, d) := d.openAppend filePath
  (⟨fp, [], d.size filePath⟩, d)

/-- The destructor. fclose writes what is pending. -/
def close (f : AppendFile) (d : LogDisk) : LogDisk := d.append f.fp f.pending

/-- The first `written` of the pending bytes reach the file. -/
def append (f : AppendFile) (d : LogDisk) (logline : Bytes) (written : Nat) :
    AppendFile × LogDisk :=
  let pending := f.pending ++ logline
  (⟨f.fp, pending.drop written, f.writtenBytes + logline.length⟩,
    d.append f.fp (pending.take written))

def flush (f : AppendFile) (d : LogDisk) : AppendFile × LogDisk :=
  ({ f with pending := [] }, d.append f.fp f.pending)

end AppendFile

structure LogFile where
  filePath : Bytes
  rollSize : Int
  file : AppendFile
  deriving DecidableEq, Repr

namespace LogFile

def new (filePath : Bytes) (rollSize : Int) (d : LogDisk) : LogFile × LogDisk :=
  let (file, d) := AppendFile.new filePath d
  (⟨filePath, rollSize, file⟩, d)

/-- m_file.reset(new AppendFile(m_filePath)): the new file is opened before the old
one is closed. -/
def reopen (l : LogFile) (d : LogDisk) : LogFile × LogDisk :=
  let (file, d) := AppendFile.new l.filePath d
  ({ l with file := file }, l.file.close d)

def rollFile (l : LogFile) (d : LogDisk) : Except Fault (LogFile × LogDisk) :=
  if l.file.writtenBytes < l.rollSize then .ok (l.reopen d)
  else do
    let (removed, d) := d.remove l.filePath
    require (removed = true) .rollFileRemoved
    return l.reopen d

/-- append and append_unlocked. -/
def append (l : LogFile) (d : LogDisk) (logline : Bytes) (written : Nat) :
    Except Fault (LogFile × LogDisk) :=
  let (file, d) := l.file.append d logline written
  let l := { l with file := file }
  if l.file.writtenBytes > l.rollSize then l.rollFile d else .ok (l, d)

def flush (l : LogFile) (d : LogDisk) : LogFile × LogDisk :=
  let (file, d) := l.file.flush d
  ({ l with file := file }, d)

end LogFile

/-- A log file, the disk it is on, and all bytes that were appended to it. -/
structure LogRun where
  log : LogFile
  disk : LogDisk
  appended : Bytes
  deriving DecidableEq, Repr

inductive LogFileCall where
  | append (logline : Bytes) (written : Nat)
  | flush
  deriving DecidableEq, Repr

namespace LogRun

/-- What stands at the path before, if there is a file. -/
def start (filePath : Bytes) (rollSize : Int) (before : Option Bytes) : LogRun :=
  let d : LogDisk := match before with
    | none => ⟨[], []⟩
    | some bytes => ⟨[bytes], [(filePath, 0)]⟩
  let (log, d) := LogFile.new filePath rollSize d
  ⟨log, d, []⟩

def flush (s : LogRun) : LogRun :=
  let (log, d) := s.log.flush s.disk
  { s with log := log, disk := d }

def exec (s : LogRun) : LogFileCall → Except Fault LogRun
  | .append logline written => do
      let (log, d) ← s.log.append s.disk logline written
      return ⟨log, d, s.appended ++ logline⟩
  | .flush => .ok s.flush

end LogRun
end TAlib
