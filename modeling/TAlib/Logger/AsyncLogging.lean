import TAlib.Foundation.Runs
import TAlib.Logger.LogBuffer

/-!
Asynchronous logging, from src/Logger/AsyncLogging.h and AsyncLogging.cpp: the
buffers behind the mutex, the thread that writes them out, and a caller of
stop(). A step is a whole append or what one thread does between two points
where others can get in. The wait on the condition variable is bounded by a
timeout and may also end for no reason, so it can end at any moment and the
notifications need no state. What output.append is given is the output; what
LogFile makes of it is modelled apart.
-/

namespace TAlib

open Foundation LogBuffer

/-- The members that the threads share. -/
structure AsyncLogging where
  isRunning : Bool
  currentBuffer : Option (LogBuffer kLargeBuffer)
  nextBuffer : Option (LogBuffer kLargeBuffer)
  buffers : PtrVector (LogBuffer kLargeBuffer)
  deriving DecidableEq

namespace AsyncLogging

def new : AsyncLogging := ⟨false, some LogBuffer.new, some LogBuffer.new, []⟩

/-- One call of append, under m_mutex from its first line to its last. -/
def append (a : AsyncLogging) (line : Bytes) : Except Fault AsyncLogging :=
  match a.currentBuffer with
  | none => .error .nullPointer
  | some current =>
      if current.avail > line.length then
        .ok { a with currentBuffer := some (current.append line) }
      else do
        let buffers ← PtrVector.pushBack a.buffers (some current)
        let current := a.nextBuffer.getD LogBuffer.new
        return { a with
          buffers := buffers
          nextBuffer := none
          currentBuffer := some (current.append line) }

end AsyncLogging

/-- Where the thread stands in threadRoutine. -/
inductive RoutinePoint where
  /-- Started, before the assert. -/
  | entry
  /-- At the condition of the while loop. -/
  | test
  /-- In the loop, about to take m_mutex. -/
  | lock
  | wait
  /-- At the condition of the for loop, for this index. -/
  | write (i : Nat)
  | recycle
  | ended
  deriving DecidableEq

/-- The locals of threadRoutine. -/
structure ThreadRoutine where
  point : RoutinePoint
  backupBuffer1 : Option (LogBuffer kLargeBuffer)
  backupBuffer2 : Option (LogBuffer kLargeBuffer)
  buffersToWrite : PtrVector (LogBuffer kLargeBuffer)
  deriving DecidableEq

/-- Where the caller of stop() stands. -/
inductive StopPoint where
  | notCalled
  /-- In stop(), before its first statement. -/
  | clearing
  | notifying
  | joining
  /-- In m_thread.join(), waiting for the thread. -/
  | joined
  | returned
  deriving DecidableEq

structure Logging where
  logger : AsyncLogging
  isStarted : Bool
  isJoined : Bool
  routine : ThreadRoutine
  stopPoint : StopPoint
  output : Bytes
  deriving DecidableEq

/-- What can happen next: a call of append by some thread, a step of
threadRoutine, a step of the caller of stop(). -/
inductive LogStep where
  | append (line : Bytes)
  | routine
  | stop
  deriving DecidableEq

namespace Logging

/-- The section of threadRoutine that ends with the release of m_mutex, from
the end of the wait on, and the assert behind it. -/
def swap (s : Logging) : Except Fault Logging := do
  let a := s.logger
  let r := s.routine
  let filled ← PtrVector.pushBack a.buffers a.currentBuffer
  let a := { a with currentBuffer := r.backupBuffer1 }
  let a := { a with buffers := r.buffersToWrite }
  let r := { r with backupBuffer1 := none, buffersToWrite := filled }
  let (a, r) :=
    if a.nextBuffer = none then
      ({ a with nextBuffer := r.backupBuffer2 }, { r with backupBuffer2 := none })
    else (a, r)
  require (r.buffersToWrite ≠ []) .buffersToWriteFilled
  return { s with logger := a, routine := { r with point := .write 0 } }

/-- Gives a missing backup buffer one of the buffers that were written. -/
def refill (backup : Option (LogBuffer kLargeBuffer)) (v : PtrVector (LogBuffer kLargeBuffer))
    (source : Assertion) :
    Except Fault (Option (LogBuffer kLargeBuffer) × PtrVector (LogBuffer kLargeBuffer)) :=
  match backup with
  | some b => .ok (some b, v)
  | none => do
      require (v ≠ []) source
      let (b, v) ← PtrVector.popBack v
      return (some b.reset, v)

/-- Two of the written buffers are enough to refill the backups. -/
def trim (v : PtrVector (LogBuffer kLargeBuffer)) :
    Except Fault (PtrVector (LogBuffer kLargeBuffer)) :=
  if v.length > 2 then PtrVector.resize LogBuffer.new v 2 else .ok v

/-- What follows the for loop of threadRoutine. -/
def recycle (r : ThreadRoutine) : Except Fault ThreadRoutine := do
  let v ← trim r.buffersToWrite
  let (backup1, v) ← refill r.backupBuffer1 v .backupBuffer1Source
  let (backup2, _) ← refill r.backupBuffer2 v .backupBuffer2Source
  return ⟨.test, backup1, backup2, []⟩

def setPoint (s : Logging) (point : RoutinePoint) : Logging :=
  { s with routine := { s.routine with point := point } }

def routineStep (s : Logging) : Except Fault Logging :=
  match s.routine.point with
  | .entry => do
      require (s.logger.isRunning = true) .threadRoutineRunning
      return s.setPoint .test
  | .test =>
      if s.logger.isRunning then do
        require (s.routine.buffersToWrite = []) .buffersToWriteEmpty
        return s.setPoint .lock
      else .ok (s.setPoint .ended)
  | .lock => if s.logger.buffers = [] then .ok (s.setPoint .wait) else s.swap
  | .wait => s.swap
  | .write i =>
      if i < s.routine.buffersToWrite.length then do
        let b ← PtrVector.get s.routine.buffersToWrite i
        return { s.setPoint (.write (i + 1)) with output := s.output ++ b.data }
      else .ok (s.setPoint .recycle)
  | .recycle => do
      let r ← recycle s.routine
      return { s with routine := r }
  | .ended => .ok s

/-- stop(), with join() taken apart: it blocks until the thread has ended. -/
def stopStep (s : Logging) : Except Fault Logging :=
  match s.stopPoint with
  | .notCalled => .ok { s with stopPoint := .clearing }
  | .clearing =>
      .ok { s with logger := { s.logger with isRunning := false }, stopPoint := .notifying }
  | .notifying => .ok { s with stopPoint := .joining }
  | .joining => do
      require (s.isStarted = true) .threadJoinStarted
      require (s.isJoined = false) .threadJoinOnce
      return { s with isJoined := true, stopPoint := .joined }
  | .joined =>
      if s.routine.point = .ended then .ok { s with stopPoint := .returned } else .ok s
  | .returned => .ok s

def exec (s : Logging) : LogStep → Except Fault Logging
  | .append line => do
      let a ← s.logger.append line
      return { s with logger := a }
  | .routine => s.routineStep
  | .stop => s.stopStep

/-- After start() on a new AsyncLogging: the thread exists and has not run. -/
def started : Logging :=
  { logger := { AsyncLogging.new with isRunning := true }
    isStarted := true
    isJoined := false
    routine := ⟨.entry, some LogBuffer.new, some LogBuffer.new, []⟩
    stopPoint := .notCalled
    output := [] }

end Logging

/-- The lines of the calls of append among the steps, in lock order. -/
def linesOf (steps : List LogStep) : List Bytes :=
  steps.filterMap fun step =>
    match step with
    | .append line => some line
    | _ => none

@[simp] theorem linesOf_append (steps steps' : List LogStep) :
    linesOf (steps ++ steps') = linesOf steps ++ linesOf steps' := List.filterMap_append ..

end TAlib
