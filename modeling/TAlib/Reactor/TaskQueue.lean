import Mathlib.Logic.Function.Basic
import TAlib.Foundation.MachineInt
import TAlib.Foundation.Runs

/-!
The task queue of src/Reactor/EventLoop.cpp step by step: any thread may push a
functor under the mutex and wakes the loop up in a second step, while the loop
thread polls, dispatches, and runs what it swapped out of the queue. A poll may
return at any time and with any channels, the wakeup channel among them or not.
Handlers and functors are arbitrary code, which here only queues functors. The
loop is not told to quit.
-/

namespace TAlib

open Foundation

/-- The largest value that the counter of an eventfd takes. -/
def eventfdMax : Nat := 2 ^ 64 - 2

/-- An active channel: that of the wakeup fd, or another one. -/
inductive Source where
  | wakeup
  | other
  deriving DecidableEq

/-- Where the loop thread stands. -/
inductive LoopPoint (φ : Type) where
  /-- loop() is not called yet. -/
  | outside
  /-- In poll, or about to call it. -/
  | polling
  | dispatching (active : List Source)
  /-- In a handler, with these channels still to come. -/
  | handling (active : List Source)
  /-- At the start of doPendingFunctors. -/
  | flagging
  | swapping
  /-- At the condition of the for loop of doPendingFunctors. -/
  | batch (functors : List φ)
  /-- In a functor, with these still to come. -/
  | calling (functors : List φ)
  deriving DecidableEq

/-- `pushed` says which other threads stand between their push and their
wakeup, `queueing` whether the loop thread does; `executed` are the functors
that were called. -/
structure TaskLoop (φ : Type) where
  point : LoopPoint φ
  queueing : Bool
  callingPendingFunctors : Bool
  pendingFunctors : List φ
  wakeupCounter : Nat
  pushed : Nat → Bool
  executed : List φ

inductive TaskStep (φ : Type) where
  /-- Another thread, first half of queueInLoop. -/
  | push (thread : Nat) (f : φ)
  /-- Another thread, second half of queueInLoop. -/
  | wake (thread : Nat)
  /-- The loop thread, in a handler or a functor, first half of queueInLoop. -/
  | queue (f : φ)
  /-- The loop thread, second half of queueInLoop. -/
  | finishQueue
  /-- loop() is called. -/
  | loop
  | poll (active : List Source)
  /-- The handler or functor that runs returns. -/
  | back
  /-- The next statement of loop() or doPendingFunctors. -/
  | next
  deriving DecidableEq

/-- The thread does not stand where the step begins. -/
inductive NotThere where
  | notThere
  deriving DecidableEq

namespace TaskLoop

variable {φ : Type}

def new : TaskLoop φ := ⟨.outside, false, false, [], 0, fun _ => false, []⟩

/-- A write that would pass the largest value is refused, and logged. -/
def wakeup (s : TaskLoop φ) : TaskLoop φ :=
  if s.wakeupCounter < eventfdMax then { s with wakeupCounter := s.wakeupCounter + 1 } else s

/-- Reading an eventfd sets its counter back. -/
def handleRead (s : TaskLoop φ) : TaskLoop φ := { s with wakeupCounter := 0 }

/-- The locked part of queueInLoop. -/
def pushBack (s : TaskLoop φ) (f : φ) : TaskLoop φ :=
  { s with pendingFunctors := s.pendingFunctors ++ [f] }

/-- User code runs in the loop thread. -/
def inCallBack (s : TaskLoop φ) : Bool :=
  match s.point with
  | .handling _ | .calling _ => true
  | _ => false

/-- A statement of loop() or doPendingFunctors in the loop thread. -/
def advance (s : TaskLoop φ) : Except NotThere (TaskLoop φ) :=
  match s.point with
  | .dispatching (.wakeup :: active) => .ok { s.handleRead with point := .dispatching active }
  | .dispatching (.other :: active) => .ok { s with point := .handling active }
  | .dispatching [] => .ok { s with point := .flagging }
  | .flagging => .ok { s with callingPendingFunctors := true, point := .swapping }
  | .swapping => .ok { s with pendingFunctors := [], point := .batch s.pendingFunctors }
  | .batch (f :: functors) =>
      .ok { s with executed := s.executed ++ [f], point := .calling functors }
  | .batch [] => .ok { s with callingPendingFunctors := false, point := .polling }
  | _ => .error .notThere

def back (s : TaskLoop φ) : Except NotThere (TaskLoop φ) :=
  match s.point with
  | .handling active => .ok { s with point := .dispatching active }
  | .calling functors => .ok { s with point := .batch functors }
  | _ => .error .notThere

def exec (s : TaskLoop φ) : TaskStep φ → Except NotThere (TaskLoop φ)
  | .push thread f =>
      if s.pushed thread then .error .notThere
      else .ok { s.pushBack f with pushed := Function.update s.pushed thread true }
  | .wake thread =>
      if s.pushed thread then
        .ok { s.wakeup with pushed := Function.update s.pushed thread false }
      else .error .notThere
  | .queue f =>
      if s.inCallBack ∧ s.queueing = false then .ok { s.pushBack f with queueing := true }
      else .error .notThere
  | .finishQueue =>
      if s.queueing then
        .ok { (if s.callingPendingFunctors then s.wakeup else s) with queueing := false }
      else .error .notThere
  | .loop =>
      match s.point with
      | .outside => .ok { s with point := .polling }
      | _ => .error .notThere
  | .poll active =>
      match s.point with
      | .polling => .ok { s with point := .dispatching active }
      | _ => .error .notThere
  | .back => if s.queueing then .error .notThere else s.back
  | .next => s.advance

/-- The functors that the running doPendingFunctors has still to call. -/
def rest (s : TaskLoop φ) : List φ :=
  match s.point with
  | .batch functors | .calling functors => functors
  | _ => []

end TaskLoop

/-- The functors that the steps push, in the order of the pushes. -/
def queuedBy {φ : Type} (steps : List (TaskStep φ)) : List φ :=
  steps.filterMap fun step =>
    match step with
    | .push _ f | .queue f => some f
    | _ => none

@[simp] theorem queuedBy_append {φ : Type} (steps steps' : List (TaskStep φ)) :
    queuedBy (steps ++ steps') = queuedBy steps ++ queuedBy steps' := List.filterMap_append ..

end TAlib
