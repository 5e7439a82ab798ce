import TAlib.Reactor.TimerQueue

/-!
Runs of the loop thread's timers: calls that add and cancel timers, between
events or from a callback that runs, and the parts of handleRead. What happened
is recorded: the timers as they were created, those that were run, and the ids
that were given to cancel.
-/

namespace TAlib

/-- A handleRead at its for loop: the time it took, the expired timers, and
those whose callbacks are still to come. -/
structure Batch where
  now : TimeStamp
  expired : List Entry
  remaining : List Entry
  deriving DecidableEq

/-- A timer that was run, as it was then. -/
structure Firing where
  address : Nat
  timer : Timer
  now : TimeStamp
  deriving DecidableEq

structure TimerLoop where
  queue : TimerQueue
  batch : Option Batch
  added : List (Nat × Timer)
  fired : List Firing
  cancelled : List ActiveTimer

inductive TimerCall where
  | addTimer (timer : Nat) (when : TimeStamp) (interval : Seconds) (clock : TimeStamp)
  | runAt (timer : Nat) (time clock : TimeStamp)
  | runAfter (timer : Nat) (delay : Seconds) (now clock : TimeStamp)
  | runEvery (timer : Nat) (interval : Seconds) (now clock : TimeStamp)
  | cancel (timerId : ActiveTimer)
  /-- The time of the timerfd is up. -/
  | expire
  /-- handleRead begins, unless it is running. -/
  | handleRead (now : TimeStamp)
  /-- The callback of the next expired timer is called. -/
  | callBack
  /-- handleRead goes on behind its for loop and returns. -/
  | finish (clock : TimeStamp)
  deriving DecidableEq

namespace TimerLoop

def new : TimerLoop := ⟨.new, none, [], [], []⟩

def record (s : TimerLoop) (created : Except Fault (ActiveTimer × TimerQueue)) :
    Except Fault TimerLoop := do
  let (id, queue) ← created
  let t ← queue.deref (ofLex id).1
  return { s with queue := queue, added := s.added ++ [((ofLex id).1, t)] }

def expire (s : TimerLoop) : TimerLoop :=
  match s.queue.timerfd with
  | .armed _ _ => { s with queue := { s.queue with timerfd := .readable } }
  | _ => s

def exec (s : TimerLoop) : TimerCall → Except Fault TimerLoop
  | .addTimer timer when interval clock => s.record (s.queue.addTimer timer when interval clock)
  | .runAt timer time clock => s.record (s.queue.runAt timer time clock)
  | .runAfter timer delay now clock => s.record (s.queue.runAfter timer delay now clock)
  | .runEvery timer interval now clock => s.record (s.queue.runEvery timer interval now clock)
  | .cancel timerId => do
      let queue ← s.queue.cancelInLoop timerId
      return { s with queue := queue, cancelled := s.cancelled ++ [timerId] }
  | .expire => .ok s.expire
  | .handleRead now =>
      match s.batch with
      | some _ => .ok s
      | none => do
          let (expired, queue) ← s.queue.startHandling now
          return { s with queue := queue, batch := some ⟨now, expired, expired⟩ }
  | .callBack =>
      match s.batch with
      | some ⟨now, expired, e :: remaining⟩ => do
          let t ← s.queue.deref (ofLex e).2
          return { s with
            batch := some ⟨now, expired, remaining⟩
            fired := s.fired ++ [⟨(ofLex e).2, t, now⟩] }
      | _ => .ok s
  | .finish clock =>
      match s.batch with
      | some ⟨now, expired, []⟩ => do
          let queue ← s.queue.finishHandling expired now clock
          return { s with queue := queue, batch := none }
      | _ => .ok s

end TimerLoop
end TAlib
