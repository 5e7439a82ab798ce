import Mathlib.Data.Prod.Lex
import TAlib.Common.TimeStamp
import TAlib.Foundation.OrderedSet
import TAlib.Foundation.Runs

/-!
The timers of src/Reactor/TimerQueue.h and TimerQueue.cpp, used by the loop
thread, with runAt, runAfter and runEvery of EventLoop. A Timer* is an address;
which addresses new returns is the choice of whoever calls. handleRead is taken
apart at its for loop, because a callback may add and cancel timers: it starts,
calls one callback after the other, and finishes. Every reading of the clock is
an argument.
-/

namespace TAlib

open Foundation

/-- `m_repeat` is `interval > 0.0`, both being constant. -/
structure Timer where
  expiration : TimeStamp
  interval : Seconds
  sequence : Int
  deriving DecidableEq

namespace Timer

def repeats (t : Timer) : Bool := t.interval.positive

def restart (t : Timer) (now : TimeStamp) : Except Fault Timer :=
  if t.repeats then do
    let expiration ← TimeStamp.addTime now t.interval
    return { t with expiration := expiration }
  else .ok { t with expiration := TimeStamp.invalid }

end Timer

/-- std::pair<TimeStamp, Timer*>, compared by the time first. -/
abbrev Entry := TimeStamp ×ₗ Nat

/-- std::pair<Timer*, int64_t>, which is also what a TimerId holds. -/
abbrev ActiveTimer := Nat ×ₗ Int

/-- UINTPTR_MAX, behind the address of every object. -/
def uintptrMax : Nat := 2 ^ 64 - 1

structure TimeSpec where
  tvSec : Int
  tvNsec : Int
  deriving DecidableEq

/-- A timerfd without an interval. `instant` is when it was armed. -/
inductive TimerFd where
  | disarmed
  | armed (instant : TimeStamp) (delay : TimeSpec)
  | readable
  deriving DecidableEq

namespace TimerFd

def howMuchTimeFromNow (when now : TimeStamp) : Except Fault TimeSpec := do
  let microseconds ← int64 (when - now)
  let microseconds := if microseconds < 100 then 100 else microseconds
  return ⟨microseconds / kMicroSecondsPerSecond, microseconds % kMicroSecondsPerSecond * 1000⟩

/-- timerfd_settime, for which a time of zero disarms. -/
def settime (clock : TimeStamp) (delay : TimeSpec) : TimerFd :=
  if delay = ⟨0, 0⟩ then .disarmed else .armed clock delay

def resetTimerfd (expiration clock : TimeStamp) : Except Fault TimerFd := do
  let delay ← howMuchTimeFromNow expiration clock
  return settime clock delay

/-- Reading takes the expiration away; without one the read fails, to the log only. -/
def readTimerfd : TimerFd → TimerFd
  | .readable => .disarmed
  | fd => fd

end TimerFd

structure TimerQueue where
  heap : Nat → Option Timer
  numCreated : Int
  timers : OrderedSet Entry
  activeTimers : OrderedSet ActiveTimer
  callingExpiredTimers : Bool
  cancelingTimers : OrderedSet ActiveTimer
  timerfd : TimerFd

namespace TimerQueue

def new : TimerQueue := ⟨fun _ => none, 0, .empty, .empty, false, .empty, .disarmed⟩

def deref (q : TimerQueue) (p : Nat) : Except Fault Timer :=
  match q.heap p with
  | some t => .ok t
  | none => .error .dangling

/-- Also the assignment through a Timer*, and delete. -/
def store (q : TimerQueue) (p : Nat) (t : Option Timer) : TimerQueue :=
  { q with heap := Function.update q.heap p t }

def insert (q : TimerQueue) (timer : Nat) : Except Fault (Bool × TimerQueue) := do
  require (q.timers.size = q.activeTimers.size) .insertSizesBefore
  let t ← q.deref timer
  let earliestChanged :=
    match q.timers.first with
    | none => true
    | some e => t.expiration < (ofLex e).1
  require (toLex (t.expiration, timer) ∉ q.timers) .insertTimers
  let q := { q with timers := q.timers.insert (toLex (t.expiration, timer)) }
  require (toLex (timer, t.sequence) ∉ q.activeTimers) .insertActiveTimers
  let q := { q with activeTimers := q.activeTimers.insert (toLex (timer, t.sequence)) }
  require (q.timers.size = q.activeTimers.size) .insertSizesAfter
  return (earliestChanged, q)

def addTimerInLoop (q : TimerQueue) (timer : Nat) (clock : TimeStamp) :
    Except Fault TimerQueue := do
  let (earliestChanged, q) ← q.insert timer
  if earliestChanged then do
    let t ← q.deref timer
    let timerfd ← TimerFd.resetTimerfd t.expiration clock
    return { q with timerfd := timerfd }
  else return q

/-- `timer` is the address that new returns. -/
def addTimer (q : TimerQueue) (timer : Nat) (when : TimeStamp) (interval : Seconds)
    (clock : TimeStamp) : Except Fault (ActiveTimer × TimerQueue) := do
  let sequence := q.numCreated + 1
  let q := { q.store timer (some ⟨when, interval, sequence⟩) with numCreated := sequence }
  let q ← q.addTimerInLoop timer clock
  let t ← q.deref timer
  return (toLex (timer, t.sequence), q)

/-- The timer is erased from m_timers and deleted, and stays in m_activeTimers. -/
def cancelInLoop (q : TimerQueue) (timerId : ActiveTimer) : Except Fault TimerQueue := do
  require (q.timers.size = q.activeTimers.size) .cancelSizesBefore
  if timerId ∈ q.activeTimers then do
    let timer := (ofLex timerId).1
    let t ← q.deref timer
    let n := if toLex (t.expiration, timer) ∈ q.timers then 1 else 0
    let q := { q with timers := q.timers.erase (toLex (t.expiration, timer)) }
    require (n = 1) .cancelErased
    let q := q.store timer none
    require (q.timers.size = q.activeTimers.size) .cancelSizesAfter
    return q
  else do
    let q :=
      if q.callingExpiredTimers then
        { q with cancelingTimers := q.cancelingTimers.insert timerId }
      else q
    require (q.timers.size = q.activeTimers.size) .cancelSizesAfter
    return q

/-- The for loop of getExpired. -/
def eraseActive : TimerQueue → List Entry → Except Fault TimerQueue
  | q, [] => .ok q
  | q, e :: expired => do
      let timer := (ofLex e).2
      let t ← q.deref timer
      let n := if toLex (timer, t.sequence) ∈ q.activeTimers then 1 else 0
      let q := { q with activeTimers := q.activeTimers.erase (toLex (timer, t.sequence)) }
      require (n = 1) .getExpiredErased
      q.eraseActive expired

def getExpired (q : TimerQueue) (now : TimeStamp) : Except Fault (List Entry × TimerQueue) := do
  let sentry : Entry := toLex (now, uintptrMax)
  let expired := q.timers.below sentry
  let q := { q with timers := q.timers.dropBelow sentry }
  require (∀ e ∈ q.timers.first, now < (ofLex e).1) .getExpiredBound
  let q ← q.eraseActive expired
  require (q.timers.size = q.activeTimers.size) .getExpiredSizes
  return (expired, q)

/-- handleRead up to its for loop. -/
def startHandling (q : TimerQueue) (now : TimeStamp) : Except Fault (List Entry × TimerQueue) := do
  let q := { q with timerfd := q.timerfd.readTimerfd }
  let (expired, q) ← q.getExpired now
  return (expired, { q with callingExpiredTimers := true, cancelingTimers := .empty })

/-- The for loop of reset. -/
def restartEach : TimerQueue → TimeStamp → List Entry → Except Fault TimerQueue
  | q, _, [] => .ok q
  | q, now, e :: expired => do
      let timer := (ofLex e).2
      let t ← q.deref timer
      if t.repeats ∧ toLex (timer, t.sequence) ∉ q.cancelingTimers then do
        let t ← t.restart now
        let (_, q) ← (q.store timer (some t)).insert timer
        q.restartEach now expired
      else (q.store timer none).restartEach now expired

/-- The expiration of the first timer, or an invalid time. -/
def nextExpire (q : TimerQueue) : Except Fault TimeStamp :=
  match q.timers.first with
  | none => .ok TimeStamp.invalid
  | some e => do
      let t ← q.deref (ofLex e).2
      return t.expiration

def reset (q : TimerQueue) (expired : List Entry) (now clock : TimeStamp) :
    Except Fault TimerQueue := do
  let q ← q.restartEach now expired
  let nextExpire ← q.nextExpire
  if nextExpire.valid then do
    let timerfd ← TimerFd.resetTimerfd nextExpire clock
    return { q with timerfd := timerfd }
  else return q

/-- handleRead behind its for loop. -/
def finishHandling (q : TimerQueue) (expired : List Entry) (now clock : TimeStamp) :
    Except Fault TimerQueue :=
  reset { q with callingExpiredTimers := false } expired now clock

/-- EventLoop::runAt, runAfter and runEvery, called by the loop thread. -/
def runAt (q : TimerQueue) (timer : Nat) (time clock : TimeStamp) :
    Except Fault (ActiveTimer × TimerQueue) :=
  q.addTimer timer time Seconds.zero clock

def runAfter (q : TimerQueue) (timer : Nat) (delay : Seconds) (now clock : TimeStamp) :
    Except Fault (ActiveTimer × TimerQueue) := do
  let time ← TimeStamp.addTime now delay
  q.runAt timer time clock

def runEvery (q : TimerQueue) (timer : Nat) (interval : Seconds) (now clock : TimeStamp) :
    Except Fault (ActiveTimer × TimerQueue) := do
  let time ← TimeStamp.addTime now interval
  q.addTimer timer time interval clock

end TimerQueue
end TAlib
