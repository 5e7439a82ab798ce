import Mathlib.Data.List.Count
import TAlib.Socket.Epoll

/-!
The loop of src/Reactor/EventLoop.cpp. One turn of loop() polls, dispatches the
active channels one by one, and then runs the functors that were pending when
it got to them; what is queued meanwhile waits for the next turn. Waking a loop
up only shortens its poll, which may return at any time here, so wakeup and the
channel it writes to are left out, and so are the timers.
-/

namespace TAlib

/-- Where loop() stands: in its for loop over m_activeChannels, or in
doPendingFunctors. A loop with no functor left polls next. -/
inductive Phase (φ : Type) where
  | dispatching (active : List Nat)
  | calling (functors : List φ)
  deriving DecidableEq

/-- The active channels are given by their addresses. -/
structure EventLoop (φ : Type) where
  poller : Epoll
  phase : Phase φ
  pendingFunctors : List φ

namespace EventLoop

variable {φ : Type}

def new : EventLoop φ := ⟨Epoll.new, .calling [], []⟩

def queueInLoop (loop : EventLoop φ) (f : φ) : EventLoop φ :=
  { loop with pendingFunctors := loop.pendingFunctors ++ [f] }

/-- The swap at the start of doPendingFunctors. -/
def doPendingFunctors (loop : EventLoop φ) : EventLoop φ :=
  { loop with phase := .calling loop.pendingFunctors, pendingFunctors := [] }

/-- The channels that are still to be dispatched in this turn. -/
def active (loop : EventLoop φ) : List Nat :=
  match loop.phase with
  | .dispatching active => active
  | .calling _ => []

/-- The functors that are still to be called in this turn. -/
def functors (loop : EventLoop φ) : List φ :=
  match loop.phase with
  | .dispatching _ => []
  | .calling functors => functors

variable [DecidableEq φ]

/-- How many calls of a functor the loop owes. -/
def jobs (loop : EventLoop φ) (f : φ) : Nat :=
  loop.functors.count f + loop.pendingFunctors.count f

@[simp] theorem new_jobs (f : φ) : (new : EventLoop φ).jobs f = 0 := rfl

theorem queueInLoop_jobs (loop : EventLoop φ) (f g : φ) :
    (loop.queueInLoop f).jobs g = loop.jobs g + if f = g then 1 else 0 := by
  simp only [jobs, queueInLoop, functors, List.count_append, List.count_singleton, beq_iff_eq]
  omega

theorem doPendingFunctors_jobs {loop : EventLoop φ} (h : loop.functors = []) (f : φ) :
    loop.doPendingFunctors.jobs f = loop.jobs f := by
  simp only [jobs, h, List.count_nil, Nat.zero_add]
  simp only [doPendingFunctors, functors, List.count_nil, Nat.add_zero]

/-- Taking the next functor pays one of its calls. -/
theorem calling_jobs {loop : EventLoop φ} {f : φ} {rest : List φ}
    (h : loop.phase = .calling (f :: rest)) (g : φ) :
    loop.jobs g = jobs { loop with phase := .calling rest } g + if f = g then 1 else 0 := by
  simp only [jobs, functors, h, List.count_cons, beq_iff_eq]
  omega

end EventLoop
end TAlib
