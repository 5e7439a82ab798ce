import TAlib.Common.Outcome

/-!
The channel of src/Reactor/Channel.h and Channel.cpp: an fd, the events waited
for, the events that happened, and the callbacks they are dispatched to. The
callbacks are left abstract; running one is a step of whatever state the owner
of the channel lives in. The operations that talk to the poller are with the
poller.
-/

namespace TAlib

open Foundation

/-- A set of epoll events. -/
abbrev Events := BitVec 32

def EPOLLIN : Events := 0x1
def EPOLLPRI : Events := 0x2
def EPOLLOUT : Events := 0x4
def EPOLLERR : Events := 0x8
def EPOLLHUP : Events := 0x10
def EPOLLRDHUP : Events := 0x2000

def kNoneEvent : Events := 0
def kReadEvent : Events := EPOLLIN ||| EPOLLPRI
def kWriteEvent : Events := EPOLLOUT

/-- The two sets have an event in common. -/
def Meets (a b : Events) : Prop := a &&& b ≠ 0

instance (a b : Events) : Decidable (Meets a b) := inferInstanceAs (Decidable (_ ≠ _))

/-- `address` is which object this is: what a comparison of pointers sees. -/
structure Channel (γ : Type) where
  address : Nat
  fd : Nat
  events : Events
  revents : Events
  index : Int
  addedToLoop : Bool
  readCallBack : Option γ
  writeCallBack : Option γ
  errorCallBack : Option γ
  closeCallBack : Option γ
  deriving DecidableEq

namespace Channel

variable {γ : Type}

def new (address fd : Nat) : Channel γ :=
  ⟨address, fd, 0, 0, -1, false, none, none, none, none⟩

def setReadCallBack (ch : Channel γ) (cb : γ) : Channel γ := { ch with readCallBack := some cb }

def setWriteCallBack (ch : Channel γ) (cb : γ) : Channel γ := { ch with writeCallBack := some cb }

def setErrorCallBack (ch : Channel γ) (cb : γ) : Channel γ := { ch with errorCallBack := some cb }

def setCloseCallBack (ch : Channel γ) (cb : γ) : Channel γ := { ch with closeCallBack := some cb }

def setRevents (ch : Channel γ) (revents : Events) : Channel γ := { ch with revents := revents }

def isNoneEvent (ch : Channel γ) : Bool := ch.events = kNoneEvent

-- the query assigns: `return m_events &= kWriteEvent`
def isWriting (ch : Channel γ) : Bool × Channel γ :=
  let events := ch.events &&& kWriteEvent
  (events ≠ 0, { ch with events := events })

def isReading (ch : Channel γ) : Bool × Channel γ :=
  let events := ch.events &&& kReadEvent
  (events ≠ 0, { ch with events := events })

section HandleEvent

variable {σ : Type} (channel : σ → Channel γ) (call : γ → σ → Except Fault σ)

/-- One branch of handleEvent: the callback is looked up in the channel as it
is when the branch is reached, and skipped when it is not set. -/
def fire (cond : Prop) [Decidable cond] (callBack : Channel γ → Option γ) (s : σ) :
    Except Fault σ :=
  if cond then
    match callBack (channel s) with
    | some cb => call cb s
    | none => .ok s
  else .ok s

/-- handleEvent of the epoll build, on the state that holds the channel. -/
def handleEvent (s : σ) : Except Fault σ := do
  let s ← fire channel call
    (Meets (channel s).revents EPOLLHUP ∧ ¬ Meets (channel s).revents EPOLLIN) closeCallBack s
  let s ← fire channel call (Meets (channel s).revents EPOLLERR) errorCallBack s
  let s ← fire channel call
    (Meets (channel s).revents (EPOLLIN ||| EPOLLPRI ||| EPOLLRDHUP)) readCallBack s
  fire channel call (Meets (channel s).revents EPOLLOUT) writeCallBack s

end HandleEvent
end Channel

section Masks

theorem write_and_read : kWriteEvent &&& kReadEvent = 0 := by decide

/-- What isWriting leaves of a set of events has no read interest. -/
theorem and_write_and_read (e : Events) : e &&& kWriteEvent &&& kReadEvent = 0 := by
  rw [BitVec.and_assoc, write_and_read]
  exact BitVec.and_zero

theorem and_write_and_write (e : Events) :
    e &&& kWriteEvent &&& kWriteEvent = e &&& kWriteEvent := by
  rw [BitVec.and_assoc, BitVec.and_self]

theorem or_and_self (e w : Events) : (e ||| w) &&& w = w := by
  ext i hi
  simp only [BitVec.getElem_and, BitVec.getElem_or]
  cases w[i] <;> simp

theorem and_not_and_self (e w : Events) : e &&& ~~~w &&& w = 0 := by
  ext i hi
  simp

/-- A mask keeps a set of events exactly when nothing lies outside the mask. -/
theorem and_eq_self_iff {e w : Events} : e &&& w = e ↔ e &&& ~~~w = 0 := by
  constructor
  · intro h
    rw [← h, BitVec.and_assoc, BitVec.and_not_self]
    exact BitVec.and_zero
  · intro h
    ext i hi
    have hbit := congrArg (fun x : Events => x[i]) h
    simp only [BitVec.getElem_and, BitVec.getElem_not] at hbit
    simp only [BitVec.getElem_and]
    cases he : e[i] with
    | false => rfl
    | true =>
        rw [he] at hbit
        simpa using hbit

/-- Events within a mask do not meet what lies outside of it. -/
theorem not_meets_of_within {e m w : Events} (h : e &&& ~~~m = 0) (hw : m &&& w = 0) :
    ¬ Meets e w := by
  rw [← and_eq_self_iff] at h
  intro hmeets
  apply hmeets
  rw [← h, BitVec.and_assoc, hw]
  exact BitVec.and_zero

/-- The write interest is a single bit. -/
theorem and_write_eq {e : Events} (h : Meets e kWriteEvent) : e &&& kWriteEvent = kWriteEvent := by
  have hpow : kWriteEvent = BitVec.twoPow 32 2 := by decide
  rw [Meets, hpow, BitVec.and_twoPow] at h
  rw [hpow, BitVec.and_twoPow]
  split
  · rfl
  · rename_i hbit
    rw [if_neg hbit] at h
    exact absurd rfl h

/-- The write interest is the only event that isWriting keeps. -/
theorem meets_and_write {e : Events} :
    Meets (e &&& kWriteEvent) kWriteEvent ↔ Meets e kWriteEvent := by
  simp only [Meets, and_write_and_write]

theorem meets_or_write (e : Events) : Meets (e ||| kWriteEvent) kWriteEvent := by
  simp only [Meets, or_and_self]
  decide

end Masks
end TAlib
