import TAlib.Foundation.MachineInt
import TAlib.Reactor.Channel

/-!
The poller of src/Socket/Epoll.cpp together with the interest list that the
kernel keeps for it, and the operations of a channel that change what is
registered. epoll_ctl reports a failure to the log only, so a call that the
kernel refuses changes nothing and the code goes on. A channel calls the poller
of the loop that owns it, so the owner asserts of EventLoop compare a loop with
itself and are left out.
-/

namespace TAlib

open Foundation

def kMaxEpollConcurrencySize : Nat := 10000

def kInitEpollEventsSize : Nat := 1024

/-- `channels` is m_channels, which maps an fd to the channel that has it;
`interest` is the set of events registered with the kernel for an fd. -/
structure Epoll where
  maxEventsSize : Nat
  eventsSize : Nat
  eventsCapacity : Nat
  channels : Nat → Option Nat
  interest : Nat → Option Events

namespace Epoll

def new : Epoll :=
  ⟨0, kInitEpollEventsSize, kInitEpollEventsSize, fun _ => none, fun _ => none⟩

/-- EPOLL_CTL_ADD, refused for an fd that is registered. -/
def epollRegister (p : Epoll) (fd : Nat) (ev : Events) : Epoll :=
  match p.interest fd with
  | some _ => p
  | none => { p with interest := Function.update p.interest fd (some ev) }

/-- EPOLL_CTL_MOD, refused for an fd that is not registered. -/
def epollUpdate (p : Epoll) (fd : Nat) (ev : Events) : Epoll :=
  match p.interest fd with
  | some _ => { p with interest := Function.update p.interest fd (some ev) }
  | none => p

def epollDelete (p : Epoll) (fd : Nat) : Epoll :=
  { p with interest := Function.update p.interest fd none }

/-- The tail of updateChannel: the event array grows with the channels. -/
def reserve (p : Epoll) : Epoll :=
  if sizeAdd p.maxEventsSize 1 = p.eventsCapacity then
    let size := min (2 * p.eventsCapacity) kMaxEpollConcurrencySize
    { p with eventsCapacity := max p.eventsCapacity size }
  else p

variable {γ : Type}

def updateChannel (p : Epoll) (channel : Channel γ) : Except Fault (Channel γ × Epoll) :=
  if channel.index < 0 then do
    require (p.channels channel.fd = none) .updateChannelAbsent
    let p := p.epollRegister channel.fd channel.events
    let p := { p with maxEventsSize := sizeAdd p.maxEventsSize 1 }
    let channel := { channel with index := toInt p.maxEventsSize }
    let p := { p with channels := Function.update p.channels channel.fd (some channel.address) }
    return (channel, p.reserve)
  else do
    require (p.channels channel.fd ≠ none) .updateChannelPresent
    require (p.channels channel.fd = some channel.address) .updateChannelSame
    return (channel, (p.epollUpdate channel.fd channel.events).reserve)

def removeChannel (p : Epoll) (channel : Channel γ) : Except Fault Epoll := do
  require (p.channels channel.fd ≠ none) .removeChannelPresent
  require (p.channels channel.fd = some channel.address) .removeChannelSame
  require (channel.isNoneEvent = true) .removeChannelNoneEvent
  let p := p.epollDelete channel.fd
  let n := if p.channels channel.fd = none then 0 else 1
  let p := { p with channels := Function.update p.channels channel.fd none }
  require (n = 1) .removeChannelErased
  return { p with maxEventsSize := sizeSub p.maxEventsSize 1 }

end Epoll

namespace Channel

variable {γ : Type}

def update (ch : Channel γ) (p : Epoll) : Except Fault (Channel γ × Epoll) :=
  p.updateChannel { ch with addedToLoop := true }

def enableReading (ch : Channel γ) (p : Epoll) : Except Fault (Channel γ × Epoll) :=
  update { ch with events := ch.events ||| kReadEvent } p

def disableReading (ch : Channel γ) (p : Epoll) : Except Fault (Channel γ × Epoll) :=
  update { ch with events := ch.events &&& ~~~kReadEvent } p

def enableWriting (ch : Channel γ) (p : Epoll) : Except Fault (Channel γ × Epoll) :=
  update { ch with events := ch.events ||| kWriteEvent } p

def disableWriting (ch : Channel γ) (p : Epoll) : Except Fault (Channel γ × Epoll) :=
  update { ch with events := ch.events &&& ~~~kWriteEvent } p

def disableAll (ch : Channel γ) (p : Epoll) : Except Fault (Channel γ × Epoll) :=
  update { ch with events := kNoneEvent } p

def remove (ch : Channel γ) (p : Epoll) : Except Fault (Channel γ × Epoll) := do
  require (ch.isNoneEvent = true) .removeNoneEvent
  let ch := { ch with addedToLoop := false }
  let p ← p.removeChannel ch
  return (ch, p)

/-- The channel has been added to the poller, and `mask` is what the kernel
waits for on its fd. -/
structure Registered (ch : Channel γ) (p : Epoll) (mask : Events) : Prop where
  index : 0 ≤ ch.index
  same : p.channels ch.fd = some ch.address
  interest : p.interest ch.fd = some mask

end Channel

/-- Two pollers agree on every fd but one. -/
structure Epoll.SameBut (fd : Nat) (p q : Epoll) : Prop where
  channels : ∀ f, f ≠ fd → q.channels f = p.channels f
  interest : ∀ f, f ≠ fd → q.interest f = p.interest f
  eventsSize : q.eventsSize = p.eventsSize

namespace Epoll

theorem SameBut.refl (fd : Nat) (p : Epoll) : SameBut fd p p :=
  ⟨fun _ _ => rfl, fun _ _ => rfl, rfl⟩

theorem SameBut.trans {fd : Nat} {p q r : Epoll} (h : SameBut fd p q) (h' : SameBut fd q r) :
    SameBut fd p r :=
  ⟨fun f hf => (h'.channels f hf).trans (h.channels f hf),
    fun f hf => (h'.interest f hf).trans (h.interest f hf), h'.eventsSize.trans h.eventsSize⟩

@[simp] theorem reserve_channels (p : Epoll) : p.reserve.channels = p.channels := by
  unfold reserve
  split <;> rfl

@[simp] theorem reserve_interest (p : Epoll) : p.reserve.interest = p.interest := by
  unfold reserve
  split <;> rfl

@[simp] theorem reserve_eventsSize (p : Epoll) : p.reserve.eventsSize = p.eventsSize := by
  unfold reserve
  split <;> rfl

end Epoll

namespace Channel

variable {γ : Type}

/-- On a registered channel update publishes the events and touches no other
fd. -/
theorem update_registered {ch : Channel γ} {p : Epoll} {mask : Events}
    (h : ch.Registered p mask) :
    ∃ p', ch.update p = .ok ({ ch with addedToLoop := true }, p') ∧
      Registered { ch with addedToLoop := true } p' ch.events ∧ p.SameBut ch.fd p' := by
  have hpresent : p.channels ch.fd ≠ none := by
    rw [h.same]
    exact nofun
  refine ⟨(p.epollUpdate ch.fd ch.events).reserve, ?_, ?_, ?_⟩
  · simp only [update, Epoll.updateChannel, if_neg (Int.not_lt.mpr h.index),
      require_of_true hpresent, require_of_true h.same, ok_bind]
    rfl
  · refine ⟨h.index, ?_, ?_⟩
    · simp only [Epoll.reserve_channels, Epoll.epollUpdate, h.interest]
      exact h.same
    · simp only [Epoll.reserve_interest, Epoll.epollUpdate, h.interest, Function.update_self]
  · refine ⟨fun f _ => ?_, fun f hf => ?_, ?_⟩
    · simp only [Epoll.reserve_channels, Epoll.epollUpdate, h.interest]
    · simp only [Epoll.reserve_interest, Epoll.epollUpdate, h.interest,
        Function.update_of_ne hf]
    · simp only [Epoll.reserve_eventsSize, Epoll.epollUpdate, h.interest]

/-- update on a channel that has not been added registers it. -/
theorem update_new {ch : Channel γ} {p : Epoll} (hindex : ch.index < 0)
    (habsent : p.channels ch.fd = none) (hfree : p.interest ch.fd = none)
    (hsize : p.maxEventsSize < intMax) :
    ∃ index p', ch.update p = .ok ({ ch with addedToLoop := true, index := index }, p') ∧
      Registered { ch with addedToLoop := true, index := index } p' ch.events := by
  have hadd : sizeAdd p.maxEventsSize 1 = p.maxEventsSize + 1 := by
    refine sizeAdd_of_lt ?_
    unfold intMax at hsize
    omega
  let q : Epoll := ⟨p.maxEventsSize + 1, p.eventsSize, p.eventsCapacity,
    Function.update p.channels ch.fd (some ch.address),
    Function.update p.interest ch.fd (some ch.events)⟩
  refine ⟨toInt (p.maxEventsSize + 1), q.reserve, ?_, ?_⟩
  · simp only [update, Epoll.updateChannel, if_pos hindex, require_of_true habsent, ok_bind,
      Epoll.epollRegister, hfree, hadd]
    rfl
  · refine ⟨?_, ?_, ?_⟩
    · change 0 ≤ toInt (p.maxEventsSize + 1)
      rw [toInt_of_le hsize]
      exact Int.natCast_nonneg _
    · simp only [Epoll.reserve_channels, q, Function.update_self]
    · simp only [Epoll.reserve_interest, q, Function.update_self]

/-- What update can have done when it returned: the channel keeps its fd and
events, its fd is now mapped to it, and the kernel waits for its events. -/
theorem update_ok {ch ch' : Channel γ} {p p' : Epoll} (h : ch.update p = .ok (ch', p')) :
    (∃ index, ch' = { ch with addedToLoop := true, index := index }) ∧ p.SameBut ch.fd p' ∧
      p'.channels ch.fd = some ch.address ∧
      ((p.interest ch.fd = none ↔ p.channels ch.fd = none) →
        p'.interest ch.fd = some ch.events) ∧
      (ch.index < 0 → p.channels ch.fd = none) := by
  simp only [update, Epoll.updateChannel] at h
  split at h
  · simp only [bind_eq_ok, require_eq_ok] at h
    obtain ⟨_, habsent, h⟩ := h
    cases h
    refine ⟨⟨_, rfl⟩, ⟨fun f hf => ?_, fun f hf => ?_, ?_⟩, ?_, fun hcoherent => ?_,
      fun _ => habsent⟩
    · simp only [Epoll.reserve_channels, Function.update_of_ne hf, Epoll.epollRegister]
      split <;> rfl
    · simp only [Epoll.reserve_interest, Epoll.epollRegister]
      split
      · rfl
      · exact Function.update_of_ne hf _ _
    · simp only [Epoll.reserve_eventsSize, Epoll.epollRegister]
      split <;> rfl
    · simp only [Epoll.reserve_channels, Function.update_self]
    · simp only [Epoll.reserve_interest, Epoll.epollRegister, hcoherent.mpr habsent,
        Function.update_self]
  · rename_i hindex
    simp only [bind_eq_ok, require_eq_ok] at h
    obtain ⟨_, hpresent, _, hsame, h⟩ := h
    cases h
    refine ⟨⟨_, rfl⟩, ⟨fun f hf => ?_, fun f hf => ?_, ?_⟩, ?_, fun hcoherent => ?_,
      fun hneg => absurd hneg hindex⟩
    · simp only [Epoll.reserve_channels, Epoll.epollUpdate]
      split <;> rfl
    · simp only [Epoll.reserve_interest, Epoll.epollUpdate]
      split
      · exact Function.update_of_ne hf _ _
      · rfl
    · simp only [Epoll.reserve_eventsSize, Epoll.epollUpdate]
      split <;> rfl
    · simp only [Epoll.reserve_channels, Epoll.epollUpdate]
      split <;> exact hsame
    · obtain ⟨m, hm⟩ := Option.ne_none_iff_exists'.mp fun hnone => hpresent (hcoherent.mp hnone)
      simp only [Epoll.reserve_interest, Epoll.epollUpdate, hm, Function.update_self]

/-- remove on a channel that the poller has and that waits for nothing. -/
theorem remove_returns {ch : Channel γ} {p : Epoll} (hevents : ch.events = kNoneEvent)
    (hsame : p.channels ch.fd = some ch.address) :
    ∃ p', ch.remove p = .ok ({ ch with addedToLoop := false }, p') ∧ p.SameBut ch.fd p' ∧
      p'.channels ch.fd = none := by
  have hnone : ch.isNoneEvent = true := decide_eq_true hevents
  have hnone' : isNoneEvent { ch with addedToLoop := false } = true := hnone
  have hpresent : p.channels ch.fd ≠ none := by
    rw [hsame]
    exact nofun
  have herased : (if (p.epollDelete ch.fd).channels ch.fd = none then 0 else 1) = 1 :=
    if_neg hpresent
  let p' : Epoll := { p with
    interest := Function.update p.interest ch.fd none
    channels := Function.update p.channels ch.fd none
    maxEventsSize := sizeSub p.maxEventsSize 1 }
  refine ⟨p', ?_, ⟨fun f hf => ?_, fun f hf => ?_, rfl⟩, ?_⟩
  · simp only [remove, Epoll.removeChannel, require_of_true hnone, require_of_true hnone',
      require_of_true hpresent, require_of_true hsame, require_of_true herased, ok_bind]
    rfl
  · exact Function.update_of_ne hf _ _
  · exact Function.update_of_ne hf _ _
  · exact Function.update_self _ _ _

end Channel
end TAlib
