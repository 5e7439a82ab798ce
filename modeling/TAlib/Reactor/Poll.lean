import TAlib.Foundation.MachineInt
import TAlib.Reactor.Channel
import TAlib.Socket.Epoll

/-!
The poller of src/Reactor/Poll.cpp, and a loop with one or the other poller
under the interest operations of its channels. The poll array is passed to
poll(2), which skips an entry whose fd is negative and waits for the events of
the others. A channel is an object with an address, so the poller can set the
index of another channel than the one it is called with.
-/

namespace TAlib

open Foundation

/-- struct pollfd. -/
structure PollFd where
  fd : Int
  events : BitVec 16
  revents : BitVec 16
  deriving DecidableEq, Repr

/-- `channels` is m_channels, which maps an fd to the channel that has it. -/
structure Poll where
  pollfds : List PollFd
  channels : Nat → Option Nat

/-- The channels of a loop by their addresses, and its poller. -/
structure PollerLoop (π γ : Type) where
  channel : Nat → Channel γ
  poller : π

/-- The operations on the interest of a channel. -/
inductive InterestOp where
  | enableReading
  | disableReading
  | enableWriting
  | disableWriting
  | disableAll
  | remove
  deriving DecidableEq, Repr

/-- An operation on the channel with this address. -/
structure InterestCall where
  channel : Nat
  op : InterestOp
  deriving DecidableEq, Repr

/-- What the operation makes of m_events. -/
def InterestOp.apply : InterestOp → Events → Events
  | .enableReading, e => e ||| kReadEvent
  | .disableReading, e => e &&& ~~~kReadEvent
  | .enableWriting, e => e ||| kWriteEvent
  | .disableWriting, e => e &&& ~~~kWriteEvent
  | .disableAll, _ => kNoneEvent
  | .remove, e => e

namespace Poll

def new : Poll := ⟨[], fun _ => none⟩

variable {γ : Type}

/-- static_cast<short>(channel->events()). -/
def shortEvents (ch : Channel γ) : BitVec 16 := ch.events.setWidth 16

def updateChannel (p : Poll) (ch : Channel γ) : Except Fault (Channel γ × Poll) :=
  if ch.index < 0 then do
    require (p.channels ch.fd = none) .updateChannelAbsent
    let pollfds := p.pollfds ++ [⟨ch.fd, shortEvents ch, 0⟩]
    let idx := toInt pollfds.length - 1
    return ({ ch with index := idx },
      { pollfds := pollfds, channels := Function.update p.channels ch.fd (some ch.address) })
  else do
    require (p.channels ch.fd ≠ none) .updateChannelPresent
    require (p.channels ch.fd = some ch.address) .updateChannelSame
    let idx := ch.index
    require (0 ≤ idx ∧ idx < toInt p.pollfds.length) .pollUpdateIndex
    match p.pollfds[idx.toNat]? with
    | none => .error .outOfBounds
    | some pfd => do
        require (pfd.fd = ch.fd ∨ pfd.fd = -1) .pollUpdateFd
        let pfd := { pfd with events := shortEvents ch, revents := 0 }
        let pfd := if ch.isNoneEvent then { pfd with fd := -1 } else pfd
        return (ch, { p with pollfds := p.pollfds.set idx.toNat pfd })

/-- The end of removeChannel: the last slot takes the place of the one at idx. -/
def closeGap (s : PollerLoop Poll γ) (idx : Int) : Except Fault (PollerLoop Poll γ) :=
  let p := s.poller
  if toInt (p.pollfds.length - 1) = idx then
    .ok { s with poller := { p with pollfds := p.pollfds.dropLast } }
  else
    match p.pollfds.getLast? with
    | none => .error .outOfBounds
    | some back =>
        let channelAtEnd := if back.fd < 0 then -back.fd - 1 else back.fd
        match p.channels channelAtEnd.toNat with
        | none => .error .nullPointer
        | some address => .ok {
            channel := Function.update s.channel address { s.channel address with index := idx }
            poller := { p with pollfds := (p.pollfds.set idx.toNat back).dropLast } }

def removeChannel (s : PollerLoop Poll γ) (ch : Channel γ) : Except Fault (PollerLoop Poll γ) := do
  let p := s.poller
  require (p.channels ch.fd ≠ none) .removeChannelPresent
  require (p.channels ch.fd = some ch.address) .removeChannelSame
  require (ch.isNoneEvent = true) .removeChannelNoneEvent
  let idx := ch.index
  require (0 ≤ idx ∧ idx < toInt p.pollfds.length) .pollRemoveIndex
  match p.pollfds[idx.toNat]? with
  | none => .error .outOfBounds
  | some pfd => do
      require (pfd.fd = -1 ∧ pfd.events = shortEvents ch) .pollRemoveFd
      let n := if p.channels ch.fd = none then 0 else 1
      let p := { p with channels := Function.update p.channels ch.fd none }
      require (n = 1) .removeChannelErased
      closeGap { s with poller := p } idx

end Poll

namespace PollerLoop

variable {π γ : Type}

def new (fds : Nat → Nat) (poller : π) : PollerLoop π γ :=
  ⟨fun k => Channel.new k (fds k), poller⟩

/-- The loop after the channel at this address and the poller have changed. -/
def store (s : PollerLoop π γ) (k : Nat) (r : Channel γ × π) : PollerLoop π γ :=
  ⟨Function.update s.channel k r.1, r.2⟩

/-- A call on a loop whose poller is Poll. -/
def execPoll (s : PollerLoop Poll γ) (c : InterestCall) : Except Fault (PollerLoop Poll γ) :=
  let ch := s.channel c.channel
  match c.op with
  | .remove => do
      require (ch.isNoneEvent = true) .removeNoneEvent
      let ch := { ch with addedToLoop := false }
      Poll.removeChannel { s with channel := Function.update s.channel c.channel ch } ch
  | op => do
      let ch := { ch with events := op.apply ch.events }
      let r ← s.poller.updateChannel { ch with addedToLoop := true }
      return s.store c.channel r

/-- A call on a loop whose poller is Epoll. -/
def execEpoll (s : PollerLoop Epoll γ) (c : InterestCall) : Except Fault (PollerLoop Epoll γ) := do
  let ch := s.channel c.channel
  let r ← match c.op with
    | .enableReading => ch.enableReading s.poller
    | .disableReading => ch.disableReading s.poller
    | .enableWriting => ch.enableWriting s.poller
    | .disableWriting => ch.disableWriting s.poller
    | .disableAll => ch.disableAll s.poller
    | .remove => ch.remove s.poller
  return s.store c.channel r

end PollerLoop

end TAlib
