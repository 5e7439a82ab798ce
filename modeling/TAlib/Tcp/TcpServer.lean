import Mathlib.Data.Finset.Basic
import TAlib.Reactor.EventLoop
import TAlib.Tcp.TcpConnection

/-!
The server of src/Tcp/TcpServer.cpp with its loops and connections. A step is
what one thread does without waiting: a functor, the dispatch of one active
channel, the return of a poll, a call of the user. The steps of different loops
interleave in any order. The kernel's part is in the arguments of the steps and
in `Enabled`, which says what epoll and accept promise.
-/

namespace TAlib

open Foundation

/-- The functors that carry a connection from loop to loop. -/
inductive Functor where
  | connectEstablished (conn : Nat)
  | forceCloseInLoop (conn : Nat)
  | removeConnectionInLoop (conn : Nat)
  | connectDestroyed (conn : Nat)
  deriving DecidableEq, Repr

/-- A connection with its p_loop. `destroyed` says that connectDestroyed has run. -/
structure Owned where
  ioLoop : Nat
  conn : TcpConnection
  destroyed : Bool

/-- Connections are named by the addresses of their channels. `closeCallBacks`
counts the calls of m_closeCallBack of a connection. -/
structure TcpServer where
  loops : Nat → EventLoop Functor
  conns : Nat → Option Owned
  connectionsSet : Finset Nat
  closeCallBacks : Nat → Nat

namespace TcpServer

/-- p_loop of the server: the loop that accepts. -/
def baseLoop : Nat := 0

def new : TcpServer := ⟨fun _ => .new, fun _ => none, ∅, fun _ => 0⟩

def setLoop (s : TcpServer) (l : Nat) (loop : EventLoop Functor) : TcpServer :=
  { s with loops := Function.update s.loops l loop }

def setConn (s : TcpServer) (c : Nat) (o : Owned) : TcpServer :=
  { s with conns := Function.update s.conns c (some o) }

def setPhase (s : TcpServer) (l : Nat) (phase : Phase Functor) : TcpServer :=
  s.setLoop l { s.loops l with phase := phase }

def queueInLoop (s : TcpServer) (l : Nat) (f : Functor) : TcpServer :=
  s.setLoop l ((s.loops l).queueInLoop f)

/-- The connection as its io loop sees it. -/
def inLoop (s : TcpServer) (o : Owned) : InLoop := ⟨(s.loops o.ioLoop).poller, o.conn, []⟩

def store (s : TcpServer) (c : Nat) (o : Owned) (r : InLoop) : TcpServer :=
  (s.setLoop o.ioLoop { s.loops o.ioLoop with poller := r.poller }).setConn c
    { o with conn := r.conn }

-- TcpServer::m_closeCallBack is the user's, and what it does is a call of the user
def removeConnectionInLoop (s : TcpServer) (c : Nat) : Except Fault TcpServer := do
  let n := if c ∈ s.connectionsSet then 1 else 0
  let s := { s with connectionsSet := s.connectionsSet.erase c }
  require (n = 1) .removeConnectionErased
  match s.conns c with
  | none => .error .dangling
  | some o => return s.queueInLoop o.ioLoop (.connectDestroyed c)

/-- runInLoop of the base loop, called in the loop `l`. -/
def removeConnection (s : TcpServer) (l c : Nat) : Except Fault TcpServer :=
  if l = baseLoop then s.removeConnectionInLoop c
  else .ok (s.queueInLoop baseLoop (.removeConnectionInLoop c))

def perform (c l : Nat) (s : TcpServer) : Effect → Except Fault TcpServer
  | .closeCallBack =>
      let s := { s with
        closeCallBacks := Function.update s.closeCallBacks c (s.closeCallBacks c + 1) }
      s.removeConnection l c
  | .queueForceCloseInLoop => .ok (s.queueInLoop l (.forceCloseInLoop c))

/-- Runs an operation of a connection in its io loop. What it asks of the server
and the loop is done after it: nothing that an operation does after a close
depends on the set or the queues. -/
def execute (s : TcpServer) (c : Nat) (f : InLoop → Except Fault InLoop) :
    Except Fault TcpServer :=
  match s.conns c with
  | none => .error .dangling
  | some o => do
      let r ← f (s.inLoop o)
      run (perform c o.ioLoop) (s.store c o r) r.effects

/-- newConnetion, for an accepted `sockfd` that the thread pool gives to the loop
`l`. `calls` is what m_connectionCallBack does, if it is called at once. -/
def newConnetion (s : TcpServer) (c sockfd l : Nat) (calls : List UserCall) :
    Except Fault TcpServer := do
  let conn ← TcpConnection.new c sockfd
  let s := s.setConn c ⟨l, conn, false⟩
  let s := { s with connectionsSet := insert c s.connectionsSet }
  if l = baseLoop then s.execute c (·.connectEstablished calls)
  else return s.queueInLoop l (.connectEstablished c)

/-- fillActiveChannels of the poller of the loop `l`. -/
def fillActiveChannels (l : Nat) : TcpServer → List (Nat × Events) →
    Except Fault (TcpServer × List Nat)
  | s, [] => .ok (s, [])
  | s, (fd, ev) :: rest => do
      require (ev ≠ 0) .fillEventsPositive
      match (s.loops l).poller.channels fd with
      | none => .error (.assertion .fillChannelPresent)
      | some c =>
        match s.conns c with
        | none => .error .dangling
        | some o => do
            require (o.conn.channel.fd = fd) .fillChannelFd
            let s := s.setConn c
              { o with conn := { o.conn with channel := o.conn.channel.setRevents ev } }
            let (s, active) ← fillActiveChannels l s rest
            return (s, c :: active)

/-- epoll_wait has written `ready`; the event array has a fixed size. -/
def poll (s : TcpServer) (l : Nat) (ready : List (Nat × Events)) : Except Fault TcpServer := do
  let (s, active) ← s.fillActiveChannels l (ready.take (s.loops l).poller.eventsSize)
  return s.setPhase l (.dispatching active)

def call (s : TcpServer) (calls : List UserCall) : Functor → Except Fault TcpServer
  | .connectEstablished c => s.execute c (·.connectEstablished calls)
  | .forceCloseInLoop c => s.execute c InLoop.forceCloseInLoop
  | .removeConnectionInLoop c => s.removeConnectionInLoop c
  | .connectDestroyed c => do
      let s ← s.execute c InLoop.connectDestroyed
      match s.conns c with
      | none => .error .dangling
      | some o => return s.setConn c { o with destroyed := true }

inductive Step where
  | newConnetion (c sockfd l : Nat) (calls : List UserCall)
  | poll (l : Nat) (ready : List (Nat × Events))
  | dispatch (l : Nat) (answers : InLoop.Answers)
  | doPendingFunctors (l : Nat)
  | functor (l : Nat) (calls : List UserCall)
  | user (c : Nat) (call : UserCall)

def step (s : TcpServer) : Step → Except Fault TcpServer
  | .newConnetion c sockfd l calls => s.newConnetion c sockfd l calls
  | .poll l ready => s.poll l ready
  | .dispatch l answers =>
      match (s.loops l).phase with
      | .dispatching (c :: rest) => (s.setPhase l (.dispatching rest)).execute c fun i =>
          i.handleEvent i.conn.channel.revents answers
      | _ => .ok s
  | .doPendingFunctors l => .ok (s.setLoop l (s.loops l).doPendingFunctors)
  | .functor l calls =>
      match (s.loops l).phase with
      | .calling (f :: rest) => (s.setPhase l (.calling rest)).call calls f
      | _ => .ok s
  | .user c call => s.execute c (·.userCall call)

/-- What the kernel may report for an fd: the events that are waited for, and
errors and hangups in any case. -/
def Reportable (p : Epoll) (fd : Nat) (ev : Events) : Prop :=
  ev ≠ 0 ∧ ∃ mask, p.interest fd = some mask ∧ ev &&& ~~~(mask ||| EPOLLERR ||| EPOLLHUP) = 0

instance (p : Epoll) (fd : Nat) (ev : Events) : Decidable (Reportable p fd ev) :=
  match h : p.interest fd with
  | some mask => decidable_of_iff (ev ≠ 0 ∧ ev &&& ~~~(mask ||| EPOLLERR ||| EPOLLHUP) = 0)
      (by simp [Reportable, h])
  | none => isFalse (by simp [Reportable, h])

/-- The order of loop(), and what the kernel promises: a new connection is a new
object on an fd that no open connection has and that is not registered;
epoll_wait reports an fd once. -/
def Enabled (s : TcpServer) : Step → Prop
  | .newConnetion c sockfd l _ => s.conns c = none ∧ (s.loops l).poller.interest sockfd = none ∧
      ∀ c' o, s.conns c' = some o → o.destroyed = false → o.conn.channel.fd ≠ sockfd
  | .poll l ready => (s.loops l).phase = .calling [] ∧ (ready.map Prod.fst).Nodup ∧
      ∀ report ∈ ready, Reportable (s.loops l).poller report.1 report.2
  | .dispatch l _ => (s.loops l).active ≠ []
  | .doPendingFunctors l => (s.loops l).phase = .dispatching []
  | .functor l _ => (s.loops l).functors ≠ []
  | .user c _ => (s.conns c).isSome = true

end TcpServer
end TAlib
