import TAlib.Common.Buffer
import TAlib.Socket.Epoll

/-!
The connection of src/Tcp/TcpConnection.h and TcpConnection.cpp, as its io loop
runs it: every operation here is called in the thread of that loop, next to the
poller of the loop. What the kernel answers to a read or a write is an argument
of the operation, and so is what the user's callbacks do. What the connection
asks of its server and its loop is appended to a list of effects, in order.
-/

namespace TAlib

open Foundation

inductive StateE where
  | kDisConnected
  | kConnecting
  | kDisConnecting
  | kConnected
  deriving DecidableEq, Repr

def EWOULDBLOCK : Nat := 11
def EPIPE : Nat := 32
def ECONNRESET : Nat := 104

/-- What a write call gives: a count, or a negative one with its errno. -/
inductive WriteResult where
  | wrote (n : Nat)
  | error (errno : Nat)
  deriving DecidableEq, Repr

/-- The bytes the kernel has accepted so far, and how often the write side has
been shut down. -/
structure Socket where
  accepted : Bytes
  writeShutdowns : Nat
  deriving DecidableEq, Repr

/-- The count never exceeds the length that was asked for. -/
def Socket.write (s : Socket) (data : Bytes) : WriteResult → WriteResult × Socket
  | .wrote n =>
      let n := min n data.length
      (.wrote n, { s with accepted := s.accepted ++ data.take n })
  | .error errno => (.error errno, s)

def Socket.shutdownWrite (s : Socket) : Socket := { s with writeShutdowns := s.writeShutdowns + 1 }

/-- The member functions that a channel of a connection can be bound to. -/
inductive Handler where
  | handleRead
  | handleWrite
  | handleClose
  deriving DecidableEq, Repr

structure TcpConnection where
  state : StateE
  socket : Socket
  channel : Channel Handler
  inputBuffer : Buffer
  outputBuffer : Buffer
  deriving DecidableEq

/-- m_closeCallBack is called; forceCloseInLoop is queued in the own loop. -/
inductive Effect where
  | closeCallBack
  | queueForceCloseInLoop
  deriving DecidableEq, Repr

/-- A connection in its io loop. -/
structure InLoop where
  poller : Epoll
  conn : TcpConnection
  effects : List Effect

/-- What a user's callback can do to the connection, in its loop: consume is a
retrieve from the input buffer. -/
inductive UserCall where
  | send (message : Bytes) (result : WriteResult)
  | shutdown
  | forceClose
  | consume (len : Nat)
  deriving DecidableEq, Repr

namespace TcpConnection

/-- The constructor binds the read and the close callback. -/
def new (address sockfd : Nat) : Except Fault TcpConnection := do
  let inputBuffer ← Buffer.new kInitialSize
  let outputBuffer ← Buffer.new kInitialSize
  let channel := ((Channel.new address sockfd).setReadCallBack .handleRead).setCloseCallBack
    Handler.handleClose
  return ⟨.kConnecting, ⟨[], 0⟩, channel, inputBuffer, outputBuffer⟩

end TcpConnection

namespace InLoop

def setState (s : InLoop) (state : StateE) : InLoop :=
  { s with conn := { s.conn with state := state } }

def setSocket (s : InLoop) (socket : Socket) : InLoop :=
  { s with conn := { s.conn with socket := socket } }

def setOutput (s : InLoop) (b : Buffer) : InLoop :=
  { s with conn := { s.conn with outputBuffer := b } }

def setInput (s : InLoop) (b : Buffer) : InLoop :=
  { s with conn := { s.conn with inputBuffer := b } }

def emit (s : InLoop) (e : Effect) : InLoop := { s with effects := s.effects ++ [e] }

/-- Either of the two states between established and closed. -/
def isLive (s : InLoop) : Bool := s.conn.state = .kConnected || s.conn.state = .kDisConnecting

def isWriting (s : InLoop) : Bool × InLoop :=
  let (writing, channel) := s.conn.channel.isWriting
  (writing, { s with conn := { s.conn with channel := channel } })

/-- Runs an operation of the channel that may call the poller. -/
def onChannel (s : InLoop) (f : Channel Handler → Epoll → Except Fault (Channel Handler × Epoll)) :
    Except Fault InLoop := do
  let (channel, poller) ← f s.conn.channel s.poller
  return { s with poller := poller, conn := { s.conn with channel := channel } }

/-- The direct write of sendInLoop: how much was written, and whether the
message is given up. -/
def tryWrite (s : InLoop) (data : Bytes) (result : WriteResult) : Nat × Bool × InLoop :=
  match s.conn.socket.write data result with
  | (.wrote n, socket) => (n, false, s.setSocket socket)
  | (.error errno, socket) =>
      (0, errno ≠ EWOULDBLOCK ∧ (errno = EPIPE ∨ errno = ECONNRESET), s.setSocket socket)

/-- The last lines of sendInLoop: the bytes that are left are queued. -/
def queueRest (s : InLoop) (data : Bytes) (nwrote : Nat) : Except Fault InLoop := do
  let b ← s.conn.outputBuffer.append (data.drop nwrote)
  let (writing, s) := (s.setOutput b).isWriting
  if writing then return s else s.onChannel Channel.enableWriting

/-- The part of sendInLoop after the direct write. At most the length was
written, so the subtraction does not wrap. -/
def finishSend (s : InLoop) (data : Bytes) (nwrote : Nat) (faultError : Bool) :
    Except Fault InLoop := do
  let remaining := data.length - nwrote
  require (remaining ≤ data.length) .sendInLoopRemaining
  if faultError = false ∧ 0 < remaining then s.queueRest data nwrote else return s

def sendInLoop (s : InLoop) (data : Bytes) (result : WriteResult) : Except Fault InLoop :=
  if s.conn.state = .kDisConnected then .ok s
  else
    let (writing, s) := s.isWriting
    -- if nothing in output Buffer, try writing directly
    if writing = false ∧ s.conn.outputBuffer.readableBytes = 0 then
      let (nwrote, faultError, s) := s.tryWrite data result
      s.finishSend data nwrote faultError
    else s.finishSend data 0 false

def send (s : InLoop) (message : Bytes) (result : WriteResult) : Except Fault InLoop :=
  if s.conn.state = .kConnected then s.sendInLoop message result else .ok s

def shutdownInLoop (s : InLoop) : InLoop :=
  let (writing, s) := s.isWriting
  if writing then s else s.setSocket s.conn.socket.shutdownWrite

def shutdown (s : InLoop) : InLoop :=
  if s.conn.state = .kConnected then (s.setState .kDisConnecting).shutdownInLoop else s

def forceClose (s : InLoop) : InLoop :=
  if s.isLive then (s.setState .kDisConnecting).emit .queueForceCloseInLoop else s

def consume (s : InLoop) (len : Nat) : Except Fault InLoop := do
  let b ← s.conn.inputBuffer.retrieve len
  return s.setInput b

def userCall (s : InLoop) : UserCall → Except Fault InLoop
  | .send message result => s.send message result
  | .shutdown => .ok s.shutdown
  | .forceClose => .ok s.forceClose
  | .consume len => s.consume len

def handleClose (s : InLoop) : Except Fault InLoop := do
  require (s.isLive = true) .handleCloseState
  let s ← (s.setState .kDisConnected).onChannel Channel.disableAll
  return s.emit .closeCallBack

/-- `calls` is what m_messageCallBack does, if it is called. -/
def handleRead (s : InLoop) (result : ReadResult) (calls : List UserCall) : Except Fault InLoop :=
  match result with
  -- handleError only logs
  | .error _ => .ok s
  | .data bytes => do
      let delivered := s.conn.inputBuffer.delivered (.data bytes)
      let b ← s.conn.inputBuffer.readFd (.data bytes)
      if 0 < delivered.length then run userCall (s.setInput b) calls
      else (s.setInput b).handleClose

def handleWrite (s : InLoop) (result : WriteResult) : Except Fault InLoop :=
  let (writing, s) := s.isWriting
  if writing then
    match s.conn.socket.write s.conn.outputBuffer.readable result with
    | (.wrote n, socket) =>
        if 0 < n then do
          let b ← s.conn.outputBuffer.retrieve n
          let s := (s.setSocket socket).setOutput b
          if b.readableBytes = 0 then s.onChannel Channel.disableWriting else return s
        else .ok (s.setSocket socket)
    | (.error _, socket) => .ok (s.setSocket socket)
  else .ok s

def forceCloseInLoop (s : InLoop) : Except Fault InLoop :=
  if s.isLive then s.handleClose else .ok s

/-- `calls` is what m_connectionCallBack does. -/
def connectEstablished (s : InLoop) (calls : List UserCall) : Except Fault InLoop := do
  require (s.conn.state = .kConnecting) .connectEstablishedState
  let s ← (s.setState .kConnected).onChannel Channel.enableReading
  run userCall s calls

/-- The first half of connectDestroyed, for a connection that is still up. -/
def disconnectIfUp (s : InLoop) : Except Fault InLoop :=
  if s.conn.state = .kConnected then (s.setState .kDisConnected).onChannel Channel.disableAll
  else .ok s

def connectDestroyed (s : InLoop) : Except Fault InLoop := do
  let s ← s.disconnectIfUp
  s.onChannel Channel.remove

/-- The answers that the handlers of one event get. -/
structure Answers where
  read : ReadResult
  calls : List UserCall
  write : WriteResult

def invoke (answers : Answers) : Handler → InLoop → Except Fault InLoop
  | .handleRead, s => s.handleRead answers.read answers.calls
  | .handleWrite, s => s.handleWrite answers.write
  | .handleClose, s => s.handleClose

/-- The poller reports `revents` and the loop dispatches them. -/
def handleEvent (s : InLoop) (revents : Events) (answers : Answers) : Except Fault InLoop :=
  Channel.handleEvent (fun s : InLoop => s.conn.channel) (invoke answers)
    { s with conn := { s.conn with channel := s.conn.channel.setRevents revents } }

end InLoop
end TAlib
