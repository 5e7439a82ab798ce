import TAlib.Common.Buffer
import TAlib.Common.CString

/-!
The Redis client of src/Redis/RedisConnect.h: a command, the parser of replies
and the loop that receives one. The parser works on the receive buffer of the
connection by pointers into it, here offsets. A socket is the sequence of what
recv is going to return on it; when that ends the server is silent, and every
further recv times out.
-/

namespace TAlib

open Foundation

namespace RedisConnect

def OK : Int := 1
def FAIL : Int := -1
def SYSERR : Int := -3
def NETERR : Int := -4
def TIMEOUT : Int := -5
def DATAERR : Int := -6
def PARAMERR : Int := -8
def NOTFOUND : Int := -9
def NETCLOSE : Int := -10

def SOCKET_TIMEOUT : Int := 10

end RedisConnect

open RedisConnect

structure Command where
  status : Int
  msg : Bytes
  res : List Bytes
  vec : List Bytes
  deriving DecidableEq, Repr

/-- What recv is going to return: bytes, of which a call takes as many as it has
room for and none means that the peer has closed; a timeout; an error. -/
inductive Recv where
  | data (b : Bytes)
  | nothing
  | failed
  deriving DecidableEq, Repr

structure RedisConnect where
  code : Int
  memsz : Nat
  status : Int
  timeout : Int
  buffer : Bytes
  msg : Bytes
  deriving DecidableEq, Repr

namespace Command

def new (vec : List Bytes) : Command := ⟨0, [], [], vec⟩

/-- `string(str, end)` on the receive buffer. -/
def text (mem : Bytes) (str stop : Int) : Bytes := slice mem str.toNat stop.toNat

/-- The element at `msg`: where it ends, or `msg` when it is not there yet, or in
front of `msg` for a negative size. -/
def parseNode (mem : Bytes) (msg tail : Int) (res : List Bytes) :
    Except Fault (Int × List Bytes) := do
  let str := msg + 1
  match ← strstr mem str kCRLF with
  | none => return (msg, res)
  | some stop => do
      let sz ← atoi mem str
      if sz < 0 then return (msg + sz, res)
      else do
        let str := stop + 2
        let stop := str + sz + 2
        if tail < stop then return (msg, res)
        else return (stop, res ++ [text mem str (str + sz)])

/-- The loop over the elements of an array. `nested` is parse itself. -/
def parseItems (nested : Int → Command → Except Fault (Int × Command)) (mem : Bytes) (tail : Int) :
    Nat → Int → Command → Except Fault (Int × Command)
  | 0, _, cmd => .ok (toInt cmd.res.length, cmd)
  | cnt + 1, str, cmd => do
      let c ← byteAt mem str
      if c = 42 then nested str cmd
      else do
        let (stop, res) ← parseNode mem str tail cmd.res
        if stop = str then return (TIMEOUT, { cmd with res := res })
        else parseItems nested mem tail cnt stop { cmd with res := res }

/-- parse, with the offset where the received bytes end. It calls itself on the
same bytes with another offset only, so more levels than there are offsets mean
that it never returns. -/
def parseLevel (mem : Bytes) (tail : Int) : Nat → Int → Command → Except Fault (Int × Command)
  | 0, _, _ => .error .spins
  | level + 1, msg, cmd => do
      let c ← byteAt mem msg
      if c = 36 then do
        let (stop, res) ← parseNode mem msg tail cmd.res
        let cmd := { cmd with res := res }
        if stop - msg = 0 then return (TIMEOUT, cmd)
        else if stop - msg = -1 then return (NOTFOUND, cmd)
        else return (OK, cmd)
      else do
        let str := msg + 1
        match ← strstr mem str kCRLF with
        | none => return (TIMEOUT, cmd)
        | some stop =>
            if c = 43 ∨ c = 45 ∨ c = 58 then do
              let cmd := { cmd with status := OK, msg := text mem str stop }
              if c = 43 then return (OK, cmd)
              else if c = 45 then return (FAIL, cmd)
              else do
                let status ← atoi mem str
                return (OK, { cmd with status := status })
            else if c = 42 then do
              let cnt ← atoi mem str
              parseItems (parseLevel mem tail level) mem tail cnt.toNat (stop + 2)
                { cmd with vec := [] }
            else return (DATAERR, cmd)

def parse (mem : Bytes) (msg len : Int) (cmd : Command) : Except Fault (Int × Command) :=
  parseLevel mem (msg + len) (mem.length + 1) msg cmd

def toString (cmd : Command) : Bytes :=
  [42] ++ decimalText cmd.vec.length ++ kCRLF ++
    cmd.vec.flatMap fun item => [36] ++ decimalText item.length ++ kCRLF ++ item ++ kCRLF

/-- `dest[readed += len] = 0` after the bytes have been written behind the first
`readed` ones. -/
def receive (buffer : Bytes) (readed : Nat) (b : Bytes) : Bytes :=
  buffer.take readed ++ b ++ 0 :: buffer.drop (readed + b.length + 1)

/-- What is left of a segment when recv had room for `count` bytes. -/
def unread (count : Nat) (b : Bytes) (rest : List Recv) : List Recv :=
  if b.length ≤ count then rest else .data (b.drop count) :: rest

structure Received where
  code : Int
  cmd : Command
  buffer : Bytes
  rest : List Recv
  deriving DecidableEq, Repr

/-- What `delay += SOCKET_TIMEOUT` comes to before it is greater than the timeout, when
every recv times out. -/
def lastDelay (timeout delay : Int) : Int :=
  delay + SOCKET_TIMEOUT * (max 0 ((timeout - delay) / SOCKET_TIMEOUT) + 1)

/-- The loop of doWork. -/
def readReply (memsz : Nat) (timeout : Int) :
    List Recv → Int → Nat → Bytes → Command → Except Fault Received
  | [], delay, readed, buffer, cmd =>
      if readed < memsz then
        if intMax < lastDelay timeout delay then .error .overflow
        else .ok ⟨TIMEOUT, cmd, buffer, []⟩
      else .ok ⟨PARAMERR, cmd, buffer, []⟩
  | r :: rest, delay, readed, buffer, cmd =>
      if readed < memsz then
        match r with
        | .failed => .ok ⟨NETERR, cmd, buffer, rest⟩
        | .nothing =>
            if intMax < delay + SOCKET_TIMEOUT then .error .overflow
            else if timeout < delay + SOCKET_TIMEOUT then .ok ⟨TIMEOUT, cmd, buffer, rest⟩
            else readReply memsz timeout rest (delay + SOCKET_TIMEOUT) readed buffer cmd
        | .data b =>
            if b = [] then .ok ⟨NETCLOSE, cmd, buffer, rest⟩
            else do
              let got := b.take (memsz - readed)
              let buffer := receive buffer readed got
              let readed := readed + got.length
              let (len, cmd) ← parse buffer 0 readed cmd
              if len ≠ TIMEOUT then
                return ⟨len, cmd, buffer, unread got.length b rest⟩
              else if b.length ≤ got.length then
                readReply memsz timeout rest 0 readed buffer cmd
              else return ⟨PARAMERR, cmd, buffer, unread got.length b rest⟩
      else .ok ⟨PARAMERR, cmd, buffer, r :: rest⟩

/-- The text for a code that came without one. -/
def errorText (code : Int) : Bytes :=
  if code = SYSERR then bytesOf "system error".toList
  else if code = NETERR then bytesOf "network error".toList
  else if code = DATAERR then bytesOf "protocol error".toList
  else if code = TIMEOUT then bytesOf "response timeout".toList
  else if code = NOTFOUND then bytesOf "element not found".toList
  else bytesOf "unknown error".toList

/-- getResult, given whether sock.write succeeds and what recv returns. -/
def getResult (cmd : Command) (redis : RedisConnect) (written : Bool) (sock : List Recv) :
    Except Fault (Command × RedisConnect × List Recv) := do
  let cmd := { cmd with status := 0, msg := [] }
  let r ← (if written then readReply redis.memsz redis.timeout sock 0 0 redis.buffer cmd
    else .ok ⟨NETERR, cmd, redis.buffer, sock⟩)
  let cmd := if r.code < 0 ∧ r.cmd.msg = [] then { r.cmd with msg := errorText r.code } else r.cmd
  return (cmd, { redis with
    code := r.code
    status := cmd.status
    buffer := r.buffer
    msg := cmd.msg }, r.rest)

end Command
end TAlib
