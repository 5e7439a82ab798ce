import TAlib.Foundation.SelfDelimiting
import TAlib.Redis.ConnectPool
import TAlib.Redis.RoundTrip

/-!
A connection with its socket: the loop of Socket::write, which may leave a command
half sent, and the exchange of a command for its reply. The server sees the bytes
and nothing else. It answers a command as soon as the last byte of it is there,
whether or not write reports that it was sent.
-/

namespace TAlib

open Foundation

/-- What the next recv meets: so many bytes of the replies, and one more, or none;
a timeout; an error; the end of the connection. -/
inductive ReplyArrival where
  | bytes (n : Nat)
  | nothing
  | failed
  | closed
  deriving DecidableEq, Repr

/-- What recv is going to return of these bytes. -/
def deliver : List ReplyArrival → Bytes → List Recv
  | [], _ => []
  | .bytes _ :: arrivals, [] => .nothing :: deliver arrivals []
  | .bytes n :: arrivals, b :: bytes =>
      .data ((b :: bytes).take (n + 1)) :: deliver arrivals ((b :: bytes).drop (n + 1))
  | .nothing :: arrivals, bytes => .nothing :: deliver arrivals bytes
  | .failed :: arrivals, bytes => .failed :: deliver arrivals bytes
  | .closed :: arrivals, bytes => .data [] :: deliver arrivals bytes

/-- The bytes that recv is going to return. -/
def payload (sock : List Recv) : Bytes :=
  sock.flatMap fun
    | .data b => b
    | .nothing | .failed => []

namespace RedisConnect

/-- What send is going to do: take so many bytes and one more, as far as there are
any; nothing, with an errno that IsSocketTimeout accepts; fail. -/
inductive Send where
  | took (n : Nat)
  | nothing
  | failed
  deriving DecidableEq, Repr

structure Written where
  code : Int
  /-- How many bytes send took, which `writed` counts unless write gives up. -/
  sent : Nat
  rest : List Send
  deriving DecidableEq, Repr

/-- The loop of Socket::write. When the list ends the peer takes nothing more, and
every further send times out. -/
def write (count : Int) : List Send → Nat → Nat → Written
  | [], _, writed => ⟨if (writed : Int) < count then TIMEOUT else writed, writed, []⟩
  | s :: rest, times, writed =>
      if (writed : Int) < count then
        match s with
        | .took n =>
            let num := min (n + 1) (count - writed).toNat
            if 8 < num then write count rest 0 (writed + num)
            else if 100 < times + 1 then ⟨TIMEOUT, writed + num, rest⟩
            else write count rest (times + 1) (writed + num)
        | .nothing =>
            if 100 < times + 1 then ⟨TIMEOUT, writed, rest⟩
            else write count rest (times + 1) writed
        | .failed => ⟨NETERR, writed, rest⟩
      else ⟨writed, writed, s :: rest⟩

end RedisConnect

/-- What an execute meets: how its bytes are taken, what the server writes because
of them, and how that arrives. -/
structure Exchange where
  sends : List RedisConnect.Send
  reply : Bytes
  arrivals : List ReplyArrival
  deriving DecidableEq, Repr

/-- A connection, all bytes sent on it, the commands among them that were sent
whole, and the bytes of replies that it has not read. -/
structure Link where
  redis : RedisConnect
  wire : Bytes
  issued : List (List Bytes)
  unread : Bytes
  deriving DecidableEq, Repr

namespace Link

/-- A connection behind connect, with whatever new char[] left in the buffer. -/
def connect (memsz : Nat) (timeout : Int) (buffer : Bytes) : Link :=
  ⟨⟨0, memsz, 0, timeout, buffer, []⟩, [], [], []⟩

def getErrorCode (l : Link) : Int := Connection.getErrorCode ⟨false, l.redis.code⟩

/-- What sock.write does with the command. -/
def written (cmd : Command) (x : Exchange) : RedisConnect.Written :=
  RedisConnect.write (toInt cmd.toString.length) x.sends 0 0

/-- The bytes that write gets onto the wire. -/
def sent (cmd : Command) (x : Exchange) : Bytes := cmd.toString.take (written cmd x).sent

/-- RedisConnect::execute. -/
def execute (l : Link) (cmd : Command) (x : Exchange) : Except Fault (Command × Link) := do
  let bytes := l.unread ++ x.reply
  let sock := deliver x.arrivals bytes
  let r ← cmd.getResult l.redis (0 ≤ (written cmd x).code) sock
  return (r.1, {
    redis := r.2.1
    wire := l.wire ++ sent cmd x
    issued := if sent cmd x = cmd.toString then l.issued ++ [cmd.vec] else l.issued
    unread := bytes.drop ((payload sock).length - (payload r.2.2).length) })

def getArgs (key : Bytes) : List Bytes := [bytesOf "get".toList, key]

def setArgs (key val : Bytes) : List Bytes := [bytesOf "set".toList, key, val]

/-- RedisConnect::get: its result and what it stores in val, vec[0]. -/
def get (l : Link) (key : Bytes) (x : Exchange) : Except Fault (Int × Option Bytes × Link) := do
  let (cmd, l) ← l.execute (Command.new (getArgs key)) x
  if l.redis.code ≤ 0 then return (l.redis.code, none, l)
  else
    match cmd.res with
    | [] => .error .outOfBounds
    | val :: _ => return (l.redis.code, some val, l)

/-- RedisConnect::set without a timeout. -/
def set (l : Link) (key val : Bytes) (x : Exchange) : Except Fault (Int × Link) := do
  let (_, l) ← l.execute (Command.new (setArgs key val)) x
  return (l.redis.code, l)

end Link

/-- The text of a command, as the server reads it. -/
def commandText (vec : List Bytes) : Bytes := (Command.new vec).toString

theorem line_selfDelimiting (mark : UInt8) : SelfDelimiting fun n => mark ::
    (decimalText n ++ [13, 10]) := by
  have hinj : Function.Injective decimalText := fun m n h => by
    rw [← digitsValue_decimalText m, h, digitsValue_decimalText]
  have hfree : ∀ n, 13 ∉ decimalText n := fun _ => not_mem_decimalText rfl
  have hline := ((SelfDelimiting.terminated hinj hfree).append [10]).prepend [mark]
  simpa only [List.append_assoc, List.cons_append, List.nil_append] using hline

theorem bulkText_selfDelimiting : SelfDelimiting Reply.bulkText := by
  have hbulk := ((line_selfDelimiting 36).sized).append [13, 10]
  simp only [List.append_assoc, List.cons_append, List.nil_append] at hbulk
  exact hbulk

/-- The text of a command says where it ends, whatever bytes its arguments hold. -/
theorem commandText_selfDelimiting : SelfDelimiting commandText := by
  have htext : commandText = fun vec => Reply.header vec.length ++ vec.flatMap Reply.bulkText := by
    funext vec
    exact Command.toString_eq_encode vec
  rw [htext]
  exact (line_selfDelimiting 42).counted bulkText_selfDelimiting

section Delivery

theorem payload_cons_data (b : Bytes) (sock : List Recv) :
    payload (.data b :: sock) = b ++ payload sock := rfl

/-- The bytes arrive in order. -/
theorem payload_deliver (arrivals : List ReplyArrival) (bytes : Bytes) :
    payload (deliver arrivals bytes) <+: bytes := by
  induction arrivals generalizing bytes with
  | nil => exact List.nil_prefix
  | cons a arrivals ih =>
      cases a with
      | bytes n =>
          cases bytes with
          | nil => exact ih []
          | cons b bytes =>
              rw [deliver, payload_cons_data]
              have hrest := ih ((b :: bytes).drop (n + 1))
              have := (List.prefix_append_right_inj ((b :: bytes).take (n + 1))).mpr hrest
              rwa [List.take_append_drop] at this
      | nothing | failed | closed => exact ih bytes

end Delivery

namespace RedisConnect

variable {count : Int} {sends : List Send} {times writed : Nat}

/-- A write that succeeds has sent all of it. -/
theorem write_complete (hwrited : (writed : Int) ≤ count)
    (hcode : 0 ≤ (write count sends times writed).code) :
    ((write count sends times writed).sent : Int) = count := by
  induction sends generalizing times writed with
  | nil =>
      rw [write] at hcode ⊢
      split at hcode
      · cases hcode
      · rename_i hmore
        exact Int.le_antisymm hwrited (Int.not_lt.mp hmore)
  | cons s sends ih =>
      by_cases hmore : (writed : Int) < count
      · have hstep (n : Nat) : ((writed + min (n + 1) (count - writed).toNat : Nat) : Int) ≤
            count := by
          omega
        cases s with
        | took n =>
            simp only [write, if_pos hmore] at hcode ⊢
            split at hcode
            · rename_i hlarge
              rw [if_pos hlarge]
              exact ih (hstep n) hcode
            · rename_i hlarge
              rw [if_neg hlarge]
              split at hcode
              · cases hcode
              · rename_i hgiveUp
                rw [if_neg hgiveUp]
                exact ih (hstep n) hcode
        | nothing =>
            simp only [write, if_pos hmore] at hcode ⊢
            split at hcode
            · cases hcode
            · rename_i hgiveUp
              rw [if_neg hgiveUp]
              exact ih hwrited hcode
        | failed =>
            simp only [write, if_pos hmore] at hcode
            cases hcode
      · simp only [write, if_neg hmore]
        exact Int.le_antisymm hwrited (Int.not_lt.mp hmore)

end RedisConnect
end TAlib
