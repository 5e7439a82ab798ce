import TAlib.Redis.Command
import TAlib.Redis.ResPool

/-!
RedisConnect::grasp, which borrows a connection from the static pool of
src/Redis/RedisConnect.h. A connection is known by the number of its creation.
The thread runs alone: what others hold they keep. What the server does to the
n-th recursive call, and what the clock reads there, is the n-th visit. Fuel
bounds the recursion and the loop of ResPool::get; without a result it ran out.
-/

namespace TAlib

open Foundation RedisConnect

/-- What getErrorCode reads. -/
structure Connection where
  closed : Bool
  code : Int
  deriving DecidableEq, Repr

def Connection.getErrorCode (c : Connection) : Int :=
  if c.closed then FAIL else if c.code < 0 then c.code else 0

/-- What the creator meets: connect fails, or it succeeds and the AUTH command, if
there is one, ends with this code. -/
inductive Dial where
  | refused
  | connected (reply : Int)
  deriving DecidableEq, Repr

/-- What one call of ResPool::get meets, by the number of the attempt. -/
structure Visit where
  dial : Nat → Dial
  /-- The clock at the start of grasp, -/
  now : Nat → Int
  /-- when a slot is stamped, -/
  stamp : Nat → Int
  /-- and behind grasp. -/
  after : Nat → Int

namespace RedisConnect

/-- auth on a new connection: its result and the code it leaves. -/
def auth (passwd : Bytes) (reply : Int) : Int × Int :=
  if passwd = [] then (OK, 0) else (reply, reply)

/-- The creator of the pool. -/
def creator (passwd : Bytes) : Dial → Option Connection
  | .refused => none
  | .connected reply =>
      let (result, code) := auth passwd reply
      if result ≠ 0 then some ⟨false, code⟩ else none

end RedisConnect

/-- The static pool, the connections made so far, and the references held
outside the slots. -/
structure ConnectPool where
  pool : ResPool
  conns : List Connection
  others : List Resource
  deriving DecidableEq, Repr

namespace ConnectPool

def setVec (w : ConnectPool) (vec : List ResPool.Data) : ConnectPool :=
  { w with pool := { w.pool with vec := vec } }

def errorCode (w : ConnectPool) (r : Resource) : Int :=
  match w.conns[r]? with
  | some c => c.getErrorCode
  | none => 0

/-- func(), the connection being the last one made. -/
def create (w : ConnectPool) (passwd : Bytes) (dial : Dial) : ConnectPool × Option Resource :=
  match creator passwd dial with
  | none => (w, none)
  | some c => ({ w with conns := w.conns ++ [c] }, some w.conns.length)

/-- The grasp of ResPool::get. -/
def attempt (w : ConnectPool) (passwd : Bytes) (v : Visit) (i : Nat) :
    Except Fault (ConnectPool × Option Resource) :=
  let len := w.pool.vec.length
  let s := ResPool.scan w.others w.pool.timeout (v.now i) (v.stamp i) [] none none w.pool.vec
  let w := w.setVec s.vec
  match s.lent with
  | some data => .ok (w, some data)
  | none =>
      if s.idx = none ∧ (len : Int) ≥ w.pool.maxlen then .ok (w, none)
      else
        match w.create passwd (v.dial i) with
        | (w, none) => .ok (w, none)
        | (w, some data) => do
            let pool ← w.pool.record s.idx data (v.stamp i)
            return ({ w with pool := pool }, some data)

/-- The while loop of ResPool::get. -/
def tryAgain (passwd : Bytes) (v : Visit) :
    Nat → Nat → ConnectPool → Except Fault (Option (ConnectPool × Option Resource))
  | 0, _, _ => .ok none
  | fuel + 1, i, w => do
      let (w, data) ← w.attempt passwd v i
      match data with
      | some data => return some (w, some data)
      | none =>
          if v.after 0 + 3 < v.after i then return some (w, none)
          else tryAgain passwd v fuel (i + 1) w

/-- ResPool::get. -/
def get (w : ConnectPool) (passwd : Bytes) (v : Visit) (fuel : Nat) :
    Except Fault (Option (ConnectPool × Option Resource)) :=
  if w.pool.timeout ≤ 0 then .ok (some (w.create passwd (v.dial 0)))
  else do
    let (w, data) ← w.attempt passwd v 0
    match data with
    | some data => return some (w, some data)
    | none => tryAgain passwd v fuel 1 w

/-- pool.disable(redis), with the reference in the frame that makes the
recursive call. -/
def reject (w : ConnectPool) (r : Resource) : ConnectPool :=
  { w with pool := w.pool.disable (some r), others := r :: w.others }

/-- RedisConnect::grasp. -/
def grasp (passwd : Bytes) (visits : Nat → Visit) :
    Nat → Nat → ConnectPool → Except Fault (Option (ConnectPool × Option Resource))
  | 0, _, _ => .ok none
  | fuel + 1, level, w => do
      match ← w.get passwd (visits level) fuel with
      | none => return none
      | some (w, none) => return some (w, none)
      | some (w, some r) =>
          if w.errorCode r ≠ 0 then grasp passwd visits fuel (level + 1) (w.reject r)
          else return some (w, some r)

end ConnectPool

end TAlib
