import TAlib.Common.Outcome
import TAlib.Foundation.MachineInt

/-!
The resource pool of src/Redis/ResPool.h. A resource is the number of its
creation, and a shared_ptr to it is an entry in one of the places where the
program keeps one: a slot, a local of get(), or a borrower. A step is a locked
section or what a thread does between two of them. The clock is read anew at
each step, and the creator returns a resource that nothing else refers to, or
NULL. A thread that is not in get() may do anything else meanwhile, so the
other operations and the borrowers need no thread of their own.
-/

namespace TAlib

open Foundation

abbrev Resource := Nat

namespace ResPool

/-- ResPool::Data. -/
structure Data where
  num : Nat
  utime : Int
  data : Option Resource
  deriving DecidableEq, Repr

/-- Data::update, also the constructor. -/
def Data.update (data : Resource) (clock : Int) : Data := ⟨0, clock, some data⟩

end ResPool

/-- The members behind mtx. The creator is a parameter of the steps. -/
structure ResPool where
  maxlen : Int
  timeout : Int
  vec : List ResPool.Data
  deriving DecidableEq, Repr

namespace ResPool

/-- What the loop of grasp leaves behind. -/
structure Scan where
  vec : List Data
  tmp : Option Resource
  idx : Option Nat
  lent : Option Resource
  deriving DecidableEq, Repr

/-- The references of the slots. -/
def slotRefs (vec : List Data) : List Resource := vec.filterMap Data.data

/-- shared_ptr::use_count, with the references held outside the vector and tmp. -/
def useCount (others : List Resource) (vec : List Data) (tmp : Option Resource) (r : Resource) :
    Nat :=
  (slotRefs vec ++ tmp.toList ++ others).count r

/-- The for loop of grasp, with the slots before the current one in `done`. -/
def scan (others : List Resource) (timeout now clock : Int) (done : List Data)
    (tmp : Option Resource) (idx : Option Nat) : List Data → Scan
  | [] => ⟨done, tmp, idx, none⟩
  | item :: rest =>
      match item.data with
      | none => scan others timeout now clock (done ++ [item]) none (some done.length) rest
      | some r =>
          if useCount others (done ++ item :: rest) tmp r = 1 then
            if item.num < 100 ∧ item.utime + timeout > now then
              ⟨done ++ { item with num := item.num + 1, utime := clock } :: rest, some r, idx,
                some r⟩
            else
              scan others timeout now clock (done ++ [{ item with data := none }]) (some r)
                (some done.length) rest
          else scan others timeout now clock (done ++ [item]) tmp idx rest

/-- The second locked section of grasp. -/
def record (p : ResPool) (idx : Option Nat) (data : Resource) (clock : Int) :
    Except Fault ResPool :=
  match idx with
  | none =>
      .ok (if p.vec.length < ofInt p.maxlen then { p with vec := p.vec ++ [Data.update data clock] }
        else p)
  | some i =>
      if i < p.vec.length then .ok { p with vec := p.vec.set i (Data.update data clock) }
      else .error .outOfBounds

def clear (p : ResPool) : ResPool := { p with vec := [] }

/-- The loop of disable. -/
def dropSlot (data : Option Resource) : List Data → List Data
  | [] => []
  | item :: rest =>
      if data = item.data then { item with data := none } :: rest else item :: dropSlot data rest

def disable (p : ResPool) (data : Option Resource) : ResPool :=
  { p with vec := dropSlot data p.vec }

def setLength (p : ResPool) (maxlen : Int) : ResPool :=
  let p := { p with maxlen := maxlen }
  if p.vec.length > ofInt maxlen then p.clear else p

def setTimeout (p : ResPool) (timeout : Int) : ResPool :=
  let p := { p with timeout := timeout }
  if timeout ≤ 0 then p.clear else p

/-- The new creator shows in the steps that follow. -/
def setCreator (p : ResPool) : ResPool := p.clear

end ResPool

/-- Where a thread stands in get(). -/
inductive GetPoint where
  /-- Not in get(). -/
  | idle
  /-- At the test of timeout. -/
  | entering
  /-- At return func(), without the pool. -/
  | bypassing
  /-- At the start of grasp, before the clock is read. -/
  | grasping
  /-- Before the first locked section. -/
  | locking (now : Int)
  /-- Behind it without a free slot, at the test of maxlen. -/
  | deciding (len : Nat) (tmp : Option Resource)
  /-- Before the creator is called. -/
  | creating (idx : Option Nat) (tmp : Option Resource)
  /-- Before the second locked section. -/
  | recording (idx : Option Nat) (tmp : Option Resource) (data : Resource)
  /-- At the end of grasp, with tmp not yet destroyed. -/
  | returning (tmp : Option Resource) (data : Option Resource)
  deriving DecidableEq, Repr

/-- A thread. `result` numbers the results of get(). -/
structure GetCall where
  result : Nat
  endtime : Option Int
  point : GetPoint
  deriving DecidableEq, Repr

/-- The pool among its threads and borrowers. -/
structure PoolRun where
  pool : ResPool
  calls : List GetCall
  /-- The references of the borrowers, each with the result it stems from. -/
  held : List (Nat × Resource)
  /-- How many resources were created. -/
  created : Nat
  /-- How many calls of get() were begun. -/
  results : Nat
  deriving DecidableEq, Repr

inductive PoolTurn where
  /-- A thread calls get(). -/
  | call (thread : Nat)
  /-- A thread goes on in get(), with the clock and whether the creator
  returns a resource. -/
  | step (thread : Nat) (clock : Int) (made : Bool)
  | copy (result : Nat) (data : Resource)
  | drop (result : Nat) (data : Resource)
  | clear
  | disable (data : Option Resource)
  | setLength (maxlen : Int)
  | setTimeout (timeout : Int)
  | setCreator
  deriving DecidableEq, Repr

namespace GetPoint

/-- The resource that the call is going to return. -/
def data : GetPoint → Option Resource
  | .recording _ _ data => some data
  | .returning _ data => data
  | _ => none

def tmp : GetPoint → Option Resource
  | .deciding _ tmp | .creating _ tmp | .recording _ tmp _ | .returning tmp _ => tmp
  | _ => none

end GetPoint

namespace GetCall

/-- The references of the locals. -/
def refs (c : GetCall) : List Resource := c.point.tmp.toList ++ c.point.data.toList

end GetCall

namespace PoolRun

def new (threads : Nat) (maxlen timeout : Int) : PoolRun :=
  ⟨⟨maxlen, timeout, []⟩, List.replicate threads ⟨0, none, .idle⟩, [], 0, 0⟩

/-- Every reference outside the slots. -/
def others (s : PoolRun) : List Resource := s.calls.flatMap GetCall.refs ++ s.held.map Prod.snd

def setPoint (s : PoolRun) (thread : Nat) (c : GetCall) (point : GetPoint) : PoolRun :=
  { s with calls := s.calls.set thread { c with point := point } }

/-- get() returns a resource. -/
def giveOut (s : PoolRun) (thread : Nat) (c : GetCall) (data : Resource) : PoolRun :=
  { s.setPoint thread c .idle with held := (c.result, data) :: s.held }

/-- The first locked section of grasp. -/
def lockedScan (s : PoolRun) (thread : Nat) (c : GetCall) (now clock : Int) : PoolRun :=
  let len := s.pool.vec.length
  let r := ResPool.scan s.others s.pool.timeout now clock [] none none s.pool.vec
  let s := { s with pool := { s.pool with vec := r.vec } }
  match r.lent with
  | some data => s.setPoint thread c (.returning r.tmp (some data))
  | none =>
      match r.idx with
      | some i => s.setPoint thread c (.creating (some i) r.tmp)
      | none => s.setPoint thread c (.deciding len r.tmp)

/-- grasp returned NULL: the loop of get() tries again until the time is up. -/
def retry (s : PoolRun) (thread : Nat) (c : GetCall) (clock : Int) : PoolRun :=
  match c.endtime with
  | none => s.setPoint thread { c with endtime := some (clock + 3) } .grasping
  | some endtime => s.setPoint thread c (if endtime < clock then .idle else .grasping)

def step (s : PoolRun) (thread : Nat) (c : GetCall) (clock : Int) (made : Bool) :
    Except Fault PoolRun :=
  match c.point with
  | .idle => .ok s
  | .entering => .ok (s.setPoint thread c (if s.pool.timeout ≤ 0 then .bypassing else .grasping))
  | .bypassing =>
      .ok (if made then { s with created := s.created + 1 }.giveOut thread c s.created
        else s.setPoint thread c .idle)
  | .grasping => .ok (s.setPoint thread c (.locking clock))
  | .locking now => .ok (s.lockedScan thread c now clock)
  | .deciding len tmp =>
      .ok (s.setPoint thread c
        (if (len : Int) ≥ s.pool.maxlen then .returning tmp none else .creating none tmp))
  | .creating idx tmp =>
      .ok (if made then
          { s with created := s.created + 1 }.setPoint thread c (.recording idx tmp s.created)
        else s.setPoint thread c (.returning tmp none))
  | .recording idx tmp data => do
      let pool ← s.pool.record idx data clock
      return { s with pool := pool }.setPoint thread c (.returning tmp (some data))
  | .returning _ (some data) => .ok (s.giveOut thread c data)
  | .returning _ none => .ok (s.retry thread c clock)

def exec (s : PoolRun) : PoolTurn → Except Fault PoolRun
  | .call thread =>
      match s.calls[thread]? with
      | some ⟨_, _, .idle⟩ =>
          .ok { s with
            calls := s.calls.set thread ⟨s.results, none, .entering⟩
            results := s.results + 1 }
      | _ => .ok s
  | .step thread clock made =>
      match s.calls[thread]? with
      | some c => s.step thread c clock made
      | none => .ok s
  | .copy result data =>
      .ok (if (result, data) ∈ s.held then { s with held := (result, data) :: s.held } else s)
  | .drop result data => .ok { s with held := s.held.erase (result, data) }
  | .clear => .ok { s with pool := s.pool.clear }
  | .disable data => .ok { s with pool := s.pool.disable data }
  | .setLength maxlen => .ok { s with pool := s.pool.setLength maxlen }
  | .setTimeout timeout => .ok { s with pool := s.pool.setTimeout timeout }
  | .setCreator => .ok { s with pool := s.pool.setCreator }

end PoolRun

end TAlib
