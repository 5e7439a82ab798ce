import Mathlib.Logic.Function.Basic
import TAlib.Foundation.Runs

/-!
The connection pool of src/MySQL/pool.h and pool.cpp, with any number of threads
that call getConnection and releaseConnection. A step of a thread is one operation
on a mutex or on what the mutexes guard. A lock of a mutex that another thread
holds leaves everything as it is, and the thread tries again. initPool was called
before; destroyPool is not called. A Connection is known by the number of those
constructed before it.
-/

namespace TAlib

open Foundation

/-- How the process ends in these functions. -/
inductive PoolStop where
  /-- exit(-1), after a connection was refused. -/
  | exits
  /-- `new some[n]` with a negative n throws. -/
  | badArrayLength
  /-- A mutex used before its initialisation, initialised twice, or unlocked by a
  thread that does not hold it. -/
  | mutexMisused
  | nullPointer
  | outOfBounds
  deriving DecidableEq, Repr

/-- A pthread_mutex_t, and the thread that holds it. -/
structure Mutex where
  ready : Bool
  holder : Option Nat
  deriving DecidableEq, Repr

namespace Mutex

/-- pthread_mutex_init. -/
def init (m : Mutex) : Except PoolStop Mutex :=
  if m.ready then .error .mutexMisused else .ok ⟨true, none⟩

/-- pthread_mutex_lock, which waits while the mutex is held. -/
def lock (m : Mutex) (thread : Nat) : Except PoolStop (Option Mutex) :=
  if !m.ready then .error .mutexMisused
  else if m.holder = none then .ok (some { m with holder := some thread })
  else .ok none

/-- pthread_mutex_unlock. -/
def unlock (m : Mutex) (thread : Nat) : Except PoolStop Mutex :=
  if m.holder = some thread then .ok { m with holder := none } else .error .mutexMisused

end Mutex

/-- The element type of `vec`, which the source calls some. -/
structure Slot where
  first : Nat
  second : Bool
  deriving DecidableEq, Repr

/-- Where a thread stands. -/
inductive PoolPoint where
  /-- In neither of the functions. -/
  | idle
  /-- In getConnection, before locki. -/
  | entering
  /-- At `pool_ == NULL`. -/
  | testing
  /-- Before the initialisation of mutex. -/
  | preparing
  /-- Before the initialisation of execmutex. -/
  | preparingExec
  /-- Before `pool_ = new Pool()`. -/
  | creating
  /-- Before unlocki. -/
  | leaving
  /-- In the while loop, before lock. -/
  | waiting
  /-- In the for loop, before the test for this slot. -/
  | scanning (i : Nat)
  /-- Behind the for loop with flag, before unlock and the return of this connection. -/
  | found (conn : Nat)
  /-- Behind the for loop without flag, before unlock. -/
  | missed
  /-- In releaseConnection, before lock. -/
  | releasing (conn : Nat)
  /-- In its for loop, before the test for this slot. -/
  | searching (conn : Nat) (i : Nat)
  /-- Behind its for loop, before unlock. -/
  | released (conn : Nat)
  deriving DecidableEq, Repr

/-- The static members of Pool, and the threads. -/
structure PoolThreads where
  poolSize_ : Int
  /-- The array `vec` of the Pool, none while pool_ is NULL. -/
  pool_ : Option (List Slot)
  initmutex : Mutex
  mutex : Mutex
  execmutex : Mutex
  /-- The Connections constructed so far, and the Pools. -/
  connections : Nat
  pools : Nat
  point : Nat → PoolPoint
  /-- The connections that a thread has got and not given back. -/
  held : Nat → List Nat

namespace PoolThreads

/-- Behind initPool. All bits zero is an initialised mutex, and initmutex is used as
one; the others are used behind pthread_mutex_init. -/
def new (poolSize : Int) : PoolThreads :=
  ⟨poolSize, none, ⟨true, none⟩, ⟨false, none⟩, ⟨false, none⟩, 0, 0, fun _ => .idle, fun _ => []⟩

def goto (s : PoolThreads) (thread : Nat) (p : PoolPoint) : PoolThreads :=
  { s with point := Function.update s.point thread p }

/-- Behind `pool_ = new Pool()`, with a new Connection in every slot. -/
def withPool (s : PoolThreads) : PoolThreads :=
  { s with
    pool_ := some ((List.range s.poolSize_.toNat).map fun i => ⟨s.connections + i, false⟩)
    connections := s.connections + s.poolSize_.toNat
    pools := s.pools + 1 }

/-- The constructor of Pool. The process exits when a connection is refused. -/
def create (s : PoolThreads) (connected : Bool) : Except PoolStop PoolThreads :=
  if s.poolSize_ < 0 then .error .badArrayLength
  else if 0 < s.poolSize_ ∧ connected = false then .error .exits
  else .ok s.withPool

/-- `pool_->vec[i]` -/
def slot (s : PoolThreads) (i : Nat) : Except PoolStop Slot :=
  match s.pool_ with
  | none => .error .nullPointer
  | some vec =>
      match vec[i]? with
      | none => .error .outOfBounds
      | some slot => .ok slot

/-- `pool_->vec[i].second = b` -/
def setSecond (s : PoolThreads) (i : Nat) (b : Bool) : PoolThreads :=
  { s with pool_ := s.pool_.map fun vec => vec.modify i fun slot => { slot with second := b } }

/-- The thread has a connection more. -/
def take (s : PoolThreads) (thread conn : Nat) : PoolThreads :=
  { s with held := Function.update s.held thread (conn :: s.held thread) }

/-- The thread has a connection less. -/
def giveBack (s : PoolThreads) (thread conn : Nat) : PoolThreads :=
  { s with held := Function.update s.held thread ((s.held thread).erase conn) }

/-- A round of the for loop of getConnection. -/
def scan (s : PoolThreads) (thread i : Nat) : Except PoolStop PoolThreads := do
  if i < s.poolSize_ then
    let slot ← s.slot i
    if slot.second = false then
      return ((s.setSecond i true).take thread slot.first).goto thread (.found slot.first)
    else return s.goto thread (.scanning (i + 1))
  else return s.goto thread .missed

/-- A round of the for loop of releaseConnection. -/
def search (s : PoolThreads) (thread conn i : Nat) : Except PoolStop PoolThreads := do
  if i < s.poolSize_ then
    let slot ← s.slot i
    if slot.first = conn then
      return ((s.setSecond i false).giveBack thread conn).goto thread (.released conn)
    else return s.goto thread (.searching conn (i + 1))
  else return s.goto thread (.released conn)

def lockInit (s : PoolThreads) (thread : Nat) (p : PoolPoint) : Except PoolStop PoolThreads := do
  match ← s.initmutex.lock thread with
  | some m => return { s with initmutex := m }.goto thread p
  | none => return s

def lock (s : PoolThreads) (thread : Nat) (p : PoolPoint) : Except PoolStop PoolThreads := do
  match ← s.mutex.lock thread with
  | some m => return { s with mutex := m }.goto thread p
  | none => return s

def unlock (s : PoolThreads) (thread : Nat) (p : PoolPoint) : Except PoolStop PoolThreads := do
  let m ← s.mutex.unlock thread
  return { s with mutex := m }.goto thread p

/-- A thread goes on, with whether the server lets it connect. -/
def step (s : PoolThreads) (thread : Nat) (connected : Bool) : Except PoolStop PoolThreads :=
  match s.point thread with
  | .idle => .ok s
  | .entering => s.lockInit thread .testing
  | .testing => .ok (s.goto thread (if s.pool_ = none then .preparing else .leaving))
  | .preparing => do
      let m ← s.mutex.init
      return { s with mutex := m }.goto thread .preparingExec
  | .preparingExec => do
      let m ← s.execmutex.init
      return { s with execmutex := m }.goto thread .creating
  | .creating => do
      let s ← s.create connected
      return s.goto thread .leaving
  | .leaving => do
      let m ← s.initmutex.unlock thread
      return { s with initmutex := m }.goto thread .waiting
  | .waiting => s.lock thread (.scanning 0)
  | .scanning i => s.scan thread i
  | .found _ => s.unlock thread .idle
  | .missed => s.unlock thread .waiting
  | .releasing conn => s.lock thread (.searching conn 0)
  | .searching conn i => s.search thread conn i
  | .released _ => s.unlock thread .idle

end PoolThreads

inductive PoolCall where
  /-- A thread calls getConnection. -/
  | getConnection (thread : Nat)
  /-- A thread calls releaseConnection. -/
  | releaseConnection (thread conn : Nat)
  | step (thread : Nat) (connected : Bool)
  deriving DecidableEq, Repr

namespace PoolThreads

/-- A thread that is in one of the functions calls none. -/
def exec (s : PoolThreads) : PoolCall → Except PoolStop PoolThreads
  | .getConnection thread =>
      .ok (if s.point thread = .idle then s.goto thread .entering else s)
  | .releaseConnection thread conn =>
      .ok (if s.point thread = .idle then s.goto thread (.releasing conn) else s)
  | .step thread connected => s.step thread connected

/-- Only a connection that the thread holds is released. -/
def Orderly (s : PoolThreads) : PoolCall → Prop
  | .releaseConnection thread conn => conn ∈ s.held thread
  | _ => True

instance (s : PoolThreads) : (call : PoolCall) → Decidable (s.Orderly call)
  | .releaseConnection thread conn => inferInstanceAs (Decidable (conn ∈ s.held thread))
  | .getConnection _ | .step .. => isTrue trivial

end PoolThreads
end TAlib
