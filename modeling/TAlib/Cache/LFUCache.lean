import Mathlib.Data.Finmap
import TAlib.Common.Outcome
import TAlib.Foundation.LinkedHeap
import TAlib.Foundation.MachineInt

/-!
The cache of src/cache/LFUCache.h and LFUCache.cpp, with its nodes in a heap: a
list of buckets by frequency, each with a list of keys, and two maps into them.
Following a null pointer or a pointer to a deleted node stops the model. get
and set hold the mutex throughout, so calls of several threads run one after
another.
-/

namespace TAlib

open Foundation

abbrev Ptr := Option Nat

section Pointers

variable {α : Type}

/-- The node that a pointer leads to. -/
def deref (h : Heap α) : Ptr → Except Fault (Node α)
  | none => .error .nullPointer
  | some a =>
      match h.cells a with
      | none => .error .dangling
      | some n => .ok n

/-- Runs an update of the node that a pointer leads to. -/
def through (h : Heap α) (p : Ptr) (f : Nat → Heap α) : Except Fault (Heap α) := do
  let _ ← deref h p
  match p with
  | none => .error .nullPointer
  | some a => return f a

def getNext (h : Heap α) (p : Ptr) : Except Fault Ptr := do
  let n ← deref h p
  return n.next

def getPre (h : Heap α) (p : Ptr) : Except Fault Ptr := do
  let n ← deref h p
  return n.pre

def setNext (h : Heap α) (p q : Ptr) : Except Fault (Heap α) := through h p (h.setNext · q)

def setPre (h : Heap α) (p q : Ptr) : Except Fault (Heap α) := through h p (h.setPre · q)

/-- An update of the value behind getValue(). -/
def setValue (h : Heap α) (p : Ptr) (v : α) : Except Fault (Heap α) := through h p (h.setValue · v)

def delete (h : Heap α) (p : Ptr) : Except Fault (Heap α) := through h p h.free

/-- `if (p) p->setPre(q)` -/
def setPreIfAny (h : Heap α) (p q : Ptr) : Except Fault (Heap α) :=
  if p = none then .ok h else setPre h p q

end Pointers

structure Key where
  key : Bytes
  value : Bytes
  deriving DecidableEq, Repr

structure KeyList where
  freq : Nat
  head : Ptr
  last : Ptr
  deriving DecidableEq, Repr

namespace KeyList

def init (h : Heap Key) (fq : Nat) : Except Fault (KeyList × Heap Key) := do
  let head := some h.fresh
  let h ← setNext (h.alloc ⟨[], []⟩) head none
  return (⟨fq, head, head⟩, h)

/-- The loop of destory. Every round deletes a node, so as many rounds as nodes
were ever allocated are enough. -/
def destoryLoop : Nat → Heap Key → Ptr → Except Fault (Heap Key)
  | _, h, none => .ok h
  | 0, _, some _ => .error .spins
  | fuel + 1, h, some a => do
      let next ← getNext h (some a)
      let h ← delete h (some a)
      destoryLoop fuel h next

def destory (l : KeyList) (h : Heap Key) : Except Fault (Heap Key) := destoryLoop h.fresh h l.head

def add (l : KeyList) (h : Heap Key) (node : Ptr) : Except Fault (KeyList × Heap Key) := do
  let first ← getNext h l.head
  let h ← setPreIfAny h first node
  let l := if first = none then { l with last := node } else l
  let first ← getNext h l.head
  let h ← setNext h node first
  let h ← setPre h node l.head
  let h ← setNext h l.head node
  return (l, h)

def del (l : KeyList) (h : Heap Key) (node : Ptr) : Except Fault (KeyList × Heap Key) := do
  let pre ← getPre h node
  let next ← getNext h node
  let h ← setNext h pre next
  let next ← getNext h node
  let pre ← getPre h node
  let h ← setPreIfAny h next pre
  return (if next = none then { l with last := pre } else l, h)

def isEmpty (l : KeyList) : Bool := l.head = l.last

def getLast (l : KeyList) : Ptr := l.last

end KeyList

/-- `freq + 1` on an int. -/
def nextFreq (freq : Nat) : Except Fault Nat :=
  if freq < intMax then .ok (freq + 1) else .error .overflow

abbrev PtrMap := Finmap fun _ : Bytes => Ptr

/-- `m[k]`, which adds a null pointer for a key that is not there. -/
def PtrMap.subscript (m : PtrMap) (k : Bytes) : Ptr × PtrMap :=
  match m.lookup k with
  | some p => (p, m)
  | none => (none, m.insert k none)

structure LFUCache where
  keyNodes : Heap Key
  freqNodes : Heap KeyList
  head : Ptr
  capacity : Nat
  kmap : PtrMap
  fmap : PtrMap

namespace LFUCache

/-- The static object of getCache after init. -/
def init : Except Fault LFUCache := do
  let freqNodes : Heap KeyList := Heap.empty.alloc ⟨0, none, none⟩
  let head := some 0
  let (l, keyNodes) ← KeyList.init Heap.empty 0
  let freqNodes ← setValue freqNodes head l
  let freqNodes ← setNext freqNodes head none
  return ⟨keyNodes, freqNodes, head, 100, ∅, ∅⟩

/-- Runs an operation of the list in a bucket. -/
def onList (c : LFUCache) (node : Ptr)
    (op : KeyList → Heap Key → Except Fault (KeyList × Heap Key)) : Except Fault LFUCache := do
  let n ← deref c.freqNodes node
  let (l, keyNodes) ← op n.value c.keyNodes
  let freqNodes ← setValue c.freqNodes node l
  return { c with keyNodes := keyNodes, freqNodes := freqNodes }

def del (c : LFUCache) (node : Ptr) : Except Fault LFUCache := do
  let pre ← getPre c.freqNodes node
  let next ← getNext c.freqNodes node
  let freqNodes ← setNext c.freqNodes pre next
  let next ← getNext freqNodes node
  let pre ← getPre freqNodes node
  let freqNodes ← setPreIfAny freqNodes next pre
  let n ← deref freqNodes node
  let keyNodes ← n.value.destory c.keyNodes
  let freqNodes ← delete freqNodes node
  return { c with keyNodes := keyNodes, freqNodes := freqNodes }

/-- `if (node->getValue().isEmpty()) del(node)` -/
def delIfEmpty (c : LFUCache) (node : Ptr) : Except Fault LFUCache := do
  let n ← deref c.freqNodes node
  if n.value.isEmpty then c.del node else return c

/-- The branch of addfreq that makes a new bucket behind `nowf`. -/
def insertBucket (c : LFUCache) (nowf : Ptr) (freq : Nat) : Except Fault (Ptr × LFUCache) := do
  let nxt := some c.freqNodes.fresh
  let freqNodes := c.freqNodes.alloc ⟨0, none, none⟩
  let (l, keyNodes) ← KeyList.init c.keyNodes freq
  let freqNodes ← setValue freqNodes nxt l
  let next ← getNext freqNodes nowf
  let freqNodes ← setPreIfAny freqNodes next nxt
  let next ← getNext freqNodes nowf
  let freqNodes ← setNext freqNodes nxt next
  let freqNodes ← setNext freqNodes nowf nxt
  let freqNodes ← setPre freqNodes nxt nowf
  return (nxt, { c with keyNodes := keyNodes, freqNodes := freqNodes })

/-- The bucket that addfreq moves a key to. -/
def nextBucket (c : LFUCache) (nowf : Ptr) : Except Fault (Ptr × LFUCache) := do
  let n ← deref c.freqNodes nowf
  let freq ← nextFreq n.value.freq
  if n.next = none then c.insertBucket nowf freq
  else do
    let m ← deref c.freqNodes n.next
    if m.value.freq ≠ freq then c.insertBucket nowf freq else return (n.next, c)

def addfreq (c : LFUCache) (nowk nowf : Ptr) : Except Fault LFUCache := do
  let (nxt, c) ← c.nextBucket nowf
  let k ← deref c.keyNodes nowk
  let c := { c with fmap := c.fmap.insert k.value.key nxt }
  if nowf ≠ c.head then do
    let c ← c.onList nowf (·.del · nowk)
    let c ← c.onList nxt (·.add · nowk)
    c.delIfEmpty nowf
  else c.onList nxt (·.add · nowk)

/-- Whether the key was found, and `v` with the value appended. -/
def get (c : LFUCache) (key v : Bytes) : Except Fault (Bool × Bytes × LFUCache) :=
  if c.capacity = 0 then .ok (false, v, c)
  else
    match c.fmap.lookup key with
    | none => .ok (false, v, c)
    | some nowf => do
        let (nowk, kmap) := c.kmap.subscript key
        let k ← deref c.keyNodes nowk
        let c ← addfreq { c with kmap := kmap } nowk nowf
        return (true, v ++ k.value.value, c)

/-- The part of set that makes room. -/
def evict (c : LFUCache) : Except Fault LFUCache := do
  let headnxt ← getNext c.freqNodes c.head
  let n ← deref c.freqNodes headnxt
  let last := n.value.getLast
  let c ← c.onList headnxt (·.del · last)
  let k ← deref c.keyNodes last
  let keyNodes ← delete c.keyNodes last
  delIfEmpty { c with
    keyNodes := keyNodes
    kmap := c.kmap.erase k.value.key
    fmap := c.fmap.erase k.value.key } headnxt

/-- kmap.size() == capacity -/
def isFull (c : LFUCache) : Bool := c.kmap.keys.card = c.capacity

/-- The part of set that enters the new node. -/
def enter (c : LFUCache) (key v : Bytes) : Except Fault LFUCache := do
  let nowk := some c.keyNodes.fresh
  let c ← addfreq { c with keyNodes := c.keyNodes.alloc ⟨key, v⟩ } nowk c.head
  return { c with kmap := c.kmap.insert key nowk }

def set (c : LFUCache) (key v : Bytes) : Except Fault LFUCache :=
  if c.capacity = 0 then .ok c
  else do
    let c ← (if c.isFull then c.evict else .ok c)
    c.enter key v

/-- The frequency of the bucket that fmap gives for a key. -/
def useCount (c : LFUCache) (k : Bytes) : Except Fault Nat := do
  let n ← deref c.freqNodes (c.fmap.subscript k).1
  return n.value.freq

/-- The key that set evicts when the cache is full. -/
def victim (c : LFUCache) : Except Fault Bytes := do
  let headnxt ← getNext c.freqNodes c.head
  let n ← deref c.freqNodes headnxt
  let last ← deref c.keyNodes n.value.getLast
  return last.value.key

end LFUCache
end TAlib
