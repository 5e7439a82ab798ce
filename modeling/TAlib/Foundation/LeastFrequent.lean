import Mathlib.Data.Set.Card
import Mathlib.Logic.Function.Basic

/-!
The policy of a cache that evicts the entry used least often and, among those
used equally often, the one touched longest ago. Time is the number of calls
that touched an entry.
-/

namespace TAlib.Foundation

universe u v
variable {K : Type u} {V : Type v}

structure Entry (V : Type v) where
  value : V
  count : Nat
  last : Nat

/-- Used less often, or as often and touched longer ago. -/
def Entry.Before (e e' : Entry V) : Prop :=
  e.count < e'.count ∨ e.count = e'.count ∧ e.last < e'.last

theorem Entry.Before.asymm {e e' : Entry V} (h : e.Before e') : ¬ e'.Before e := by
  unfold Before at *
  omega

structure LeastFrequent (K : Type u) (V : Type v) where
  entries : K → Option (Entry V)
  clock : Nat

namespace LeastFrequent

def empty : LeastFrequent K V := ⟨fun _ => none, 0⟩

def keys (s : LeastFrequent K V) : Set K := {k | s.entries k ≠ none}

/-- The key to evict. -/
def Least (s : LeastFrequent K V) (k : K) : Prop :=
  ∃ e, s.entries k = some e ∧ ∀ k' e', s.entries k' = some e' → k' ≠ k → e.Before e'

theorem Least.unique {s : LeastFrequent K V} {k k' : K} (h : s.Least k) (h' : s.Least k') :
    k = k' := by
  obtain ⟨e, he, hleast⟩ := h
  obtain ⟨e', he', hleast'⟩ := h'
  by_contra hne
  exact (hleast k' e' he' (Ne.symm hne)).asymm (hleast' k e he hne)

open Classical in
noncomputable def evict (s : LeastFrequent K V) : LeastFrequent K V :=
  { s with entries := fun k => if s.Least k then none else s.entries k }

theorem evict_self {s : LeastFrequent K V} {k : K} (h : s.Least k) : s.evict.entries k = none :=
  if_pos h

theorem evict_of_ne {s : LeastFrequent K V} {k k' : K} (h : s.Least k) (hne : k' ≠ k) :
    s.evict.entries k' = s.entries k' :=
  if_neg fun h' => hne (h'.unique h)

variable [DecidableEq K]

/-- An entry written now. -/
def write (s : LeastFrequent K V) (k : K) (value : V) (count : Nat) : LeastFrequent K V :=
  ⟨Function.update s.entries k (some ⟨value, count, s.clock⟩), s.clock + 1⟩

theorem write_self (s : LeastFrequent K V) (k : K) (value : V) (count : Nat) :
    (s.write k value count).entries k = some ⟨value, count, s.clock⟩ := Function.update_self _ _ _

theorem write_of_ne (s : LeastFrequent K V) {k k' : K} (hne : k' ≠ k) (value : V) (count : Nat) :
    (s.write k value count).entries k' = s.entries k' := Function.update_of_ne hne _ _

/-- The value of a key that is there, whose count is raised. -/
def get (s : LeastFrequent K V) (k : K) : Option V × LeastFrequent K V :=
  match s.entries k with
  | none => (none, s)
  | some e => (some e.value, s.write k e.value (e.count + 1))

open Classical in
/-- A new entry with count 1, after an eviction if there is no room. -/
noncomputable def set (s : LeastFrequent K V) (capacity : Nat) (k : K) (value : V) :
    LeastFrequent K V :=
  (if s.keys.ncard = capacity then s.evict else s).write k value 1

end LeastFrequent
end TAlib.Foundation
