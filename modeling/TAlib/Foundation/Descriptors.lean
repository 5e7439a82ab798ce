import Mathlib.Data.List.Basic
import Mathlib.Logic.Function.Basic

/-!
A table of descriptors with a limit. Who holds a descriptor is recorded beside
it, so that a close can be told from the close of somebody else's descriptor. A
new descriptor has the lowest number that is not in use.
-/

namespace TAlib.Foundation

structure Descriptors (ω : Type) where
  holder : Nat → Option ω
  limit : Nat

namespace Descriptors

variable {ω : Type} {t t' : Descriptors ω} {w u : ω} {fd : Nat} {fds : List Nat}

/-- The number that the next descriptor gets; none when the table is full. -/
def lowest (t : Descriptors ω) : Option Nat :=
  (List.range t.limit).find? fun fd => (t.holder fd).isNone

def opened (t : Descriptors ω) (fd : Nat) (w : ω) : Descriptors ω :=
  { t with holder := Function.update t.holder fd (some w) }

def closed (t : Descriptors ω) (fd : Nat) : Descriptors ω :=
  { t with holder := Function.update t.holder fd none }

/-- A close by `w` of a descriptor, or of none. A number that is not in use is
refused without effect; there is no result when somebody else holds it. -/
def close [DecidableEq ω] (t : Descriptors ω) (w : ω) : Option Nat → Option (Descriptors ω)
  | none => some t
  | some fd =>
      if t.holder fd = none then some t
      else if t.holder fd = some w then some (t.closed fd)
      else none

/-- What `w` holds. -/
def Holds (t : Descriptors ω) (w : ω) (fds : List Nat) : Prop :=
  ∀ fd, t.holder fd = some w ↔ fd ∈ fds

theorem lowest_free (h : t.lowest = some fd) : t.holder fd = none := by
  have hfound := List.find?_some h
  exact Option.isNone_iff_eq_none.mp hfound

theorem lowest_ne_none (hfd : fd < t.limit) (hfree : t.holder fd = none) : t.lowest ≠ none := by
  intro hnone
  have hused := List.find?_eq_none.mp hnone fd (List.mem_range.mpr hfd)
  rw [hfree] at hused
  exact hused rfl

theorem lowest_lt (h : t.lowest = some fd) : fd < t.limit :=
  List.mem_range.mp (List.mem_of_find?_eq_some h)

/-- A close that frees a number leaves room. -/
theorem lowest_closed (h : t.lowest ≠ none) (fd : Nat) : (t.closed fd).lowest ≠ none := by
  obtain ⟨n, hn⟩ := Option.ne_none_iff_exists'.mp h
  have hlt : n < (t.closed fd).limit := show n < t.limit from lowest_lt hn
  apply lowest_ne_none hlt
  by_cases heq : n = fd
  · rw [heq]
    exact Function.update_self _ _ _
  · exact (Function.update_of_ne heq _ _).trans (lowest_free hn)

theorem Holds.opened_self (h : t.Holds w fds) (fd : Nat) : (t.opened fd w).Holds w (fd :: fds) := by
  intro g
  by_cases heq : g = fd
  · rw [heq]
    simp [Descriptors.opened]
  · simp only [Descriptors.opened, Function.update_of_ne heq, List.mem_cons, heq, false_or]
    exact h g

theorem Holds.opened_other (h : t.Holds w fds) (hfree : t.holder fd = none) (hne : u ≠ w) :
    (t.opened fd u).Holds w fds := by
  intro g
  by_cases heq : g = fd
  · subst heq
    have hnot : g ∉ fds := by
      intro hmem
      rw [← h g, hfree] at hmem
      cases hmem
    simp [Descriptors.opened, hne, hnot]
  · simp only [Descriptors.opened, Function.update_of_ne heq]
    exact h g

theorem Holds.closed_other (h : t.Holds w fds) (hu : t.holder fd = some u) (hne : u ≠ w) :
    (t.closed fd).Holds w fds := by
  intro g
  by_cases heq : g = fd
  · subst heq
    have hnot : g ∉ fds := by
      intro hmem
      rw [← h g, hu] at hmem
      exact hne (Option.some.inj hmem)
    simp [Descriptors.closed, hnot]
  · simp only [Descriptors.closed, Function.update_of_ne heq]
    exact h g

/-- A descriptor of its own is closed, and is not held any more. -/
theorem Holds.close [DecidableEq ω] (h : t.Holds w (fd :: fds)) (hnot : fd ∉ fds) :
    t.close w (some fd) = some (t.closed fd) ∧ (t.closed fd).Holds w fds := by
  have hheld : t.holder fd = some w := (h fd).mpr List.mem_cons_self
  refine ⟨?_, fun g => ?_⟩
  · simp [Descriptors.close, hheld]
  · by_cases heq : g = fd
    · simp [Descriptors.closed, heq, hnot]
    · simp only [Descriptors.closed, Function.update_of_ne heq]
      rw [h g, List.mem_cons]
      simp [heq]

end Descriptors
end TAlib.Foundation
