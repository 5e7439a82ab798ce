import Mathlib.Data.List.Sort
import Mathlib.Data.List.TakeWhile
import Mathlib.Data.List.Nodup

/-!
A finite set kept as a list with strictly increasing elements, the way an
ordered tree set is traversed. The order is a field, so a set that holds an
element twice cannot be built.
-/

namespace TAlib.Foundation

universe u

structure OrderedSet (α : Type u) [LinearOrder α] where
  elements : List α
  increasing : elements.Pairwise (· < ·)

namespace OrderedSet

variable {α : Type u} [LinearOrder α]

instance : Membership α (OrderedSet α) := ⟨fun s a => a ∈ s.elements⟩

instance : DecidableEq (OrderedSet α) := fun s t =>
  decidable_of_iff (s.elements = t.elements) <| by
    cases s
    cases t
    simp

instance (a : α) (s : OrderedSet α) : Decidable (a ∈ s) :=
  inferInstanceAs (Decidable (a ∈ s.elements))

theorem mem_def {a : α} {s : OrderedSet α} : a ∈ s ↔ a ∈ s.elements := Iff.rfl

theorem nodup (s : OrderedSet α) : s.elements.Nodup := s.increasing.imp ne_of_lt

/-- A list without repetitions in ascending order is strictly increasing. -/
theorem increasing_of_sorted {l : List α} (hsorted : l.Pairwise (· ≤ ·)) (hnodup : l.Nodup) :
    l.Pairwise (· < ·) :=
  (hsorted.and hnodup).imp fun h => lt_of_le_of_ne h.1 h.2

def empty : OrderedSet α := ⟨[], .nil⟩

def size (s : OrderedSet α) : Nat := s.elements.length

/-- The smallest element. -/
def first (s : OrderedSet α) : Option α := s.elements.head?

def insert (s : OrderedSet α) (a : α) : OrderedSet α :=
  if h : a ∈ s then s
  else ⟨s.elements.orderedInsert (· ≤ ·) a, increasing_of_sorted
    ((s.increasing.imp le_of_lt).orderedInsert a _)
    ((List.perm_orderedInsert _ a _).nodup_iff.mpr (List.nodup_cons.mpr ⟨h, s.nodup⟩))⟩

def erase (s : OrderedSet α) (a : α) : OrderedSet α :=
  ⟨s.elements.erase a, s.increasing.sublist List.erase_sublist⟩

/-- The elements in front of the lower bound of `x`. -/
def below (s : OrderedSet α) (x : α) : List α := s.elements.takeWhile (· < x)

/-- What is left when the elements in front of the lower bound are cut out. -/
def dropBelow (s : OrderedSet α) (x : α) : OrderedSet α :=
  ⟨s.elements.dropWhile (· < x), s.increasing.sublist (List.dropWhile_sublist _)⟩

@[simp] theorem not_mem_empty (a : α) : ¬ a ∈ (empty : OrderedSet α) := List.not_mem_nil

@[simp] theorem mem_insert {s : OrderedSet α} {a b : α} : b ∈ s.insert a ↔ b = a ∨ b ∈ s := by
  unfold insert
  split
  · rename_i h
    exact ⟨.inr, fun h' => h'.elim (fun heq => heq ▸ h) id⟩
  · exact List.mem_orderedInsert _

@[simp] theorem mem_erase {s : OrderedSet α} {a b : α} : b ∈ s.erase a ↔ b ≠ a ∧ b ∈ s :=
  s.nodup.mem_erase_iff

theorem size_erase {s : OrderedSet α} {a : α} (h : a ∈ s) : (s.erase a).size + 1 = s.size := by
  have hperm := (List.perm_cons_erase h).length_eq
  rw [List.length_cons] at hperm
  exact hperm.symm

theorem first_eq_none {s : OrderedSet α} : s.first = none ↔ ∀ a, a ∉ s := by
  rw [first, List.head?_eq_none_iff, List.eq_nil_iff_forall_not_mem]
  rfl

theorem first_eq_some {s : OrderedSet α} {a : α} (h : s.first = some a) :
    a ∈ s ∧ ∀ b ∈ s, a ≤ b := by
  obtain ⟨l, hl⟩ := s
  cases l with
  | nil => cases h
  | cons c l =>
      cases Option.some.inj h
      refine ⟨List.mem_cons_self, fun b hb => ?_⟩
      cases List.mem_cons.mp hb with
      | inl heq => exact le_of_eq heq.symm
      | inr hmem => exact le_of_lt ((List.pairwise_cons.mp hl).1 b hmem)

/-- An increasing list is cut where its elements reach `x`. -/
theorem takeWhile_eq_filter {l : List α} (hl : l.Pairwise (· < ·)) (x : α) :
    l.takeWhile (· < x) = l.filter (· < x) := by
  induction l with
  | nil => rfl
  | cons a l ih =>
      obtain ⟨ha, hl⟩ := List.pairwise_cons.mp hl
      by_cases hax : a < x
      · simp [hax, ih hl]
      · have hall : ∀ b ∈ l, x ≤ b := fun b hb => (not_lt.mp hax).trans (le_of_lt (ha b hb))
        simpa [hax] using hall

theorem dropWhile_eq_filter {l : List α} (hl : l.Pairwise (· < ·)) (x : α) :
    l.dropWhile (· < x) = l.filter (x ≤ ·) := by
  induction l with
  | nil => rfl
  | cons a l ih =>
      obtain ⟨ha, hl⟩ := List.pairwise_cons.mp hl
      by_cases hax : a < x
      · simp [hax, not_le.mpr hax, ih hl]
      · have hall : ∀ b ∈ l, x ≤ b := fun b hb => (not_lt.mp hax).trans (le_of_lt (ha b hb))
        simpa [hax, not_lt.mp hax] using (List.filter_eq_self.mpr (by simpa using hall)).symm

theorem mem_below {s : OrderedSet α} {a x : α} : a ∈ s.below x ↔ a ∈ s ∧ a < x := by
  rw [below, takeWhile_eq_filter s.increasing]
  simp [mem_def]

theorem mem_dropBelow {s : OrderedSet α} {a x : α} : a ∈ s.dropBelow x ↔ a ∈ s ∧ x ≤ a := by
  have hfilter := dropWhile_eq_filter s.increasing x
  simp only [mem_def, dropBelow]
  rw [hfilter]
  simp

theorem below_increasing (s : OrderedSet α) (x : α) : (s.below x).Pairwise (· < ·) :=
  s.increasing.sublist (List.takeWhile_sublist _)

/-- Sets whose elements correspond one to one have the same size. -/
theorem size_eq_of_map {β : Type u} [LinearOrder β] {s : OrderedSet α} {t : OrderedSet β}
    {f : α → β} (hmem : ∀ b, b ∈ t ↔ ∃ a ∈ s, f a = b)
    (hinj : ∀ a ∈ s, ∀ a' ∈ s, f a = f a' → a = a') : s.size = t.size := by
  have hnodup : (s.elements.map f).Nodup := List.Nodup.map_on hinj s.nodup
  have hperm : (s.elements.map f).Perm t.elements :=
    (List.perm_ext_iff_of_nodup hnodup t.nodup).mpr fun b => by
      rw [List.mem_map, ← mem_def, hmem]
      rfl
  rw [size, size, ← hperm.length_eq, List.length_map]

end OrderedSet
end TAlib.Foundation
