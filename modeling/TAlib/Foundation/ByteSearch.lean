import Mathlib.Data.List.Basic
import Mathlib.Data.List.Infix

/-!
Ranges of a memory and the first occurrence of a pattern in a list. The
lemmas say when the first occurrence is unaffected by what follows it, which
is what lets a reader of lines resume after more input has arrived.
-/

namespace TAlib.Foundation

universe u
variable {α : Type u}

/-- The half-open range of a memory between two positions. -/
def slice (mem : List α) (i j : Nat) : List α := (mem.drop i).take (j - i)

theorem slice_length (mem : List α) (i j : Nat) (h : j ≤ mem.length) :
    (slice mem i j).length = j - i := by
  simp only [slice, List.length_take, List.length_drop]
  omega

theorem slice_slice (mem : List α) (i j a b : Nat) (h : i + b ≤ j) :
    slice (slice mem i j) a b = slice mem (i + a) (i + b) := by
  simp only [slice, List.drop_take, List.drop_drop, List.take_take]
  congr 1
  omega

theorem slice_split (mem : List α) {i j k : Nat} (hij : i ≤ j) (hjk : j ≤ k) :
    slice mem i k = slice mem i j ++ slice mem j k := by
  have hk : k - i = (j - i) + (k - j) := by omega
  have hj : i + (j - i) = j := by omega
  simp only [slice]
  rw [hk, List.take_add, List.drop_drop, hj]

theorem slice_append_left (mem t : List α) {i j : Nat} (h : j ≤ mem.length) :
    slice (mem ++ t) i j = slice mem i j := by
  by_cases hi : i ≤ j
  · simp only [slice]
    rw [List.drop_append_of_le_length (by omega), List.take_append_of_le_length]
    rw [List.length_drop]
    omega
  · simp [slice, show j - i = 0 by omega]

theorem slice_take (mem : List α) {i j n : Nat} (h : j ≤ n) :
    slice (mem.take n) i j = slice mem i j := by
  simp only [slice, List.drop_take, List.take_take]
  congr 1
  omega

/-- The range just written between two untouched parts is what was written. -/
theorem slice_middle (pre mid post : List α) :
    slice (pre ++ mid ++ post) pre.length (pre.length + mid.length) = mid := by
  simp [slice, List.append_assoc]

/-- The range between the two ends of a part is that part. -/
theorem slice_of_eq (pre post : List α) {mem mid : List α} {i j : Nat}
    (h : mem = pre ++ mid ++ post)
    (hi : i = pre.length) (hj : j = pre.length + mid.length) : slice mem i j = mid := by
  subst h hi hj
  exact slice_middle pre mid post

/-- A pair that occurs in neither of two lists occurs in their concatenation
only across the seam. -/
theorem pair_not_infix_append {a b : α} {l r : List α} (hl : ¬ [a, b] <:+: l)
    (hr : ¬ [a, b] <:+: r) (hseam : r.head? ≠ some b) : ¬ [a, b] <:+: l ++ r := by
  induction l with
  | nil => exact hr
  | cons x xs ih =>
      rw [List.infix_cons_iff, not_or] at hl
      rw [List.cons_append, List.infix_cons_iff, not_or]
      refine ⟨fun hp => ?_, ih hl.2⟩
      cases xs with
      | nil =>
          cases r with
          | nil => simp at hp
          | cons y ys =>
              simp only [List.nil_append, List.cons_prefix_cons] at hp
              exact hseam (by simp [hp.2.1])
      | cons y ys =>
          refine hl.1 ?_
          simpa only [List.cons_append, List.cons_prefix_cons, List.nil_prefix, and_true] using hp

theorem pair_not_infix_cons {a b x : α} {l : List α} (hx : x ≠ a) (hl : ¬ [a, b] <:+: l) :
    ¬ [a, b] <:+: x :: l := by
  rw [List.infix_cons_iff, not_or]
  exact ⟨fun hp => hx (List.cons_prefix_cons.mp hp).1.symm, hl⟩

variable [DecidableEq α]

/-- The position of the first occurrence of `needle`, as std::search finds it. -/
def search (needle : List α) : List α → Option Nat
  | [] => if needle = [] then some 0 else none
  | x :: xs => if needle <+: x :: xs then some 0 else (search needle xs).map (· + 1)

theorem search_sound {needle l : List α} {i : Nat} (h : search needle l = some i) :
    needle <+: l.drop i := by
  induction l generalizing i with
  | nil =>
      simp only [search] at h
      split at h
      · rename_i hn
        subst hn
        exact List.nil_prefix
      · cases h
  | cons x xs ih =>
      simp only [search] at h
      split at h
      · rename_i hp
        cases h
        exact hp
      · obtain ⟨k, hk, rfl⟩ := Option.map_eq_some_iff.mp h
        exact ih hk

theorem search_add_length_le {needle l : List α} {i : Nat} (hn : needle ≠ [])
    (h : search needle l = some i) : i + needle.length ≤ l.length := by
  have hp := (search_sound h).length_le
  rw [List.length_drop] at hp
  have : 0 < needle.length := List.length_pos_iff.mpr hn
  omega

/-- The first occurrence stays the first when more input is appended. -/
theorem search_append {needle l : List α} {i : Nat} (hn : needle ≠ [])
    (h : search needle l = some i) (t : List α) : search needle (l ++ t) = some i := by
  induction l generalizing i with
  | nil => simp [search, hn] at h
  | cons x xs ih =>
      simp only [search] at h
      simp only [List.cons_append, search]
      split at h
      · rename_i hp
        cases h
        have hp' : needle <+: x :: (xs ++ t) := hp.trans (List.prefix_append (x :: xs) t)
        rw [if_pos hp']
      · rename_i hp
        obtain ⟨k, hk, rfl⟩ := Option.map_eq_some_iff.mp h
        have hlen := search_add_length_le hn hk
        have hp' : ¬ needle <+: x :: (xs ++ t) := by
          intro hq
          apply hp
          refine List.prefix_of_prefix_length_le hq (List.prefix_append (x :: xs) t) ?_
          simp only [List.length_cons]
          omega
        rw [if_neg hp', ih hk]
        rfl

theorem search_eq_none_iff {needle l : List α} (hn : needle ≠ []) :
    search needle l = none ↔ ¬ needle <:+: l := by
  induction l with
  | nil => simp [search, hn]
  | cons x xs ih =>
      simp only [search, List.infix_cons_iff, not_or]
      split
      · rename_i hp
        simp [hp]
      · rename_i hp
        simp [hp, ih]

/-- What is before the first occurrence holds none. -/
theorem search_take_free {needle l : List α} {i : Nat} (hn : needle ≠ [])
    (h : search needle l = some i) : ¬ needle <:+: l.take i := by
  intro hinfix
  cases hfirst : search needle (l.take i) with
  | none => exact (search_eq_none_iff hn).mp hfirst hinfix
  | some j =>
      have hj := search_append hn hfirst (l.drop i)
      rw [List.take_append_drop, h] at hj
      have hlen := search_add_length_le hn hfirst
      have hpos := List.length_pos_iff.mpr hn
      rw [List.length_take] at hlen
      cases hj
      omega

/-- The list falls into what is before the first occurrence, the pattern, and
the rest. -/
theorem search_split {needle l : List α} {i : Nat} (h : search needle l = some i) :
    l = l.take i ++ needle ++ l.drop (i + needle.length) := by
  obtain ⟨t, ht⟩ := search_sound h
  rw [← List.drop_drop, ← ht, List.drop_left, List.append_assoc, ht, List.take_append_drop]

/-- A two-element pattern with different elements that does not occur in a
line is first found at the end of that line. -/
theorem search_pair_at_end {a b : α} (hab : a ≠ b) {line : List α}
    (h : ¬ [a, b] <:+: line) (t : List α) :
    search [a, b] (line ++ a :: b :: t) = some line.length := by
  induction line with
  | nil => simp [search]
  | cons x xs ih =>
      rw [List.infix_cons_iff, not_or] at h
      have hp : ¬ [a, b] <+: x :: (xs ++ a :: b :: t) := by
        intro hq
        cases xs with
        | nil =>
            simp only [List.nil_append, List.cons_prefix_cons] at hq
            exact hab hq.2.1.symm
        | cons y ys =>
            apply h.1
            simpa only [List.cons_append, List.cons_prefix_cons, List.nil_prefix, and_true]
              using hq
      simp only [List.cons_append, search, if_neg hp, ih h.2, Option.map_some, List.length_cons]

end TAlib.Foundation
