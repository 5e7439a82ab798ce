import Mathlib.Data.List.Nodup
import Mathlib.Logic.Function.Basic

/-!
Things that are held by at most one owner, and by that one once. An owner gets a
thing that nobody holds, or gives one back.
-/

namespace TAlib.Foundation

universe u v
variable {ι : Type u} {κ : Type v}

structure Exclusive (held : ι → List κ) : Prop where
  nodup : ∀ t, (held t).Nodup
  unique : ∀ {t t' c}, c ∈ held t → c ∈ held t' → t = t'

theorem exclusive_empty : Exclusive fun _ : ι => ([] : List κ) :=
  ⟨fun _ => List.nodup_nil, fun h => absurd h List.not_mem_nil⟩

namespace Exclusive

variable [DecidableEq ι] {held : ι → List κ} {t u : ι} {c d : κ}

theorem mem_take : d ∈ Function.update held t (c :: held t) u ↔ (u = t ∧ d = c) ∨ d ∈ held u := by
  by_cases hu : u = t
  · subst hu
    simp only [Function.update_self, List.mem_cons, true_and]
  · simp only [Function.update_of_ne hu, hu, false_and, false_or]

theorem take (h : Exclusive held) (hfree : ∀ u, c ∉ held u) :
    Exclusive (Function.update held t (c :: held t)) := by
  refine ⟨fun u => ?_, fun {u u' d} hu hu' => ?_⟩
  · by_cases hut : u = t
    · subst hut
      rw [Function.update_self]
      exact List.nodup_cons.mpr ⟨hfree u, h.nodup u⟩
    · rw [Function.update_of_ne hut]
      exact h.nodup u
  · cases mem_take.mp hu with
    | inl hnew =>
        cases mem_take.mp hu' with
        | inl hnew' => exact hnew.1.trans hnew'.1.symm
        | inr hold => exact absurd (hnew.2 ▸ hold) (hfree u')
    | inr hold =>
        cases mem_take.mp hu' with
        | inl hnew' => exact absurd (hnew'.2 ▸ hold) (hfree u)
        | inr hold' => exact h.unique hold hold'

variable [DecidableEq κ]

theorem mem_giveBack (h : Exclusive held) :
    d ∈ Function.update held t ((held t).erase c) u ↔ d ∈ held u ∧ ¬ (u = t ∧ d = c) := by
  by_cases hu : u = t
  · subst hu
    rw [Function.update_self, (h.nodup u).mem_erase_iff]
    simp only [true_and, and_comm]
  · simp only [Function.update_of_ne hu, hu, false_and, not_false_eq_true, and_true]

theorem giveBack (h : Exclusive held) : Exclusive (Function.update held t ((held t).erase c)) := by
  refine ⟨fun u => ?_, fun {u u' d} hu hu' => ?_⟩
  · by_cases hut : u = t
    · subst hut
      rw [Function.update_self]
      exact (h.nodup u).erase c
    · rw [Function.update_of_ne hut]
      exact h.nodup u
  · exact h.unique (h.mem_giveBack.mp hu).1 (h.mem_giveBack.mp hu').1

/-- What was given back is held by nobody. -/
theorem not_mem_giveBack (h : Exclusive held) (hc : c ∈ held t) (u : ι) :
    c ∉ Function.update held t ((held t).erase c) u := by
  intro hmem
  obtain ⟨hu, hne⟩ := h.mem_giveBack.mp hmem
  exact hne ⟨h.unique hu hc, rfl⟩

end Exclusive
end TAlib.Foundation
