import Mathlib.Data.List.Lex
import Mathlib.Order.Lattice

/-!
A finite map kept as a list of entries with strictly increasing keys, the way
an ordered tree map is traversed. The order of the entries is a field, so a map
with a key twice cannot be built.
-/

namespace TAlib.Foundation

universe u v
variable {κ : Type u} {ν : Type v}

instance instLinearOrderUInt8 : LinearOrder UInt8 where
  le_refl := UInt8.le_refl
  le_trans _ _ _ := UInt8.le_trans
  le_antisymm _ _ := UInt8.le_antisymm
  le_total := UInt8.le_total
  lt_iff_le_not_ge a b := by
    simp only [UInt8.lt_iff_toNat_lt, UInt8.le_iff_toNat_le]
    omega
  toDecidableLE := inferInstance

structure OrderedMap (κ : Type u) (ν : Type v) [LinearOrder κ] where
  entries : List (κ × ν)
  increasing : entries.Pairwise (fun a b => a.1 < b.1)

namespace OrderedMap

variable [LinearOrder κ]

instance [DecidableEq ν] : DecidableEq (OrderedMap κ ν) := fun m n =>
  decidable_of_iff (m.entries = n.entries) <| by
    cases m
    cases n
    simp

def empty : OrderedMap κ ν := ⟨[], .nil⟩

/-- Replaces the value of a present key, or adds the entry in its place. -/
def insertEntry (k : κ) (x : ν) : List (κ × ν) → List (κ × ν)
  | [] => [(k, x)]
  | e :: rest =>
      if k < e.1 then (k, x) :: e :: rest
      else if k = e.1 then (k, x) :: rest
      else e :: insertEntry k x rest

theorem mem_insertEntry {k : κ} {x : ν} {a : κ × ν} {l : List (κ × ν)}
    (h : a ∈ insertEntry k x l) : a = (k, x) ∨ a ∈ l := by
  induction l with
  | nil =>
      simp only [insertEntry, List.mem_singleton] at h
      exact .inl h
  | cons e rest ih =>
      simp only [insertEntry] at h
      split at h
      · exact List.mem_cons.mp h
      · split at h
        · rcases List.mem_cons.mp h with h | h
          · exact .inl h
          · exact .inr (List.mem_cons_of_mem _ h)
        · rcases List.mem_cons.mp h with h | h
          · exact .inr (h ▸ List.mem_cons_self)
          · exact (ih h).imp_right (List.mem_cons_of_mem _)

theorem insertEntry_increasing (k : κ) (x : ν) {l : List (κ × ν)}
    (h : l.Pairwise (fun a b => a.1 < b.1)) :
    (insertEntry k x l).Pairwise (fun a b => a.1 < b.1) := by
  induction l with
  | nil => simp [insertEntry]
  | cons e rest ih =>
      obtain ⟨he, hrest⟩ := List.pairwise_cons.mp h
      simp only [insertEntry]
      split
      · rename_i hlt
        refine List.pairwise_cons.mpr ⟨?_, h⟩
        intro a ha
        rcases List.mem_cons.mp ha with rfl | ha
        · exact hlt
        · exact hlt.trans (he a ha)
      · rename_i hlt
        split
        · rename_i heq
          refine List.pairwise_cons.mpr ⟨fun a ha => ?_, hrest⟩
          exact heq ▸ he a ha
        · rename_i hne
          refine List.pairwise_cons.mpr ⟨fun a ha => ?_, ih hrest⟩
          rcases mem_insertEntry ha with rfl | ha
          · exact lt_of_le_of_ne (not_lt.mp hlt) (Ne.symm hne)
          · exact he a ha

def insert (m : OrderedMap κ ν) (k : κ) (x : ν) : OrderedMap κ ν :=
  ⟨insertEntry k x m.entries, insertEntry_increasing k x m.increasing⟩

def find? (m : OrderedMap κ ν) (k : κ) : Option ν :=
  (m.entries.find? (fun e => e.1 = k)).map Prod.snd

@[simp] theorem find?_empty (k : κ) : (empty : OrderedMap κ ν).find? k = none := rfl

theorem find?_insert_self (m : OrderedMap κ ν) (k : κ) (x : ν) :
    (m.insert k x).find? k = some x := by
  obtain ⟨l, hl⟩ := m
  simp only [find?, insert]
  clear hl
  induction l with
  | nil => simp [insertEntry]
  | cons e rest ih =>
      simp only [insertEntry]
      split
      · simp
      · split
        · simp
        · rename_i hne
          simpa [List.find?_cons, Ne.symm hne] using ih

theorem find?_insert_of_ne (m : OrderedMap κ ν) {k k' : κ} (h : k ≠ k') (x : ν) :
    (m.insert k x).find? k' = m.find? k' := by
  obtain ⟨l, hl⟩ := m
  simp only [find?, insert]
  clear hl
  induction l with
  | nil => simp [insertEntry, h]
  | cons e rest ih =>
      simp only [insertEntry]
      split
      · simp [h]
      · split
        · rename_i heq
          subst heq
          simp [h]
        · by_cases he : e.1 = k'
          · simp [he]
          · simpa [List.find?_cons, he] using ih

end OrderedMap
end TAlib.Foundation
