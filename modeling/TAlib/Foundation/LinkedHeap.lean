import Mathlib.Data.List.Basic
import Mathlib.Data.List.Perm.Subperm
import Mathlib.Data.Set.Insert
import Mathlib.Logic.Function.Basic

/-!
A heap of doubly linked nodes. A list in the heap is given by the addresses of
its nodes in order, the first of them a sentinel or any other entry point. What
a list is depends on the links of its own nodes only, so an update elsewhere
leaves it alone, and inserting or removing a node is a matter of the four links
around it.
-/

namespace TAlib.Foundation

universe u
variable {α : Type u}

structure Node (α : Type u) where
  value : α
  pre : Option Nat
  next : Option Nat

/-- Addresses from `fresh` on have not been handed out. -/
structure Heap (α : Type u) where
  cells : Nat → Option (Node α)
  fresh : Nat

namespace Heap

def empty : Heap α := ⟨fun _ => none, 0⟩

/-- A new node, without links. -/
def alloc (h : Heap α) (value : α) : Heap α :=
  ⟨Function.update h.cells h.fresh (some ⟨value, none, none⟩), h.fresh + 1⟩

def free (h : Heap α) (a : Nat) : Heap α := { h with cells := Function.update h.cells a none }

def modify (h : Heap α) (a : Nat) (f : Node α → Node α) : Heap α :=
  { h with cells := Function.update h.cells a ((h.cells a).map f) }

def setNext (h : Heap α) (a : Nat) (q : Option Nat) : Heap α :=
  h.modify a fun n => { n with next := q }

def setPre (h : Heap α) (a : Nat) (q : Option Nat) : Heap α :=
  h.modify a fun n => { n with pre := q }

def setValue (h : Heap α) (a : Nat) (v : α) : Heap α :=
  h.modify a fun n => { n with value := v }

def nextOf (h : Heap α) (a : Nat) : Option (Option Nat) := (h.cells a).map Node.next

def preOf (h : Heap α) (a : Nat) : Option (Option Nat) := (h.cells a).map Node.pre

def valueOf (h : Heap α) (a : Nat) : Option α := (h.cells a).map Node.value

/-- No node lies at an address that has not been handed out. -/
def Bounded (h : Heap α) : Prop := ∀ a, h.fresh ≤ a → h.cells a = none

section Updates

variable (h : Heap α) (a b : Nat) (q : Option Nat) (v : α)

@[simp] theorem fresh_modify (f : Node α → Node α) : (h.modify a f).fresh = h.fresh := rfl

theorem modify_self (f : Node α → Node α) : (h.modify a f).cells a = (h.cells a).map f :=
  Function.update_self _ _ _

variable {a b} in
theorem modify_of_ne (f : Node α → Node α) (hne : b ≠ a) : (h.modify a f).cells b = h.cells b :=
  Function.update_of_ne hne _ _

/-- An update through a field that the observation does not see. -/
theorem map_modify {β : Type*} {g : Node α → β} {f : Node α → Node α} (hfg : ∀ n, g (f n) = g n) :
    ((h.modify a f).cells b).map g = (h.cells b).map g := by
  by_cases hne : b = a
  · subst hne
    rw [modify_self]
    cases h.cells b with
    | none => rfl
    | some n => simp only [Option.map_some, hfg]
  · rw [modify_of_ne h f hne]

@[simp] theorem nextOf_setPre : (h.setPre a q).nextOf b = h.nextOf b :=
  map_modify h a b fun _ => rfl

@[simp] theorem nextOf_setValue : (h.setValue a v).nextOf b = h.nextOf b :=
  map_modify h a b fun _ => rfl

@[simp] theorem preOf_setNext : (h.setNext a q).preOf b = h.preOf b := map_modify h a b fun _ => rfl

@[simp] theorem preOf_setValue : (h.setValue a v).preOf b = h.preOf b :=
  map_modify h a b fun _ => rfl

@[simp] theorem valueOf_setNext : (h.setNext a q).valueOf b = h.valueOf b :=
  map_modify h a b fun _ => rfl

@[simp] theorem valueOf_setPre : (h.setPre a q).valueOf b = h.valueOf b :=
  map_modify h a b fun _ => rfl

variable {h a b q v}

theorem nextOf_setNext_self (ha : h.cells a ≠ none) : (h.setNext a q).nextOf a = some q := by
  obtain ⟨n, hn⟩ := Option.ne_none_iff_exists'.mp ha
  simp only [nextOf, setNext, modify_self, hn, Option.map_some]

theorem nextOf_setNext_ne (hne : b ≠ a) : (h.setNext a q).nextOf b = h.nextOf b := by
  simp only [nextOf, setNext, modify_of_ne h _ hne]

theorem preOf_setPre_self (ha : h.cells a ≠ none) : (h.setPre a q).preOf a = some q := by
  obtain ⟨n, hn⟩ := Option.ne_none_iff_exists'.mp ha
  simp only [preOf, setPre, modify_self, hn, Option.map_some]

theorem preOf_setPre_ne (hne : b ≠ a) : (h.setPre a q).preOf b = h.preOf b := by
  simp only [preOf, setPre, modify_of_ne h _ hne]

theorem valueOf_setValue_self (ha : h.cells a ≠ none) : (h.setValue a v).valueOf a = some v := by
  obtain ⟨n, hn⟩ := Option.ne_none_iff_exists'.mp ha
  simp only [valueOf, setValue, modify_self, hn, Option.map_some]

theorem valueOf_setValue_ne (hne : b ≠ a) : (h.setValue a v).valueOf b = h.valueOf b := by
  simp only [valueOf, setValue, modify_of_ne h _ hne]

theorem alloc_self : (h.alloc v).cells h.fresh = some ⟨v, none, none⟩ := Function.update_self _ _ _

theorem alloc_of_ne (hne : b ≠ h.fresh) : (h.alloc v).cells b = h.cells b :=
  Function.update_of_ne hne _ _

theorem free_of_ne (hne : b ≠ a) : (h.free a).cells b = h.cells b := Function.update_of_ne hne _ _

theorem cells_modify_ne_none (f : Node α → Node α) : (h.modify a f).cells b ≠ none ↔
    h.cells b ≠ none := by
  have hmap : ((h.modify a f).cells b).map (fun _ => ()) = (h.cells b).map fun _ => () :=
    map_modify h a b fun _ => rfl
  rw [← Option.isSome_iff_ne_none, ← Option.isSome_iff_ne_none,
    ← Option.isSome_map (f := fun _ => ()),
    hmap, Option.isSome_map]

end Updates

/-- The nodes are linked in this order, in both directions, and the list ends
with the last of them. -/
def Linked (h : Heap α) : List Nat → Prop
  | [] => True
  | [p] => h.nextOf p = some none
  | p :: q :: rest => h.nextOf p = some (some q) ∧ h.preOf q = some (some p) ∧ Linked h (q :: rest)

variable {h h' : Heap α}

theorem Linked.next_head {p : Nat} {rest : List Nat} (hl : h.Linked (p :: rest)) :
    h.nextOf p = some rest.head? := by
  cases rest with
  | nil => exact hl
  | cons q rest => exact hl.1

/-- A list depends on the links of its nodes only, and not on what stands before
its first. -/
theorem Linked.congr {l : List Nat} (hl : h.Linked l)
    (hnext : ∀ a ∈ l, h'.nextOf a = h.nextOf a) (hpre : ∀ a ∈ l.tail, h'.preOf a = h.preOf a) :
    h'.Linked l := by
  induction l with
  | nil => trivial
  | cons p rest ih =>
      cases rest with
      | nil => exact (hnext p List.mem_cons_self).trans hl
      | cons q rest =>
          refine ⟨(hnext p List.mem_cons_self).trans hl.1,
            (hpre q List.mem_cons_self).trans hl.2.1, ih hl.2.2 (fun a ha => ?_) fun a ha => ?_⟩
          · exact hnext a (List.mem_cons_of_mem _ ha)
          · exact hpre a (List.mem_cons_of_mem _ ha)

theorem Linked.of_cons {p : Nat} {rest : List Nat} (hl : h.Linked (p :: rest)) : h.Linked rest := by
  cases rest with
  | nil => trivial
  | cons q rest => exact hl.2.2

theorem Linked.suffix {before : List Nat} {after : List Nat} (hl : h.Linked (before ++ after)) :
    h.Linked after := by
  induction before with
  | nil => exact hl
  | cons p rest ih => exact ih hl.of_cons

theorem Linked.mem_cells {l : List Nat} (hl : h.Linked l) {a : Nat} (ha : a ∈ l) :
    h.cells a ≠ none := by
  obtain ⟨before, after, rfl⟩ := List.append_of_mem ha
  have hnext := hl.suffix.next_head
  intro hnone
  rw [nextOf, hnone] at hnext
  cases hnext

/-- What stands before a node. -/
theorem Linked.pre_mid {before : List Nat} {f y : Nat} {after : List Nat}
    (hl : h.Linked (before ++ f :: y :: after)) : h.preOf y = some (some f) :=
  hl.suffix.2.1

/-- A list that is changed behind one of its nodes only. -/
theorem Linked.replace_suffix {before : List Nat} {f : Nat} {after after' : List Nat}
    (hl : h.Linked (before ++ f :: after)) (hafter : h'.Linked (f :: after'))
    (hnext : ∀ a ∈ before, h'.nextOf a = h.nextOf a)
    (hpre : ∀ a ∈ before, h'.preOf a = h.preOf a) (hf : h'.preOf f = h.preOf f) :
    h'.Linked (before ++ f :: after') := by
  induction before with
  | nil => exact hafter
  | cons p rest ih =>
      have hrest := ih hl.of_cons (fun a ha => hnext a (List.mem_cons_of_mem _ ha))
        fun a ha => hpre a (List.mem_cons_of_mem _ ha)
      cases rest with
      | nil =>
          exact ⟨(hnext p List.mem_cons_self).trans hl.1, hf.trans hl.2.1, hrest⟩
      | cons q rest =>
          exact ⟨(hnext p List.mem_cons_self).trans hl.1,
            (hpre q (List.mem_cons_of_mem _ List.mem_cons_self)).trans hl.2.1, hrest⟩

/-- The node `q` is put behind `f`. -/
theorem Linked.insert_after {before : List Nat} {f q : Nat} {after : List Nat}
    (hl : h.Linked (before ++ f :: after)) (hnodup : (before ++ f :: after).Nodup)
    (hq : q ∉ before ++ f :: after) (hf : h'.nextOf f = some (some q))
    (hqnext : h'.nextOf q = some after.head?) (hqpre : h'.preOf q = some (some f))
    (hhead : ∀ y ∈ after.head?, h'.preOf y = some (some q))
    (hnext : ∀ a, a ≠ f → a ≠ q → h'.nextOf a = h.nextOf a)
    (hpre : ∀ a, a ∉ after.head? → a ≠ q → h'.preOf a = h.preOf a) :
    h'.Linked (before ++ f :: q :: after) := by
  rw [List.nodup_append, List.nodup_cons] at hnodup
  obtain ⟨-, ⟨hfafter, hafter⟩, hdisjoint⟩ := hnodup
  simp only [List.mem_append, List.mem_cons, not_or] at hq
  obtain ⟨hqbefore, hqf, hqafter⟩ := hq
  have hnotHead (a : Nat) (ha : a ∉ after) : a ∉ after.head? := by
    intro hmem
    exact ha (List.mem_of_mem_head? hmem)
  refine hl.replace_suffix ⟨hf, hqpre, ?_⟩ (fun a ha => ?_) (fun a ha => ?_) ?_
  · cases after with
    | nil => exact hqnext
    | cons y ys =>
        refine ⟨hqnext, hhead y rfl, hl.suffix.of_cons.congr (fun a ha => ?_) fun a ha => ?_⟩
        · refine hnext a (fun heq => hfafter (heq ▸ ha)) fun heq => hqafter (heq ▸ ha)
        · refine hpre a (fun heq => ?_) fun heq => hqafter (heq ▸ List.mem_cons_of_mem _ ha)
          cases Option.mem_some_iff.mp heq
          exact (List.nodup_cons.mp hafter).1 ha
  · exact hnext a (fun heq => hdisjoint a ha f List.mem_cons_self heq)
      fun heq => hqbefore (heq ▸ ha)
  · exact hpre a (hnotHead a fun hmem => hdisjoint a ha a (List.mem_cons_of_mem _ hmem) rfl)
      fun heq => hqbefore (heq ▸ ha)
  · exact hpre f (hnotHead f hfafter) fun heq => hqf heq.symm

/-- The node `y` behind `f` is taken out. -/
theorem Linked.remove_after {before : List Nat} {f y : Nat} {after : List Nat}
    (hl : h.Linked (before ++ f :: y :: after)) (hnodup : (before ++ f :: y :: after).Nodup)
    (hf : h'.nextOf f = some after.head?)
    (hhead : ∀ z ∈ after.head?, h'.preOf z = some (some f))
    (hnext : ∀ a, a ≠ f → a ≠ y → h'.nextOf a = h.nextOf a)
    (hpre : ∀ a, a ∉ after.head? → a ≠ y → h'.preOf a = h.preOf a) :
    h'.Linked (before ++ f :: after) := by
  rw [List.nodup_append, List.nodup_cons, List.nodup_cons] at hnodup
  obtain ⟨-, ⟨hf', hy, hafter⟩, hdisjoint⟩ := hnodup
  rw [List.mem_cons, not_or] at hf'
  have hnotHead (a : Nat) (ha : a ∉ after) : a ∉ after.head? := by
    intro hmem
    exact ha (List.mem_of_mem_head? hmem)
  refine hl.replace_suffix ?_ (fun a ha => ?_) (fun a ha => ?_) ?_
  · cases after with
    | nil => exact hf
    | cons z zs =>
        refine ⟨hf, hhead z rfl, hl.suffix.of_cons.of_cons.congr (fun a ha => ?_) fun a ha => ?_⟩
        · exact hnext a (fun heq => hf'.2 (heq ▸ ha)) fun heq => hy (heq ▸ ha)
        · refine hpre a (fun heq => ?_) fun heq => hy (heq ▸ List.mem_cons_of_mem _ ha)
          cases Option.mem_some_iff.mp heq
          exact (List.nodup_cons.mp hafter).1 ha
  · exact hnext a (fun heq => hdisjoint a ha f List.mem_cons_self heq)
      fun heq => hdisjoint a ha y (List.mem_cons_of_mem _ List.mem_cons_self) heq
  · refine hpre a (hnotHead a fun hmem => ?_) fun heq =>
      hdisjoint a ha y (List.mem_cons_of_mem _ List.mem_cons_self) heq
    exact hdisjoint a ha a (List.mem_cons_of_mem _ (List.mem_cons_of_mem _ hmem)) rfl
  · exact hpre f (hnotHead f hf'.2) hf'.1

/-- Only links have changed, and only those of the nodes `S`. -/
structure Relinks (S : List Nat) (h h' : Heap α) : Prop where
  values : ∀ a, h'.valueOf a = h.valueOf a
  cells : ∀ a, a ∉ S → h'.cells a = h.cells a
  fresh : h'.fresh = h.fresh

theorem Relinks.refl (S : List Nat) (h : Heap α) : h.Relinks S h :=
  ⟨fun _ => rfl, fun _ _ => rfl, rfl⟩

theorem Relinks.trans {S : List Nat} {h₁ h₂ h₃ : Heap α} (h : h₁.Relinks S h₂)
    (h' : h₂.Relinks S h₃) : h₁.Relinks S h₃ :=
  ⟨fun a => (h'.values a).trans (h.values a), fun a ha => (h'.cells a ha).trans (h.cells a ha),
    h'.fresh.trans h.fresh⟩

theorem setNext_relinks {S : List Nat} {a : Nat} (ha : a ∈ S) (q : Option Nat) :
    h.Relinks S (h.setNext a q) :=
  ⟨fun _ => valueOf_setNext h _ _ q, fun _ hb => modify_of_ne h _ fun heq => hb (heq ▸ ha), rfl⟩

theorem setPre_relinks {S : List Nat} {a : Nat} (ha : a ∈ S) (q : Option Nat) :
    h.Relinks S (h.setPre a q) :=
  ⟨fun _ => valueOf_setPre h _ _ q, fun _ hb => modify_of_ne h _ fun heq => hb (heq ▸ ha), rfl⟩

theorem Linked.of_cells {l : List Nat} (hl : h.Linked l)
    (hcells : ∀ a ∈ l, h'.cells a = h.cells a) :
    h'.Linked l := by
  refine hl.congr (fun a ha => ?_) fun a ha => ?_
  · simp only [nextOf, hcells a ha]
  · simp only [preOf, hcells a (List.mem_of_mem_tail ha)]

theorem Linked.relinks {S l : List Nat} (hl : h.Linked l) (hr : h.Relinks S h')
    (hdisjoint : ∀ a ∈ l, a ∉ S) : h'.Linked l :=
  hl.of_cells fun a ha => hr.cells a (hdisjoint a ha)

theorem cells_ne_none_of_valueOf {a : Nat} {v : α} (h₀ : h.valueOf a = some v) :
    h.cells a ≠ none := by
  intro hnone
  rw [valueOf, hnone] at h₀
  cases h₀

theorem valueOf_isSome {a : Nat} : (h.valueOf a).isSome = true ↔ h.cells a ≠ none := by
  rw [valueOf, Option.isSome_map, Option.isSome_iff_ne_none]

theorem Relinks.cells_ne_none {S : List Nat} (hr : h.Relinks S h') {a : Nat} :
    h'.cells a ≠ none ↔ h.cells a ≠ none := by
  rw [← valueOf_isSome, ← valueOf_isSome, hr.values]

theorem Bounded.relinks {S : List Nat} (hb : h.Bounded) (hr : h.Relinks S h') : h'.Bounded := by
  intro a ha
  rw [hr.fresh] at ha
  by_contra hne
  exact hr.cells_ne_none.mp hne (hb a ha)

theorem Bounded.ne_fresh (hb : h.Bounded) {a : Nat} (ha : h.cells a ≠ none) : a ≠ h.fresh := by
  rintro rfl
  exact ha (hb h.fresh (Nat.le_refl _))

theorem Bounded.lt_fresh (hb : h.Bounded) {a : Nat} (ha : h.cells a ≠ none) : a < h.fresh := by
  by_contra hle
  exact ha (hb a (Nat.le_of_not_lt hle))

theorem Bounded.alloc (hb : h.Bounded) (v : α) : (h.alloc v).Bounded := by
  intro a ha
  have hlt : h.fresh < a := ha
  rw [alloc_of_ne (Nat.ne_of_gt hlt)]
  exact hb a (Nat.le_of_lt hlt)

theorem Bounded.modify (hb : h.Bounded) (a : Nat) (f : Node α → Node α) :
    (h.modify a f).Bounded := by
  intro b hle
  by_contra hne
  exact cells_modify_ne_none f |>.mp hne (hb b hle)

theorem Bounded.free (hb : h.Bounded) (a : Nat) : (h.free a).Bounded := by
  intro b hle
  by_cases hab : b = a
  · rw [hab]
    exact Function.update_self _ _ _
  · rw [free_of_ne hab]
    exact hb b hle

theorem setPre_setNext_comm {a b : Nat} (hne : a ≠ b) (p q : Option Nat) :
    (h.setNext a p).setPre b q = (h.setPre b q).setNext a p := by
  simp only [setNext, setPre, modify, Heap.mk.injEq, and_true]
  rw [Function.update_of_ne hne.symm, Function.update_of_ne hne, Function.update_comm hne]

/-- Puts `q` between `f` and the node `next` behind it. -/
def linkAfter (h : Heap α) (f q : Nat) (next : Option Nat) : Heap α :=
  let h := match next with
    | some y => h.setPre y (some q)
    | none => h
  ((h.setNext q next).setPre q (some f)).setNext f (some q)

/-- Takes the node behind `f` out, with `next` the node behind that one. -/
def unlink (h : Heap α) (f : Nat) (next : Option Nat) : Heap α :=
  let h := h.setNext f next
  match next with
  | some z => h.setPre z (some f)
  | none => h

theorem linkAfter_ok {before : List Nat} {f q : Nat} {after : List Nat}
    (hl : h.Linked (before ++ f :: after)) (hnodup : (before ++ f :: after).Nodup)
    (hq : q ∉ before ++ f :: after) (halloc : h.cells q ≠ none) :
    (h.linkAfter f q after.head?).Linked (before ++ f :: q :: after) ∧
      h.Relinks (before ++ f :: q :: after) (h.linkAfter f q after.head?) := by
  have hf : h.cells f ≠ none := hl.mem_cells (List.mem_append_right _ List.mem_cons_self)
  have hqf : q ≠ f := fun heq => hq (heq ▸ List.mem_append_right _ List.mem_cons_self)
  have hmemf : f ∈ before ++ f :: q :: after := List.mem_append_right _ List.mem_cons_self
  have hmemq : q ∈ before ++ f :: q :: after :=
    List.mem_append_right _ (List.mem_cons_of_mem _ List.mem_cons_self)
  cases after with
  | nil =>
      refine ⟨?_, (((setNext_relinks hmemq _).trans (setPre_relinks hmemq _)).trans
        (setNext_relinks hmemf _))⟩
      refine hl.insert_after hnodup hq ?_ ?_ ?_ nofun (fun a haf haq => ?_) fun a _ haq => ?_
      · simp only [linkAfter, List.head?_nil]
        refine nextOf_setNext_self ?_
        rwa [setPre, setNext, cells_modify_ne_none, cells_modify_ne_none]
      · simp only [linkAfter, List.head?_nil]
        rw [nextOf_setNext_ne hqf, nextOf_setPre]
        exact nextOf_setNext_self halloc
      · simp only [linkAfter, List.head?_nil]
        rw [preOf_setNext]
        refine preOf_setPre_self ?_
        rwa [setNext, cells_modify_ne_none]
      · simp only [linkAfter, List.head?_nil]
        rw [nextOf_setNext_ne haf, nextOf_setPre, nextOf_setNext_ne haq]
      · simp only [linkAfter, List.head?_nil]
        rw [preOf_setNext, preOf_setPre_ne haq, preOf_setNext]
  | cons y ys =>
      have hy : h.cells y ≠ none := hl.mem_cells
        (List.mem_append_right _ (List.mem_cons_of_mem _ List.mem_cons_self))
      have hyq : y ≠ q := fun heq => hq
        (heq ▸ List.mem_append_right _ (List.mem_cons_of_mem _ List.mem_cons_self))
      have hmemy : y ∈ before ++ f :: q :: y :: ys := List.mem_append_right _
        (List.mem_cons_of_mem _ (List.mem_cons_of_mem _ List.mem_cons_self))
      refine ⟨?_, ((((setPre_relinks hmemy _).trans (setNext_relinks hmemq _)).trans
        (setPre_relinks hmemq _)).trans (setNext_relinks hmemf _))⟩
      refine hl.insert_after hnodup hq ?_ ?_ ?_ (fun z hz => ?_) (fun a haf haq => ?_)
        fun a hay haq => ?_
      · simp only [linkAfter, List.head?_cons]
        refine nextOf_setNext_self ?_
        simp only [setPre, setNext, cells_modify_ne_none]
        exact hf
      · simp only [linkAfter, List.head?_cons]
        rw [nextOf_setNext_ne hqf, nextOf_setPre]
        refine nextOf_setNext_self ?_
        rwa [setPre, cells_modify_ne_none]
      · simp only [linkAfter, List.head?_cons]
        rw [preOf_setNext]
        refine preOf_setPre_self ?_
        rwa [setNext, setPre, cells_modify_ne_none, cells_modify_ne_none]
      · cases Option.mem_some_iff.mp hz
        simp only [linkAfter, List.head?_cons]
        rw [preOf_setNext, preOf_setPre_ne hyq, preOf_setNext]
        exact preOf_setPre_self hy
      · simp only [linkAfter, List.head?_cons]
        rw [nextOf_setNext_ne haf, nextOf_setPre, nextOf_setNext_ne haq, nextOf_setPre]
      · have hay' : a ≠ y := fun heq => hay (Option.mem_some_iff.mpr heq.symm)
        simp only [linkAfter, List.head?_cons]
        rw [preOf_setNext, preOf_setPre_ne haq, preOf_setNext, preOf_setPre_ne hay']

theorem unlink_ok {before : List Nat} {f y : Nat} {after : List Nat}
    (hl : h.Linked (before ++ f :: y :: after)) (hnodup : (before ++ f :: y :: after).Nodup) :
    (h.unlink f after.head?).Linked (before ++ f :: after) ∧
      h.Relinks (before ++ f :: after) (h.unlink f after.head?) := by
  have hf : h.cells f ≠ none := hl.mem_cells (List.mem_append_right _ List.mem_cons_self)
  have hmemf : f ∈ before ++ f :: after := List.mem_append_right _ List.mem_cons_self
  cases after with
  | nil =>
      refine ⟨hl.remove_after hnodup (nextOf_setNext_self hf) nofun (fun a haf _ => ?_)
        fun a _ _ => ?_, setNext_relinks hmemf _⟩
      · exact nextOf_setNext_ne haf
      · exact preOf_setNext h f a none
  | cons z zs =>
      have hz : h.cells z ≠ none := hl.mem_cells (List.mem_append_right _
        (List.mem_cons_of_mem _ (List.mem_cons_of_mem _ List.mem_cons_self)))
      have hmemz : z ∈ before ++ f :: z :: zs :=
        List.mem_append_right _ (List.mem_cons_of_mem _ List.mem_cons_self)
      refine ⟨hl.remove_after hnodup ?_ (fun z' hz' => ?_) (fun a haf _ => ?_) fun a haz _ => ?_,
        (setNext_relinks hmemf _).trans (setPre_relinks hmemz _)⟩
      · simp only [unlink, List.head?_cons]
        rw [nextOf_setPre]
        exact nextOf_setNext_self hf
      · cases Option.mem_some_iff.mp hz'
        refine preOf_setPre_self ?_
        rwa [setNext, cells_modify_ne_none]
      · simp only [unlink, List.head?_cons]
        rw [nextOf_setPre, nextOf_setNext_ne haf]
      · have haz' : a ≠ z := fun heq => haz (Option.mem_some_iff.mpr heq.symm)
        simp only [unlink, List.head?_cons]
        rw [preOf_setPre_ne haz', preOf_setNext]

theorem Linked.next_get {l : List Nat} (hl : h.Linked l) {i : Nat} (hi : i < l.length) :
    h.nextOf l[i] = some l[i + 1]? := by
  induction l generalizing i with
  | nil => cases hi
  | cons p rest ih =>
      cases i with
      | zero => simpa only [List.getElem_cons_zero, List.getElem?_cons_succ, List.head?_eq_getElem?]
          using hl.next_head
      | succ i => exact ih hl.of_cons (Nat.lt_of_succ_lt_succ hi)

theorem Linked.pre_get {l : List Nat} (hl : h.Linked l) {i : Nat} (hi : i + 1 < l.length) :
    h.preOf l[i + 1] = some (some l[i]) := by
  induction l generalizing i with
  | nil => cases hi
  | cons p rest ih =>
      cases rest with
      | nil => exact absurd hi (Nat.not_lt.mpr (Nat.le_add_left 1 i))
      | cons q rest =>
          cases i with
          | zero => exact hl.2.1
          | succ i => exact ih hl.of_cons (Nat.lt_of_succ_lt_succ hi)

/-- The nodes from `first` on. Every one is live, the next link of each leads to the
one behind it and that of the last to none, and the pre links are the inverse. -/
structure Chain (h : Heap α) (first : Option Nat) (l : List Nat) : Prop where
  first : l.head? = first
  distinct : l.Nodup
  next : ∀ i (hi : i < l.length), h.nextOf l[i] = some l[i + 1]?
  inverse : ∀ a ∈ l, ∀ b ∈ l.tail, h.nextOf a = some (some b) ↔ h.preOf b = some (some a)

theorem Linked.chain {l : List Nat} (hl : h.Linked l) (hnodup : l.Nodup) : h.Chain l.head? l := by
  refine ⟨rfl, hnodup, fun i hi => hl.next_get hi, fun a ha b hb => ?_⟩
  obtain ⟨i, hi, rfl⟩ := List.getElem_of_mem ha
  obtain ⟨j, hj, rfl⟩ := List.getElem_of_mem hb
  rw [List.length_tail] at hj
  have hj' : j + 1 < l.length := by omega
  rw [List.getElem_tail, hl.next_get hi, hl.pre_get hj']
  simp only [Option.some.injEq]
  rw [List.getElem?_eq_some_iff]
  constructor
  · rintro ⟨hlt, heq⟩
    have hij : i + 1 = j + 1 := (List.getElem_inj hnodup).mp heq
    simp only [Nat.add_right_cancel hij]
  · intro heq
    have hij : j = i := (List.getElem_inj hnodup).mp heq
    subst hij
    exact ⟨hj', rfl⟩

/-- The nodes met on the way from `p` along the next links. -/
def walk (h : Heap α) : Nat → Option Nat → List (Nat × α)
  | 0, _ => []
  | _ + 1, none => []
  | fuel + 1, some a =>
      match h.cells a with
      | none => []
      | some n => (a, n.value) :: walk h fuel n.next

theorem walk_linked {β : Type*} {l : List β} {address : β → Nat} {value : β → α}
    (hl : h.Linked (l.map address)) (hv : ∀ x ∈ l, h.valueOf (address x) = some (value x))
    {fuel : Nat} (hfuel : l.length ≤ fuel) :
    h.walk fuel (l.map address).head? = l.map fun x => (address x, value x) := by
  induction l generalizing fuel with
  | nil =>
      cases fuel with
      | zero => rfl
      | succ n => rfl
  | cons x rest ih =>
      obtain ⟨n, hn, hvalue⟩ := Option.map_eq_some_iff.mp (hv x List.mem_cons_self)
      have hnext : n.next = (rest.map address).head? := by
        have hnext := hl.next_head
        rw [nextOf, hn] at hnext
        exact Option.some.inj hnext
      cases fuel with
      | zero => exact absurd hfuel (Nat.not_succ_le_zero _)
      | succ fuel =>
          simp only [List.map_cons, List.head?_cons, walk, hn, hnext, hvalue]
          rw [ih hl.of_cons (fun y hy => hv y (List.mem_cons_of_mem _ hy))
            (Nat.le_of_succ_le_succ hfuel)]

/-- A list has at most as many nodes as addresses were handed out. -/
theorem Linked.length_le {l : List Nat} (hl : h.Linked l) (hb : h.Bounded) (hnodup : l.Nodup) :
    l.length ≤ h.fresh := by
  have hsub : l ⊆ List.range h.fresh :=
    fun a ha => List.mem_range.mpr (hb.lt_fresh (hl.mem_cells ha))
  have hlen := (List.subperm_of_subset hnodup hsub).length_le
  rwa [List.length_range] at hlen

/-- The addresses of the nodes that are there. -/
def live (h : Heap α) : Set Nat := {a | h.cells a ≠ none}

theorem mem_live {a : Nat} : a ∈ h.live ↔ h.cells a ≠ none := Iff.rfl

@[simp] theorem live_modify (a : Nat) (f : Node α → Node α) : (h.modify a f).live = h.live :=
  Set.ext fun _ => cells_modify_ne_none f

theorem live_alloc (v : α) : (h.alloc v).live = insert h.fresh h.live := by
  apply Set.ext
  intro a
  rw [Set.mem_insert_iff, mem_live, mem_live]
  by_cases ha : a = h.fresh
  · rw [ha, alloc_self]
    exact ⟨fun _ => .inl rfl, fun _ => Option.some_ne_none _⟩
  · rw [alloc_of_ne ha]
    exact ⟨.inr, fun hor => hor.resolve_left ha⟩

theorem live_free (a : Nat) : (h.free a).live = h.live \ {a} := by
  apply Set.ext
  intro b
  rw [Set.mem_sdiff, Set.mem_singleton_iff, mem_live, mem_live]
  by_cases hb : b = a
  · rw [hb]
    exact ⟨fun hne => absurd (Function.update_self _ _ _) hne, fun hand => absurd rfl hand.2⟩
  · rw [free_of_ne hb]
    exact ⟨fun hne => ⟨hne, hb⟩, fun hand => hand.1⟩

/-- Deletes the nodes one after the other. -/
def freeAll (h : Heap α) (l : List Nat) : Heap α := l.foldl free h

theorem freeAll_of_notMem {l : List Nat} {b : Nat} (hb : b ∉ l) :
    (h.freeAll l).cells b = h.cells b := by
  induction l generalizing h with
  | nil => rfl
  | cons a l ih =>
      rw [List.mem_cons, not_or] at hb
      exact (ih hb.2).trans (free_of_ne hb.1)

theorem live_freeAll (l : List Nat) : (h.freeAll l).live = h.live \ {a | a ∈ l} := by
  induction l generalizing h with
  | nil => exact Set.ext fun a => ⟨fun ha => ⟨ha, List.not_mem_nil⟩, fun ha => ha.1⟩
  | cons a l ih =>
      change ((h.free a).freeAll l).live = _
      rw [ih, live_free]
      apply Set.ext
      intro b
      simp only [Set.mem_sdiff, Set.mem_singleton_iff, Set.mem_ofPred_eq, List.mem_cons, not_or,
        and_assoc]

theorem Bounded.freeAll (hb : h.Bounded) (l : List Nat) : (h.freeAll l).Bounded := by
  induction l generalizing h with
  | nil => exact hb
  | cons a l ih => exact ih (hb.free a)

end Heap
end TAlib.Foundation
