import TAlib.Cache.LFUCache

/-!
What the operations of KeyList do to the chain of nodes behind the sentinel. A
list is given by the address of the sentinel and the addresses of its key nodes
in order; last is the final one of all these, the sentinel included.
-/

namespace TAlib

open Foundation

section Pointers

variable {α : Type} {h : Heap α} {a : Nat}

theorem deref_ok {n : Node α} (hn : h.cells a = some n) : deref h (some a) = .ok n := by
  simp only [deref, hn]

theorem deref_of_ne_none (ha : h.cells a ≠ none) :
    ∃ n, deref h (some a) = .ok n ∧ h.cells a = some n := by
  obtain ⟨n, hn⟩ := Option.ne_none_iff_exists'.mp ha
  exact ⟨n, deref_ok hn, hn⟩

theorem through_ok (ha : h.cells a ≠ none) (f : Nat → Heap α) :
    through h (some a) f = .ok (f a) := by
  obtain ⟨n, hn, -⟩ := deref_of_ne_none ha
  simp only [through, hn, ok_bind]
  rfl

theorem getNext_ok {q : Ptr} (hq : h.nextOf a = some q) : getNext h (some a) = .ok q := by
  obtain ⟨n, hn, rfl⟩ := Option.map_eq_some_iff.mp hq
  simp only [getNext, deref_ok hn, ok_bind]
  rfl

theorem getPre_ok {q : Ptr} (hq : h.preOf a = some q) : getPre h (some a) = .ok q := by
  obtain ⟨n, hn, rfl⟩ := Option.map_eq_some_iff.mp hq
  simp only [getPre, deref_ok hn, ok_bind]
  rfl

theorem deref_value {v : α} (hv : h.valueOf a = some v) :
    ∃ n, deref h (some a) = .ok n ∧ h.cells a = some n ∧ n.value = v := by
  obtain ⟨n, hn, hvalue⟩ := Option.map_eq_some_iff.mp hv
  exact ⟨n, deref_ok hn, hn, hvalue⟩

theorem setNext_ok (ha : h.cells a ≠ none) (q : Ptr) :
    setNext h (some a) q = .ok (h.setNext a q) := through_ok ha _

theorem setPre_ok (ha : h.cells a ≠ none) (q : Ptr) :
    setPre h (some a) q = .ok (h.setPre a q) := through_ok ha _

theorem setValue_ok (ha : h.cells a ≠ none) (v : α) :
    setValue h (some a) v = .ok (h.setValue a v) := through_ok ha _

theorem delete_ok (ha : h.cells a ≠ none) : delete h (some a) = .ok (h.free a) := through_ok ha _

theorem setPreIfAny_none (q : Ptr) : setPreIfAny h none q = .ok h := if_pos rfl

theorem setPreIfAny_some (ha : h.cells a ≠ none) (q : Ptr) :
    setPreIfAny h (some a) q = .ok (h.setPre a q) := by
  rw [setPreIfAny, if_neg (Option.some_ne_none a), setPre_ok ha]

/-- The reads and writes by which a node is taken out of its list. -/
theorem unlink_steps {before after : List Nat} {f y : Nat}
    (hl : h.Linked (before ++ f :: y :: after)) (hnodup : (before ++ f :: y :: after).Nodup) :
    getPre h (some y) = .ok (some f) ∧ getNext h (some y) = .ok after.head? ∧
      setNext h (some f) after.head? = .ok (h.setNext f after.head?) ∧
      getNext (h.setNext f after.head?) (some y) = .ok after.head? ∧
      getPre (h.setNext f after.head?) (some y) = .ok (some f) ∧
      setPreIfAny (h.setNext f after.head?) after.head? (some f) =
        .ok (h.unlink f after.head?) := by
  have hyf : y ≠ f := by
    rintro rfl
    exact (List.nodup_cons.mp (List.nodup_append.mp hnodup).2.1).1 List.mem_cons_self
  have hf : h.cells f ≠ none := hl.mem_cells (List.mem_append_right _ List.mem_cons_self)
  have hnext : h.nextOf y = some after.head? := hl.suffix.of_cons.next_head
  refine ⟨getPre_ok hl.pre_mid, getNext_ok hnext, setNext_ok hf _, getNext_ok ?_, getPre_ok ?_, ?_⟩
  · rw [Heap.nextOf_setNext_ne hyf, hnext]
  · rw [Heap.preOf_setNext, hl.pre_mid]
  · cases after with
    | nil => exact setPreIfAny_none _
    | cons z zs =>
        refine setPreIfAny_some ?_ _
        rw [Heap.setNext, Heap.cells_modify_ne_none]
        exact hl.mem_cells (List.mem_append_right _
          (List.mem_cons_of_mem _ (List.mem_cons_of_mem _ List.mem_cons_self)))

/-- The reads and writes by which addfreq puts a bucket behind another. -/
theorem link_steps {before after : List Nat} {f q : Nat} (hl : h.Linked (before ++ f :: after))
    (hq : h.cells q ≠ none) (hqf : q ≠ f) :
    ∃ h₁ h₂ h₃, getNext h (some f) = .ok after.head? ∧
      setPreIfAny h after.head? (some q) = .ok h₁ ∧ getNext h₁ (some f) = .ok after.head? ∧
      setNext h₁ (some q) after.head? = .ok h₂ ∧ setNext h₂ (some f) (some q) = .ok h₃ ∧
      setPre h₃ (some q) (some f) = .ok (h.linkAfter f q after.head?) := by
  have hf : h.cells f ≠ none := hl.mem_cells (List.mem_append_right _ List.mem_cons_self)
  cases after with
  | nil =>
      refine ⟨h, h.setNext q none, _, getNext_ok hl.suffix.next_head, setPreIfAny_none _,
        getNext_ok hl.suffix.next_head, setNext_ok hq _, setNext_ok ?_ _, ?_⟩
      · simp only [Heap.setNext, Heap.cells_modify_ne_none]
        exact hf
      · rw [setPre_ok, Heap.setPre_setNext_comm hqf.symm]
        · rfl
        · simp only [Heap.setNext, Heap.cells_modify_ne_none]
          exact hq
  | cons y ys =>
      have hy : h.cells y ≠ none := hl.mem_cells (List.mem_append_right _
        (List.mem_cons_of_mem _ List.mem_cons_self))
      refine ⟨h.setPre y (some q), (h.setPre y (some q)).setNext q (some y), _,
        getNext_ok hl.suffix.next_head, setPreIfAny_some hy _, getNext_ok ?_, setNext_ok ?_ _,
        setNext_ok ?_ _, ?_⟩
      · rw [Heap.nextOf_setPre]
        exact hl.suffix.next_head
      · simp only [Heap.setPre, Heap.cells_modify_ne_none]
        exact hq
      · simp only [Heap.setNext, Heap.setPre, Heap.cells_modify_ne_none]
        exact hf
      · rw [setPre_ok, Heap.setPre_setNext_comm hqf.symm]
        · rfl
        · simp only [Heap.setNext, Heap.setPre, Heap.cells_modify_ne_none]
          exact hq

end Pointers

namespace KeyList

variable {h : Heap Key}

/-- The list that runs from the sentinel through these nodes. -/
def ofNodes (freq sentinel : Nat) (nodes : List Nat) : KeyList :=
  ⟨freq, some sentinel, (sentinel :: nodes).getLast?⟩

theorem init_ok (h : Heap Key) (fq : Nat) :
    init h fq = .ok (ofNodes fq h.fresh [], (h.alloc ⟨[], []⟩).setNext h.fresh none) := by
  have halloc : (h.alloc ⟨[], []⟩).cells h.fresh ≠ none := by
    rw [Heap.alloc_self]
    exact Option.some_ne_none _
  simp only [init, setNext_ok halloc, ok_bind]
  rfl

theorem over_isEmpty {freq sentinel : Nat} {nodes : List Nat} (hs : sentinel ∉ nodes) :
    (ofNodes freq sentinel nodes).isEmpty = true ↔ nodes = [] := by
  rw [isEmpty, decide_eq_true_iff]
  cases nodes with
  | nil => exact ⟨fun _ => rfl, fun _ => rfl⟩
  | cons a rest =>
      refine ⟨fun heq => ?_, fun heq => nomatch heq⟩
      rw [ofNodes, List.getLast?_cons_cons] at heq
      exact absurd (List.mem_of_getLast? heq.symm) hs

theorem add_ok {freq s x : Nat} {nodes : List Nat} (hl : h.Linked (s :: nodes))
    (hx : h.cells x ≠ none) (hfresh : x ∉ s :: nodes) :
    (ofNodes freq s nodes).add h (some x) =
      .ok (ofNodes freq s (x :: nodes), h.linkAfter s x nodes.head?) := by
  have hs : h.cells s ≠ none := hl.mem_cells List.mem_cons_self
  cases nodes with
  | nil =>
      simp only [add, ofNodes, getNext_ok hl.next_head, ok_bind, List.head?_nil, setPreIfAny_none,
        if_true]
      rw [setNext_ok hx, ok_bind, setPre_ok, ok_bind, setNext_ok]
      · rfl
      · simp only [Heap.setPre, Heap.setNext, Heap.cells_modify_ne_none]
        exact hs
      · simp only [Heap.setNext, Heap.cells_modify_ne_none]
        exact hx
  | cons y ys =>
      have hy : h.cells y ≠ none := hl.mem_cells (List.mem_cons_of_mem _ List.mem_cons_self)
      have hnext : (h.setPre y (some x)).nextOf s = some (some y) := by
        rw [Heap.nextOf_setPre, hl.next_head, List.head?_cons]
      simp only [add, ofNodes, getNext_ok hl.next_head, ok_bind, List.head?_cons,
        setPreIfAny_some hy,
        if_neg (Option.some_ne_none y), getNext_ok hnext]
      rw [setNext_ok, ok_bind, setPre_ok, ok_bind, setNext_ok]
      · rfl
      · simp only [Heap.setPre, Heap.setNext, Heap.cells_modify_ne_none]
        exact hs
      · simp only [Heap.setPre, Heap.setNext, Heap.cells_modify_ne_none]
        exact hx
      · simp only [Heap.setPre, Heap.cells_modify_ne_none]
        exact hx

theorem del_ok (freq : Nat) {s y : Nat} {newer older : List Nat}
    (hl : h.Linked (s :: (newer ++ y :: older))) (hnodup : (s :: (newer ++ y :: older)).Nodup) :
    ∃ before f, s :: newer = before ++ [f] ∧
      (ofNodes freq s (newer ++ y :: older)).del h (some y) =
        .ok (ofNodes freq s (newer ++ older), h.unlink f older.head?) := by
  obtain ⟨before, f, hbefore⟩ : ∃ before f, s :: newer = before ++ [f] :=
    ⟨(s :: newer).dropLast, (s :: newer).getLast (List.cons_ne_nil _ _),
      (List.dropLast_append_getLast _).symm⟩
  have hsplit (rest : List Nat) : s :: (newer ++ rest) = before ++ f :: rest := by
    rw [← List.cons_append, hbefore, List.append_assoc, List.singleton_append]
  rw [hsplit] at hl hnodup
  obtain ⟨hpre, hnext, hset, hnext', hpre', hset'⟩ := unlink_steps hl hnodup
  refine ⟨before, f, hbefore, ?_⟩
  simp only [del, hpre, hnext, hset, hnext', hpre', hset', ok_bind, pure, Except.pure]
  refine congrArg (fun l => Except.ok (l, h.unlink f older.head?)) ?_
  simp only [ofNodes, hsplit]
  cases older with
  | nil => simp
  | cons z zs => simp

end KeyList
end TAlib
