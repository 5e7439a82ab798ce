import Mathlib.Data.List.Nodup
import Mathlib.Data.List.Perm.Basic
import TAlib.Cache.KeyLists

/-!
The cache seen as a list of buckets. Every bucket has a node in the list of
frequencies, a sentinel and its key nodes, newest first; beside the buckets
stand key nodes that are in no list at the moment. The lemmas say what each part
of addfreq, set and del does to this picture.
-/

namespace TAlib

open Foundation

/-- A key node with its address. -/
structure Item extends Key where
  node : Nat
  deriving DecidableEq, Repr

structure Bucket where
  node : Nat
  freq : Nat
  sentinel : Nat
  items : List Item
  deriving DecidableEq, Repr

namespace Bucket

/-- The nodes of the list, the sentinel first. -/
def cells (b : Bucket) : List Nat := b.sentinel :: b.items.map Item.node

def list (b : Bucket) : KeyList := .ofNodes b.freq b.sentinel (b.items.map Item.node)

end Bucket

theorem mem_mid {α : Type} {before after : List α} {b b' : α} :
    b' ∈ before ++ b :: after ↔ b' = b ∨ b' ∈ before ++ after := by
  rw [List.mem_append, List.mem_cons, or_left_comm, ← List.mem_append]

/-- All key nodes that hold a key. -/
def held (bs : List Bucket) (loose : List Item) : List Item := bs.flatMap Bucket.items ++ loose

/-- No two nodes, sentinels included, share an address. -/
def Apart (bs : List Bucket) (loose : List Item) : Prop :=
  (bs.map Bucket.sentinel ++ (held bs loose).map Item.node).Nodup

section Apart

variable {before after : List Bucket} {b : Bucket} {loose : List Item}

theorem held_mid (before after : List Bucket) (b : Bucket) (loose : List Item) :
    (held (before ++ b :: after) loose).Perm (b.items ++ held (before ++ after) loose) := by
  simp only [held, List.flatMap_append, List.flatMap_cons, List.append_assoc]
  exact List.perm_append_comm_assoc _ _ _

theorem held_loose (bs : List Bucket) (x : Item) (loose : List Item) :
    (held bs (x :: loose)).Perm (x :: held bs loose) := List.perm_middle

/-- A node that leaves its bucket is held still. -/
theorem held_move (before after : List Bucket) (b : Bucket) (x : Item)
    (newer older loose : List Item) :
    (held (before ++ { b with items := newer ++ older } :: after) (x :: loose)).Perm
      (held (before ++ { b with items := newer ++ x :: older } :: after) loose) := by
  refine (held_mid _ _ _ _).trans (.trans ?_ (held_mid _ _ _ _).symm)
  refine ((held_loose _ _ _).append_left _).trans (List.perm_middle.trans ?_)
  exact (List.perm_middle.append_right _).symm

theorem cells_perm (bs : List Bucket) :
    (bs.flatMap Bucket.cells).Perm
      (bs.map Bucket.sentinel ++ (bs.flatMap Bucket.items).map Item.node) := by
  induction bs with
  | nil => exact .nil
  | cons b rest ih =>
      simp only [List.flatMap_cons, List.map_cons, Bucket.cells, List.cons_append, List.map_append]
      refine .cons _ ((ih.append_left _).trans ?_)
      exact List.perm_append_comm_assoc _ _ _

theorem Apart.split (h : Apart (before ++ b :: after) loose) :
    (b.cells ++ ((before ++ after).flatMap Bucket.cells ++ loose.map Item.node)).Nodup := by
  have hperm : (b.cells ++ ((before ++ after).flatMap Bucket.cells ++ loose.map Item.node)).Perm
      ((before ++ b :: after).flatMap Bucket.cells ++ loose.map Item.node) := by
    simp only [List.flatMap_append, List.flatMap_cons, List.append_assoc]
    exact List.perm_append_comm_assoc _ _ _
  rw [hperm.nodup_iff, ((cells_perm _).append_right _).nodup_iff, List.append_assoc,
    ← List.map_append]
  exact h

/-- The nodes of two buckets have no address in common. -/
theorem Apart.cells_disjoint (h : Apart (before ++ b :: after) loose) {b' : Bucket}
    (hb' : b' ∈ before ++ after) {a : Nat} (ha : a ∈ b'.cells) : a ∉ b.cells := by
  intro hmem
  have hrest : a ∈ (before ++ after).flatMap Bucket.cells ++ loose.map Item.node :=
    List.mem_append_left _ (List.mem_flatMap.mpr ⟨b', hb', ha⟩)
  exact (List.nodup_append.mp h.split).2.2 a hmem a hrest rfl

theorem Apart.cells_nodup (h : Apart (before ++ b :: after) loose) : b.cells.Nodup :=
  (List.nodup_append.mp h.split).1

theorem Apart.loose_notMem (h : Apart (before ++ b :: after) loose) {x : Item} (hx : x ∈ loose) :
    x.node ∉ b.cells := by
  intro hmem
  have hrest : x.node ∈ (before ++ after).flatMap Bucket.cells ++ loose.map Item.node :=
    List.mem_append_right _ (List.mem_map_of_mem hx)
  exact (List.nodup_append.mp h.split).2.2 _ hmem _ hrest rfl

theorem Apart.sentinel_notMem (h : Apart (before ++ b :: after) loose) :
    b.sentinel ∉ b.items.map Item.node :=
  (List.nodup_cons.mp h.cells_nodup).1

end Apart

/-- The cache holds these buckets in this order, and beside them these key
nodes. -/
structure Rep (c : LFUCache) (bs : List Bucket) (loose : List Item) : Prop where
  head : c.head = (bs.map Bucket.node).head?
  linked : c.freqNodes.Linked (bs.map Bucket.node)
  nodup : (bs.map Bucket.node).Nodup
  values : ∀ b ∈ bs, c.freqNodes.valueOf b.node = some b.list
  lists : ∀ b ∈ bs, c.keyNodes.Linked b.cells
  contents : ∀ x ∈ held bs loose, c.keyNodes.valueOf x.node = some x.toKey
  apart : Apart bs loose
  freqBounded : c.freqNodes.Bounded
  keyBounded : c.keyNodes.Bounded

/-- The maps and the capacity are left alone. -/
structure SameMaps (c c' : LFUCache) : Prop where
  capacity : c'.capacity = c.capacity
  kmap : c'.kmap = c.kmap
  fmap : c'.fmap = c.fmap

theorem SameMaps.trans {c c' c'' : LFUCache} (h : SameMaps c c') (h' : SameMaps c' c'') :
    SameMaps c c'' :=
  ⟨h'.capacity.trans h.capacity, h'.kmap.trans h.kmap, h'.fmap.trans h.fmap⟩

namespace Rep

variable {c : LFUCache} {before after bs : List Bucket} {b : Bucket} {loose : List Item}

/-- The picture does not show the maps. -/
theorem with_maps (hc : Rep c bs loose) (kmap fmap : PtrMap) :
    Rep { c with kmap := kmap, fmap := fmap } bs loose :=
  ⟨hc.head, hc.linked, hc.nodup, hc.values, hc.lists, hc.contents, hc.apart, hc.freqBounded,
    hc.keyBounded⟩

/-- The list of one bucket changes, and with it the key nodes outside the lists. -/
theorem update (hc : Rep c (before ++ b :: after) loose) {items loose' : List Item}
    {keyNodes : Heap Key}
    (hheld : (held (before ++ { b with items := items } :: after) loose').Perm
      (held (before ++ b :: after) loose))
    (hlinked : keyNodes.Linked ({ b with items := items } : Bucket).cells)
    (hrelinks : c.keyNodes.Relinks ({ b with items := items } : Bucket).cells keyNodes) :
    Rep { c with
      keyNodes := keyNodes
      freqNodes := c.freqNodes.setValue b.node ({ b with items := items } : Bucket).list }
      (before ++ { b with items := items } :: after) loose' := by
  have hnodes : (before ++ { b with items := items } :: after).map Bucket.node =
      (before ++ b :: after).map Bucket.node := by
    simp only [List.map_append, List.map_cons]
  have hsentinels : (before ++ { b with items := items } :: after).map Bucket.sentinel =
      (before ++ b :: after).map Bucket.sentinel := by
    simp only [List.map_append, List.map_cons]
  have hapart : Apart (before ++ { b with items := items } :: after) loose' := by
    rw [Apart, hsentinels, ((hheld.map _).append_left _).nodup_iff]
    exact hc.apart
  have hb : c.freqNodes.cells b.node ≠ none := hc.linked.mem_cells
    (List.mem_map_of_mem (List.mem_append_right _ List.mem_cons_self))
  have hnodup := hc.nodup
  rw [List.map_append, List.map_cons, List.nodup_middle, List.nodup_cons, ← List.map_append]
    at hnodup
  refine ⟨?_, ?_, ?_, fun b' hb' => ?_, fun b' hb' => ?_, fun x hx => ?_, hapart, ?_, ?_⟩
  · rw [hnodes]
    exact hc.head
  · rw [hnodes]
    exact hc.linked.congr (fun a _ => Heap.nextOf_setValue _ _ _ _)
      fun a _ => Heap.preOf_setValue _ _ _ _
  · rw [hnodes]
    exact hc.nodup
  · cases mem_mid.mp hb' with
    | inl heq =>
        subst heq
        exact Heap.valueOf_setValue_self hb
    | inr hmem =>
        have hne : b'.node ≠ b.node := fun heq => hnodup.1 (heq ▸ List.mem_map_of_mem hmem)
        exact (Heap.valueOf_setValue_ne hne).trans (hc.values b' (mem_mid.mpr (.inr hmem)))
  · cases mem_mid.mp hb' with
    | inl heq =>
        subst heq
        exact hlinked
    | inr hmem =>
        exact (hc.lists b' (mem_mid.mpr (.inr hmem))).relinks hrelinks
          fun a ha => hapart.cells_disjoint hmem ha
  · exact (hrelinks.values _).trans (hc.contents x (hheld.mem_iff.mp hx))
  · exact hc.freqBounded.modify _ _
  · exact hc.keyBounded.relinks hrelinks

theorem onList_ok (hc : Rep c (before ++ b :: after) loose) {items loose' : List Item}
    {keyNodes : Heap Key} {op : KeyList → Heap Key → Except Fault (KeyList × Heap Key)}
    (hop : op b.list c.keyNodes = .ok (({ b with items := items } : Bucket).list, keyNodes))
    (hheld : (held (before ++ { b with items := items } :: after) loose').Perm
      (held (before ++ b :: after) loose))
    (hlinked : keyNodes.Linked ({ b with items := items } : Bucket).cells)
    (hrelinks : c.keyNodes.Relinks ({ b with items := items } : Bucket).cells keyNodes) :
    ∃ c', c.onList (some b.node) op = .ok c' ∧
      Rep c' (before ++ { b with items := items } :: after) loose' ∧ SameMaps c c' := by
  have hb : c.freqNodes.valueOf b.node = some b.list := hc.values b (mem_mid.mpr (.inl rfl))
  obtain ⟨n, hderef, hcell, hvalue⟩ := deref_value hb
  refine ⟨_, ?_, hc.update hheld hlinked hrelinks, ⟨rfl, rfl, rfl⟩⟩
  simp only [LFUCache.onList, hderef, ok_bind, hvalue, hop]
  rw [setValue_ok (by rw [hcell]; exact Option.some_ne_none n), ok_bind]
  rfl

theorem list_add {x : Item} (hc : Rep c (before ++ b :: after) (x :: loose)) :
    ∃ c', c.onList (some b.node) (·.add · (some x.node)) = .ok c' ∧
      Rep c' (before ++ { b with items := x :: b.items } :: after) loose ∧ SameMaps c c' := by
  have hx : c.keyNodes.valueOf x.node = some x.toKey :=
    hc.contents x (List.mem_append_right _ List.mem_cons_self)
  have hxcell := Heap.cells_ne_none_of_valueOf hx
  have hxnot : x.node ∉ b.cells := hc.apart.loose_notMem List.mem_cons_self
  have hl : c.keyNodes.Linked b.cells := hc.lists b (mem_mid.mpr (.inl rfl))
  have hl' : c.keyNodes.Linked ([] ++ b.sentinel :: b.items.map Item.node) := hl
  have hlink := Heap.linkAfter_ok hl' hc.apart.cells_nodup hxnot hxcell
  refine hc.onList_ok (KeyList.add_ok hl hxcell hxnot) ?_ hlink.1 hlink.2
  exact (held_move before after b x [] b.items loose).symm

theorem list_del {x : Item} {newer older : List Item}
    (hc : Rep c (before ++ { b with items := newer ++ x :: older } :: after) loose) :
    ∃ c', c.onList (some b.node) (·.del · (some x.node)) = .ok c' ∧
      Rep c' (before ++ { b with items := newer ++ older } :: after) (x :: loose) ∧
      SameMaps c c' := by
  have hl := hc.lists _ (mem_mid.mpr (.inl rfl))
  have hnodup := hc.apart.cells_nodup
  simp only [Bucket.cells, List.map_append, List.map_cons] at hl hnodup
  obtain ⟨front, f, hfront, hdel⟩ := KeyList.del_ok b.freq hl hnodup
  have hsplit (rest : List Nat) : b.sentinel :: (newer.map Item.node ++ rest) = front ++
      f :: rest := by
    rw [← List.cons_append, hfront, List.append_assoc, List.singleton_append]
  rw [hsplit] at hl hnodup
  have hunlink := Heap.unlink_ok hl hnodup
  rw [← hsplit, ← List.map_append] at hunlink
  refine onList_ok (b := { b with items := newer ++ x :: older }) hc ?_
    (held_move before after b x newer older loose) hunlink.1 hunlink.2
  simpa only [Bucket.list, List.map_append, List.map_cons] using hdel

/-- Every node of the picture is there. -/
theorem mem_cells (hc : Rep c bs loose) {a : Nat}
    (ha : a ∈ bs.map Bucket.sentinel ++ (held bs loose).map Item.node) :
    c.keyNodes.cells a ≠ none := by
  cases List.mem_append.mp ha with
  | inl hmem =>
      obtain ⟨b, hb, rfl⟩ := List.mem_map.mp hmem
      exact (hc.lists b hb).mem_cells List.mem_cons_self
  | inr hmem =>
      obtain ⟨x, hx, rfl⟩ := List.mem_map.mp hmem
      exact Heap.cells_ne_none_of_valueOf (hc.contents x hx)

/-- A node made by `new` is in no list at first. -/
theorem new_key (hc : Rep c bs loose) (k : Key) :
    Rep { c with keyNodes := c.keyNodes.alloc k } bs (⟨k, c.keyNodes.fresh⟩ :: loose) := by
  have hold : ∀ a, c.keyNodes.cells a ≠ none → (c.keyNodes.alloc k).cells a = c.keyNodes.cells a :=
    fun a ha => Heap.alloc_of_ne (hc.keyBounded.ne_fresh ha)
  refine ⟨hc.head, hc.linked, hc.nodup, hc.values, fun b hb => ?_, fun x hx => ?_, ?_,
    hc.freqBounded, hc.keyBounded.alloc k⟩
  · exact (hc.lists b hb).of_cells fun a ha => hold a ((hc.lists b hb).mem_cells ha)
  · cases List.mem_cons.mp ((held_loose _ _ _).mem_iff.mp hx) with
    | inl heq =>
        subst heq
        simp only [Heap.valueOf, Heap.alloc_self, Option.map_some]
    | inr hmem =>
        have hx := hc.contents x hmem
        rw [Heap.valueOf, hold _ (Heap.cells_ne_none_of_valueOf hx)]
        exact hx
  · have hperm : (bs.map Bucket.sentinel ++
        (held bs (⟨k, c.keyNodes.fresh⟩ :: loose)).map Item.node).Perm
        (c.keyNodes.fresh :: (bs.map Bucket.sentinel ++ (held bs loose).map Item.node)) :=
      (((held_loose _ _ _).map _).append_left _).trans List.perm_middle
    rw [Apart, hperm.nodup_iff, List.nodup_cons]
    exact ⟨fun hmem => hc.keyBounded.ne_fresh (hc.mem_cells hmem) rfl, hc.apart⟩

theorem delete_key {x : Item} (hc : Rep c bs (x :: loose)) :
    ∃ keyNodes, delete c.keyNodes (some x.node) = .ok keyNodes ∧
      Rep { c with keyNodes := keyNodes } bs loose := by
  have hx := hc.contents x (List.mem_append_right _ List.mem_cons_self)
  have hperm : (bs.map Bucket.sentinel ++ (held bs (x :: loose)).map Item.node).Perm
      (x.node :: (bs.map Bucket.sentinel ++ (held bs loose).map Item.node)) :=
    (((held_loose _ _ _).map _).append_left _).trans List.perm_middle
  have hapart := hc.apart
  rw [Apart, hperm.nodup_iff, List.nodup_cons] at hapart
  refine ⟨_, delete_ok (Heap.cells_ne_none_of_valueOf hx), hc.head, hc.linked, hc.nodup, hc.values,
    fun b hb => ?_, fun y hy => ?_, hapart.2, hc.freqBounded, hc.keyBounded.free _⟩
  · refine (hc.lists b hb).of_cells fun a ha => Heap.free_of_ne ?_
    rintro rfl
    obtain ⟨before, after, rfl⟩ := List.append_of_mem hb
    exact hc.apart.loose_notMem List.mem_cons_self ha
  · have hne : y.node ≠ x.node := by
      intro heq
      exact hapart.1 (heq ▸ List.mem_append_right _ (List.mem_map_of_mem hy))
    have hy := hc.contents y ((held_loose _ _ _).mem_iff.mpr (List.mem_cons_of_mem _ hy))
    rw [Heap.valueOf, Heap.free_of_ne hne]
    exact hy

/-- The picture with a new sentinel, once its bucket is linked. -/
theorem with_bucket (hc : Rep c (before ++ b :: after) loose) {freq : Nat}
    {freqNodes : Heap KeyList}
    (hlinked : freqNodes.Linked
      (before.map Bucket.node ++ b.node :: c.freqNodes.fresh :: after.map Bucket.node))
    (hnew : freqNodes.valueOf c.freqNodes.fresh = some (.ofNodes freq c.keyNodes.fresh []))
    (hvalues : ∀ a, c.freqNodes.cells a ≠ none → freqNodes.valueOf a = c.freqNodes.valueOf a)
    (hbounded : freqNodes.Bounded) :
    Rep { c with
      keyNodes := (c.keyNodes.alloc ⟨[], []⟩).setNext c.keyNodes.fresh none
      freqNodes := freqNodes }
      (before ++ b :: ⟨c.freqNodes.fresh, freq, c.keyNodes.fresh, []⟩ :: after) loose := by
  have hperm : (before ++ b :: ⟨c.freqNodes.fresh, freq, c.keyNodes.fresh, []⟩ :: after).Perm
      (⟨c.freqNodes.fresh, freq, c.keyNodes.fresh, []⟩ :: (before ++ b :: after)) := by
    rw [List.append_cons before b after, List.append_cons before b]
    exact List.perm_middle
  have hmid : ∀ {b'}, b' ∈ before ++ b :: ⟨c.freqNodes.fresh, freq, c.keyNodes.fresh, []⟩ :: after →
      b' = ⟨c.freqNodes.fresh, freq, c.keyNodes.fresh, []⟩ ∨ b' ∈ before ++ b :: after :=
    fun hb' => List.mem_cons.mp (hperm.mem_iff.mp hb')
  have hheld : (held (before ++ b :: ⟨c.freqNodes.fresh, freq, c.keyNodes.fresh, []⟩ :: after)
      loose).Perm (held (before ++ b :: after) loose) := (hperm.flatMap_right _).append_right _
  have hold : ∀ a, c.keyNodes.cells a ≠ none →
      ((c.keyNodes.alloc ⟨[], []⟩).setNext c.keyNodes.fresh none).cells a = c.keyNodes.cells a :=
    fun a ha => (Heap.modify_of_ne _ _ (hc.keyBounded.ne_fresh ha)).trans
      (Heap.alloc_of_ne (hc.keyBounded.ne_fresh ha))
  refine ⟨?_, ?_, ?_, fun b' hb' => ?_, fun b' hb' => ?_, fun x hx => ?_, ?_, hbounded, ?_⟩
  · rw [hc.head]
    cases before with
    | nil => rfl
    | cons b₀ rest => rfl
  · simpa only [List.map_append, List.map_cons] using hlinked
  · rw [(hperm.map _).nodup_iff, List.map_cons, List.nodup_cons]
    exact ⟨fun hmem => hc.freqBounded.ne_fresh (hc.linked.mem_cells hmem) rfl, hc.nodup⟩
  · cases hmid hb' with
    | inl heq =>
        subst heq
        exact hnew
    | inr hmem =>
        have hb := hc.values b' hmem
        exact (hvalues _ (Heap.cells_ne_none_of_valueOf hb)).trans hb
  · cases hmid hb' with
    | inl heq =>
        subst heq
        refine Heap.nextOf_setNext_self ?_
        rw [Heap.alloc_self]
        exact Option.some_ne_none _
    | inr hmem =>
        exact (hc.lists b' hmem).of_cells fun a ha => hold a ((hc.lists b' hmem).mem_cells ha)
  · have hx := hc.contents x (hheld.mem_iff.mp hx)
    rw [Heap.valueOf, hold _ (Heap.cells_ne_none_of_valueOf hx)]
    exact hx
  · rw [Apart, ((hperm.map _).append (hheld.map _)).nodup_iff, List.map_cons, List.cons_append,
      List.nodup_cons]
    exact ⟨fun hmem => hc.keyBounded.ne_fresh (hc.mem_cells hmem) rfl, hc.apart⟩
  · exact (hc.keyBounded.alloc _).modify _ _

/-- A new bucket, empty at first, behind `b`. -/
theorem insertBucket_ok (hc : Rep c (before ++ b :: after) loose) (freq : Nat) :
    ∃ c', c.insertBucket (some b.node) freq = .ok (some c.freqNodes.fresh, c') ∧
      Rep c' (before ++ b :: ⟨c.freqNodes.fresh, freq, c.keyNodes.fresh, []⟩ :: after) loose ∧
      SameMaps c c' := by
  let l := KeyList.ofNodes freq c.keyNodes.fresh []
  let h := (c.freqNodes.alloc ⟨0, none, none⟩).setValue c.freqNodes.fresh l
  have halloc : (c.freqNodes.alloc ⟨0, none, none⟩).cells c.freqNodes.fresh ≠ none := by
    rw [Heap.alloc_self]
    exact Option.some_ne_none _
  have hq : h.cells c.freqNodes.fresh ≠ none := Heap.cells_modify_ne_none _ |>.mpr halloc
  have hne : ∀ a, c.freqNodes.cells a ≠ none → a ≠ c.freqNodes.fresh :=
    fun a ha => hc.freqBounded.ne_fresh ha
  have hold : ∀ a, c.freqNodes.cells a ≠ none → h.cells a = c.freqNodes.cells a := fun a ha =>
    (Heap.modify_of_ne _ _ (hne a ha)).trans (Heap.alloc_of_ne (hne a ha))
  have hmap : (before ++ b :: after).map Bucket.node =
      before.map Bucket.node ++ b.node :: after.map Bucket.node := by
    rw [List.map_append, List.map_cons]
  have hlinked : h.Linked (before.map Bucket.node ++ b.node :: after.map Bucket.node) := by
    rw [← hmap]
    exact hc.linked.of_cells fun a ha => hold a (hc.linked.mem_cells ha)
  have hnotMem : c.freqNodes.fresh ∉ before.map Bucket.node ++ b.node :: after.map Bucket.node := by
    rw [← hmap]
    exact fun hmem => hne _ (hc.linked.mem_cells hmem) rfl
  have hqb : c.freqNodes.fresh ≠ b.node := fun heq =>
    hnotMem (heq ▸ List.mem_append_right _ List.mem_cons_self)
  obtain ⟨h₁, h₂, h₃, hstep₁, hstep₂, hstep₃, hstep₄, hstep₅, hstep₆⟩ := link_steps hlinked hq hqb
  have hlink := Heap.linkAfter_ok hlinked (hmap ▸ hc.nodup) hnotMem hq
  refine ⟨_, ?_, hc.with_bucket hlink.1 ?_ (fun a ha => ?_) ?_, ⟨rfl, rfl, rfl⟩⟩
  · simp only [LFUCache.insertBucket, KeyList.init_ok, ok_bind, setValue_ok halloc]
    rw [hstep₁, ok_bind, hstep₂, ok_bind, hstep₃, ok_bind, hstep₄, ok_bind, hstep₅, ok_bind, hstep₆]
    rfl
  · exact (hlink.2.values _).trans (Heap.valueOf_setValue_self halloc)
  · rw [hlink.2.values, Heap.valueOf, hold a ha]
    rfl
  · exact ((hc.freqBounded.alloc _).modify _ _).relinks hlink.2

/-- destory on a list that holds its sentinel only. -/
theorem destory_ok {h : Heap Key} (freq : Nat) {s : Nat} (hbounded : h.Bounded)
    (hl : h.Linked [s]) : (KeyList.ofNodes freq s []).destory h = .ok (h.free s) := by
  have hs : h.cells s ≠ none := hl.mem_cells List.mem_cons_self
  obtain ⟨n, hn⟩ := Nat.exists_eq_succ_of_ne_zero (Nat.ne_of_gt
    (Nat.lt_of_le_of_lt (Nat.zero_le s) (hbounded.lt_fresh hs)))
  simp only [KeyList.destory, KeyList.ofNodes, hn, KeyList.destoryLoop, getNext_ok hl.next_head,
    ok_bind, delete_ok hs]
  cases n with
  | zero => rfl
  | succ n => rfl

/-- An empty bucket behind another one goes. -/
theorem del_ok {b₀ : Bucket} (hc : Rep c (before ++ b₀ :: b :: after) loose)
    (hempty : b.items = []) :
    ∃ c', c.del (some b.node) = .ok c' ∧ Rep c' (before ++ b₀ :: after) loose ∧ SameMaps c c' := by
  have hmap : (before ++ b₀ :: b :: after).map Bucket.node =
      before.map Bucket.node ++ b₀.node :: b.node :: after.map Bucket.node := by
    simp only [List.map_append, List.map_cons]
  have hperm : (before ++ b₀ :: b :: after).Perm (b :: (before ++ b₀ :: after)) := by
    rw [List.append_cons before b₀ (b :: after), List.append_cons before b₀ after]
    exact List.perm_middle
  have hold : ∀ {b'}, b' ∈ before ++ b₀ :: after → b' ∈ before ++ b₀ :: b :: after :=
    fun hb' => hperm.mem_iff.mpr (List.mem_cons_of_mem _ hb')
  have hb : b ∈ before ++ b₀ :: b :: after := hperm.mem_iff.mpr List.mem_cons_self
  have hheld : (held (before ++ b₀ :: b :: after) loose).Perm
      (held (before ++ b₀ :: after) loose) := by
    refine ((hperm.flatMap_right _).append_right _).trans ?_
    rw [List.flatMap_cons, hempty]
    exact .refl _
  have hnodup := hc.nodup
  have hapart := hc.apart
  rw [(hperm.map _).nodup_iff, List.map_cons, List.nodup_cons] at hnodup
  rw [Apart, ((hperm.map _).append (hheld.map _)).nodup_iff, List.map_cons, List.cons_append,
    List.nodup_cons] at hapart
  have hl := hc.linked
  rw [hmap] at hl
  obtain ⟨hpre, hnext, hset, hnext', hpre', hset'⟩ := unlink_steps hl (hmap ▸ hc.nodup)
  have hunlink := Heap.unlink_ok hl (hmap ▸ hc.nodup)
  have hvalue : (c.freqNodes.unlink b₀.node (after.map Bucket.node).head?).valueOf b.node =
      some b.list := (hunlink.2.values _).trans (hc.values b hb)
  obtain ⟨n, hderef, -, hn⟩ := deref_value hvalue
  have hlist : b.list = .ofNodes b.freq b.sentinel [] := by rw [Bucket.list, hempty, List.map_nil]
  have hsentinel : c.keyNodes.Linked [b.sentinel] := by
    have hl := hc.lists b hb
    rwa [Bucket.cells, hempty] at hl
  have hcells := Heap.cells_ne_none_of_valueOf hvalue
  refine ⟨{ c with
    keyNodes := c.keyNodes.free b.sentinel
    freqNodes := (c.freqNodes.unlink b₀.node (after.map Bucket.node).head?).free b.node },
    ?_, ?_, ⟨rfl, rfl, rfl⟩⟩
  · simp only [LFUCache.del, hpre, hnext, hset, hnext', hpre', hset', hderef, ok_bind, hn, hlist,
      destory_ok b.freq hc.keyBounded hsentinel, delete_ok hcells]
    rfl
  · have hnotCell : ∀ b' ∈ before ++ b₀ :: after, ∀ a ∈ b'.cells, a ≠ b.sentinel := by
      rintro b' hb' a ha rfl
      refine hapart.1 (List.mem_append.mpr ?_)
      cases List.mem_cons.mp ha with
      | inl heq => exact .inl (heq ▸ List.mem_map_of_mem hb')
      | inr hmem =>
          obtain ⟨x, hx, hnode⟩ := List.mem_map.mp hmem
          exact .inr (hnode ▸ List.mem_map_of_mem
            (List.mem_append_left _ (List.mem_flatMap.mpr ⟨b', hb', hx⟩)))
    refine ⟨?_, ?_, hnodup.2, fun b' hb' => ?_, fun b' hb' => ?_, fun x hx => ?_, hapart.2, ?_,
      hc.keyBounded.free _⟩
    · rw [hc.head]
      cases before with
      | nil => rfl
      | cons b₁ rest => rfl
    · have hmap' : (before ++ b₀ :: after).map Bucket.node =
          before.map Bucket.node ++ b₀.node :: after.map Bucket.node := by
        simp only [List.map_append, List.map_cons]
      rw [hmap']
      refine hunlink.1.of_cells fun a ha => Heap.free_of_ne ?_
      rintro rfl
      exact hnodup.1 (hmap' ▸ ha)
    · have hne : b'.node ≠ b.node := fun heq => hnodup.1 (heq ▸ List.mem_map_of_mem hb')
      rw [Heap.valueOf, Heap.free_of_ne hne]
      exact (hunlink.2.values _).trans (hc.values b' (hold hb'))
    · exact (hc.lists b' (hold hb')).of_cells fun a ha => Heap.free_of_ne (hnotCell b' hb' a ha)
    · have hne : x.node ≠ b.sentinel := fun heq =>
        hapart.1 (heq ▸ List.mem_append_right _ (List.mem_map_of_mem hx))
      rw [Heap.valueOf, Heap.free_of_ne hne]
      exact hc.contents x (hheld.mem_iff.mpr hx)
    · exact (hc.freqBounded.relinks hunlink.2).free _

end Rep
end TAlib
