import TAlib.Cache.CacheState

/-!
One key node for each cached key. The code keeps this as long as set is called
on keys that are not cached, or on the very key that it evicts first: a set on
any other cached key enters a second node and leaves the old one in its list,
which kmap no longer knows.
-/

namespace TAlib

open Foundation

inductive CacheCall where
  | get (key v : Bytes)
  | set (key v : Bytes)
  deriving DecidableEq, Repr

namespace LFUCache

def exec (c : LFUCache) : CacheCall → Except Fault LFUCache
  | .get key v => do
      let r ← c.get key v
      return r.2.2
  | .set key v => c.set key v

/-- The key nodes of all lists, with their addresses. -/
def nodes (c : LFUCache) : List (Nat × Key) :=
  (c.freqNodes.walk c.freqNodes.fresh c.head).flatMap fun e =>
    (c.keyNodes.walk c.keyNodes.fresh e.2.head).tail

/-- The key nodes that hold a key. -/
def nodesOf (c : LFUCache) (k : Bytes) : List (Nat × Key) := c.nodes.filter fun e => e.2.key = k

/-- Every cached key owns one node, there are no other nodes, and there is room
for all of them. -/
structure OneEntry (c : LFUCache) : Prop where
  owned : ∀ k ∈ c.kmap, ∃ e, c.nodesOf k = [e] ∧ c.kmap.lookup k = some (some e.1)
  size : c.nodes.length = c.kmap.keys.card
  bounded : c.kmap.keys.card ≤ c.capacity

/-- A set on a cached key replaces its value and evicts no other key. -/
def Replaces (c : LFUCache) : CacheCall → Prop
  | .get _ _ => True
  | .set k v => k ∈ c.kmap → ∃ c', c.set k v = .ok c' ∧ c'.kmap.keys = c.kmap.keys ∧
      (∃ a, c'.nodesOf k = [(a, ⟨k, v⟩)]) ∧ ∀ e ∈ c.nodes, e.2.key ≠ k → e ∈ c'.nodes

/-- The calls all return, every state has one entry for each key, and the calls
of set replace. -/
def OneEntryThroughout (c : LFUCache) (calls : List CacheCall) : Prop :=
  (∃ c', run exec c calls = .ok c') ∧ Always exec OneEntry c calls ∧ Respects exec Replaces c calls

/-- A get is on a key whose count can still be raised, and a set on a key that is
not cached or that set itself evicts first. -/
def Admitted (c : LFUCache) : CacheCall → Prop
  | .get k _ => k ∈ c.kmap → ∃ n, c.useCount k = .ok n ∧ n < intMax
  | .set k _ => k ∉ c.kmap ∨ c.isFull = true ∧ c.victim = .ok k

end LFUCache

/-- The keys of the items, in the order of the buckets. -/
def itemKeys (bs : List Bucket) : List Bytes := (counted bs).map fun e => e.2.key

section ItemKeys

variable {bs bs' : List Bucket} {f : Nat} {x : Item} {nb : Bucket}

theorem Promoted.itemKeys (hp : Promoted f x nb bs bs') (hbs : Shaped bs) :
    (itemKeys bs').Perm (itemKeys bs) := by
  obtain ⟨front, mid, behind, h, h', -⟩ := hp.counted hbs
  rw [TAlib.itemKeys, TAlib.itemKeys, h, h']
  simp only [List.map_append, List.map_cons, List.append_assoc]
  exact List.perm_middle.append_left _

theorem Entered.itemKeys (he : Entered x nb bs bs') : itemKeys bs' = x.key :: itemKeys bs := by
  rw [TAlib.itemKeys, he.counted]
  rfl

theorem Evicted.itemKeys (he : Evicted x bs bs') (hbs : Shaped bs) :
    (itemKeys bs).Perm (x.key :: itemKeys bs') := by
  obtain ⟨f, front, behind, h, h', -⟩ := he.counted hbs
  rw [TAlib.itemKeys, TAlib.itemKeys, h, h']
  simp only [List.map_append, List.map_cons]
  exact List.perm_middle

end ItemKeys

/-- The picture of a cache with one item for each key. -/
structure Single (c : LFUCache) (bs : List Bucket) : Prop extends Sound c bs where
  nodup : (itemKeys bs).Nodup
  cached : ∀ k ∈ itemKeys bs, k ∈ c.kmap
  bounded : c.kmap.keys.card ≤ c.capacity

namespace Sound

variable {c : LFUCache} {bs bs' : List Bucket} {f : Nat} {x y : Item} {nb : Bucket}

/-- The walk along the list of a bucket meets the sentinel and then the items. -/
theorem list_walk {loose : List Item} {b : Bucket} (hrep : Rep c bs loose) (hb : b ∈ bs) :
    ∃ s, c.keyNodes.walk c.keyNodes.fresh b.list.head =
      (b.sentinel, s) :: b.items.map fun x => (x.node, x.toKey) := by
  have hl := hrep.lists b hb
  obtain ⟨before, after, rfl⟩ := List.append_of_mem hb
  obtain ⟨n, hn⟩ := Option.ne_none_iff_exists'.mp (hl.mem_cells List.mem_cons_self)
  have hnext : n.next = (b.items.map Item.node).head? := by
    have hnext := hl.next_head
    rw [Heap.nextOf, hn] at hnext
    exact Option.some.inj hnext
  have hlen := hl.length_le hrep.keyBounded hrep.apart.cells_nodup
  rw [Bucket.cells, List.length_cons, List.length_map] at hlen
  obtain ⟨fuel, hfuel⟩ := Nat.exists_eq_succ_of_ne_zero (Nat.ne_of_gt (Nat.lt_of_lt_of_le
    (Nat.succ_pos _) hlen))
  rw [hfuel] at hlen ⊢
  refine ⟨n.value, ?_⟩
  simp only [Bucket.list, KeyList.ofNodes, Heap.walk, hn, hnext]
  refine congrArg _ (Heap.walk_linked hl.of_cons (fun x hx => hrep.contents x ?_)
    (Nat.le_of_succ_le_succ hlen))
  exact (held_mid _ _ _ _).mem_iff.mpr (List.mem_append_left _ hx)

theorem list_nodes {loose : List Item} {b : Bucket} (hrep : Rep c bs loose) (hb : b ∈ bs) :
    (c.keyNodes.walk c.keyNodes.fresh b.list.head).tail =
      b.items.map fun x => (x.node, x.toKey) := by
  obtain ⟨s, hwalk⟩ := list_walk hrep hb
  rw [hwalk, List.tail_cons]

theorem freq_walk {loose : List Item} (hrep : Rep c bs loose) :
    c.freqNodes.walk c.freqNodes.fresh c.head = bs.map fun b => (b.node, b.list) := by
  have hlen := hrep.linked.length_le hrep.freqBounded hrep.nodup
  rw [List.length_map] at hlen
  rw [hrep.head, Heap.walk_linked hrep.linked hrep.values hlen]

theorem nodes_eq (hc : Sound c bs) : c.nodes = (counted bs).map fun e => (e.2.node, e.2.toKey) := by
  obtain ⟨b₀, hb₀, hitems₀, hrep⟩ := hc.rep
  rw [LFUCache.nodes, freq_walk hrep, List.flatMap_map, List.flatMap_cons,
    list_nodes hrep List.mem_cons_self, hitems₀, List.map_nil, List.nil_append,
    counted, List.map_flatMap]
  refine List.flatMap_congr fun b hb => ?_
  rw [list_nodes hrep (List.mem_cons_of_mem _ hb), List.map_map]
  rfl

theorem nodesOf_length (hc : Sound c bs) (k : Bytes) :
    (c.nodesOf k).length = (itemKeys bs).count k := by
  rw [LFUCache.nodesOf, hc.nodes_eq, itemKeys, ← List.countP_eq_length_filter, List.countP_map,
    List.count, List.countP_map]
  refine List.countP_congr fun e _ => ?_
  simp only [Function.comp_apply, decide_eq_true_eq, beq_iff_eq]

theorem mem_itemKeys (hc : Sound c bs) {k : Bytes} (hk : k ∈ c.kmap) : k ∈ itemKeys bs := by
  obtain ⟨f, x, hmem, rfl, -⟩ := hc.get_cached hk []
  exact List.mem_map_of_mem (f := fun e => e.2.key) hmem

/-- A second item of a cached key. -/
theorem not_oneEntry (hc : Sound c bs) {k : Bytes} (hk : k ∈ c.kmap)
    (hcount : 1 < (itemKeys bs).count k) : ¬ c.OneEntry := by
  intro hone
  obtain ⟨e, he, -⟩ := hone.owned k hk
  have hlen := hc.nodesOf_length k
  rw [he, List.length_singleton] at hlen
  exact absurd hlen (Nat.ne_of_lt hcount)

end Sound

namespace Single

variable {c : LFUCache} {bs : List Bucket}

theorem mem_itemKeys_iff (hc : Single c bs) {k : Bytes} : k ∈ itemKeys bs ↔ k ∈ c.kmap :=
  ⟨hc.cached k, fun hk => hc.toSound.mem_itemKeys hk⟩

/-- The only item of a key is its only node. -/
theorem nodesOf_eq (hc : Single c bs) {f : Nat} {x : Item} (hx : (f, x) ∈ counted bs) :
    c.nodesOf x.key = [(x.node, x.toKey)] := by
  have hkey : x.key ∈ itemKeys bs := List.mem_map_of_mem (f := fun e => e.2.key) hx
  have hlen : (c.nodesOf x.key).length = 1 := by
    rw [hc.toSound.nodesOf_length]
    exact List.count_eq_one_of_mem hc.nodup hkey
  obtain ⟨e, he⟩ := List.length_eq_one_iff.mp hlen
  have hmem : (x.node, x.toKey) ∈ c.nodesOf x.key := by
    rw [LFUCache.nodesOf, List.mem_filter, hc.toSound.nodes_eq]
    exact ⟨List.mem_map.mpr ⟨(f, x), hx, rfl⟩, decide_eq_true rfl⟩
  rw [he, List.mem_singleton] at hmem
  rw [he, ← hmem]

theorem oneEntry (hc : Single c bs) : c.OneEntry := by
  refine ⟨fun k hk => ?_, ?_, hc.bounded⟩
  · obtain ⟨f, x, hmem, rfl, hlookup, -⟩ := hc.toSound.get_cached hk []
    exact ⟨(x.node, x.toKey), hc.nodesOf_eq hmem, hlookup⟩
  · have hkeys : c.kmap.keys = (itemKeys bs).toFinset := by
      refine Finset.ext fun k => ?_
      rw [Finmap.mem_keys, List.mem_toFinset, hc.mem_itemKeys_iff]
    rw [hc.toSound.nodes_eq, List.length_map, hkeys, List.toFinset_card_of_nodup hc.nodup, itemKeys,
      List.length_map]

/-- What is left when room has been made. -/
theorem made_room (hc : Single c bs) {kmap₁ : PtrMap} {bs₁ : List Bucket}
    (hroom : MadeRoom c bs kmap₁ bs₁) :
    (itemKeys bs₁).Nodup ∧ (∀ k ∈ itemKeys bs₁, k ∈ kmap₁) ∧ kmap₁.keys.card < c.capacity := by
  cases hroom with
  | evicted y _ hfull hvictim he =>
      have hperm := he.itemKeys hc.shaped
      have hnodup := hperm.nodup_iff.mp hc.nodup
      rw [List.nodup_cons] at hnodup
      have hy : y.key ∈ c.kmap := hc.cached _ (hperm.mem_iff.mpr List.mem_cons_self)
      refine ⟨hnodup.2, fun k hk => Finmap.mem_erase.mpr ⟨?_, ?_⟩, ?_⟩
      · rintro rfl
        exact hnodup.1 hk
      · exact hc.cached k (hperm.mem_iff.mpr (List.mem_cons_of_mem _ hk))
      · rw [Finmap.keys_erase]
        exact Nat.lt_of_lt_of_le (Finset.card_erase_lt_of_mem (Finmap.mem_keys.mpr hy)) hc.bounded
  | kept hfull =>
      refine ⟨hc.nodup, hc.cached, Nat.lt_of_le_of_ne hc.bounded ?_⟩
      exact of_decide_eq_false hfull

/-- An admitted set on a cached key evicts the item of that key. -/
theorem evicts_itself {kmap₁ : PtrMap} {bs₁ : List Bucket} {k v : Bytes}
    (hroom : MadeRoom c bs kmap₁ bs₁) (hpre : c.Admitted (.set k v)) (hk : k ∈ c.kmap) :
    kmap₁ = c.kmap.erase k ∧ ∃ y, y.key = k ∧ Evicted y bs bs₁ := by
  cases hpre with
  | inl hnot => exact absurd hk hnot
  | inr h =>
      cases hroom with
      | evicted y _ hfull hvictim he =>
          have hkey : y.key = k := Except.ok.inj (hvictim.symm.trans h.2)
          exact ⟨by rw [hkey], y, hkey, he⟩
      | kept hfull =>
          rw [hfull] at h
          exact absurd h.1 Bool.false_ne_true

/-- The key of an admitted set is not there any more when the new item comes. -/
theorem not_mem_room (hc : Single c bs) {kmap₁ : PtrMap} {bs₁ : List Bucket} {k v : Bytes}
    (hroom : MadeRoom c bs kmap₁ bs₁) (hpre : c.Admitted (.set k v)) : k ∉ itemKeys bs₁ := by
  cases hroom with
  | evicted y _ hfull hvictim he =>
      have hperm := he.itemKeys hc.shaped
      cases hpre with
      | inl hk =>
          exact fun hmem => hk (hc.cached _ (hperm.mem_iff.mpr (List.mem_cons_of_mem _ hmem)))
      | inr hk =>
          have hkey : y.key = k := Except.ok.inj (hvictim.symm.trans hk.2)
          rw [← hkey]
          exact (List.nodup_cons.mp (hperm.nodup_iff.mp hc.nodup)).1
  | kept hfull =>
      cases hpre with
      | inl hk => exact fun hmem => hk (hc.cached _ hmem)
      | inr hk =>
          rw [hfull] at hk
          exact absurd hk.1 Bool.false_ne_true

theorem promotes (hc : Single c bs) {bs' : List Bucket} {c' : LFUCache} {f : Nat} {nb : Bucket}
    {x : Item} (hp : Promoted f x nb bs bs') (hc' : Sound c' bs') (hkmap : c'.kmap = c.kmap) :
    Single c' bs' := by
  have hperm := hp.itemKeys hc.shaped
  refine { hc' with
    nodup := hperm.nodup_iff.mpr hc.nodup
    cached := fun k hk => ?_
    bounded := ?_ }
  · rw [hkmap]
    exact hc.cached k (hperm.mem_iff.mp hk)
  · rw [hkmap, hc'.capacity, ← hc.capacity]
    exact hc.bounded

theorem enters (hc : Single c bs) {kmap₁ : PtrMap} {bs₁ bs' : List Bucket} {c' : LFUCache}
    {nb : Bucket} {x : Item} (hroom : MadeRoom c bs kmap₁ bs₁) (hnot : x.key ∉ itemKeys bs₁)
    (he : Entered x nb bs₁ bs') (hc' : Sound c' bs')
    (hkmap : c'.kmap = kmap₁.insert x.key (some x.node)) : Single c' bs' := by
  obtain ⟨hnodup, hcached, hcard⟩ := hc.made_room hroom
  have hkeys : c'.kmap.keys = insert x.key kmap₁.keys := by
    refine Finset.ext fun k => ?_
    rw [hkmap, Finmap.mem_keys, Finmap.mem_insert, Finset.mem_insert, Finmap.mem_keys]
  refine { hc' with
    nodup := ?_
    cached := fun k hk => ?_
    bounded := ?_ }
  · rw [he.itemKeys]
    exact List.nodup_cons.mpr ⟨hnot, hnodup⟩
  · rw [hkmap, Finmap.mem_insert]
    rw [he.itemKeys] at hk
    exact (List.mem_cons.mp hk).imp_right (hcached k)
  · rw [hkeys, hc'.capacity, ← hc.capacity]
    exact (Finset.card_insert_le _ _).trans hcard

/-- A call that is admitted returns and keeps one item for each key. -/
theorem step (hc : Single c bs) {call : CacheCall} (hpre : c.Admitted call) :
    c.Replaces call ∧ ∃ c', c.exec call = .ok c' ∧ ∃ bs', Single c' bs' := by
  cases call with
  | get k v =>
      refine ⟨trivial, ?_⟩
      by_cases hk : k ∈ c.kmap
      · obtain ⟨n, hcount, hn⟩ := hpre hk
        obtain ⟨f, x, hmem, hkey, hlookup, hcount', hget, -⟩ := hc.toSound.get_cached hk v
        cases Except.ok.inj (hcount.symm.trans hcount')
        obtain ⟨c', nb, bs', hget, hp, hc', hkmap⟩ := hget hn
        refine ⟨c', ?_, bs', hc.promotes hp hc' hkmap⟩
        simp only [LFUCache.exec, hget, ok_bind]
        rfl
      · refine ⟨c, ?_, bs, hc⟩
        simp only [LFUCache.exec, hc.toSound.get_missing hk, ok_bind]
        rfl
  | set k v =>
      obtain ⟨kmap₁, bs₁, c', nb, bs', x, hset, hroom, rfl, rfl, he, hc', hkmap⟩ :=
        hc.toSound.set_ok k v
      have hnot := hc.not_mem_room hroom hpre
      have hc'' := hc.enters hroom hnot he hc' hkmap
      refine ⟨fun hk => ⟨c', hset, ?_, ⟨x.node, ?_⟩, fun e hmem hne => ?_⟩, c', hset, bs', hc''⟩
      · refine Finset.ext fun k => ?_
        rw [hkmap, (evicts_itself hroom hpre hk).1, Finmap.mem_keys, Finmap.mem_insert,
          Finmap.mem_erase, Finmap.mem_keys]
        by_cases heq : k = x.key
        · simp only [heq, true_or, hk]
        · simp only [heq, false_or, ne_eq, not_false_eq_true, true_and]
      · refine hc''.nodesOf_eq (f := 1) ?_
        rw [he.counted]
        exact List.mem_cons_self
      · obtain ⟨-, y, hy, hev⟩ := evicts_itself hroom hpre hk
        obtain ⟨f, front, behind, hbs, hbs₁, -⟩ := hev.counted hc.shaped
        rw [hc.toSound.nodes_eq, hbs] at hmem
        rw [hc'.nodes_eq, he.counted, hbs₁]
        obtain ⟨z, hz, rfl⟩ := List.mem_map.mp hmem
        refine List.mem_map_of_mem (List.mem_cons_of_mem _ ?_)
        cases mem_mid.mp hz with
        | inl heq =>
            rw [heq] at hne
            exact absurd hy hne
        | inr hmem => exact hmem

/-- A call that is not admitted never returns, or leaves a second item. -/
theorem step_not_admitted (hc : Single c bs) {call : CacheCall} (hpre : ¬ c.Admitted call)
    {c' : LFUCache} (hexec : c.exec call = .ok c') : ¬ c'.OneEntry := by
  cases call with
  | get k v =>
      exfalso
      apply hpre
      intro hk
      obtain ⟨f, x, -, -, -, hcount, -, hover⟩ := hc.toSound.get_cached hk v
      refine ⟨f, hcount, ?_⟩
      by_contra hf
      simp only [LFUCache.exec, hover hf] at hexec
      cases hexec
  | set k v =>
      obtain ⟨kmap₁, bs₁, c'', nb, bs', x, hset, hroom, rfl, rfl, he, hc', hkmap⟩ :=
        hc.toSound.set_ok k v
      cases Except.ok.inj (hset.symm.trans hexec)
      simp only [LFUCache.Admitted, not_or, not_not, not_and] at hpre
      obtain ⟨hk, hvictim⟩ := hpre
      have hcached := hc.toSound.mem_itemKeys hk
      have hstill : x.key ∈ itemKeys bs₁ := by
        cases hroom with
        | evicted y _ hfull hv hev =>
            cases List.mem_cons.mp ((hev.itemKeys hc.shaped).mem_iff.mp hcached) with
            | inl heq => exact absurd (heq ▸ hv) (hvictim hfull)
            | inr hmem => exact hmem
        | kept hfull => exact hcached
      refine hc'.not_oneEntry (k := x.key) ?_ ?_
      · rw [hkmap, Finmap.mem_insert]
        exact .inl rfl
      · rw [he.itemKeys, List.count_cons_self]
        exact Nat.succ_lt_succ (List.count_pos_iff.mpr hstill)

end Single

theorem single_init : ∃ c, LFUCache.init = .ok c ∧ Single c [] := by
  obtain ⟨c, hinit, hc, hkmap⟩ := Sound.init_ok
  refine ⟨c, hinit, { hc with nodup := .nil, cached := nofun, bounded := ?_ }⟩
  rw [hkmap, hc.capacity]
  decide

namespace LFUCache

/-- The cache has one entry for each key throughout exactly when every get is on a
count that can be raised and every set on a key that is not cached or that the
set evicts first. -/
theorem one_entry_iff (calls : List CacheCall) : ∃ c₀, init = .ok c₀ ∧
    (OneEntryThroughout c₀ calls ↔ Respects exec Admitted c₀ calls) := by
  obtain ⟨c₀, hinit, hc⟩ := single_init
  refine ⟨c₀, hinit, ?_⟩
  refine returns_always_iff_respects (I := fun c => ∃ bs, Single c bs) ?_ ?_ ?_ ⟨[], hc⟩ calls
  · rintro c ⟨bs, hc⟩
    exact hc.oneEntry
  · rintro c call ⟨bs, hc⟩ hpre
    exact hc.step hpre
  · rintro c call c' ⟨bs, hc⟩ hpre hexec
    exact hc.step_not_admitted hpre hexec

/-- A second set of one key leaves two nodes and one entry in kmap. -/
theorem two_nodes_after_second_set : ∃ c₀, init = .ok c₀ ∧
    ¬ OneEntryThroughout c₀ [.set [107] [1], .set [107] [2]] := by
  have hrun : resultHolds (fun c => c.nodes.length = 2 ∧ c.kmap.keys.card = 1)
      (init >>= fun c => run exec c [.set [107] [1], .set [107] [2]]) = true := by decide +kernel
  obtain ⟨c', hrun, hnodes, hcard⟩ := resultHolds_iff.mp hrun
  obtain ⟨c₀, hinit, hrun⟩ := bind_eq_ok.mp hrun
  refine ⟨c₀, hinit, fun h => ?_⟩
  have hone := h.2.1.last hrun
  rw [hone.size, hcard] at hnodes
  cases hnodes

end LFUCache
end TAlib
