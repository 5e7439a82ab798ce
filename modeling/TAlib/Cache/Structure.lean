import TAlib.Cache.Refinement

/-!
The links of the cache, read off the heap. The buckets are the nodes on the way
from head, the key nodes those on the way from the head of a bucket's list. What
is said of them holds between all calls, with keys set more than once allowed, and
it is enough for get and set never to follow a link that leads nowhere.
-/

namespace TAlib

open Foundation

namespace LFUCache

/-- The buckets, the one at head first, with their addresses. -/
def freqList (c : LFUCache) : List (Nat × KeyList) := c.freqNodes.walk c.freqNodes.fresh c.head

/-- The nodes of a list, the sentinel first, with their addresses. -/
def keyNodesOf (c : LFUCache) (l : KeyList) : List (Nat × Key) :=
  c.keyNodes.walk c.keyNodes.fresh l.head

structure WellLinked (c : LFUCache) : Prop where
  buckets : c.freqNodes.Chain c.head (c.freqList.map Prod.fst)
  headFreq : (c.freqList.head?.map fun e => e.2.freq) = some 0
  increasing : c.freqList.Pairwise fun e e' => e.2.freq < e'.2.freq
  nonempty : ∀ e ∈ c.freqList.tail, (c.keyNodesOf e.2).tail ≠ []
  keys : ∀ e ∈ c.freqList, c.keyNodes.Chain e.2.head ((c.keyNodesOf e.2).map Prod.fst)
  last : ∀ e ∈ c.freqList, e.2.last = ((c.keyNodesOf e.2).map Prod.fst).getLast?
  sameKeys : c.kmap.keys = c.fmap.keys
  entries : ∀ k ∈ c.kmap, ∃ node v, ∃ e ∈ c.freqList, c.kmap.lookup k = some (some node) ∧
    c.fmap.lookup k = some (some e.1) ∧ (node, ⟨k, v⟩) ∈ (c.keyNodesOf e.2).tail

end LFUCache

namespace Sound

variable {c : LFUCache} {bs : List Bucket}

theorem wellLinked (hc : Sound c bs) : c.WellLinked := by
  obtain ⟨b₀, hb₀, hitems₀, hrep⟩ := hc.rep
  have hfreqs : c.freqList = (b₀ :: bs).map fun b => (b.node, b.list) := freq_walk hrep
  have hkeys (b) (hb : b ∈ b₀ :: bs) : (c.keyNodesOf b.list).map Prod.fst = b.cells := by
    obtain ⟨s, hwalk⟩ := list_walk hrep hb
    rw [LFUCache.keyNodesOf, hwalk, List.map_cons, List.map_map]
    rfl
  have hitems (b) (hb : b ∈ b₀ :: bs) :
      (c.keyNodesOf b.list).tail = b.items.map fun x => (x.node, x.toKey) := list_nodes hrep hb
  refine ⟨?_, ?_, ?_, ?_, ?_, ?_, hc.tables.sameKeys.symm, ?_⟩
  · rw [hfreqs, List.map_map, hrep.head]
    exact hrep.linked.chain hrep.nodup
  · rw [hfreqs]
    exact congrArg some hb₀
  · rw [hfreqs, List.pairwise_map, List.pairwise_cons]
    refine ⟨fun b hb => ?_, hc.shaped.ascending⟩
    exact Nat.lt_of_le_of_lt (Nat.le_of_eq hb₀) (hc.shaped.positive b hb)
  · rw [hfreqs, List.map_cons, List.tail_cons, List.forall_mem_map]
    intro b hb
    rw [hitems b (List.mem_cons_of_mem _ hb)]
    exact fun hnil => hc.shaped.nonempty b hb (List.map_eq_nil_iff.mp hnil)
  · rw [hfreqs, List.forall_mem_map]
    intro b hb
    obtain ⟨before, after, hsplit⟩ := List.append_of_mem hb
    have hapart := hrep.apart
    rw [hsplit] at hapart
    rw [hkeys b hb]
    exact (hrep.lists b hb).chain hapart.cells_nodup
  · rw [hfreqs, List.forall_mem_map]
    intro b hb
    rw [hkeys b hb]
    rfl
  · intro k hk
    obtain ⟨p, hp⟩ := Finmap.mem_iff.mp hk
    obtain ⟨n, x, ⟨b, hb, rfl, hx⟩, rfl, rfl, hf⟩ := hc.tables.entries k p hp
    have hb' := List.mem_cons_of_mem b₀ hb
    refine ⟨x.node, x.value, (b.node, b.list), ?_, hp, hf, ?_⟩
    · rw [hfreqs]
      exact List.mem_map_of_mem (f := fun b => (b.node, b.list)) hb'
    · rw [hitems b hb']
      exact List.mem_map_of_mem (f := fun x => (x.node, x.toKey)) hx

/-- A call that fits the range of the counts returns; the only other end is the
overflow of a count. -/
theorem exec_fits (hc : Sound c bs) {call : CacheCall} (hfits : LFUCache.CountFits (c, []) call) :
    ∃ c', c.exec call = .ok c' ∧ ∃ bs', Sound c' bs' := by
  cases call with
  | get k v =>
      by_cases hk : k ∈ c.kmap
      · obtain ⟨f, x, -, -, -, hcount, hget, -⟩ := hc.get_cached hk v
        obtain ⟨n, hn, hlt⟩ := hfits hk
        cases hcount.symm.trans hn
        obtain ⟨c', nb, bs', hget', -, hc', -⟩ := hget hlt
        refine ⟨c', ?_, bs', hc'⟩
        simp only [LFUCache.exec, hget']
        rfl
      · refine ⟨c, ?_, bs, hc⟩
        simp only [LFUCache.exec, hc.get_missing hk]
        rfl
  | set k v =>
      obtain ⟨_, _, c', _, bs', _, hset, -, -, -, -, hc', -⟩ := hc.set_ok k v
      exact ⟨c', hset, bs', hc'⟩

theorem exec_overflows (hc : Sound c bs) {call : CacheCall}
    (hfits : ¬ LFUCache.CountFits (c, []) call) : c.exec call = .error .overflow := by
  cases call with
  | get k v =>
      simp only [LFUCache.CountFits, Classical.not_imp, not_exists, not_and] at hfits
      obtain ⟨hk, hcount⟩ := hfits
      obtain ⟨f, x, -, -, -, hcount', -, hover⟩ := hc.get_cached hk v
      simp only [LFUCache.exec, hover (hcount f hcount')]
      rfl
  | set k v => exact absurd trivial hfits

theorem exec_sound (hc : Sound c bs) {call : CacheCall} {c' : LFUCache}
    (hexec : c.exec call = .ok c') : LFUCache.CountFits (c, []) call ∧ ∃ bs', Sound c' bs' := by
  by_cases hfits : LFUCache.CountFits (c, []) call
  · obtain ⟨c'', hexec', hc'⟩ := hc.exec_fits hfits
    cases Except.ok.inj (hexec'.symm.trans hexec)
    exact ⟨hfits, hc'⟩
  · cases (hc.exec_overflows hfits).symm.trans hexec

end Sound

namespace LFUCache

/-- The lists and the maps are whole between all calls. A run returns exactly when
no key that a get finds has been used as often as an int can count, and nothing
but such a use stops it: no null pointer and no deleted node is followed. -/
theorem wellLinked_throughout (calls : List CacheCall) : ∃ c₀, init = .ok c₀ ∧
    Always exec WellLinked c₀ calls ∧
    ((∃ c, run exec c₀ calls = .ok c) ↔ Respects exec (fun c => CountFits (c, [])) c₀ calls) ∧
    ∀ e, run exec c₀ calls = .error e → e = .overflow := by
  obtain ⟨c₀, hinit, hc₀, -⟩ := Sound.init_ok
  have hstart : ∃ bs, Sound c₀ bs := ⟨[], hc₀⟩
  have hlinked : ∀ c : LFUCache, (∃ bs, Sound c bs) → c.WellLinked := fun c ⟨_, hc⟩ => hc.wellLinked
  have hstep : ∀ (c : LFUCache) (call : CacheCall) (c' : LFUCache), (∃ bs, Sound c bs) →
      c.exec call = .ok c' → CountFits (c, []) call ∧ ∃ bs, Sound c' bs :=
    fun c call c' ⟨_, hc⟩ hexec => hc.exec_sound hexec
  have halways : Always exec WellLinked c₀ calls :=
    always_of_respects hlinked (fun c call c' hc _ hexec => (hstep c call c' hc hexec).2) hstart
      (respects_true c₀ calls)
  have hreturns := returns_always_iff_respects (P := WellLinked) (Q := fun _ _ => True) hlinked
    (fun c call ⟨_, hc⟩ hfits => ⟨trivial, hc.exec_fits hfits⟩)
    (fun c call c' hc hfits hexec => absurd (hstep c call c' hc hexec).1 hfits) hstart calls
  refine ⟨c₀, hinit, halways, ?_, fun e herror => ?_⟩
  · rw [← hreturns]
    exact ⟨fun h => ⟨h, halways, respects_true c₀ calls⟩, fun h => h.1⟩
  · obtain ⟨before, call, after, c, -, hrun, hfault⟩ := run_eq_error.mp herror
    obtain ⟨bs, hc⟩ : ∃ bs, Sound c bs :=
      run_invariant_of_step (fun c call c' hc hexec => (hstep c call c' hc hexec).2) hstart hrun
    by_cases hfits : CountFits (c, []) call
    · obtain ⟨c', hexec, -⟩ := hc.exec_fits hfits
      cases hexec.symm.trans hfault
    · cases (hc.exec_overflows hfits).symm.trans hfault
      rfl

end LFUCache
end TAlib
