import TAlib.Cache.Structure

/-!
The nodes of the cache from new to delete. Every node that is there can be reached
from head between calls, so none is lost; and what ~LFUCache walks over is then all
there is, each node once.
-/

namespace TAlib

open Foundation

section Live

variable {α : Type} {h h' : Heap α} {p q : Ptr}

/-- An update keeps what it keeps at every node. -/
theorem through_same {β : Type} {g : Heap α → β} {f : Nat → Heap α} (hf : ∀ a, g (f a) = g h)
    (hok : through h p f = .ok h') : g h' = g h := by
  obtain ⟨n, -, hok⟩ := bind_eq_ok.mp hok
  cases p with
  | none => cases hok
  | some a =>
      cases hok
      exact hf a

variable (a : Nat)

theorem setNext_valueOf (hok : setNext h p q = .ok h') : h'.valueOf a = h.valueOf a :=
  through_same (g := fun h => h.valueOf a) (fun b => Heap.valueOf_setNext h b a q) hok

theorem setPreIfAny_valueOf (hok : setPreIfAny h p q = .ok h') : h'.valueOf a = h.valueOf a := by
  rw [setPreIfAny] at hok
  split at hok
  · cases hok
    rfl
  · exact through_same (g := fun h => h.valueOf a) (fun b => Heap.valueOf_setPre h b a q) hok

theorem setNext_live (hok : setNext h p q = .ok h') : h'.live = h.live :=
  through_same (fun a => Heap.live_modify a _) hok

theorem setPre_live (hok : setPre h p q = .ok h') : h'.live = h.live :=
  through_same (fun a => Heap.live_modify a _) hok

theorem setValue_live {v : α} (hok : setValue h p v = .ok h') : h'.live = h.live :=
  through_same (fun a => Heap.live_modify a _) hok

theorem setPreIfAny_live (hok : setPreIfAny h p q = .ok h') : h'.live = h.live := by
  rw [setPreIfAny] at hok
  split at hok
  · cases hok
    rfl
  · exact setPre_live hok

variable {a}

theorem delete_live (hok : delete h (some a) = .ok h') : h'.live = h.live \ {a} := by
  obtain ⟨n, -, hok⟩ := bind_eq_ok.mp hok
  cases hok
  exact Heap.live_free a

end Live

namespace KeyList

variable {h h' : Heap Key} {l l' : KeyList} {node : Ptr}

theorem add_live (hok : l.add h node = .ok (l', h')) : h'.live = h.live := by
  simp only [add, bind_eq_ok] at hok
  obtain ⟨_, -, h₁, h₁ok, _, -, h₂, h₂ok, h₃, h₃ok, h₄, h₄ok, hok⟩ := hok
  cases hok
  rw [setNext_live h₄ok, setPre_live h₃ok, setNext_live h₂ok, setPreIfAny_live h₁ok]

theorem del_live (hok : l.del h node = .ok (l', h')) : h'.live = h.live := by
  simp only [del, bind_eq_ok] at hok
  obtain ⟨_, -, _, -, h₁, h₁ok, _, -, _, -, h₂, h₂ok, hok⟩ := hok
  cases hok
  rw [setPreIfAny_live h₂ok, setNext_live h₁ok]

/-- The loop deletes the nodes of the list, each once. -/
theorem destoryLoop_ok {nodes : List Nat} (hl : h.Linked nodes) (hnodup : nodes.Nodup) {fuel : Nat}
    (hfuel : nodes.length ≤ fuel) : destoryLoop fuel h nodes.head? = .ok (h.freeAll nodes) := by
  induction nodes generalizing h fuel with
  | nil =>
      cases fuel with
      | zero => rfl
      | succ n => rfl
  | cons a rest ih =>
      obtain ⟨ha, hrest⟩ := List.nodup_cons.mp hnodup
      cases fuel with
      | zero => exact absurd hfuel (Nat.not_succ_le_zero _)
      | succ fuel =>
          have hbehind : (h.free a).Linked rest := hl.of_cons.of_cells fun b hb =>
            Heap.free_of_ne fun heq => ha (heq ▸ hb)
          simp only [List.head?_cons, destoryLoop, getNext_ok hl.next_head, ok_bind,
            delete_ok (hl.mem_cells List.mem_cons_self)]
          exact ih hbehind hrest (Nat.le_of_succ_le_succ hfuel)

theorem destory_all {freq s : Nat} {nodes : List Nat} (hb : h.Bounded) (hl : h.Linked (s :: nodes))
    (hnodup : (s :: nodes).Nodup) :
    (ofNodes freq s nodes).destory h = .ok (h.freeAll (s :: nodes)) :=
  destoryLoop_ok hl hnodup (hl.length_le hb hnodup)

end KeyList

namespace LFUCache

variable {c c' : LFUCache} {node p : Ptr}

/-- The same nodes are there. -/
def SameLive (c c' : LFUCache) : Prop :=
  c'.freqNodes.live = c.freqNodes.live ∧ c'.keyNodes.live = c.keyNodes.live

/-- A node of either kind has come. -/
def OneMore (c c' : LFUCache) : Prop :=
  c'.freqNodes.live = insert c.freqNodes.fresh c.freqNodes.live ∧
    c'.keyNodes.live = insert c.keyNodes.fresh c.keyNodes.live

theorem onList_live {op : KeyList → Heap Key → Except Fault (KeyList × Heap Key)}
    (hop : ∀ l h l' h', op l h = .ok (l', h') → h'.live = h.live)
    (hok : c.onList node op = .ok c') : SameLive c c' := by
  simp only [onList, bind_eq_ok] at hok
  obtain ⟨n, -, ⟨l, keyNodes⟩, hl, freqNodes, hvalue, hok⟩ := hok
  cases hok
  exact ⟨setValue_live hvalue, hop _ _ _ _ hl⟩

theorem insertBucket_live {freq : Nat} (hok : c.insertBucket node freq = .ok (p, c')) :
    p = some c.freqNodes.fresh ∧ OneMore c c' := by
  simp only [insertBucket, KeyList.init_ok, ok_bind, bind_eq_ok] at hok
  obtain ⟨h₁, h₁ok, _, -, h₂, h₂ok, _, -, h₃, h₃ok, h₄, h₄ok, h₅, h₅ok, hok⟩ := hok
  cases hok
  refine ⟨rfl, ?_, ?_⟩
  · change h₅.live = _
    rw [setPre_live h₅ok, setNext_live h₄ok, setNext_live h₃ok, setPreIfAny_live h₂ok,
      setValue_live h₁ok, Heap.live_alloc]
  · exact (Heap.live_modify _ _).trans (Heap.live_alloc _)

/-- A bucket is there already, or a new one is made. -/
theorem nextBucket_live (hok : c.nextBucket node = .ok (p, c')) :
    c' = c ∨ p = some c.freqNodes.fresh ∧ OneMore c c' := by
  simp only [nextBucket, bind_eq_ok] at hok
  obtain ⟨n, -, freq, -, hok⟩ := hok
  split at hok
  · exact .inr (insertBucket_live hok)
  · obtain ⟨m, -, hok⟩ := bind_eq_ok.mp hok
    split at hok
    · exact .inr (insertBucket_live hok)
    · cases hok
      exact .inl rfl

theorem del_live {a : Nat} (hok : c.del (some a) = .ok c') :
    c'.freqNodes.live = c.freqNodes.live \ {a} := by
  simp only [del, bind_eq_ok] at hok
  obtain ⟨_, -, _, -, h₁, h₁ok, _, -, _, -, h₂, h₂ok, _, -, _, -, h₃, h₃ok, hok⟩ := hok
  cases hok
  rw [delete_live h₃ok, setPreIfAny_live h₂ok, setNext_live h₁ok]

/-- Every node can be reached. -/
structure AllReachable (c : LFUCache) : Prop where
  buckets : ∀ a ∈ c.freqNodes.live, a ∈ c.freqList.map Prod.fst
  keys : ∀ a ∈ c.keyNodes.live, ∃ e ∈ c.freqList, a ∈ (c.keyNodesOf e.2).map Prod.fst

/-- The loop of ~LFUCache. -/
def destroyLoop : Nat → LFUCache → Except Fault LFUCache
  | 0, c => if c.head = none then .ok c else .error .spins
  | fuel + 1, c =>
      if c.head = none then .ok c
      else do
        let pre := c.head
        let head ← getNext c.freqNodes c.head
        let n ← deref c.freqNodes pre
        let keyNodes ← n.value.destory c.keyNodes
        let freqNodes ← delete c.freqNodes pre
        destroyLoop fuel { c with head := head, keyNodes := keyNodes, freqNodes := freqNodes }

/-- ~LFUCache. Every round deletes a bucket. -/
def destroy (c : LFUCache) : Except Fault LFUCache := destroyLoop c.freqNodes.fresh c

end LFUCache

/-- All nodes that are there are in the picture. -/
structure Exact (c : LFUCache) (bs : List Bucket) (loose : List Item) : Prop where
  buckets : ∀ a ∈ c.freqNodes.live, a ∈ bs.map Bucket.node
  keys : ∀ a ∈ c.keyNodes.live, a ∈ bs.map Bucket.sentinel ++ (held bs loose).map Item.node

theorem Rep.allReachable_iff {c : LFUCache} {bs : List Bucket} (hc : Rep c bs []) :
    c.AllReachable ↔ Exact c bs [] := by
  have hfreqs : c.freqList = bs.map fun b => (b.node, b.list) := Sound.freq_walk hc
  have hkeys (b) (hb : b ∈ bs) : (c.keyNodesOf b.list).map Prod.fst = b.cells := by
    obtain ⟨s, hwalk⟩ := Sound.list_walk hc hb
    rw [LFUCache.keyNodesOf, hwalk, List.map_cons, List.map_map]
    rfl
  have hbuckets : c.freqList.map Prod.fst = bs.map Bucket.node := by
    rw [hfreqs, List.map_map]
    rfl
  have hcells (a : Nat) : (∃ e ∈ c.freqList, a ∈ (c.keyNodesOf e.2).map Prod.fst) ↔
      a ∈ bs.map Bucket.sentinel ++ (held bs []).map Item.node := by
    rw [held, List.append_nil, ← (cells_perm bs).mem_iff, List.mem_flatMap, hfreqs]
    constructor
    · intro h
      obtain ⟨e, he, ha⟩ := h
      obtain ⟨b, hb, rfl⟩ := List.mem_map.mp he
      rw [hkeys b hb] at ha
      exact ⟨b, hb, ha⟩
    · intro h
      obtain ⟨b, hb, ha⟩ := h
      exact ⟨_, List.mem_map_of_mem hb, by rwa [hkeys b hb]⟩
  constructor
  · intro h
    exact ⟨fun a ha => hbuckets ▸ h.buckets a ha, fun a ha => (hcells a).mp (h.keys a ha)⟩
  · intro h
    exact ⟨fun a ha => hbuckets ▸ h.buckets a ha, fun a ha => (hcells a).mpr (h.keys a ha)⟩

namespace Exact

variable {c c' : LFUCache} {before after bs bs' : List Bucket} {b b₀ : Bucket}
  {loose loose' : List Item} {x : Item}

/-- The same nodes in another arrangement. -/
theorem of_same (he : Exact c bs loose) (hlive : LFUCache.SameLive c c')
    (hnodes : bs'.map Bucket.node = bs.map Bucket.node)
    (hsentinels : bs'.map Bucket.sentinel = bs.map Bucket.sentinel)
    (hheld : (held bs' loose').Perm (held bs loose)) : Exact c' bs' loose' := by
  refine ⟨fun a ha => ?_, fun a ha => ?_⟩
  · rw [hnodes]
    exact he.buckets a (hlive.1 ▸ ha)
  · rw [hsentinels, ((hheld.map Item.node).append_left _).mem_iff]
    exact he.keys a (hlive.2 ▸ ha)

/-- A key node goes to the front of a list. -/
theorem list_add (he : Exact c (before ++ b :: after) (x :: loose))
    (hok : c.onList (some b.node) (·.add · (some x.node)) = .ok c') :
    Exact c' (before ++ { b with items := x :: b.items } :: after) loose := by
  refine he.of_same (LFUCache.onList_live (fun _ _ _ _ => KeyList.add_live) hok) ?_ ?_ ?_
  · simp only [List.map_append, List.map_cons]
  · simp only [List.map_append, List.map_cons]
  · exact (held_move before after b x [] b.items loose).symm

theorem list_del {newer older : List Item}
    (he : Exact c (before ++ { b with items := newer ++ x :: older } :: after) loose)
    (hok : c.onList (some b.node) (·.del · (some x.node)) = .ok c') :
    Exact c' (before ++ { b with items := newer ++ older } :: after) (x :: loose) := by
  refine he.of_same (LFUCache.onList_live (fun _ _ _ _ => KeyList.del_live) hok) ?_ ?_ ?_
  · simp only [List.map_append, List.map_cons]
  · simp only [List.map_append, List.map_cons]
  · exact held_move before after b x newer older loose

theorem new_key (he : Exact c bs loose) (k : Key) :
    Exact { c with keyNodes := c.keyNodes.alloc k } bs (⟨k, c.keyNodes.fresh⟩ :: loose) := by
  refine ⟨he.buckets, fun a ha => ?_⟩
  have hperm : (bs.map Bucket.sentinel ++
      (held bs (⟨k, c.keyNodes.fresh⟩ :: loose)).map Item.node).Perm
      (c.keyNodes.fresh :: (bs.map Bucket.sentinel ++ (held bs loose).map Item.node)) :=
    (((held_loose _ _ _).map _).append_left _).trans List.perm_middle
  rw [hperm.mem_iff, List.mem_cons]
  change a ∈ (c.keyNodes.alloc k).live at ha
  rw [Heap.live_alloc] at ha
  exact ha.imp_right (he.keys a)

theorem delete_key {keyNodes : Heap Key} (he : Exact c bs (x :: loose))
    (hok : delete c.keyNodes (some x.node) = .ok keyNodes) :
    Exact { c with keyNodes := keyNodes } bs loose := by
  refine ⟨he.buckets, fun a ha => ?_⟩
  have hperm : (bs.map Bucket.sentinel ++ (held bs (x :: loose)).map Item.node).Perm
      (x.node :: (bs.map Bucket.sentinel ++ (held bs loose).map Item.node)) :=
    (((held_loose _ _ _).map _).append_left _).trans List.perm_middle
  change a ∈ keyNodes.live at ha
  rw [delete_live hok] at ha
  have hmem := he.keys a ha.1
  rw [hperm.mem_iff, List.mem_cons] at hmem
  exact hmem.resolve_left ha.2

/-- The bucket that addfreq goes on with: a new one has the two new nodes. -/
theorem nextBucket {nb : Bucket} {rest : List Bucket} {f : Nat}
    (he : Exact c (before ++ b :: after) loose) (hc : Rep c (before ++ b :: after) loose)
    (hnb : NextBucket f after nb rest) (hc' : Rep c' (before ++ b :: nb :: rest) loose)
    (hok : c.nextBucket (some b.node) = .ok (some nb.node, c')) :
    Exact c' (before ++ b :: nb :: rest) loose := by
  have hthere : nb.node ∈ c'.freqNodes.live := hc'.linked.mem_cells (List.mem_map_of_mem
    (List.mem_append_right _ (List.mem_cons_of_mem _ List.mem_cons_self)))
  cases hnb with
  | present nb rest hfreq =>
      cases LFUCache.nextBucket_live hok with
      | inl hsame => exact hsame ▸ he
      | inr hnew =>
          -- the bucket was there, so its address is not the new one
          have hlive : c.freqNodes.cells nb.node ≠ none := hc.linked.mem_cells (List.mem_map_of_mem
            (List.mem_append_right _ (List.mem_cons_of_mem _ List.mem_cons_self)))
          exact absurd (Option.some.inj hnew.1) (hc.freqBounded.ne_fresh hlive)
  | inserted after node sentinel hfreq =>
      have hperm : (before ++ b :: ⟨node, f, sentinel, []⟩ :: after).Perm
          (⟨node, f, sentinel, []⟩ :: (before ++ b :: after)) := by
        rw [List.append_cons before b after, List.append_cons before b]
        exact List.perm_middle
      have hheld : (held (before ++ b :: ⟨node, f, sentinel, []⟩ :: after) loose).Perm
          (held (before ++ b :: after) loose) := (hperm.flatMap_right _).append_right _
      have hnodup := hc'.nodup
      rw [(hperm.map _).nodup_iff, List.map_cons, List.nodup_cons] at hnodup
      have hapart := hc'.apart
      rw [Apart, ((hperm.map _).append (hheld.map _)).nodup_iff, List.map_cons, List.cons_append,
        List.nodup_cons] at hapart
      cases LFUCache.nextBucket_live hok with
      | inl hsame =>
          subst hsame
          exact absurd (he.buckets node hthere) hnodup.1
      | inr hnew =>
          obtain ⟨hnode, hfreqs, hkeys⟩ := hnew
          have hsentinel : sentinel ∈ c'.keyNodes.live :=
            (hc'.lists ⟨node, f, sentinel, []⟩ (hperm.mem_iff.mpr List.mem_cons_self)).mem_cells
              List.mem_cons_self
          rw [hkeys] at hsentinel
          have hfresh : sentinel = c.keyNodes.fresh :=
            hsentinel.resolve_right fun hold => hapart.1 (he.keys sentinel hold)
          refine ⟨fun a ha => ?_, fun a ha => ?_⟩
          · rw [(hperm.map _).mem_iff, List.map_cons, List.mem_cons]
            rw [hfreqs] at ha
            exact ha.imp (fun heq => heq.trans (Option.some.inj hnode).symm) (he.buckets a)
          · rw [((hperm.map _).append (hheld.map _)).mem_iff, List.map_cons, List.cons_append,
              List.mem_cons]
            rw [hkeys] at ha
            exact ha.imp (fun heq => heq.trans hfresh.symm) (he.keys a)

/-- A bucket that has become empty goes with its sentinel. -/
theorem delIfEmpty (he : Exact c (before ++ b₀ :: b :: after) loose)
    (hc : Rep c (before ++ b₀ :: b :: after) loose)
    (hok : c.delIfEmpty (some b.node) = .ok c') :
    Exact c' (before ++ b₀ :: pruned b ++ after) loose := by
  have hperm : (before ++ b₀ :: b :: after).Perm (b :: (before ++ b₀ :: after)) := by
    rw [List.append_cons before b₀ (b :: after), List.append_cons before b₀ after]
    exact List.perm_middle
  have hb : b ∈ before ++ b₀ :: b :: after := hperm.mem_iff.mpr List.mem_cons_self
  obtain ⟨n, hderef, -, hvalue⟩ := hc.deref_bucket hb
  have hcells : b.cells.Nodup := by
    have hapart := hc.apart
    rw [List.append_cons] at hapart
    exact hapart.cells_nodup
  have hempty : b.list.isEmpty = true ↔ b.items = [] := by
    rw [Bucket.list, KeyList.over_isEmpty (List.nodup_cons.mp hcells).1, List.map_eq_nil_iff]
  simp only [LFUCache.delIfEmpty, hderef, ok_bind, hvalue, hempty] at hok
  by_cases hitems : b.items = []
  · rw [if_pos hitems] at hok
    have hfreqs := LFUCache.del_live hok
    have hkeys : c'.keyNodes = c.keyNodes.free b.sentinel := by
      have hlist : b.list = .ofNodes b.freq b.sentinel [] := by
        rw [Bucket.list, hitems, List.map_nil]
      have hsentinel : c.keyNodes.Linked [b.sentinel] := by
        have hl := hc.lists b hb
        rwa [Bucket.cells, hitems] at hl
      simp only [LFUCache.del, bind_eq_ok] at hok
      obtain ⟨_, -, _, -, h₁, h₁ok, _, -, _, -, h₂, h₂ok, m, hm, keyNodes, hdestory, _, -, hok⟩ :=
        hok
      cases hok
      -- the links have changed, the value of the bucket has not
      have hkept : h₂.valueOf b.node = some b.list := by
        rw [setPreIfAny_valueOf _ h₂ok, setNext_valueOf _ h₁ok, hc.values b hb]
      obtain ⟨m', hderef', -, hm'⟩ := deref_value hkept
      cases hderef'.symm.trans hm
      rw [hm', hlist, Rep.destory_ok b.freq hc.keyBounded hsentinel] at hdestory
      cases hdestory
      rfl
    rw [pruned, if_pos hitems]
    change Exact c' (before ++ [b₀] ++ after) loose
    rw [← List.append_cons]
    have hheld : (held (before ++ b₀ :: b :: after) loose).Perm
        (held (before ++ b₀ :: after) loose) := by
      refine ((hperm.flatMap_right _).append_right _).trans ?_
      rw [List.flatMap_cons, hitems]
      exact .refl _
    refine ⟨fun a ha => ?_, fun a ha => ?_⟩
    · rw [hfreqs] at ha
      have hmem := he.buckets a ha.1
      rw [(hperm.map _).mem_iff, List.map_cons, List.mem_cons] at hmem
      exact hmem.resolve_left ha.2
    · rw [hkeys, Heap.live_free] at ha
      have hmem := he.keys a ha.1
      rw [((hperm.map _).append (hheld.map _)).mem_iff, List.map_cons, List.cons_append,
        List.mem_cons] at hmem
      exact hmem.resolve_left ha.2
  · rw [if_neg hitems] at hok
    cases hok
    rw [pruned, if_neg hitems]
    simpa only [List.append_assoc, List.cons_append, List.nil_append] using he

theorem with_maps (he : Exact c bs loose) (kmap fmap : PtrMap) :
    Exact { c with kmap := kmap, fmap := fmap } bs loose :=
  ⟨he.buckets, he.keys⟩

/-- addfreq on a key node of a bucket behind the head. -/
theorem addfreq {newer older : List Item}
    (he : Exact c (before ++ b₀ :: { b with items := newer ++ x :: older } :: after) loose)
    (hc : Rep c (before ++ b₀ :: { b with items := newer ++ x :: older } :: after) loose)
    (hok : c.addfreq (some x.node) (some b.node) = .ok c') :
    ∃ bs', Rep c' bs' loose ∧ Exact c' bs' loose := by
  have hb : ({ b with items := newer ++ x :: older } : Bucket) ∈
      before ++ b₀ :: { b with items := newer ++ x :: older } :: after :=
    List.mem_append_right _ (List.mem_cons_of_mem _ List.mem_cons_self)
  have hfreq : b.freq < intMax := by
    by_contra hover
    cases (hc.addfreq_overflow hb hover (some x.node)).symm.trans hok
  have hc' :
      Rep c ((before ++ [b₀]) ++ { b with items := newer ++ x :: older } :: after) loose := by
    rwa [← List.append_cons]
  have he' :
      Exact c ((before ++ [b₀]) ++ { b with items := newer ++ x :: older } :: after) loose := by
    rwa [← List.append_cons]
  obtain ⟨c₁, nb, rest, hnext, hnb, hrep₁, -⟩ := hc'.nextBucket_ok hfreq
  have hexact₁ := he'.nextBucket hc' hnb hrep₁ hnext
  obtain ⟨n, hderef, -, -⟩ := deref_value (hrep₁.contents x
    ((held_mid _ _ _ _).mem_iff.mpr (List.mem_append_left _ (mem_mid.mpr (.inl rfl)))))
  have hne : some b.node ≠ c₁.head := by
    intro heq
    have hnodup := hrep₁.nodup
    have hhead : b.node ∈ (before ++ [b₀]).map Bucket.node := by
      refine List.mem_of_mem_head? (Option.mem_def.mpr ?_)
      rw [heq, hrep₁.head]
      cases before with
      | nil => rfl
      | cons b₁ _ => rfl
    rw [List.map_append] at hnodup
    exact (List.nodup_append.mp hnodup).2.2 _ hhead _ List.mem_cons_self rfl
  have hrep₂ := hrep₁.with_maps c₁.kmap (c₁.fmap.insert n.value.key (some nb.node))
  have hexact₂ := hexact₁.with_maps c₁.kmap (c₁.fmap.insert n.value.key (some nb.node))
  obtain ⟨c₃, hdel, hrep₃, -⟩ := hrep₂.list_del
  have hexact₃ := hexact₂.list_del hdel
  rw [List.append_cons] at hrep₃ hexact₃
  obtain ⟨c₄, hadd, hrep₄, -⟩ := hrep₃.list_add
  have hexact₄ := hexact₃.list_add hadd
  rw [← List.append_cons, ← List.append_cons] at hrep₄ hexact₄
  obtain ⟨c₅, hprune, hrep₅, -⟩ := hrep₄.delIfEmpty_ok
  simp only [LFUCache.addfreq, hnext, ok_bind, hderef, if_pos hne, ne_eq] at hok
  rw [hdel, ok_bind, hadd, ok_bind] at hok
  cases hprune.symm.trans hok
  exact ⟨_, hrep₅, hexact₄.delIfEmpty hrep₄ hok⟩

/-- addfreq on a new key node. -/
theorem addfreq_head (he : Exact c (b :: after) (x :: loose)) (hc : Rep c (b :: after) (x :: loose))
    (hok : c.addfreq (some x.node) (some b.node) = .ok c') :
    ∃ bs', Rep c' bs' loose ∧ Exact c' bs' loose := by
  have hfreq : b.freq < intMax := by
    by_contra hover
    cases (hc.addfreq_overflow List.mem_cons_self hover (some x.node)).symm.trans hok
  have hc' : Rep c ([] ++ b :: after) (x :: loose) := hc
  have he' : Exact c ([] ++ b :: after) (x :: loose) := he
  obtain ⟨c₁, nb, rest, hnext, hnb, hrep₁, -⟩ := hc'.nextBucket_ok hfreq
  have hexact₁ := he'.nextBucket hc' hnb hrep₁ hnext
  obtain ⟨n, hderef, -, -⟩ := deref_value (hrep₁.contents x
    (List.mem_append_right _ List.mem_cons_self))
  have heq : ¬ some b.node ≠ c₁.head := fun hne => hne hrep₁.head.symm
  have hrep₂ := hrep₁.with_maps c₁.kmap (c₁.fmap.insert n.value.key (some nb.node))
  have hexact₂ := hexact₁.with_maps c₁.kmap (c₁.fmap.insert n.value.key (some nb.node))
  rw [List.append_cons] at hrep₂ hexact₂
  obtain ⟨c₃, hadd, hrep₃, -⟩ := hrep₂.list_add
  simp only [LFUCache.addfreq, hnext, ok_bind, hderef] at hok
  rw [if_neg heq] at hok
  cases hadd.symm.trans hok
  exact ⟨_, hrep₃, hexact₂.list_add hadd⟩

/-- The eviction in set deletes one key node. -/
theorem evict {newer : List Item}
    (he : Exact c (b₀ :: { b with items := newer ++ [x] } :: after) loose)
    (hc : Rep c (b₀ :: { b with items := newer ++ [x] } :: after) loose) (hok : c.evict = .ok c') :
    ∃ bs', Rep c' bs' loose ∧ Exact c' bs' loose := by
  obtain ⟨hnext, n, hderef, hlast⟩ := hc.last_of_first
  have hc' : Rep c ([b₀] ++ { b with items := newer ++ x :: [] } :: after) loose := hc
  have he' : Exact c ([b₀] ++ { b with items := newer ++ x :: [] } :: after) loose := he
  obtain ⟨c₁, hdel, hrep₁, -⟩ := hc'.list_del
  have hexact₁ := he'.list_del hdel
  obtain ⟨k, hkey, -, -⟩ := deref_value (hrep₁.contents x
    (List.mem_append_right _ List.mem_cons_self))
  obtain ⟨keyNodes, hdelete, hrep₂⟩ := hrep₁.delete_key
  have hexact₂ := hexact₁.delete_key hdelete
  rw [List.append_nil] at hrep₂ hexact₂
  have hrep₃ : Rep _ ([] ++ b₀ :: { b with items := newer } :: after) loose :=
    hrep₂.with_maps (c₁.kmap.erase k.value.key) (c₁.fmap.erase k.value.key)
  have hexact₃ : Exact _ ([] ++ b₀ :: { b with items := newer } :: after) loose :=
    hexact₂.with_maps (c₁.kmap.erase k.value.key) (c₁.fmap.erase k.value.key)
  obtain ⟨c₄, hprune, hrep₄, -⟩ := hrep₃.delIfEmpty_ok
  simp only [LFUCache.evict, hnext, ok_bind, hderef, hlast] at hok
  rw [hdel, ok_bind, hkey, ok_bind, hdelete, ok_bind] at hok
  cases hprune.symm.trans hok
  exact ⟨_, hrep₄, hexact₃.delIfEmpty hrep₃ hok⟩

end Exact

namespace Sound

variable {c c' : LFUCache} {bs : List Bucket}

theorem exact (hc : Sound c bs) (hall : c.AllReachable) :
    ∃ b₀ : Bucket, Rep c (b₀ :: bs) [] ∧ Exact c (b₀ :: bs) [] := by
  obtain ⟨b₀, -, -, hrep⟩ := hc.rep
  exact ⟨b₀, hrep, hrep.allReachable_iff.mp hall⟩

/-- A key that is found is moved by addfreq. -/
theorem get_reachable (hc : Sound c bs) (hall : c.AllReachable) {k v out : Bytes} {found : Bool}
    (hok : c.get k v = .ok (found, out, c')) : c'.AllReachable := by
  by_cases hk : k ∈ c.kmap
  · obtain ⟨before, b, newer, x, older, after, rfl, -, hkmap, hfmap⟩ := hc.current hk
    obtain ⟨b₀, hrep, hexact⟩ := hc.exact hall
    have hcapacity : c.capacity ≠ 0 := by
      rw [hc.capacity]
      decide
    simp only [LFUCache.get, if_neg hcapacity, hfmap, PtrMap.subscript, hkmap, bind_eq_ok] at hok
    obtain ⟨n, -, c₁, hadd, hok⟩ := hok
    cases hok
    obtain ⟨front, last, hfront⟩ : ∃ front last, b₀ :: before = front ++ [last] :=
      ⟨(b₀ :: before).dropLast, (b₀ :: before).getLast (List.cons_ne_nil _ _),
        (List.dropLast_append_getLast _).symm⟩
    rw [← List.cons_append, hfront, List.append_assoc, List.singleton_append] at hrep hexact
    obtain ⟨bs', hrep', hexact'⟩ := hexact.addfreq hrep hadd
    exact hrep'.allReachable_iff.mpr hexact'
  · cases (hc.get_missing hk v).symm.trans hok
    exact hall

theorem enter_reachable (hc : Sound c bs) (hall : c.AllReachable) {k v : Bytes}
    (hok : c.enter k v = .ok c') : c'.AllReachable := by
  obtain ⟨b₀, hrep, hexact⟩ := hc.exact hall
  obtain ⟨c₁, hadd, hok⟩ := bind_eq_ok.mp hok
  cases hok
  have hhead : c.head = some b₀.node := hrep.head
  have hadd' : ({ c with keyNodes := c.keyNodes.alloc ⟨k, v⟩ } : LFUCache).addfreq
      (some (⟨⟨k, v⟩, c.keyNodes.fresh⟩ : Item).node) (some b₀.node) = .ok c₁ := by
    rw [← hhead]
    exact hadd
  obtain ⟨bs', hrep', hexact'⟩ := (hexact.new_key ⟨k, v⟩).addfreq_head (hrep.new_key ⟨k, v⟩) hadd'
  exact (hrep'.with_maps _ _).allReachable_iff.mpr (hexact'.with_maps _ _)

theorem evict_reachable (hc : Sound c bs) (hall : c.AllReachable) (hbs : bs ≠ [])
    (hok : c.evict = .ok c') : c'.AllReachable := by
  obtain ⟨b₀, hrep, hexact⟩ := hc.exact hall
  obtain ⟨b, after, rfl⟩ := List.exists_cons_of_ne_nil hbs
  obtain ⟨newer, x, hitems⟩ : ∃ newer x, b.items = newer ++ [x] :=
    ⟨_, _, (List.dropLast_append_getLast (hc.shaped.nonempty b List.mem_cons_self)).symm⟩
  have hb : b = { b with items := newer ++ [x] } := by rw [← hitems]
  rw [hb] at hexact hrep
  obtain ⟨bs', hrep', hexact'⟩ := hexact.evict hrep hok
  exact hrep'.allReachable_iff.mpr hexact'

theorem set_reachable (hc : Sound c bs) (hall : c.AllReachable) {k v : Bytes}
    (hok : c.set k v = .ok c') : c'.AllReachable := by
  have hcapacity : c.capacity ≠ 0 := by
    rw [hc.capacity]
    decide
  rw [LFUCache.set, if_neg hcapacity] at hok
  obtain ⟨c₁, hroom, henter⟩ := bind_eq_ok.mp hok
  split at hroom
  · rename_i hfull
    obtain ⟨c₁', bs₁, x, hevict, -, -, hc₁, -⟩ := hc.evict_ok (hc.ne_nil_of_full hfull)
    cases hevict.symm.trans hroom
    exact hc₁.enter_reachable (hc.evict_reachable hall (hc.ne_nil_of_full hfull) hroom) henter
  · cases hroom
    exact hc.enter_reachable hall henter

theorem exec_reachable (hc : Sound c bs) (hall : c.AllReachable) {call : CacheCall}
    (hok : c.exec call = .ok c') : c'.AllReachable := by
  cases call with
  | get k v =>
      obtain ⟨⟨found, out, c₁⟩, hget, hok⟩ := bind_eq_ok.mp hok
      cases hok
      exact hc.get_reachable hall hget
  | set k v => exact hc.set_reachable hall hok

theorem init_reachable (hc : Sound c bs) (hbs : bs = []) (hok : LFUCache.init = .ok c) :
    c.AllReachable := by
  obtain ⟨b₀, -, hitems, hrep⟩ := hc.rep
  subst hbs
  simp only [LFUCache.init, KeyList.init_ok, ok_bind, bind_eq_ok] at hok
  obtain ⟨h₁, h₁ok, h₂, h₂ok, hok⟩ := hok
  cases hok
  have hempty {α : Type} : (Heap.empty : Heap α).live = ∅ :=
    Set.ext fun a => ⟨fun ha => ha rfl, nofun⟩
  have hfreqs : h₂.live = {0} := by
    rw [setNext_live h₂ok, setValue_live h₁ok, Heap.live_alloc, hempty]
    exact insert_empty_eq 0
  have hkeys : ((Heap.empty.alloc (⟨[], []⟩ : Key)).setNext 0 none).live = {0} := by
    refine (Heap.live_modify _ _).trans ?_
    rw [Heap.live_alloc, hempty]
    exact insert_empty_eq 0
  have hnode : b₀.node ∈ h₂.live := hrep.linked.mem_cells List.mem_cons_self
  have hsentinel : b₀.sentinel ∈ ((Heap.empty.alloc (⟨[], []⟩ : Key)).setNext 0 none).live :=
    (hrep.lists b₀ List.mem_cons_self).mem_cells List.mem_cons_self
  rw [hfreqs] at hnode
  rw [hkeys] at hsentinel
  refine hrep.allReachable_iff.mpr ⟨fun a ha => ?_, fun a ha => ?_⟩
  · rw [hfreqs] at ha
    exact List.mem_singleton.mpr (Eq.trans ha (Eq.symm hnode))
  · change a ∈ ((Heap.empty.alloc (⟨[], []⟩ : Key)).setNext 0 none).live at ha
    rw [hkeys] at ha
    exact List.mem_append_left _ (List.mem_singleton.mpr (Eq.trans ha (Eq.symm hsentinel)))

end Sound

namespace Rep

variable {c : LFUCache} {bs : List Bucket} {b : Bucket}

theorem apart_behind (hc : Rep c (b :: bs) []) : Apart bs [] := by
  refine hc.apart.sublist ?_
  refine (List.sublist_cons_self _ _).append (List.Sublist.map _ ?_)
  exact (List.sublist_append_right b.items (bs.flatMap Bucket.items)).append (.refl _)

/-- A round of the destructor: the first bucket goes with all its key nodes. -/
theorem destroy_first (hc : Rep c (b :: bs) []) (fuel : Nat) :
    ∃ c', LFUCache.destroyLoop (fuel + 1) c = LFUCache.destroyLoop fuel c' ∧ Rep c' bs [] ∧
      c'.freqNodes.live = c.freqNodes.live \ {b.node} ∧
      c'.keyNodes.live = c.keyNodes.live \ {a | a ∈ b.cells} := by
  have hhead : c.head = some b.node := hc.head
  have hnext := getNext_ok hc.linked.next_head
  obtain ⟨n, hderef, hcell, hvalue⟩ := hc.deref_bucket List.mem_cons_self
  have hapart : Apart ([] ++ b :: bs) [] := hc.apart
  have hdestory : b.list.destory c.keyNodes = .ok (c.keyNodes.freeAll b.cells) :=
    KeyList.destory_all hc.keyBounded (hc.lists b List.mem_cons_self) hapart.cells_nodup
  have hthere : c.freqNodes.cells b.node ≠ none := by
    rw [hcell]
    exact Option.some_ne_none n
  obtain ⟨hb, hnodup⟩ := List.nodup_cons.mp hc.nodup
  have hothers {b' : Bucket} (hb' : b' ∈ bs) : b'.node ≠ b.node := fun heq =>
    hb (heq ▸ List.mem_map_of_mem hb')
  refine ⟨{ c with
    head := (bs.map Bucket.node).head?
    keyNodes := c.keyNodes.freeAll b.cells
    freqNodes := c.freqNodes.free b.node }, ?_, ⟨rfl, ?_, hnodup, fun b' hb' => ?_,
      fun b' hb' => ?_, fun x hx => ?_, hc.apart_behind, hc.freqBounded.free _,
      hc.keyBounded.freeAll _⟩, Heap.live_free _, Heap.live_freeAll _⟩
  · have hne : c.head ≠ none := by
      rw [hhead]
      exact Option.some_ne_none _
    simp only [LFUCache.destroyLoop, if_neg hne]
    simp only [hhead, hnext, ok_bind, hderef, hvalue, hdestory, delete_ok hthere]
  · refine hc.linked.of_cons.of_cells fun a ha => Heap.free_of_ne ?_
    rintro rfl
    exact hb ha
  · rw [Heap.valueOf, Heap.free_of_ne (hothers hb')]
    exact hc.values b' (List.mem_cons_of_mem _ hb')
  · exact (hc.lists b' (List.mem_cons_of_mem _ hb')).of_cells fun a ha =>
      Heap.freeAll_of_notMem (hapart.cells_disjoint hb' ha)
  · rw [held, List.append_nil] at hx
    obtain ⟨b', hb', hx'⟩ := List.mem_flatMap.mp hx
    have hcells : x.node ∈ b'.cells := List.mem_cons_of_mem _ (List.mem_map_of_mem hx')
    rw [Heap.valueOf, Heap.freeAll_of_notMem (hapart.cells_disjoint hb' hcells)]
    refine hc.contents x (List.mem_append_left _ (List.mem_flatMap.mpr ⟨b', ?_, hx'⟩))
    exact List.mem_cons_of_mem _ hb'

/-- The destructor deletes the nodes of the picture, each once. -/
theorem destroy_ok (hc : Rep c bs []) {fuel : Nat} (hfuel : bs.length ≤ fuel) :
    ∃ c', LFUCache.destroyLoop fuel c = .ok c' ∧
      c'.freqNodes.live = c.freqNodes.live \ {a | a ∈ bs.map Bucket.node} ∧
      c'.keyNodes.live = c.keyNodes.live \ {a | a ∈ bs.flatMap Bucket.cells} := by
  induction bs generalizing c fuel with
  | nil =>
      have hhead : c.head = none := hc.head
      have hdone : LFUCache.destroyLoop fuel c = .ok c := by
        cases fuel with
        | zero => exact if_pos hhead
        | succ fuel => exact if_pos hhead
      have hnone (s : Set Nat) : s = s \ {a | a ∈ ([] : List Nat)} :=
        Set.ext fun a => ⟨fun ha => ⟨ha, List.not_mem_nil⟩, fun ha => ha.1⟩
      exact ⟨c, hdone, hnone _, hnone _⟩
  | cons b bs ih =>
      cases fuel with
      | zero => exact absurd hfuel (Nat.not_succ_le_zero _)
      | succ fuel =>
          obtain ⟨c₁, hstep, hrep, hfreqs, hkeys⟩ := hc.destroy_first fuel
          obtain ⟨c', hloop, hfreqs', hkeys'⟩ := ih hrep (Nat.le_of_succ_le_succ hfuel)
          refine ⟨c', hstep.trans hloop, ?_, ?_⟩
          · rw [hfreqs', hfreqs]
            apply Set.ext
            intro a
            simp only [Set.mem_sdiff, Set.mem_singleton_iff, Set.mem_ofPred_eq, List.map_cons,
              List.mem_cons, not_or, and_assoc]
          · rw [hkeys', hkeys]
            apply Set.ext
            intro a
            simp only [Set.mem_sdiff, Set.mem_ofPred_eq, List.flatMap_cons, List.mem_append, not_or,
              and_assoc]

end Rep

namespace LFUCache

/-- No node is lost and none is deleted twice: between all calls every node that is
there can be reached, and the destructor after any run deletes what is left, without
ever going through a deleted node, until nothing is. -/
theorem nodes_accounted (calls : List CacheCall) : ∃ c₀, init = .ok c₀ ∧
    Always exec AllReachable c₀ calls ∧
    ∀ c, run exec c₀ calls = .ok c →
      ∃ c', c.destroy = .ok c' ∧ c'.freqNodes.live = ∅ ∧ c'.keyNodes.live = ∅ := by
  obtain ⟨c₀, hinit, hc₀, -⟩ := Sound.init_ok
  have hstart : (∃ bs, Sound c₀ bs) ∧ c₀.AllReachable :=
    ⟨⟨[], hc₀⟩, hc₀.init_reachable rfl hinit⟩
  have hstep (c : LFUCache) (call : CacheCall) (c' : LFUCache)
      (hc : (∃ bs, Sound c bs) ∧ c.AllReachable) (hok : c.exec call = .ok c') :
      (∃ bs, Sound c' bs) ∧ c'.AllReachable := by
    obtain ⟨⟨bs, hsound⟩, hall⟩ := hc
    exact ⟨(hsound.exec_sound hok).2, hsound.exec_reachable hall hok⟩
  refine ⟨c₀, hinit, always_of_respects (fun _ hc => hc.2)
    (fun c call c' hc _ hok => hstep c call c' hc hok) hstart (respects_true c₀ calls), ?_⟩
  intro c hrun
  obtain ⟨⟨bs, hsound⟩, hall⟩ := run_invariant_of_step hstep hstart hrun
  obtain ⟨b₀, hrep, hexact⟩ := hsound.exact hall
  have hlength := hrep.linked.length_le hrep.freqBounded hrep.nodup
  rw [List.length_map] at hlength
  obtain ⟨c', hdestroy, hfreqs, hkeys⟩ := hrep.destroy_ok hlength
  refine ⟨c', hdestroy, ?_, ?_⟩
  · rw [hfreqs]
    exact Set.sdiff_eq_empty.mpr hexact.buckets
  · rw [hkeys]
    refine Set.sdiff_eq_empty.mpr fun a ha => ?_
    have hmem := hexact.keys a ha
    rw [held, List.append_nil, ← (cells_perm _).mem_iff] at hmem
    exact hmem

end LFUCache
end TAlib
