import TAlib.Cache.Buckets

/-!
What addfreq and the eviction in set do to the buckets. A key node that is used
goes to the front of the bucket with the next frequency, which is made when it
is not there, and a bucket that it leaves empty goes.
-/

namespace TAlib

open Foundation

/-- The bucket of frequency `f` at the front of the list, if need be a new one,
and what stands behind it. -/
inductive NextBucket (f : Nat) : List Bucket → Bucket → List Bucket → Prop where
  | present (b : Bucket) (rest : List Bucket) (hfreq : b.freq = f) : NextBucket f (b :: rest) b rest
  | inserted (after : List Bucket) (node sentinel : Nat) (hfreq : ∀ b ∈ after.head?, b.freq ≠ f) :
      NextBucket f after ⟨node, f, sentinel, []⟩ after

/-- The bucket, unless nothing is left in it. -/
def pruned (b : Bucket) : List Bucket := if b.items = [] then [] else [b]

/-- The bucket with a further item at the front. -/
def Bucket.push (b : Bucket) (x : Item) : Bucket := { b with items := x :: b.items }

namespace Rep

variable {c : LFUCache} {before after bs : List Bucket} {b b₀ : Bucket} {loose : List Item}
  {x : Item}

theorem deref_bucket (hc : Rep c bs loose) (hb : b ∈ bs) :
    ∃ n, deref c.freqNodes (some b.node) = .ok n ∧ c.freqNodes.cells b.node = some n ∧
      n.value = b.list :=
  deref_value (hc.values b hb)

theorem nextBucket_ok (hc : Rep c (before ++ b :: after) loose) (hfreq : b.freq < intMax) :
    ∃ c' nb rest, c.nextBucket (some b.node) = .ok (some nb.node, c') ∧
      NextBucket (b.freq + 1) after nb rest ∧ Rep c' (before ++ b :: nb :: rest) loose ∧
      SameMaps c c' := by
  obtain ⟨n, hderef, hcell, hvalue⟩ := hc.deref_bucket (mem_mid.mpr (.inl rfl))
  have hnext : n.next = (after.map Bucket.node).head? := by
    have hl := hc.linked
    rw [List.map_append, List.map_cons] at hl
    have hnext := hl.suffix.next_head
    rw [Heap.nextOf, hcell] at hnext
    exact Option.some.inj hnext
  have hfreq' : nextFreq n.value.freq = .ok (b.freq + 1) := by
    rw [hvalue]
    exact if_pos hfreq
  simp only [LFUCache.nextBucket, hderef, ok_bind, hfreq', hnext]
  obtain ⟨c', hinsert, hrep, hmaps⟩ := hc.insertBucket_ok (b.freq + 1)
  cases after with
  | nil =>
      refine ⟨c', _, [], ?_, .inserted [] _ _ ?_, hrep, hmaps⟩
      · exact (if_pos rfl).trans hinsert
      · intro b' hb'
        cases hb'
  | cons nb rest =>
      obtain ⟨m, hderef', -, hvalue'⟩ := hc.deref_bucket
        (List.mem_append_right before (List.mem_cons_of_mem b (List.mem_cons_self (l := rest))))
      simp only [List.map_cons, List.head?_cons, if_neg (Option.some_ne_none nb.node), hderef',
        ok_bind, hvalue']
      by_cases heq : nb.freq = b.freq + 1
      · refine ⟨c, nb, rest, ?_, .present nb rest heq, hc, ⟨rfl, rfl, rfl⟩⟩
        exact if_neg fun hne => hne heq
      · refine ⟨c', _, nb :: rest, ?_, .inserted _ _ _ ?_, hrep, hmaps⟩
        · exact (if_pos heq).trans hinsert
        · intro b' hb'
          cases Option.mem_some_iff.mp hb'
          exact heq

theorem delIfEmpty_ok (hc : Rep c (before ++ b₀ :: b :: after) loose) :
    ∃ c', c.delIfEmpty (some b.node) = .ok c' ∧ Rep c' (before ++ b₀ :: pruned b ++ after) loose ∧
      SameMaps c c' := by
  have hb : b ∈ before ++ b₀ :: b :: after :=
    List.mem_append_right _ (List.mem_cons_of_mem _ List.mem_cons_self)
  obtain ⟨n, hderef, -, hvalue⟩ := hc.deref_bucket hb
  have hsentinel : b.sentinel ∉ b.items.map Item.node := by
    have hapart := hc.apart
    rw [List.append_cons] at hapart
    exact hapart.sentinel_notMem
  have hempty : b.list.isEmpty = true ↔ b.items = [] := by
    rw [Bucket.list, KeyList.over_isEmpty hsentinel, List.map_eq_nil_iff]
  simp only [LFUCache.delIfEmpty, hderef, ok_bind, hvalue, hempty, pruned]
  by_cases hitems : b.items = []
  · rw [if_pos hitems, if_pos hitems, List.append_assoc]
    exact hc.del_ok hitems
  · rw [if_neg hitems, if_neg hitems]
    refine ⟨c, rfl, ?_, ⟨rfl, rfl, rfl⟩⟩
    simpa only [List.append_assoc, List.cons_append, List.nil_append] using hc

/-- addfreq on a key node of a bucket behind the head. -/
theorem addfreq_ok {newer older : List Item}
    (hc : Rep c (before ++ b₀ :: { b with items := newer ++ x :: older } :: after) loose)
    (hfreq : b.freq < intMax) :
    ∃ c' nb rest, c.addfreq (some x.node) (some b.node) = .ok c' ∧
      NextBucket (b.freq + 1) after nb rest ∧
      Rep c' (before ++ b₀ :: pruned { b with items := newer ++ older } ++ nb.push x :: rest)
        loose ∧
      c'.capacity = c.capacity ∧ c'.kmap = c.kmap ∧
        c'.fmap = c.fmap.insert x.key (some nb.node) := by
  have hc' :
      Rep c ((before ++ [b₀]) ++ { b with items := newer ++ x :: older } :: after) loose := by
    rwa [← List.append_cons]
  obtain ⟨c₁, nb, rest, hnext, hnb, hrep₁, hmaps₁⟩ := nextBucket_ok hc' hfreq
  obtain ⟨n, hderef, -, hvalue⟩ := deref_value (hrep₁.contents x
    ((held_mid _ _ _ _).mem_iff.mpr (List.mem_append_left _ (mem_mid.mpr (.inl rfl)))))
  have hrep₂ := hrep₁.with_maps c₁.kmap (c₁.fmap.insert n.value.key (some nb.node))
  have hne : some b.node ≠ c₁.head := by
    have hnodup := hrep₁.nodup
    rw [List.map_append, List.map_append] at hnodup
    intro heq
    have hmem : b.node ∈ before.map Bucket.node ++ [b₀].map Bucket.node := by
      rw [← List.map_append]
      refine List.mem_of_mem_head? (Option.mem_def.mpr ?_)
      rw [heq, hrep₁.head]
      cases before with
      | nil => rfl
      | cons b₁ _ => rfl
    exact (List.nodup_append.mp hnodup).2.2 _ hmem _ List.mem_cons_self rfl
  obtain ⟨c₃, hdel, hrep₃, hmaps₃⟩ := hrep₂.list_del
  rw [List.append_cons] at hrep₃
  obtain ⟨c₄, hadd, hrep₄, hmaps₄⟩ := hrep₃.list_add
  rw [← List.append_cons, ← List.append_cons] at hrep₄
  obtain ⟨c₅, hprune, hrep₅, hmaps₅⟩ := hrep₄.delIfEmpty_ok
  have hmaps := (hmaps₃.trans hmaps₄).trans hmaps₅
  refine ⟨c₅, nb, rest, ?_, hnb, hrep₅, hmaps.capacity.trans hmaps₁.capacity,
    hmaps.kmap.trans hmaps₁.kmap, hmaps.fmap.trans ?_⟩
  · simp only [LFUCache.addfreq, hnext, ok_bind, hderef, if_pos hne, ne_eq]
    rw [hdel, ok_bind, hadd, ok_bind]
    exact hprune
  · show c₁.fmap.insert n.value.key (some nb.node) = _
    rw [hvalue, hmaps₁.fmap]

/-- addfreq on a new key node. -/
theorem addfreq_head_ok (hc : Rep c (b :: after) (x :: loose)) (hfreq : b.freq < intMax) :
    ∃ c' nb rest, c.addfreq (some x.node) (some b.node) = .ok c' ∧
      NextBucket (b.freq + 1) after nb rest ∧ Rep c' (b :: nb.push x :: rest) loose ∧
      c'.capacity = c.capacity ∧ c'.kmap = c.kmap ∧ c'.fmap = c.fmap.insert x.key
      (some nb.node) := by
  have hc' : Rep c ([] ++ b :: after) (x :: loose) := hc
  obtain ⟨c₁, nb, rest, hnext, hnb, hrep₁, hmaps₁⟩ := hc'.nextBucket_ok hfreq
  obtain ⟨n, hderef, -, hvalue⟩ := deref_value (hrep₁.contents x
    (List.mem_append_right _ List.mem_cons_self))
  have hrep₂ := hrep₁.with_maps c₁.kmap (c₁.fmap.insert n.value.key (some nb.node))
  have heq : ¬ some b.node ≠ c₁.head := fun hne => hne hrep₁.head.symm
  rw [List.append_cons] at hrep₂
  obtain ⟨c₃, hadd, hrep₃, hmaps₃⟩ := hrep₂.list_add
  refine ⟨c₃, nb, rest, ?_, hnb, hrep₃, hmaps₃.capacity.trans hmaps₁.capacity,
    hmaps₃.kmap.trans hmaps₁.kmap, hmaps₃.fmap.trans ?_⟩
  · simp only [LFUCache.addfreq, hnext, ok_bind, hderef]
    rw [if_neg heq]
    exact hadd
  · show c₁.fmap.insert n.value.key (some nb.node) = _
    rw [hvalue, hmaps₁.fmap]

/-- A count at the end of its range cannot be raised. -/
theorem addfreq_overflow (hc : Rep c bs loose) (hb : b ∈ bs) (hfreq : ¬ b.freq < intMax) (p : Ptr) :
    c.addfreq p (some b.node) = .error .overflow := by
  obtain ⟨n, hderef, -, hvalue⟩ := hc.deref_bucket hb
  have hfreq' : nextFreq n.value.freq = .error .overflow := by
    rw [hvalue]
    exact if_neg hfreq
  simp only [LFUCache.addfreq, LFUCache.nextBucket, hderef, ok_bind, hfreq']
  rfl

/-- The way to the oldest item of the first bucket. -/
theorem last_of_first {newer : List Item}
    (hc : Rep c (b₀ :: { b with items := newer ++ [x] } :: after) loose) :
    getNext c.freqNodes c.head = .ok (some b.node) ∧
      ∃ n, deref c.freqNodes (some b.node) = .ok n ∧ n.value.getLast = some x.node := by
  have hhead : c.head = some b₀.node := hc.head
  constructor
  · rw [hhead]
    exact getNext_ok hc.linked.next_head
  · obtain ⟨n, hderef, -, hvalue⟩ := hc.deref_bucket (List.mem_cons_of_mem _ List.mem_cons_self)
    refine ⟨n, hderef, ?_⟩
    rw [hvalue, KeyList.getLast, Bucket.list, KeyList.ofNodes, List.map_append, ← List.cons_append,
      List.map_singleton, List.getLast?_concat]

theorem victim_ok {newer : List Item}
    (hc : Rep c (b₀ :: { b with items := newer ++ [x] } :: after) loose) :
    c.victim = .ok x.key := by
  obtain ⟨hnext, n, hderef, hlast⟩ := hc.last_of_first
  have hx : x ∈ held (b₀ :: { b with items := newer ++ [x] } :: after) loose := by
    refine List.mem_append_left _
      (List.mem_flatMap.mpr ⟨_, List.mem_cons_of_mem _ List.mem_cons_self, ?_⟩)
    exact List.mem_append_right _ List.mem_cons_self
  obtain ⟨k, hkey, -, hkvalue⟩ := deref_value (hc.contents x hx)
  simp only [LFUCache.victim, hnext, ok_bind, hderef, hlast, hkey, hkvalue]
  rfl

/-- The eviction in set takes the oldest item of the first bucket. -/
theorem evict_ok {newer : List Item}
    (hc : Rep c (b₀ :: { b with items := newer ++ [x] } :: after) loose) :
    ∃ c', c.evict = .ok c' ∧ Rep c' (b₀ :: pruned { b with items := newer } ++ after) loose ∧
      c'.capacity = c.capacity ∧ c'.kmap = c.kmap.erase x.key ∧ c'.fmap = c.fmap.erase x.key := by
  obtain ⟨hnext, n, hderef, hlast⟩ := hc.last_of_first
  have hc' : Rep c ([b₀] ++ { b with items := newer ++ x :: [] } :: after) loose := hc
  obtain ⟨c₁, hdel, hrep₁, hmaps₁⟩ := hc'.list_del
  obtain ⟨k, hkey, -, hkvalue⟩ := deref_value (hrep₁.contents x
    (List.mem_append_right _ List.mem_cons_self))
  obtain ⟨keyNodes, hdelete, hrep₂⟩ := hrep₁.delete_key
  rw [List.append_nil] at hrep₂
  have hrep₃ := hrep₂.with_maps (c₁.kmap.erase k.value.key) (c₁.fmap.erase k.value.key)
  have hrep₃' : Rep _ ([] ++ b₀ :: { b with items := newer } :: after) loose := hrep₃
  obtain ⟨c₄, hprune, hrep₄, hmaps₄⟩ := hrep₃'.delIfEmpty_ok
  refine ⟨c₄, ?_, hrep₄, hmaps₄.capacity.trans hmaps₁.capacity, hmaps₄.kmap.trans ?_,
    hmaps₄.fmap.trans ?_⟩
  · simp only [LFUCache.evict, hnext, ok_bind, hderef, hlast]
    rw [hdel, ok_bind, hkey, ok_bind, hdelete, ok_bind]
    exact hprune
  · show c₁.kmap.erase k.value.key = _
    rw [hkvalue, hmaps₁.kmap]
  · show c₁.fmap.erase k.value.key = _
    rw [hkvalue, hmaps₁.fmap]

end Rep
end TAlib
