import TAlib.Cache.Promotion

/-!
What holds of the cache between calls, with keys set more than once allowed. The
buckets have items and increasing frequencies; the two maps have the same keys,
and what they say of a key is an item with that key and the bucket that holds
it. An older item of the same key may still be there, which neither map knows.
-/

namespace TAlib

open Foundation

/-- The items in the order of the buckets, each with its use count. -/
def counted (bs : List Bucket) : List (Nat × Item) :=
  bs.flatMap fun b => b.items.map fun x => (b.freq, x)

def Ascending (bs : List Bucket) : Prop := bs.Pairwise fun b b' => b.freq < b'.freq

/-- The buckets behind the head. -/
structure Shaped (bs : List Bucket) : Prop where
  nonempty : ∀ b ∈ bs, b.items ≠ []
  positive : ∀ b ∈ bs, 0 < b.freq
  ascending : Ascending bs

/-- An item has gone from its bucket to the next. -/
inductive Promoted (f : Nat) (x : Item) : Bucket → List Bucket → List Bucket → Prop where
  | mk (before : List Bucket) (b : Bucket) (newer older : List Item) (after : List Bucket)
      (nb : Bucket) (rest : List Bucket) (hfreq : b.freq = f)
      (hnb : NextBucket (b.freq + 1) after nb rest) :
      Promoted f x nb (before ++ { b with items := newer ++ x :: older } :: after)
        (before ++ pruned { b with items := newer ++ older } ++ nb.push x :: rest)

/-- A new item has come to the bucket of frequency 1. -/
inductive Entered (x : Item) : Bucket → List Bucket → List Bucket → Prop where
  | mk (bs : List Bucket) (nb : Bucket) (rest : List Bucket) (hnb : NextBucket 1 bs nb rest) :
      Entered x nb bs (nb.push x :: rest)

/-- The oldest item of the first bucket has gone. -/
inductive Evicted (x : Item) : List Bucket → List Bucket → Prop where
  | mk (b : Bucket) (newer : List Item) (after : List Bucket) :
      Evicted x ({ b with items := newer ++ [x] } :: after)
        (pruned { b with items := newer } ++ after)

section Counted

variable {bs bs' before after rest : List Bucket} {b nb : Bucket} {f : Nat} {x : Item}

theorem counted_append (bs bs' : List Bucket) : counted (bs ++ bs') = counted bs ++ counted bs' :=
  List.flatMap_append

theorem counted_cons (b : Bucket) (bs : List Bucket) :
    counted (b :: bs) = b.items.map (fun x => (b.freq, x)) ++ counted bs := List.flatMap_cons

theorem mem_counted {e : Nat × Item} :
    e ∈ counted bs ↔ ∃ b ∈ bs, e.1 = b.freq ∧ e.2 ∈ b.items := by
  simp only [counted, List.mem_flatMap, List.mem_map]
  constructor
  · rintro ⟨b, hb, x, hx, rfl⟩
    exact ⟨b, hb, rfl, hx⟩
  · rintro ⟨b, hb, hfreq, hx⟩
    exact ⟨b, hb, e.2, hx, by rw [← hfreq]⟩

theorem counted_pruned (b : Bucket) : counted (pruned b) = b.items.map fun x => (b.freq, x) := by
  by_cases hb : b.items = []
  · rw [pruned, if_pos hb, hb]
    rfl
  · rw [pruned, if_neg hb, counted_cons]
    exact List.append_nil _

theorem NextBucket.counted (hnb : NextBucket f after nb rest) :
    counted (nb.push x :: rest) = (f, x) :: counted after := by
  cases hnb with
  | present _ _ hfreq =>
      rw [counted_cons, counted_cons, ← hfreq]
      rfl
  | inserted _ node sentinel hfreq => rfl

theorem NextBucket.freq (hnb : NextBucket f after nb rest) : nb.freq = f := by
  cases hnb with
  | present _ _ hfreq => exact hfreq
  | inserted _ _ _ _ => rfl

theorem shaped_nil : Shaped [] := ⟨nofun, nofun, .nil⟩

theorem shaped_append : Shaped (before ++ after) ↔
    Shaped before ∧ Shaped after ∧ ∀ b ∈ before, ∀ b' ∈ after, b.freq < b'.freq := by
  constructor
  · rintro ⟨hne, hpos, hasc⟩
    obtain ⟨hbefore, hafter, hcross⟩ := List.pairwise_append.mp hasc
    rw [List.forall_mem_append] at hne hpos
    exact ⟨⟨hne.1, hpos.1, hbefore⟩, ⟨hne.2, hpos.2, hafter⟩, hcross⟩
  · rintro ⟨hbefore, hafter, hcross⟩
    exact ⟨List.forall_mem_append.mpr ⟨hbefore.nonempty, hafter.nonempty⟩,
      List.forall_mem_append.mpr ⟨hbefore.positive, hafter.positive⟩,
      List.pairwise_append.mpr ⟨hbefore.ascending, hafter.ascending, hcross⟩⟩

theorem shaped_cons : Shaped (b :: after) ↔
    b.items ≠ [] ∧ 0 < b.freq ∧ (∀ b' ∈ after, b.freq < b'.freq) ∧ Shaped after := by
  constructor
  · rintro ⟨hne, hpos, hasc⟩
    obtain ⟨hb, hafter⟩ := List.pairwise_cons.mp hasc
    rw [List.forall_mem_cons] at hne hpos
    exact ⟨hne.1, hpos.1, hb, hne.2, hpos.2, hafter⟩
  · rintro ⟨hne, hpos, hb, hafter⟩
    exact ⟨List.forall_mem_cons.mpr ⟨hne, hafter.nonempty⟩,
      List.forall_mem_cons.mpr ⟨hpos, hafter.positive⟩,
        List.pairwise_cons.mpr ⟨hb, hafter.ascending⟩⟩

theorem mem_pruned {b' : Bucket} : b' ∈ pruned b ↔ b' = b ∧ b.items ≠ [] := by
  unfold pruned
  split
  · rename_i hb
    simp only [List.not_mem_nil, hb, ne_eq, not_true_eq_false, and_false]
  · rename_i hb
    simp only [List.mem_singleton, ne_eq, hb, not_false_eq_true, and_true]

theorem pruned_shaped (hpos : 0 < b.freq) : Shaped (pruned b) := by
  unfold pruned
  split
  · exact shaped_nil
  · rename_i hb
    exact shaped_cons.mpr ⟨hb, hpos, nofun, shaped_nil⟩

/-- Buckets above a frequency stay above it and in order. -/
theorem NextBucket.shaped (hnb : NextBucket (f + 1) after nb rest) (x : Item)
    (hafter : ∀ b ∈ after, f < b.freq) (hshape : Shaped after) : Shaped (nb.push x :: rest) := by
  refine shaped_cons.mpr ⟨List.cons_ne_nil _ _, ?_, ?_⟩
  · exact Nat.lt_of_lt_of_eq (Nat.succ_pos f) hnb.freq.symm
  · show (∀ b' ∈ rest, nb.freq < b'.freq) ∧ Shaped rest
    rw [hnb.freq]
    cases hnb with
    | present _ _ hfreq =>
        obtain ⟨-, -, hnb, hrest⟩ := shaped_cons.mp hshape
        exact ⟨fun b hb => hfreq ▸ hnb b hb, hrest⟩
    | inserted _ _ _ hfreq =>
        refine ⟨fun b hb => ?_, hshape⟩
        cases after with
        | nil => cases hb
        | cons b₁ rest =>
            have hb₁ : f + 1 < b₁.freq :=
              Nat.lt_of_le_of_ne (hafter b₁ List.mem_cons_self) (hfreq b₁ rfl).symm
            cases List.mem_cons.mp hb with
            | inl heq => exact heq ▸ hb₁
            | inr hmem => exact hb₁.trans ((shaped_cons.mp hshape).2.2.1 b hmem)

theorem NextBucket.above (hnb : NextBucket f after nb rest) (x : Item) {n : Nat} (hn : n < f)
    (hafter : ∀ b ∈ after, n < b.freq) : ∀ b ∈ nb.push x :: rest, n < b.freq := by
  intro b hb
  cases List.mem_cons.mp hb with
  | inl heq =>
      rw [heq]
      exact Nat.lt_of_lt_of_eq hn hnb.freq.symm
  | inr hmem =>
      cases hnb with
      | present _ _ _ => exact hafter b (List.mem_cons_of_mem _ hmem)
      | inserted _ _ _ _ => exact hafter b hmem

theorem Promoted.shaped (hp : Promoted f x nb bs bs') (hbs : Shaped bs) : Shaped bs' := by
  cases hp with
  | mk before b newer older after _ rest hfreq hnb =>
      obtain ⟨hbefore, hbs, hcross⟩ := shaped_append.mp hbs
      obtain ⟨-, hpos, hhigh, hafter⟩ := shaped_cons.mp hbs
      simp only [List.forall_mem_cons] at hcross
      refine shaped_append.mpr ⟨shaped_append.mpr ⟨hbefore, pruned_shaped hpos, ?_⟩,
        hnb.shaped x hhigh hafter, ?_⟩
      · intro b₁ h₁ b₂ h₂
        rw [(mem_pruned.mp h₂).1]
        exact (hcross b₁ h₁).1
      · intro b₁ h₁
        cases List.mem_append.mp h₁ with
        | inl hmem =>
            exact hnb.above x (Nat.lt_succ_of_lt (hcross b₁ hmem).1) (hcross b₁ hmem).2
        | inr hmem =>
            rw [(mem_pruned.mp hmem).1]
            exact hnb.above x (Nat.lt_succ_self _) hhigh

theorem Entered.shaped (he : Entered x nb bs bs') (hbs : Shaped bs) : Shaped bs' := by
  cases he with
  | mk _ _ rest hnb => exact hnb.shaped x hbs.positive hbs

theorem Evicted.shaped (he : Evicted x bs bs') (hbs : Shaped bs) : Shaped bs' := by
  cases he with
  | mk b newer after =>
      obtain ⟨-, hpos, hhigh, hafter⟩ := shaped_cons.mp hbs
      refine shaped_append.mpr ⟨pruned_shaped hpos, hafter, ?_⟩
      intro b₁ h₁
      rw [(mem_pruned.mp h₁).1]
      exact hhigh

/-- In the order of the counts the item moves behind the others of its count. -/
theorem Promoted.counted (hp : Promoted f x nb bs bs') (hbs : Shaped bs) :
    ∃ front mid behind, TAlib.counted bs = front ++ (f, x) :: (mid ++ behind) ∧
      TAlib.counted bs' = front ++ mid ++ (f + 1, x) :: behind ∧
      (∀ e ∈ front ++ mid, e.1 ≤ f) ∧ ∀ e ∈ behind, f < e.1 := by
  cases hp with
  | mk before b newer older after _ rest hfreq hnb =>
      obtain ⟨-, hbs, hcross⟩ := shaped_append.mp hbs
      obtain ⟨-, -, hhigh, -⟩ := shaped_cons.mp hbs
      simp only [List.forall_mem_cons] at hcross
      subst hfreq
      refine ⟨TAlib.counted before ++ newer.map (fun x => (b.freq, x)),
        older.map fun x => (b.freq, x), TAlib.counted after, ?_, ?_, fun e he => ?_, fun e he => ?_⟩
      · simp only [counted_append, counted_cons, List.map_append, List.map_cons, List.append_assoc,
          List.cons_append]
      · simp only [counted_append, counted_pruned, hnb.counted, List.map_append, List.append_assoc]
      · rw [List.append_assoc, ← List.map_append] at he
        cases List.mem_append.mp he with
        | inl hmem =>
            obtain ⟨b', hb', hfreq, -⟩ := mem_counted.mp hmem
            rw [hfreq]
            exact Nat.le_of_lt (hcross b' hb').1
        | inr hmem =>
            obtain ⟨y, -, rfl⟩ := List.mem_map.mp hmem
            exact Nat.le_refl _
      · obtain ⟨b', hb', hfreq, -⟩ := mem_counted.mp he
        rw [hfreq]
        exact hhigh b' hb'

theorem Entered.counted (he : Entered x nb bs bs') :
    TAlib.counted bs' = (1, x) :: TAlib.counted bs := by
  cases he with
  | mk _ _ rest hnb => exact hnb.counted

theorem Evicted.counted (he : Evicted x bs bs') (hbs : Shaped bs) :
    ∃ f front behind, TAlib.counted bs = front ++ (f, x) :: behind ∧
      TAlib.counted bs' = front ++ behind ∧ (∀ e ∈ front, e.1 = f) ∧ ∀ e ∈ behind, f < e.1 := by
  cases he with
  | mk b newer after =>
      obtain ⟨-, -, hhigh, -⟩ := shaped_cons.mp hbs
      refine ⟨b.freq, newer.map fun x => (b.freq, x), TAlib.counted after, ?_, ?_, fun e he => ?_,
        fun e he => ?_⟩
      · simp only [counted_cons, List.map_append, List.map_cons, List.map_nil, List.append_assoc,
          List.singleton_append]
      · rw [counted_append, counted_pruned]
      · obtain ⟨y, -, rfl⟩ := List.mem_map.mp he
        rfl
      · obtain ⟨b', hb', hfreq, -⟩ := mem_counted.mp he
        rw [hfreq]
        exact hhigh b' hb'

/-- Where an item lies. -/
def Lies (bs : List Bucket) (node : Nat) (x : Item) : Prop :=
  ∃ b ∈ bs, b.node = node ∧ x ∈ b.items

theorem lies_append {n : Nat} : Lies (before ++ after) n x ↔ Lies before n x ∨ Lies after n x := by
  simp only [Lies, List.mem_append, or_and_right, exists_or]

theorem lies_cons {n : Nat} :
    Lies (b :: after) n x ↔ (b.node = n ∧ x ∈ b.items) ∨ Lies after n x := by
  simp only [Lies, List.mem_cons, or_and_right, exists_or, exists_eq_left]

theorem lies_pruned {n : Nat} : Lies (pruned b) n x ↔ b.node = n ∧ x ∈ b.items := by
  simp only [Lies, mem_pruned]
  constructor
  · rintro ⟨b', ⟨rfl, -⟩, h⟩
    exact h
  · intro h
    exact ⟨b, ⟨rfl, List.ne_nil_of_mem h.2⟩, h⟩

theorem NextBucket.lies {n : Nat} {y : Item} (hnb : NextBucket f after nb rest)
    (hy : Lies after n y) :
    Lies (nb.push x :: rest) n y := by
  cases hnb with
  | present _ _ hfreq =>
      cases lies_cons.mp hy with
      | inl h => exact lies_cons.mpr (.inl ⟨h.1, List.mem_cons_of_mem _ h.2⟩)
      | inr h => exact lies_cons.mpr (.inr h)
  | inserted _ _ _ _ => exact lies_cons.mpr (.inr hy)

theorem lies_push : Lies (nb.push x :: rest) nb.node x :=
  lies_cons.mpr (.inl ⟨rfl, List.mem_cons_self⟩)

/-- The other items stay where they are. -/
theorem Promoted.lies {n : Nat} {y : Item} (hp : Promoted f x nb bs bs') (hy : Lies bs n y)
    (hne : y ≠ x) : Lies bs' n y := by
  cases hp with
  | mk before b newer older after _ rest hfreq hnb =>
      rw [lies_append, lies_append, lies_pruned]
      rw [lies_append, lies_cons] at hy
      cases hy with
      | inl h => exact .inl (.inl h)
      | inr h =>
          cases h with
          | inl h =>
              refine .inl (.inr ⟨h.1, ?_⟩)
              cases mem_mid.mp h.2 with
              | inl heq => exact absurd heq hne
              | inr hmem => exact hmem
          | inr h => exact .inr (hnb.lies h)

theorem Promoted.lies_self (hp : Promoted f x nb bs bs') : Lies bs' nb.node x := by
  cases hp with
  | mk before b newer older after _ rest hfreq hnb => exact lies_append.mpr (.inr lies_push)

theorem Entered.lies {n : Nat} {y : Item} (he : Entered x nb bs bs') (hy : Lies bs n y) :
    Lies bs' n y := by
  cases he with
  | mk _ _ rest hnb => exact hnb.lies hy

theorem Entered.lies_self (he : Entered x nb bs bs') : Lies bs' nb.node x := by
  cases he with
  | mk _ _ rest hnb => exact lies_push

theorem Evicted.lies {n : Nat} {y : Item} (he : Evicted x bs bs') (hy : Lies bs n y)
    (hne : y ≠ x) : Lies bs' n y := by
  cases he with
  | mk b newer after =>
      rw [lies_append, lies_pruned]
      cases lies_cons.mp hy with
      | inl h =>
          refine .inl ⟨h.1, ?_⟩
          cases List.mem_append.mp h.2 with
          | inl hmem => exact hmem
          | inr hmem => exact absurd (List.mem_singleton.mp hmem) hne
      | inr h => exact .inr h

end Counted

/-- The maps know the same keys, and for each of them an item and its bucket. -/
structure Tables (kmap fmap : PtrMap) (bs : List Bucket) : Prop where
  sameKeys : fmap.keys = kmap.keys
  entries : ∀ k p, kmap.lookup k = some p → ∃ n x, Lies bs n x ∧ x.key = k ∧ p = some x.node ∧
    fmap.lookup k = some (some n)

theorem Tables.insert {kmap fmap : PtrMap} {bs bs' : List Bucket} (ht : Tables kmap fmap bs)
    {x : Item} {n : Nat} (hothers : ∀ m y, Lies bs m y → y.key ≠ x.key → Lies bs' m y)
    (hx : Lies bs' n x) :
    Tables (kmap.insert x.key (some x.node)) (fmap.insert x.key (some n)) bs' := by
  refine ⟨Finset.ext fun k => ?_, fun k p hk => ?_⟩
  · rw [Finmap.mem_keys, Finmap.mem_keys, Finmap.mem_insert, Finmap.mem_insert, ← Finmap.mem_keys,
      ht.sameKeys, Finmap.mem_keys]
  · by_cases heq : k = x.key
    · subst heq
      rw [Finmap.lookup_insert] at hk
      exact ⟨n, x, hx, rfl, (Option.some.inj hk).symm, Finmap.lookup_insert fmap⟩
    · rw [Finmap.lookup_insert_of_ne _ heq] at hk
      obtain ⟨m, y, hy, rfl, rfl, hm⟩ := ht.entries k p hk
      exact ⟨m, y, hothers m y hy heq, rfl, rfl, (Finmap.lookup_insert_of_ne _ heq).trans hm⟩

theorem Tables.erase {kmap fmap : PtrMap} {bs bs' : List Bucket} (ht : Tables kmap fmap bs)
    {k : Bytes} (hothers : ∀ m y, Lies bs m y → y.key ≠ k → Lies bs' m y) :
    Tables (kmap.erase k) (fmap.erase k) bs' := by
  refine ⟨?_, fun k' p hk => ?_⟩
  · rw [Finmap.keys_erase, Finmap.keys_erase, ht.sameKeys]
  · have hne : k' ≠ k := by
      rintro rfl
      rw [Finmap.lookup_erase] at hk
      cases hk
    rw [Finmap.lookup_erase_ne hne] at hk
    obtain ⟨m, y, hy, rfl, rfl, hm⟩ := ht.entries k' p hk
    exact ⟨m, y, hothers m y hy hne, rfl, rfl, (Finmap.lookup_erase_ne hne).trans hm⟩

/-- What holds of the cache between calls. -/
structure Sound (c : LFUCache) (bs : List Bucket) : Prop where
  rep : ∃ b₀ : Bucket, b₀.freq = 0 ∧ b₀.items = [] ∧ Rep c (b₀ :: bs) []
  shaped : Shaped bs
  tables : Tables c.kmap c.fmap bs
  capacity : c.capacity = 100

/-- What set does first: the map of the keys and the buckets before the new item
is entered. -/
inductive MadeRoom (c : LFUCache) (bs : List Bucket) : PtrMap → List Bucket → Prop where
  | evicted (x : Item) (bs₁ : List Bucket) (hfull : c.isFull = true)
      (hvictim : c.victim = .ok x.key) (he : Evicted x bs bs₁) :
      MadeRoom c bs (c.kmap.erase x.key) bs₁
  | kept (hfull : c.isFull = false) : MadeRoom c bs c.kmap bs

namespace Sound

variable {c : LFUCache} {bs : List Bucket}

theorem init_ok : ∃ c, LFUCache.init = .ok c ∧ Sound c [] ∧ c.kmap = ∅ := by
  refine ⟨⟨(Heap.empty.alloc ⟨[], []⟩).setNext 0 none,
    ((Heap.empty.alloc ⟨0, none, none⟩).setValue 0 (.ofNodes 0 0 [])).setNext 0 none, some 0, 100,
      ∅, ∅⟩,
    rfl, ⟨⟨⟨0, 0, 0, []⟩, rfl, rfl, ?_⟩, shaped_nil, ⟨rfl, nofun⟩, rfl⟩, rfl⟩
  have hempty {α : Type} : (Heap.empty : Heap α).Bounded := fun _ _ => rfl
  refine ⟨rfl, rfl, List.nodup_singleton 0, ?_, ?_, nofun, List.nodup_singleton 0,
    ((hempty.alloc _).modify _ _).modify _ _, (hempty.alloc _).modify _ _⟩
  · exact List.forall_mem_singleton.mpr rfl
  · exact List.forall_mem_singleton.mpr rfl

theorem fmap_lookup_eq_none (hc : Sound c bs) (k : Bytes) :
    c.fmap.lookup k = none ↔ k ∉ c.kmap := by
  rw [Finmap.lookup_eq_none, ← Finmap.mem_keys, hc.tables.sameKeys,
    Finmap.mem_keys]

/-- A key that is not cached is not found, and nothing changes. -/
theorem get_missing (hc : Sound c bs) {k : Bytes} (hk : k ∉ c.kmap) (v : Bytes) :
    c.get k v = .ok (false, v, c) := by
  have hcapacity : c.capacity ≠ 0 := by
    rw [hc.capacity]
    decide
  rw [LFUCache.get, if_neg hcapacity, (hc.fmap_lookup_eq_none k).mpr hk]

theorem deref_key (hc : Sound c bs) {e : Nat × Item} (he : e ∈ counted bs) :
    ∃ n, deref c.keyNodes (some e.2.node) = .ok n ∧ n.value = e.2.toKey := by
  obtain ⟨b₀, -, -, hrep⟩ := hc.rep
  obtain ⟨b, hb, -, hx⟩ := mem_counted.mp he
  obtain ⟨n, hderef, -, hvalue⟩ := deref_value (hrep.contents e.2 (List.mem_append_left _
    (List.mem_flatMap.mpr ⟨b, List.mem_cons_of_mem _ hb, hx⟩)))
  exact ⟨n, hderef, hvalue⟩

/-- The item and the bucket that the maps say of a cached key. -/
theorem current (hc : Sound c bs) {k : Bytes} (hk : k ∈ c.kmap) :
    ∃ (before : List Bucket) (b : Bucket) (newer : List Item) (x : Item) (older : List Item)
      (after : List Bucket), bs = before ++ { b with items := newer ++ x :: older } :: after ∧
        x.key = k ∧
        c.kmap.lookup k = some (some x.node) ∧ c.fmap.lookup k = some (some b.node) := by
  obtain ⟨p, hp⟩ := Finmap.mem_iff.mp hk
  obtain ⟨n, x, ⟨b, hb, rfl, hx⟩, hkey, rfl, hf⟩ := hc.tables.entries k p hp
  obtain ⟨before, after, rfl⟩ := List.append_of_mem hb
  obtain ⟨newer, older, hitems⟩ := List.append_of_mem hx
  refine ⟨before, b, newer, x, older, after, ?_, hkey, hp, hf⟩
  rw [← hitems]

/-- A get of a cached key hands out its value and promotes its item. -/
theorem get_cached (hc : Sound c bs) {k : Bytes} (hk : k ∈ c.kmap) (v : Bytes) :
    ∃ f x, (f, x) ∈ counted bs ∧ x.key = k ∧ c.kmap.lookup k = some (some x.node) ∧
      c.useCount k = .ok f ∧
      (f < intMax → ∃ c' nb bs', c.get k v = .ok (true, v ++ x.value, c') ∧
        Promoted f x nb bs bs' ∧ Sound c' bs' ∧ c'.kmap = c.kmap) ∧
      (¬ f < intMax → c.get k v = .error .overflow) := by
  obtain ⟨before, b, newer, x, older, after, rfl, hkey, hkmap, hfmap⟩ := hc.current hk
  obtain ⟨b₀, hb₀, hitems₀, hrep⟩ := hc.rep
  have hcapacity : c.capacity ≠ 0 := by
    rw [hc.capacity]
    decide
  have hx : c.keyNodes.valueOf x.node = some x.toKey := by
    refine hrep.contents x ?_
    rw [← List.cons_append, (held_mid _ _ _ _).mem_iff]
    exact List.mem_append_left _ (mem_mid.mpr (.inl rfl))
  obtain ⟨n, hderef, -, hvalue⟩ := deref_value hx
  have hget : c.get k v = (c.addfreq (some x.node) (some b.node) >>= fun c =>
      .ok (true, v ++ x.value, c)) := by
    simp only [LFUCache.get, if_neg hcapacity, hfmap, PtrMap.subscript, hkmap, hderef, ok_bind,
      hvalue]
    rfl
  have hb : ({ b with items := newer ++ x :: older } : Bucket) ∈
      b₀ :: (before ++ { b with items := newer ++ x :: older } :: after) :=
    List.mem_cons_of_mem _ (mem_mid.mpr (.inl rfl))
  refine ⟨b.freq, x, ?_, hkey, hkmap, ?_, fun hfreq => ?_, fun hfreq => ?_⟩
  · exact mem_counted.mpr ⟨_, mem_mid.mpr (.inl rfl), rfl, mem_mid.mpr (.inl rfl)⟩
  · obtain ⟨m, hderef', -, hvalue'⟩ := hrep.deref_bucket hb
    simp only at hderef'
    simp only [LFUCache.useCount, PtrMap.subscript, hfmap, hderef', ok_bind, hvalue']
    rfl
  · obtain ⟨front, last, hfront⟩ : ∃ front last, b₀ :: before = front ++ [last] :=
      ⟨(b₀ :: before).dropLast, (b₀ :: before).getLast (List.cons_ne_nil _ _),
        (List.dropLast_append_getLast _).symm⟩
    have hsplit (tail : List Bucket) : b₀ :: (before ++ tail) = front ++ last :: tail := by
      rw [← List.cons_append, hfront, List.append_assoc, List.singleton_append]
    rw [hsplit] at hrep
    obtain ⟨c', nb, rest, hadd, hnb, hrep', hcapacity', hkmap', hfmap'⟩ := hrep.addfreq_ok hfreq
    have hp : Promoted b.freq x nb (before ++ { b with items := newer ++ x :: older } :: after)
        (before ++ pruned { b with items := newer ++ older } ++ nb.push x :: rest) :=
      .mk before b newer older after nb rest rfl hnb
    refine ⟨c', nb, _, ?_, hp, ⟨⟨b₀, hb₀, hitems₀, ?_⟩, hp.shaped hc.shaped, ?_, ?_⟩, hkmap'⟩
    · rw [hget, hadd, ok_bind]
    · rw [List.append_assoc, hsplit]
      simpa only [List.append_assoc, List.cons_append] using hrep'
    · have hsame : c.kmap = c.kmap.insert x.key (some x.node) := by
        refine Finmap.ext_lookup fun k' => ?_
        by_cases heq : k' = x.key
        · rw [heq, Finmap.lookup_insert, hkey, hkmap]
        · rw [Finmap.lookup_insert_of_ne _ heq]
      rw [hkmap', hfmap', hsame]
      refine hc.tables.insert (fun m y hy hne => hp.lies hy ?_) hp.lies_self
      rintro rfl
      exact hne rfl
    · exact hcapacity'.trans hc.capacity
  · rw [hget]
    have hover := hrep.addfreq_overflow hb hfreq (some x.node)
    simp only at hover
    rw [hover]
    rfl

theorem enter_ok (hc : Sound c bs) (k v : Bytes) :
    ∃ c' nb bs' x, c.enter k v = .ok c' ∧ x.key = k ∧ x.value = v ∧ Entered x nb bs bs' ∧
      Sound c' bs' ∧ c'.kmap = c.kmap.insert k (some x.node) := by
  obtain ⟨b₀, hb₀, hitems₀, hrep⟩ := hc.rep
  let x : Item := ⟨⟨k, v⟩, c.keyNodes.fresh⟩
  have hrep' := hrep.new_key ⟨k, v⟩
  have hfreq : b₀.freq < intMax := by
    rw [hb₀]
    decide
  have hhead : c.head = some b₀.node := hrep.head
  obtain ⟨c', nb, rest, hadd, hnb, hrep₁, hcapacity, hkmap, hfmap⟩ := hrep'.addfreq_head_ok hfreq
  rw [hb₀] at hnb
  have he : Entered x nb bs (nb.push x :: rest) := .mk bs nb rest hnb
  refine ⟨{ c' with kmap := c'.kmap.insert k (some x.node) }, nb, _, x, ?_, rfl, rfl, he,
    ⟨⟨b₀, hb₀, hitems₀, hrep₁.with_maps _ c'.fmap⟩, he.shaped hc.shaped, ?_,
      hcapacity.trans hc.capacity⟩, ?_⟩
  · rw [← hhead] at hadd
    simp only at hadd
    rw [LFUCache.enter, hadd, ok_bind]
    rfl
  · show Tables (c'.kmap.insert k (some x.node)) c'.fmap _
    rw [hkmap, hfmap]
    exact hc.tables.insert (fun m y hy _ => he.lies hy) he.lies_self
  · show c'.kmap.insert k (some x.node) = _
    rw [hkmap]

theorem evict_ok (hc : Sound c bs) (hbs : bs ≠ []) :
    ∃ c' bs' x, c.evict = .ok c' ∧ c.victim = .ok x.key ∧ Evicted x bs bs' ∧ Sound c' bs' ∧
      c'.kmap = c.kmap.erase x.key := by
  obtain ⟨b₀, hb₀, hitems₀, hrep⟩ := hc.rep
  obtain ⟨b, after, rfl⟩ := List.exists_cons_of_ne_nil hbs
  obtain ⟨newer, x, hitems⟩ : ∃ newer x, b.items = newer ++ [x] :=
    ⟨_, _, (List.dropLast_append_getLast (hc.shaped.nonempty b List.mem_cons_self)).symm⟩
  obtain ⟨node, freq, sentinel, items⟩ := b
  subst hitems
  have hrep' : Rep c (b₀ :: { (⟨node, freq, sentinel, []⟩ : Bucket) with items := newer ++ [x] } ::
    after) [] := hrep
  obtain ⟨c', hevict, hrep₁, hcapacity, hkmap, hfmap⟩ := hrep'.evict_ok
  have he : Evicted x (⟨node, freq, sentinel, newer ++ [x]⟩ :: after)
      (pruned ⟨node, freq, sentinel, newer⟩ ++ after) := .mk ⟨node, freq, sentinel, []⟩ newer after
  refine ⟨c', _, x, hevict, hrep'.victim_ok, he,
    ⟨⟨b₀, hb₀, hitems₀, hrep₁⟩, he.shaped hc.shaped, ?_,
    hcapacity.trans hc.capacity⟩, hkmap⟩
  rw [hkmap, hfmap]
  refine hc.tables.erase fun m y hy hne => he.lies hy ?_
  rintro rfl
  exact hne rfl

theorem ne_nil_of_full (hc : Sound c bs) (hfull : c.isFull = true) : bs ≠ [] := by
  rintro rfl
  rw [LFUCache.isFull, decide_eq_true_iff, hc.capacity] at hfull
  have hpos : 0 < c.kmap.keys.card := by
    rw [hfull]
    decide
  obtain ⟨k, hk⟩ := Finset.card_pos.mp hpos
  obtain ⟨p, hp⟩ := Finmap.mem_iff.mp (Finmap.mem_keys.mp hk)
  obtain ⟨n, x, ⟨b, hb, -⟩, -⟩ := hc.tables.entries k p hp
  cases hb

theorem set_ok (hc : Sound c bs) (k v : Bytes) :
    ∃ kmap₁ bs₁ c' nb bs' x, c.set k v = .ok c' ∧ MadeRoom c bs kmap₁ bs₁ ∧ x.key = k ∧
      x.value = v ∧ Entered x nb bs₁ bs' ∧ Sound c' bs' ∧
      c'.kmap = kmap₁.insert k (some x.node) := by
  have hcapacity : c.capacity ≠ 0 := by
    rw [hc.capacity]
    decide
  cases hfull : c.isFull with
  | true =>
      obtain ⟨c₁, bs₁, y, hevict, hvictim, he, hc₁, hkmap₁⟩ := hc.evict_ok (hc.ne_nil_of_full hfull)
      obtain ⟨c', nb, bs', x, henter, hkey, hvalue, he', hc', hkmap'⟩ := hc₁.enter_ok k v
      refine ⟨_, bs₁, c', nb, bs', x, ?_, .evicted y bs₁ hfull hvictim he, hkey, hvalue, he', hc',
        hkmap₁ ▸ hkmap'⟩
      rw [LFUCache.set, if_neg hcapacity, hfull, if_pos rfl, hevict, ok_bind, henter]
  | false =>
      obtain ⟨c', nb, bs', x, henter, hkey, hvalue, he', hc', hkmap'⟩ := hc.enter_ok k v
      refine ⟨_, bs, c', nb, bs', x, ?_, .kept hfull, hkey, hvalue, he', hc', hkmap'⟩
      rw [LFUCache.set, if_neg hcapacity, hfull, if_neg Bool.false_ne_true, ok_bind, henter]

end Sound
end TAlib
