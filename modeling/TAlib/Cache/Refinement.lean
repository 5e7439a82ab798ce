import TAlib.Cache.OneEntry
import TAlib.Foundation.LeastFrequent

/-!
The cache does what the policy says as long as set is called on keys that are
not cached. The order of the buckets, and of the items in each, is the order in
which the policy evicts; a count is an int, so a key cannot be used more often
than its range allows.
-/

namespace TAlib

open Foundation

abbrev Policy := LeastFrequent Bytes Bytes

/-- The order of the last uses, zero for a key that is not there. -/
def lastUse (s : Policy) (k : Bytes) : Nat :=
  match s.entries k with
  | none => 0
  | some e => e.last

/-- One before the other in the order of eviction, for items read from the first
bucket on: a smaller count, or the same and a later use. -/
def Ahead (s : Policy) (a b : Nat × Item) : Prop :=
  a.1 < b.1 ∨ a.1 = b.1 ∧ lastUse s b.2.key < lastUse s a.2.key

/-- The policy has these entries, in this order of eviction. -/
structure Shows (s : Policy) (l : List (Nat × Item)) : Prop where
  entries : ∀ e ∈ l, ∃ t, s.entries e.2.key = some ⟨e.2.value, e.1, t⟩ ∧ t < s.clock
  absent : ∀ k, k ∉ l.map (fun e => e.2.key) → s.entries k = none
  ordered : l.Pairwise (Ahead s)

section Shows

variable {s s' : Policy} {l low high : List (Nat × Item)} {x : Item} {n : Nat}

theorem Ahead.congr {a b : Nat × Item} (ha : s'.entries a.2.key = s.entries a.2.key)
    (hb : s'.entries b.2.key = s.entries b.2.key) (h : Ahead s a b) : Ahead s' a b := by
  unfold Ahead lastUse at *
  rw [ha, hb]
  exact h

theorem Shows.lastUse_lt (hs : Shows s l) {e : Nat × Item} (he : e ∈ l) :
    lastUse s e.2.key < s.clock := by
  obtain ⟨t, ht, hlt⟩ := hs.entries e he
  rw [lastUse, ht]
  exact hlt

theorem others_ne (hnodup : ((low ++ (n, x) :: high).map fun e => e.2.key).Nodup) :
    ∀ e ∈ low ++ high, e.2.key ≠ x.key := by
  intro e he heq
  rw [List.map_append, List.map_cons, List.nodup_middle, List.nodup_cons, ← List.map_append]
    at hnodup
  exact hnodup.1 (List.mem_map.mpr ⟨e, he, heq⟩)

theorem sublist_mid {α : Type} (low high : List α) (a : α) :
    (low ++ high).Sublist (low ++ a :: high) :=
  (List.Sublist.refl low).append (List.sublist_cons_self _ _)

/-- An item comes in between with the time of now. -/
theorem Shows.write {l : List (Nat × Item)} (hs : Shows s l) (hsub : (low ++ high).Sublist l)
    (hall : ∀ e ∈ l, e.2.key ≠ x.key → e ∈ low ++ high)
    (hother : ∀ e ∈ low ++ high, e.2.key ≠ x.key)
    (hlow : ∀ e ∈ low, e.1 < n) (hhigh : ∀ e ∈ high, n ≤ e.1) :
    Shows (s.write x.key x.value n) (low ++ (n, x) :: high) := by
  have hsame : ∀ e ∈ low ++ high,
      (s.write x.key x.value n).entries e.2.key = s.entries e.2.key :=
    fun e he => s.write_of_ne (hother e he) _ _
  have hordered : (low ++ high).Pairwise (Ahead (s.write x.key x.value n)) :=
    (hs.ordered.sublist hsub).imp_of_mem fun ha hb h => h.congr (hsame _ ha) (hsame _ hb)
  obtain ⟨hlow', hhigh', hcross⟩ := List.pairwise_append.mp hordered
  refine ⟨fun e he => ?_, fun k hk => ?_, List.pairwise_append.mpr ⟨hlow',
    List.pairwise_cons.mpr ⟨fun e he => ?_, hhigh'⟩, fun a ha b hb => ?_⟩⟩
  · cases mem_mid.mp he with
    | inl heq =>
        rw [heq]
        exact ⟨s.clock, s.write_self _ _ _, Nat.lt_succ_self _⟩
    | inr hmem =>
        obtain ⟨t, ht, hlt⟩ := hs.entries e (hsub.subset hmem)
        exact ⟨t, (hsame e hmem).trans ht, Nat.lt_succ_of_lt hlt⟩
  · rw [List.map_append, List.map_cons, mem_mid, ← List.map_append, not_or] at hk
    rw [s.write_of_ne hk.1]
    refine hs.absent k fun hmem => hk.2 ?_
    obtain ⟨e, he, rfl⟩ := List.mem_map.mp hmem
    exact List.mem_map_of_mem (f := fun e => e.2.key) (hall e he hk.1)
  · have hmem := List.mem_append_right low he
    cases Nat.lt_or_eq_of_le (hhigh e he) with
    | inl hlt => exact .inl hlt
    | inr heq =>
        refine .inr ⟨heq, ?_⟩
        simp only [lastUse, hsame e hmem, s.write_self]
        exact hs.lastUse_lt (hsub.subset hmem)
  · cases List.mem_cons.mp hb with
    | inl heq =>
        rw [heq]
        exact .inl (hlow a ha)
    | inr hmem => exact hcross a ha b hmem

/-- The policy evicts the last item of the smallest count. -/
theorem Shows.least (hs : Shows s (low ++ (n, x) :: high)) (hlow : ∀ e ∈ low, e.1 = n)
    (hhigh : ∀ e ∈ high, n < e.1) : s.Least x.key := by
  obtain ⟨t, ht, -⟩ := hs.entries (n, x) (mem_mid.mpr (.inl rfl))
  refine ⟨_, ht, fun k' e' he' hne => ?_⟩
  have hmem : k' ∈ (low ++ (n, x) :: high).map fun e => e.2.key := by
    by_contra hnot
    rw [hs.absent k' hnot] at he'
    cases he'
  obtain ⟨e, he, rfl⟩ := List.mem_map.mp hmem
  obtain ⟨t', ht', -⟩ := hs.entries e he
  cases Option.some.inj (ht'.symm.trans he')
  cases List.mem_append.mp he with
  | inl hin =>
      have hahead := (List.pairwise_append.mp hs.ordered).2.2 e hin (n, x) List.mem_cons_self
      cases hahead with
      | inl hlt => exact absurd hlt (by rw [hlow e hin]; exact Nat.lt_irrefl n)
      | inr hlast =>
          refine .inr ⟨(hlow e hin).symm, ?_⟩
          simpa only [lastUse, ht, ht'] using hlast.2
  | inr hin =>
      cases List.mem_cons.mp hin with
      | inl heq => exact absurd (congrArg (fun e => e.2.key) heq) hne
      | inr hin => exact .inl (hhigh e hin)

theorem Shows.evict (hs : Shows s (low ++ (n, x) :: high)) (hleast : s.Least x.key)
    (hnot : ∀ e ∈ low ++ high, e.2.key ≠ x.key) : Shows s.evict (low ++ high) := by
  have hsame : ∀ e ∈ low ++ high, s.evict.entries e.2.key = s.entries e.2.key :=
    fun e he => LeastFrequent.evict_of_ne hleast (hnot e he)
  have hsub := sublist_mid low high (n, x)
  refine ⟨fun e he => ?_, fun k hk => ?_, ?_⟩
  · rw [hsame e he]
    exact hs.entries e (hsub.subset he)
  · by_cases heq : k = x.key
    · rw [heq]
      exact LeastFrequent.evict_self hleast
    · rw [LeastFrequent.evict_of_ne hleast heq]
      refine hs.absent k ?_
      rw [List.map_append, List.map_cons, mem_mid, ← List.map_append, not_or]
      exact ⟨heq, hk⟩
  · exact (hs.ordered.sublist hsub).imp_of_mem fun ha hb h => h.congr (hsame _ ha) (hsame _ hb)

variable {bs bs' : List Bucket} {f : Nat} {nb : Bucket}

theorem Shows.promoted (hs : Shows s (counted bs)) (hp : Promoted f x nb bs bs') (hbs : Shaped bs)
    (hnodup : (itemKeys bs).Nodup) : Shows (s.write x.key x.value (f + 1)) (counted bs') := by
  obtain ⟨front, mid, behind, h, h', hlow, hhigh⟩ := hp.counted hbs
  rw [itemKeys, h] at hnodup
  rw [h] at hs
  have hother := others_ne hnodup
  rw [h']
  refine hs.write ?_ (fun e he hne => ?_) ?_ (fun e he => Nat.lt_succ_of_le (hlow e he)) hhigh
  · rw [List.append_assoc]
    exact sublist_mid _ _ _
  · rw [List.append_assoc]
    cases mem_mid.mp he with
    | inl heq => exact absurd (congrArg (fun e => e.2.key) heq) hne
    | inr hmem => exact hmem
  · rw [List.append_assoc]
    exact hother

theorem Shows.entered (hs : Shows s (counted bs)) (he : Entered x nb bs bs') (hbs : Shaped bs)
    (hnot : x.key ∉ itemKeys bs) : Shows (s.write x.key x.value 1) (counted bs') := by
  rw [he.counted]
  show Shows _ ([] ++ (1, x) :: counted bs)
  refine hs.write (.refl _) (fun e he _ => he) (fun e he heq => hnot ?_) nofun fun e he => ?_
  · exact List.mem_map.mpr ⟨e, he, heq⟩
  · obtain ⟨b, hb, hfreq, -⟩ := mem_counted.mp he
    rw [hfreq]
    exact hbs.positive b hb

theorem Shows.evicted (hs : Shows s (counted bs)) (he : Evicted x bs bs') (hbs : Shaped bs)
    (hnodup : (itemKeys bs).Nodup) : Shows s.evict (counted bs') := by
  obtain ⟨f, front, behind, h, h', hlow, hhigh⟩ := he.counted hbs
  rw [itemKeys, h] at hnodup
  rw [h] at hs
  rw [h']
  exact hs.evict (hs.least hlow hhigh) (others_ne hnodup)

end Shows

/-- What a run answers, one entry for each get: whether the key was found, and the
output string. -/
abbrev Answers := List (Bool × Bytes)

namespace LFUCache

def serve (s : LFUCache × Answers) : CacheCall → Except Fault (LFUCache × Answers)
  | .get key v => do
      let (found, out, c) ← s.1.get key v
      return (c, s.2 ++ [(found, out)])
  | .set key v => do
      let c ← s.1.set key v
      return (c, s.2)

/-- The same call of a cache that follows the policy. -/
noncomputable def policyServe (capacity : Nat) (s : Policy × Answers) :
    CacheCall → Policy × Answers
  | .get key v =>
      match s.1.get key with
      | (none, p) => (p, s.2 ++ [(false, v)])
      | (some value, p) => (p, s.2 ++ [(true, v ++ value)])
  | .set key v => (s.1.set capacity key v, s.2)

/-- The value and the use count that the cache holds for a key. -/
def entryOf (c : LFUCache) (k : Bytes) : Option (Bytes × Nat) :=
  match c.kmap.lookup k with
  | none => none
  | some p =>
      match deref c.keyNodes p, c.useCount k with
      | .ok n, .ok count => some (n.value.value, count)
      | _, _ => none

/-- The cache holds what the policy holds. -/
def Holds (c : LFUCache) (p : Policy) : Prop :=
  ∀ k, c.entryOf k = (p.entries k).map fun e => (e.value, e.count)

/-- set is called on a key that is not cached. -/
def SetsMissing (s : LFUCache × Answers) : CacheCall → Prop
  | .get _ _ => True
  | .set k _ => k ∉ s.1.kmap

/-- A key that is found has a count that can be raised. -/
def CountFits (s : LFUCache × Answers) : CacheCall → Prop
  | .get k _ => k ∈ s.1.kmap → ∃ n, s.1.useCount k = .ok n ∧ n < intMax
  | .set _ _ => True

end LFUCache

structure Simulates (c : LFUCache) (bs : List Bucket) (s : Policy) : Prop where
  single : Single c bs
  policy : Shows s (counted bs)

namespace Simulates

variable {c c' : LFUCache} {bs bs' : List Bucket} {s : Policy} {f : Nat} {x : Item} {nb : Bucket}

theorem mem_kmap_iff (hs : Simulates c bs s) {k : Bytes} : k ∈ c.kmap ↔ s.entries k ≠ none := by
  rw [← hs.single.mem_itemKeys_iff]
  constructor
  · intro hk
    obtain ⟨e, he, rfl⟩ := List.mem_map.mp hk
    obtain ⟨t, ht, -⟩ := hs.policy.entries e he
    rw [ht]
    exact Option.some_ne_none _
  · intro hk
    by_contra hnot
    exact hk (hs.policy.absent k hnot)

theorem full_iff (hs : Simulates c bs s) : s.keys.ncard = c.capacity ↔ c.isFull = true := by
  have hkeys : s.keys = ↑c.kmap.keys := by
    refine Set.ext fun k => ?_
    rw [Finset.mem_coe, Finmap.mem_keys, hs.mem_kmap_iff]
    rfl
  rw [hkeys, Set.ncard_coe_finset, LFUCache.isFull, decide_eq_true_iff]

theorem holds (hs : Simulates c bs s) : c.Holds s := by
  intro k
  by_cases hk : k ∈ c.kmap
  · obtain ⟨f, x, hmem, rfl, hlookup, hcount, -⟩ := hs.single.toSound.get_cached hk []
    obtain ⟨t, ht, -⟩ := hs.policy.entries (f, x) hmem
    obtain ⟨n, hderef, hvalue⟩ := hs.single.toSound.deref_key hmem
    simp only [LFUCache.entryOf, hlookup, hderef, hcount, hvalue, ht, Option.map_some]
  · have hnone : s.entries k = none := not_not.mp fun hne => hk (hs.mem_kmap_iff.mpr hne)
    simp only [LFUCache.entryOf, Finmap.lookup_eq_none.mpr hk, hnone, Option.map_none]

/-- The count of the bucket is the count of the policy. -/
theorem count_eq (hs : Simulates c bs s) {k : Bytes} {e : Entry Bytes} {n : Nat}
    (he : s.entries k = some e) (hn : c.useCount k = .ok n) : e.count = n := by
  have hk : k ∈ c.kmap := hs.mem_kmap_iff.mpr (by rw [he]; exact Option.some_ne_none _)
  obtain ⟨f, x, hmem, rfl, -, hcount, -⟩ := hs.single.toSound.get_cached hk []
  obtain ⟨t, ht, -⟩ := hs.policy.entries (f, x) hmem
  cases Option.some.inj (ht.symm.trans he)
  exact Except.ok.inj (hcount.symm.trans hn)

/-- A set on a key that is not cached. -/
theorem set_ok (hs : Simulates c bs s) {k : Bytes} (hk : k ∉ c.kmap) (v : Bytes) :
    ∃ c', c.set k v = .ok c' ∧ ∃ bs', Simulates c' bs' (s.set c.capacity k v) := by
  obtain ⟨kmap₁, bs₁, c', nb, bs', x, hset, hroom, rfl, rfl, he, hc', hkmap⟩ :=
    hs.single.toSound.set_ok k v
  have hpre : c.Admitted (.set x.key x.value) := .inl hk
  have hnot := hs.single.not_mem_room hroom hpre
  refine ⟨c', hset, bs', hs.single.enters hroom hnot he hc' hkmap, ?_⟩
  cases hroom with
  | evicted y _ hfull hvictim hev =>
      rw [LeastFrequent.set, if_pos (hs.full_iff.mpr hfull)]
      exact (hs.policy.evicted hev hs.single.shaped hs.single.nodup).entered he
        (hev.shaped hs.single.shaped) hnot
  | kept hfull =>
      have hncard : s.keys.ncard ≠ c.capacity := by
        rw [ne_eq, hs.full_iff, hfull]
        exact Bool.false_ne_true
      rw [LeastFrequent.set, if_neg hncard]
      exact hs.policy.entered he hs.single.shaped hnot

end Simulates

namespace LFUCache

/-- The relation that a run keeps. -/
def Follows (s : LFUCache × Answers) (p : Policy × Answers) : Prop :=
  s.2 = p.2 ∧ s.1.capacity = 100 ∧ ∃ bs, Simulates s.1 bs p.1

theorem serve_follows {s : LFUCache × Answers} {p : Policy × Answers} {call : CacheCall}
    (h : Follows s p) (hmissing : SetsMissing s call) (hfits : CountFits s call) :
    ∃ t, serve s call = .ok t ∧ Follows t (policyServe 100 p call) := by
  obtain ⟨c, answers⟩ := s
  obtain ⟨q, answers'⟩ := p
  obtain ⟨rfl, hcapacity, bs, hs⟩ := h
  simp only at hcapacity hs
  have hsound := hs.single.toSound
  cases call with
  | get k v =>
      by_cases hk : k ∈ c.kmap
      · obtain ⟨n, hcount, hn⟩ := hfits hk
        obtain ⟨f, x, hmem, rfl, -, hcount', hget, -⟩ := hsound.get_cached hk v
        cases Except.ok.inj (hcount.symm.trans hcount')
        obtain ⟨c', nb, bs', hget, hp, hc', hkmap⟩ := hget hn
        obtain ⟨t, ht, -⟩ := hs.policy.entries (n, x) hmem
        refine ⟨(c', answers ++ [(true, v ++ x.value)]), ?_, ?_⟩
        · simp only [serve, hget, ok_bind]
          rfl
        · simp only [policyServe, LeastFrequent.get, ht]
          exact ⟨rfl, hc'.capacity, bs', hs.single.promotes hp hc' hkmap,
            hs.policy.promoted hp hs.single.shaped hs.single.nodup⟩
      · have hnone : q.entries k = none := not_not.mp fun hne => hk (hs.mem_kmap_iff.mpr hne)
        refine ⟨(c, answers ++ [(false, v)]), ?_, ?_⟩
        · simp only [serve, hsound.get_missing hk, ok_bind]
          rfl
        · simp only [policyServe, LeastFrequent.get, hnone]
          exact ⟨rfl, hcapacity, bs, hs⟩
  | set k v =>
      obtain ⟨c', hset, bs', hs'⟩ := hs.set_ok hmissing v
      refine ⟨(c', answers), ?_, rfl, hs'.single.capacity, bs', ?_⟩
      · simp only [serve, hset, ok_bind]
        rfl
      · rw [hcapacity] at hs'
        exact hs'

theorem serve_overflows {s : LFUCache × Answers} {p : Policy × Answers} {call : CacheCall}
    (h : Follows s p) (hfits : ¬ CountFits s call) : ∃ e, serve s call = .error e := by
  obtain ⟨-, -, bs, hs⟩ := h
  cases call with
  | get k v =>
      simp only [CountFits, Classical.not_imp, not_exists, not_and] at hfits
      obtain ⟨hk, hcount⟩ := hfits
      obtain ⟨f, x, -, -, -, hcount', -, hover⟩ := hs.single.toSound.get_cached hk v
      refine ⟨.overflow, ?_⟩
      simp only [serve, hover (hcount f hcount')]
      rfl
  | set k v => exact absurd trivial hfits

theorem start_follows {c : LFUCache} (hc : Single c []) : Follows (c, []) (.empty, []) :=
  ⟨rfl, hc.capacity, [], hc, ⟨nofun, fun _ _ => rfl, .nil⟩⟩

/-- A run that returns has not come to the end of the range of a count. -/
theorem counts_fit_of_run {s t : LFUCache × Answers} {p : Policy × Answers} {calls : List CacheCall}
    (h : Follows s p) (hmissing : Respects serve SetsMissing s calls)
    (hrun : run serve s calls = .ok t) : Respects serve CountFits s calls := by
  have hstep : ∀ s p call, Follows s p → SetsMissing s call → CountFits s call →
      ∃ t, serve s call = .ok t ∧ Follows t (policyServe 100 p call) :=
    fun _ _ _ h hm hf => serve_follows h hm hf
  have hfault : ∀ s p call, Follows s p → SetsMissing s call → ¬ CountFits s call →
      ∃ e, serve s call = .error e := fun _ _ _ h _ => serve_overflows h
  exact (run_refines_of_ok hstep hfault h hmissing hrun).1

/-- On every run whose calls of set are on keys that are not cached, the cache
returns, answers as the policy and holds what the policy holds exactly when no
key that is found has been used as often as an int can count. -/
theorem follows_policy_iff (calls : List CacheCall) : ∃ c₀, init = .ok c₀ ∧
    (Respects serve SetsMissing (c₀, []) calls →
      ((∃ c, run serve (c₀, []) calls =
          .ok (c, (calls.foldl (policyServe 100) (.empty, [])).2) ∧
        c.Holds (calls.foldl (policyServe 100) (.empty, [])).1) ↔
        Respects serve CountFits (c₀, []) calls)) := by
  obtain ⟨c₀, hinit, hc⟩ := single_init
  have hstep : ∀ s p call, Follows s p → SetsMissing s call ∧ CountFits s call →
      ∃ t, serve s call = .ok t ∧ Follows t (policyServe 100 p call) :=
    fun _ _ _ h hpre => serve_follows h hpre.1 hpre.2
  refine ⟨c₀, hinit, fun hmissing => ⟨?_, fun hfits => ?_⟩⟩
  · rintro ⟨c, hrun, -⟩
    exact counts_fit_of_run (start_follows hc) hmissing hrun
  · obtain ⟨⟨c, answers⟩, hrun, rfl, -, bs, hs⟩ :=
      run_refines hstep (start_follows hc) (hmissing.and hfits)
    exact ⟨c, hrun, hs.holds⟩

instance : ∀ s call, Decidable (SetsMissing s call)
  | _, .get _ _ => isTrue trivial
  | s, .set k _ => inferInstanceAs (Decidable (k ∉ s.1.kmap))

theorem follows_policy_miss_then_set : ∃ c₀, init = .ok c₀ ∧
    ((∃ c, run serve (c₀, []) [.get [107] [], .set [107] [1], .get [107] []] =
        .ok (c, ([.get [107] [], .set [107] [1], .get [107] []].foldl (policyServe 100)
          (.empty, [])).2) ∧
      c.Holds ([.get [107] [], .set [107] [1], .get [107] []].foldl (policyServe 100)
        (.empty, [])).1) ↔
      Respects serve CountFits (c₀, []) [.get [107] [], .set [107] [1], .get [107] []]) := by
  obtain ⟨c₀, hinit, h⟩ := follows_policy_iff [.get [107] [], .set [107] [1], .get [107] []]
  have hmissing : resultHolds (fun c => Respects serve SetsMissing (c, [])
      [.get [107] [], .set [107] [1], .get [107] []]) init = true := by decide +kernel
  obtain ⟨c, hinit', hmissing⟩ := resultHolds_iff.mp hmissing
  cases Except.ok.inj (hinit.symm.trans hinit')
  exact ⟨c₀, hinit, h hmissing⟩

/-- Gets of a key that fit raise its count each time. -/
theorem count_add_le {s : LFUCache × Answers} {p : Policy × Answers} {k v : Bytes} {n : Nat}
    {e : Entry Bytes} (h : Follows s p) (he : p.1.entries k = some e)
    (hfits : Respects serve CountFits s (List.replicate n (.get k v))) :
    n = 0 ∨ e.count + n ≤ intMax := by
  induction n generalizing s p e with
  | zero => exact .inl rfl
  | succ n ih =>
      obtain ⟨hnow, hrest⟩ := hfits
      obtain ⟨t, ht, hfollows⟩ := serve_follows h (show SetsMissing s (.get k v) from trivial) hnow
      have he' : (policyServe 100 p (.get k v)).1.entries k =
          some ⟨e.value, e.count + 1, p.1.clock⟩ := by
        simp only [policyServe, LeastFrequent.get, he]
        exact p.1.write_self _ _ _
      obtain ⟨-, -, bs, hs⟩ := h
      have hk : k ∈ s.1.kmap := hs.mem_kmap_iff.mpr (by rw [he]; exact Option.some_ne_none _)
      obtain ⟨m, hm, hlt⟩ := hnow hk
      have hcount := hs.count_eq he hm
      right
      cases ih hfollows he' (hrest t ht) with
      | inl hzero => omega
      | inr hle =>
          simp only at hle
          omega

/-- One set and as many gets as an int can count: the last get overflows. -/
theorem not_follows_past_int_range : ∃ c₀, init = .ok c₀ ∧
    Respects serve SetsMissing (c₀, []) (.set [107] [1] :: List.replicate intMax (.get [107] [])) ∧
    ¬ ∃ c, run serve (c₀, []) (.set [107] [1] :: List.replicate intMax (.get [107] [])) =
        .ok (c, ((.set [107] [1] :: List.replicate intMax (.get [107] [])).foldl
          (policyServe 100) (.empty, [])).2) := by
  obtain ⟨c₀, hinit, hc⟩ := single_init
  have hempty : [107] ∉ c₀.kmap := fun hk => nomatch hc.mem_itemKeys_iff.mpr hk
  have hgets : ∀ (n : Nat) (s : LFUCache × Answers),
      Respects serve SetsMissing s (List.replicate n (.get [107] [])) := by
    intro n
    induction n with
    | zero => exact fun _ => trivial
    | succ n ih => exact fun s => ⟨trivial, fun t _ => ih t⟩
  have hmissing : Respects serve SetsMissing (c₀, [])
      (.set [107] [1] :: List.replicate intMax (.get [107] [])) :=
    ⟨hempty, fun t _ => hgets intMax t⟩
  refine ⟨c₀, hinit, hmissing, ?_⟩
  rintro ⟨c, hrun⟩
  obtain ⟨-, hfits⟩ := counts_fit_of_run (start_follows hc) hmissing hrun
  have hset : SetsMissing (c₀, []) (.set [107] [1]) := hempty
  obtain ⟨t, ht, hfollows⟩ := serve_follows (start_follows hc) hset trivial
  have hentry : (policyServe 100 (LeastFrequent.empty, []) (.set [107] [1])).1.entries [107] =
      some ⟨[1], 1, _⟩ := LeastFrequent.write_self _ _ _ _
  cases count_add_le hfollows hentry (hfits t ht) with
  | inl hzero => exact absurd hzero (by decide)
  | inr hle => exact absurd hle (by simp only; omega)

end LFUCache
end TAlib
