import TAlib.Cache.OneEntry

/-!
The value that get hands out. A key may be set again while it is cached, and the
item of the earlier set then stays in its list until it is evicted, which takes
the key out of both maps. kmap therefore says of a key the item of its latest
set or nothing.
-/

namespace TAlib

open Foundation

namespace LFUCache

/-- The value that a call gives to a key. -/
def givenBy (k : Bytes) : CacheCall → Option Bytes
  | .get _ _ => none
  | .set key v => if key = k then some v else none

/-- The value of the latest set of a key. -/
def latestSet (calls : List CacheCall) (k : Bytes) : Option Bytes :=
  calls.reverse.findSome? (givenBy k)

theorem latestSet_concat (calls : List CacheCall) (call : CacheCall) (k : Bytes) :
    latestSet (calls ++ [call]) k = (givenBy k call).or (latestSet calls k) := by
  rw [latestSet, List.reverse_append, List.reverse_singleton, List.singleton_append,
    List.findSome?_cons]
  cases givenBy k call with
  | none => rfl
  | some v => rfl

end LFUCache

/-- The items that kmap knows hold the latest values. -/
def Fresh (kmap : PtrMap) (bs : List Bucket) (latest : Bytes → Option Bytes) : Prop :=
  ∀ k p, kmap.lookup k = some p →
    ∃ n x, Lies bs n x ∧ x.key = k ∧ p = some x.node ∧ latest k = some x.value

namespace Fresh

variable {kmap kmap₁ : PtrMap} {bs bs' : List Bucket} {latest : Bytes → Option Bytes} {c : LFUCache}
  {f : Nat} {x : Item} {nb : Bucket}

theorem promoted (h : Fresh kmap bs latest) (hp : Promoted f x nb bs bs') :
    Fresh kmap bs' latest := by
  intro k p hk
  obtain ⟨n, y, hy, hkey, hnode, hlatest⟩ := h k p hk
  by_cases hyx : y = x
  · subst hyx
    exact ⟨nb.node, y, hp.lies_self, hkey, hnode, hlatest⟩
  · exact ⟨n, y, hp.lies hy hyx, hkey, hnode, hlatest⟩

/-- An eviction takes the key of its item out of the map, whichever item of the
key it was. -/
theorem made_room (h : Fresh c.kmap bs latest) (hroom : MadeRoom c bs kmap₁ bs') :
    Fresh kmap₁ bs' latest := by
  cases hroom with
  | kept _ => exact h
  | evicted y _ _ _ he =>
      intro k p hk
      have hne : k ≠ y.key := by
        rintro rfl
        rw [Finmap.lookup_erase] at hk
        cases hk
      rw [Finmap.lookup_erase_ne hne] at hk
      obtain ⟨n, z, hz, hkey, hnode, hlatest⟩ := h k p hk
      refine ⟨n, z, he.lies hz ?_, hkey, hnode, hlatest⟩
      rintro rfl
      exact hne hkey.symm

theorem entered (h : Fresh kmap bs latest) (he : Entered x nb bs bs')
    {latest' : Bytes → Option Bytes}
    (hx : latest' x.key = some x.value) (hothers : ∀ k, k ≠ x.key → latest' k = latest k) :
    Fresh (kmap.insert x.key (some x.node)) bs' latest' := by
  intro k p hk
  by_cases hkx : k = x.key
  · subst hkx
    rw [Finmap.lookup_insert] at hk
    exact ⟨nb.node, x, he.lies_self, rfl, (Option.some.inj hk).symm, hx⟩
  · rw [Finmap.lookup_insert_of_ne _ hkx] at hk
    obtain ⟨n, y, hy, hkey, hnode, hlatest⟩ := h k p hk
    exact ⟨n, y, he.lies hy, hkey, hnode, (hothers k hkx).trans hlatest⟩

end Fresh

namespace Sound

variable {c c' : LFUCache} {bs : List Bucket} {latest : Bytes → Option Bytes}

/-- What get appends is the value the key was last given. -/
theorem get_fresh (hc : Sound c bs) (hfresh : Fresh c.kmap bs latest) {k v out : Bytes}
    (hget : c.get k v = .ok (true, out, c')) :
    ∃ value, latest k = some value ∧ out = v ++ value := by
  by_cases hk : k ∈ c.kmap
  · obtain ⟨f, x, hx, -, hlookup, -, hfits, hover⟩ := hc.get_cached hk v
    have hf : f < intMax := by
      by_contra hf
      cases (hover hf).symm.trans hget
    obtain ⟨c'', nb, bs', hget', -⟩ := hfits hf
    cases hget'.symm.trans hget
    obtain ⟨n, y, ⟨b, hb, -, hy⟩, -, hnode, hlatest⟩ := hfresh k _ hlookup
    -- two items with one address are one key node
    obtain ⟨m, hderef, hvalue⟩ := hc.deref_key hx
    obtain ⟨m', hderef', hvalue'⟩ :=
      hc.deref_key (mem_counted.mpr ⟨b, hb, rfl, hy⟩ : (b.freq, y) ∈ _)
    simp only at hderef hderef' hvalue hvalue'
    rw [hnode] at hderef
    cases hderef.symm.trans hderef'
    have hsame : x.value = y.value := congrArg Key.value (hvalue.symm.trans hvalue')
    exact ⟨x.value, by rw [hlatest, hsame], rfl⟩
  · cases (hc.get_missing hk v).symm.trans hget

theorem exec_fresh (hc : Sound c bs) {calls : List CacheCall} {call : CacheCall}
    (hfresh : Fresh c.kmap bs (LFUCache.latestSet calls)) (hexec : c.exec call = .ok c') :
    ∃ bs', Sound c' bs' ∧ Fresh c'.kmap bs' (LFUCache.latestSet (calls ++ [call])) := by
  cases call with
  | get k v =>
      have hlatest : LFUCache.latestSet (calls ++ [.get k v]) = LFUCache.latestSet calls :=
        funext fun k' => LFUCache.latestSet_concat calls (.get k v) k'
      rw [hlatest]
      by_cases hk : k ∈ c.kmap
      · obtain ⟨f, x, -, -, -, -, hfits, hover⟩ := hc.get_cached hk v
        by_cases hf : f < intMax
        · obtain ⟨c'', nb, bs', hget, hp, hc', hkmap⟩ := hfits hf
          simp only [LFUCache.exec, hget] at hexec
          cases hexec
          exact ⟨bs', hc', hkmap ▸ hfresh.promoted hp⟩
        · simp only [LFUCache.exec, hover hf] at hexec
          cases hexec
      · simp only [LFUCache.exec, hc.get_missing hk] at hexec
        cases hexec
        exact ⟨bs, hc, hfresh⟩
  | set k v =>
      obtain ⟨kmap₁, bs₁, c'', nb, bs', x, hset, hroom, rfl, rfl, he, hc', hkmap⟩ := hc.set_ok k v
      cases Except.ok.inj (hset.symm.trans hexec)
      refine ⟨bs', hc', hkmap ▸ (hfresh.made_room hroom).entered he ?_ fun k hk => ?_⟩
      · rw [LFUCache.latestSet_concat, LFUCache.givenBy, if_pos rfl, Option.some_or]
      · rw [LFUCache.latestSet_concat, LFUCache.givenBy, if_neg hk.symm, Option.none_or]

theorem run_fresh {c₀ : LFUCache} (hc₀ : Sound c₀ []) (hkmap : c₀.kmap = ∅) {calls : List CacheCall}
    (hrun : run LFUCache.exec c₀ calls = .ok c) :
    ∃ bs, Sound c bs ∧ Fresh c.kmap bs (LFUCache.latestSet calls) := by
  induction calls using List.reverseRecOn generalizing c with
  | nil =>
      cases hrun
      refine ⟨[], hc₀, fun k p hk => ?_⟩
      rw [hkmap, Finmap.lookup_empty] at hk
      cases hk
  | append_singleton calls call ih =>
      obtain ⟨m, hm, hlast⟩ := run_append_ok.mp hrun
      obtain ⟨t, ht, hnil⟩ := run_cons_ok.mp hlast
      cases hnil
      obtain ⟨bs, hc, hfresh⟩ := ih hm
      exact hc.exec_fresh hfresh ht

end Sound

namespace LFUCache

/-- Whatever was called before, a get that finds its key appends the value that the
key was given last. -/
theorem get_latest (calls : List CacheCall) (k v : Bytes) : ∃ c₀, init = .ok c₀ ∧
    ∀ c out c', run exec c₀ calls = .ok c → c.get k v = .ok (true, out, c') →
      ∃ value, latestSet calls k = some value ∧ out = v ++ value := by
  obtain ⟨c₀, hinit, hc₀, hkmap⟩ := Sound.init_ok
  refine ⟨c₀, hinit, fun c out c' hrun hget => ?_⟩
  obtain ⟨bs, hc, hfresh⟩ := Sound.run_fresh hc₀ hkmap hrun
  exact hc.get_fresh hfresh hget

/-- Two items of a key, the older one used more often. -/
theorem get_latest_two_items : ∃ c₀ c out c', init = .ok c₀ ∧
    run exec c₀ [.set [107] [1], .get [107] [], .set [107] [2]] = .ok c ∧
    c.get [107] [0] = .ok (true, out, c') ∧
    ∃ value, latestSet [.set [107] [1], .get [107] [], .set [107] [2]] [107] = some value ∧
      out = [0] ++ value := by
  have hrun : resultHolds (fun r : Bool × Bytes × LFUCache => r.1 = true) (init >>= fun c =>
      run exec c [.set [107] [1], .get [107] [], .set [107] [2]] >>=
        fun c => c.get [107] [0]) = true := by
    decide +kernel
  obtain ⟨⟨found, out, c'⟩, hrun, rfl⟩ := resultHolds_iff.mp hrun
  obtain ⟨c₁, hinit₁, hrun⟩ := bind_eq_ok.mp hrun
  obtain ⟨c, hcalls, hget⟩ := bind_eq_ok.mp hrun
  obtain ⟨c₀, hinit, h⟩ := get_latest [.set [107] [1], .get [107] [], .set [107] [2]] [107] [0]
  cases Except.ok.inj (hinit.symm.trans hinit₁)
  exact ⟨c₁, c, out, c', hinit₁, hcalls, hget, h c out c' hcalls hget⟩

end LFUCache
end TAlib
