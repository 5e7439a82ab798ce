import TAlib.Redis.ResPool

/-!
A resource is lent to one borrower at a time. A slot gives its resource away only
when the slot holds the sole reference, so nobody has borrowed it and no call is
about to return it; a created resource is new to everyone.
-/

namespace TAlib

open Foundation

namespace ResPool

theorem mem_slotRefs {vec : List Data} {r : Resource} :
    r ∈ slotRefs vec ↔ ∃ item ∈ vec, item.data = some r := by
  simp [slotRefs]

theorem slotRefs_append (vec vec' : List Data) :
    slotRefs (vec ++ vec') = slotRefs vec ++ slotRefs vec' := List.filterMap_append

theorem slotRefs_cons (item : Data) (vec : List Data) :
    slotRefs (item :: vec) = item.data.toList ++ slotRefs vec := by
  cases h : item.data with
  | none => simp [slotRefs, h]
  | some r => simp [slotRefs, h]

/-- With a use count of one the slot's is the only reference. -/
theorem not_mem_of_useCount {others : List Resource} {vec : List Data} {tmp : Option Resource}
    {r : Resource} (hslot : r ∈ slotRefs vec) (h : useCount others vec tmp r = 1) : r ∉ others := by
  intro hmem
  have hpos := List.count_pos_iff.mpr hslot
  have hpos' := List.count_pos_iff.mpr hmem
  simp only [useCount, List.count_append] at h
  omega

/-- What the loop of grasp does to the slots: none is added, and those in use
elsewhere stay. A resource is lent out of a slot, to nobody who has it. -/
structure Scanned (others : List Resource) (vec : List Data) (r : Scan) : Prop where
  length : r.vec.length = vec.length
  shrinks : ∀ data ∈ slotRefs r.vec, data ∈ slotRefs vec
  keeps : ∀ data ∈ slotRefs vec, data ∈ others → data ∈ slotRefs r.vec
  lent : ∀ data, r.lent = some data → data ∉ others ∧ data ∈ slotRefs r.vec
  idx : ∀ i, r.idx = some i → i < vec.length

theorem scan_scanned (others : List Resource) (timeout now clock : Int) (rest : List Data) :
    ∀ (done : List Data) (tmp : Option Resource) (idx : Option Nat),
      (∀ i, idx = some i → i < done.length) →
      Scanned others (done ++ rest) (scan others timeout now clock done tmp idx rest) := by
  induction rest with
  | nil =>
      intro done tmp idx hidx
      simp only [scan, List.append_nil]
      exact ⟨rfl, fun _ h => h, fun _ h _ => h, nofun, hidx⟩
  | cons item rest ih =>
      intro done tmp idx hidx
      have hitem : done ++ item :: rest = (done ++ [item]) ++ rest := by simp
      have hlast {i} (h : some done.length = some i) : i < (done ++ [item]).length := by
        cases h
        simp
      cases hdata : item.data with
      | none =>
          simp only [scan, hdata]
          rw [hitem]
          exact ih _ _ _ fun i h => hlast h
      | some r =>
          simp only [scan, hdata]
          split
          · rename_i hcount
            have hslot : r ∈ slotRefs (done ++ item :: rest) :=
              mem_slotRefs.mpr ⟨item, by simp, hdata⟩
            have hfree := not_mem_of_useCount hslot hcount
            split
            · have hsame : slotRefs (done ++ ⟨item.num + 1, clock, some r⟩ :: rest) =
                  slotRefs (done ++ item :: rest) := by
                simp only [slotRefs_append, slotRefs_cons, hdata]
              refine ⟨by simp, fun data h => ?_, fun data h _ => ?_, ?_, fun i h => ?_⟩
              · rwa [← hsame]
              · rwa [hsame]
              · rintro data ⟨⟩
                refine ⟨hfree, ?_⟩
                rwa [hsame]
              · simp only [List.length_append, List.length_cons]
                exact Nat.lt_add_right _ (hidx i h)
            · have hrest := ih (done ++ [{ item with data := none }]) (some r) (some done.length)
                fun i h => by
                  cases h
                  simp
              have hold : ∀ data, data ∈ slotRefs (done ++ item :: rest) ↔ data = r ∨
                  data ∈ slotRefs (done ++ [{ item with data := none }] ++ rest) := by
                intro data
                simp [slotRefs, hdata, or_left_comm]
              refine ⟨by simpa using hrest.length, fun data h => ?_, fun data h ho => ?_,
                hrest.lent, fun i h => by simpa using hrest.idx i h⟩
              · exact (hold data).mpr (.inr (hrest.shrinks data h))
              · cases (hold data).mp h with
                | inl heq => exact absurd (heq ▸ ho) hfree
                | inr hmem => exact hrest.keeps data hmem ho
          · rw [hitem]
            exact ih _ _ _ fun i h => Nat.lt_of_lt_of_le (hidx i h) (by simp)

theorem mem_slotRefs_dropSlot {data : Option Resource} {vec : List Data} {r : Resource}
    (h : r ∈ slotRefs (dropSlot data vec)) : r ∈ slotRefs vec := by
  induction vec with
  | nil => exact h
  | cons item vec ih =>
      simp only [dropSlot] at h
      split at h
      · simp only [slotRefs_cons, Option.toList_none, List.nil_append, List.mem_append] at h ⊢
        exact .inr h
      · simp only [slotRefs_cons, List.mem_append] at h ⊢
        exact h.imp_right ih

theorem setLength_vec (p : ResPool) (maxlen : Int) :
    (p.setLength maxlen).vec = [] ∨ (p.setLength maxlen).vec = p.vec := by
  unfold setLength
  dsimp only
  split
  · exact .inl rfl
  · exact .inr rfl

theorem setTimeout_vec (p : ResPool) (timeout : Int) :
    (p.setTimeout timeout).vec = [] ∨ (p.setTimeout timeout).vec = p.vec := by
  unfold setTimeout
  dsimp only
  split
  · exact .inl rfl
  · exact .inr rfl

/-- The second section puts the created resource into at most one slot. -/
theorem mem_slotRefs_record {p q : ResPool} {idx : Option Nat} {data r : Resource} {clock : Int}
    (h : p.record idx data clock = .ok q) (hr : r ∈ slotRefs q.vec) :
    r = data ∨ r ∈ slotRefs p.vec := by
  cases idx with
  | none =>
      simp only [record] at h
      split at h
      · cases h
        simp only [slotRefs_append, List.mem_append] at hr
        cases hr with
        | inl hr => exact .inr hr
        | inr hr => exact .inl (by simpa [slotRefs, Data.update] using hr)
      · cases h
        exact .inr hr
  | some i =>
      simp only [record] at h
      split at h
      · cases h
        obtain ⟨item, hitem, hdata⟩ := mem_slotRefs.mp hr
        cases List.mem_or_eq_of_mem_set hitem with
        | inl hitem => exact .inr (mem_slotRefs.mpr ⟨item, hitem, hdata⟩)
        | inr heq =>
            subst heq
            exact .inl (Option.some.inj hdata).symm
      · cases h

end ResPool

namespace PoolRun

/-- The resource belongs to the result of that call of get(): borrowed, or about
to be returned. -/
def Lends (s : PoolRun) (result : Nat) (r : Resource) : Prop :=
  (result, r) ∈ s.held ∨ ∃ c ∈ s.calls, c.result = result ∧ c.point.data = some r

/-- Two results that are still held refer to two resources. -/
def Exclusive (s : PoolRun) : Prop :=
  ∀ g g' r, (g, r) ∈ s.held → (g', r) ∈ s.held → g = g'

structure Sound (s : PoolRun) : Prop where
  lends : ∀ g g' r, s.Lends g r → s.Lends g' r → g = g'
  lent : ∀ g r, s.Lends g r → r < s.created
  slots : ∀ r ∈ ResPool.slotRefs s.pool.vec, r < s.created

theorem Sound.exclusive {s : PoolRun} (hs : s.Sound) : s.Exclusive :=
  fun g g' r h h' => hs.lends g g' r (.inl h) (.inl h')

theorem new_sound (threads : Nat) (maxlen timeout : Int) : (new threads maxlen timeout).Sound := by
  have hnone : ∀ g r, ¬ (new threads maxlen timeout).Lends g r := by
    rintro g r (h | ⟨c, hc, -, h⟩)
    · cases h
    · cases List.eq_of_mem_replicate hc
      cases h
  exact ⟨fun g _ r h => absurd h (hnone g r), fun g r h => absurd h (hnone g r), nofun⟩

/-- Every reference of a borrower or of a call is counted outside the slots. -/
theorem mem_others_of_lends {s : PoolRun} {g : Nat} {r : Resource} (h : s.Lends g r) :
    r ∈ s.others := by
  simp only [others, List.mem_append, List.mem_flatMap, List.mem_map]
  rcases h with h | ⟨c, hc, -, h⟩
  · exact .inr ⟨_, h, rfl⟩
  · exact .inl ⟨c, hc, by simp [GetCall.refs, h]⟩

/-- A step that lends at most one resource more, which nobody has. -/
theorem Sound.step {s t : PoolRun} (hs : s.Sound) (g₀ : Nat) (r₀ : Resource)
    (hcreated : s.created ≤ t.created)
    (hlends : ∀ g r, t.Lends g r → s.Lends g r ∨
      (g = g₀ ∧ r = r₀ ∧ r₀ < t.created ∧ ∀ g', ¬ s.Lends g' r₀))
    (hslots : ∀ r ∈ ResPool.slotRefs t.pool.vec, r < t.created) : t.Sound := by
  refine ⟨fun g g' r h h' => ?_, fun g r h => ?_, hslots⟩
  · rcases hlends g r h with h | ⟨rfl, rfl, -, hnot⟩
    · rcases hlends g' r h' with h' | ⟨-, rfl, -, hnot⟩
      · exact hs.lends g g' r h h'
      · exact absurd h (hnot g)
    · rcases hlends g' r h' with h' | ⟨rfl, -⟩
      · exact absurd h' (hnot g')
      · rfl
  · rcases hlends g r h with h | ⟨-, rfl, hlt, -⟩
    · exact Nat.lt_of_lt_of_le (hs.lent g r h) hcreated
    · exact hlt

/-- A step that lends nothing. -/
theorem Sound.of_lends {s t : PoolRun} (hs : s.Sound) (hcreated : s.created ≤ t.created)
    (hlends : ∀ g r, t.Lends g r → s.Lends g r)
    (hslots : ∀ r ∈ ResPool.slotRefs t.pool.vec, r < t.created) : t.Sound :=
  hs.step 0 0 hcreated (fun g r h => .inl (hlends g r h)) hslots

theorem lends_set {s : PoolRun} {thread : Nat} {c : GetCall} {g : Nat} {r : Resource}
    (h : { s with calls := s.calls.set thread c }.Lends g r) :
    s.Lends g r ∨ (g = c.result ∧ c.point.data = some r) := by
  rcases h with h | ⟨c', hc', hg, h⟩
  · exact .inl (.inl h)
  · cases List.mem_or_eq_of_mem_set hc' with
    | inl hmem => exact .inl (.inr ⟨c', hmem, hg, h⟩)
    | inr heq =>
        subst heq
        exact .inr ⟨hg.symm, h⟩

theorem lends_giveOut {s : PoolRun} {thread : Nat} {c : GetCall} {data : Resource} {g : Nat}
    {r : Resource} (h : (s.giveOut thread c data).Lends g r) :
    s.Lends g r ∨ (g = c.result ∧ r = data) := by
  rcases h with h | h
  · rcases List.mem_cons.mp h with heq | h
    · cases heq
      exact .inr ⟨rfl, rfl⟩
    · exact .inl (.inl h)
  · rcases lends_set (c := { c with point := .idle }) (.inr h) with h | ⟨-, h⟩
    · exact .inl h
    · cases h

theorem Sound.withPool {s : PoolRun} (hs : s.Sound) {p : ResPool}
    (hslots : ∀ r ∈ ResPool.slotRefs p.vec, r ∈ ResPool.slotRefs s.pool.vec) :
    { s with pool := p }.Sound :=
  ⟨hs.lends, hs.lent, fun r h => hs.slots r (hslots r h)⟩

/-- A call goes on and comes by no resource. -/
theorem Sound.setPoint {s : PoolRun} (hs : s.Sound) (thread : Nat) {c : GetCall} {point : GetPoint}
    (hdata : ∀ r, point.data = some r → s.Lends c.result r) :
    (s.setPoint thread c point).Sound := by
  refine hs.of_lends (Nat.le_refl _) (fun g r h => ?_) hs.slots
  rcases lends_set h with hlends | ⟨rfl, hpoint⟩
  · exact hlends
  · exact hdata r hpoint

theorem Sound.setPoint_none {s : PoolRun} (hs : s.Sound) (thread : Nat) (c : GetCall)
    {point : GetPoint} (h : point.data = none) : (s.setPoint thread c point).Sound :=
  hs.setPoint thread fun _ h' => nomatch h.symm.trans h'

theorem Sound.not_lends_created {s : PoolRun} (hs : s.Sound) (g : Nat) : ¬ s.Lends g s.created :=
  fun h => Nat.lt_irrefl _ (hs.lent g _ h)

theorem Sound.slots_succ {s : PoolRun} (hs : s.Sound) :
    ∀ r ∈ ResPool.slotRefs s.pool.vec, r < s.created + 1 :=
  fun r h => Nat.lt_succ_of_lt (hs.slots r h)

theorem scan_current (s : PoolRun) (now clock : Int) :
    ResPool.Scanned s.others s.pool.vec
      (ResPool.scan s.others s.pool.timeout now clock [] none none s.pool.vec) :=
  ResPool.scan_scanned s.others s.pool.timeout now clock s.pool.vec [] none none nofun

theorem lockedScan_sound {s : PoolRun} (hs : s.Sound) (thread : Nat) (c : GetCall)
    (now clock : Int) : (s.lockedScan thread c now clock).Sound := by
  have hscan := s.scan_current now clock
  unfold lockedScan
  generalize ResPool.scan s.others s.pool.timeout now clock [] none none s.pool.vec = r at hscan
  have hpool : { s with pool := { s.pool with vec := r.vec } }.Sound := hs.withPool hscan.shrinks
  dsimp only
  cases hlent : r.lent with
  | none =>
      cases r.idx with
      | none => exact hpool.setPoint_none thread c rfl
      | some i => exact hpool.setPoint_none thread c rfl
  | some data =>
      obtain ⟨hfree, hslot⟩ := hscan.lent data hlent
      refine hpool.step c.result data (Nat.le_refl _) (fun g r h => ?_) hpool.slots
      rcases lends_set h with hlends | ⟨rfl, hpoint⟩
      · exact .inl hlends
      · obtain rfl : data = r := Option.some.inj hpoint
        exact .inr ⟨rfl, rfl, hpool.slots _ hslot, fun g' h' => hfree (mem_others_of_lends h')⟩

theorem retry_sound {s : PoolRun} (hs : s.Sound) (thread : Nat) (c : GetCall) (clock : Int) :
    (s.retry thread c clock).Sound := by
  unfold retry
  split
  · exact hs.setPoint_none thread _ rfl
  · exact hs.setPoint_none thread c (by split <;> rfl)

theorem step_sound {s t : PoolRun} (hs : s.Sound) {thread : Nat} {c : GetCall} {clock : Int}
    {made : Bool} (hc : s.calls[thread]? = some c) (h : s.step thread c clock made = .ok t) :
    t.Sound := by
  have howns {r} (hdata : c.point.data = some r) : s.Lends c.result r :=
    .inr ⟨c, List.mem_of_getElem? hc, rfl, hdata⟩
  cases hpoint : c.point with
  | idle =>
      simp only [step, hpoint] at h
      cases h
      exact hs
  | entering | grasping | deciding _ _ =>
      simp only [step, hpoint] at h
      cases h
      exact hs.setPoint_none thread c (by first | rfl | (split <;> rfl))
  | bypassing =>
      simp only [step, hpoint] at h
      cases h
      split
      · refine hs.step c.result s.created (Nat.le_succ _) (fun g r h => ?_) hs.slots_succ
        rcases lends_giveOut h with h | ⟨rfl, rfl⟩
        · exact .inl h
        · exact .inr ⟨rfl, rfl, Nat.lt_succ_self _, hs.not_lends_created⟩
      · exact hs.setPoint_none thread c rfl
  | locking now =>
      simp only [step, hpoint] at h
      cases h
      exact lockedScan_sound hs thread c now clock
  | creating idx tmp =>
      simp only [step, hpoint] at h
      cases h
      split
      · refine hs.step c.result s.created (Nat.le_succ _) (fun g r h => ?_) hs.slots_succ
        rcases lends_set h with hlends | ⟨rfl, hpoint⟩
        · exact .inl hlends
        · obtain rfl : s.created = r := Option.some.inj hpoint
          exact .inr ⟨rfl, rfl, Nat.lt_succ_self _, hs.not_lends_created⟩
      · exact hs.setPoint_none thread c rfl
  | recording idx tmp data =>
      simp only [step, hpoint, bind_eq_ok] at h
      obtain ⟨pool, hrecord, h⟩ := h
      cases h
      have hdata := howns (r := data) (by rw [hpoint]; rfl)
      have hpool : { s with pool := pool }.Sound := by
        refine ⟨hs.lends, hs.lent, fun r h => ?_⟩
        rcases ResPool.mem_slotRefs_record hrecord h with rfl | h
        · exact hs.lent _ _ hdata
        · exact hs.slots r h
      refine hpool.setPoint thread fun r h => ?_
      cases h
      exact hdata
  | returning tmp data =>
      cases data with
      | none =>
          simp only [step, hpoint] at h
          cases h
          exact retry_sound hs thread c clock
      | some data =>
          simp only [step, hpoint] at h
          cases h
          refine hs.of_lends (Nat.le_refl _) (fun g r h => ?_) hs.slots
          rcases lends_giveOut h with h | ⟨rfl, rfl⟩
          · exact h
          · exact howns (by rw [hpoint]; rfl)

theorem exec_sound {s t : PoolRun} {turn : PoolTurn} (hs : s.Sound) (h : s.exec turn = .ok t) :
    t.Sound := by
  cases turn with
  | call thread =>
      simp only [exec] at h
      split at h
      · cases h
        refine hs.of_lends (Nat.le_refl _) (fun g r h => ?_) hs.slots
        rcases lends_set h with h | ⟨-, h⟩
        · exact h
        · cases h
      · cases h
        exact hs
  | step thread clock made =>
      simp only [exec] at h
      split at h
      · rename_i c hc
        exact step_sound hs hc h
      · cases h
        exact hs
  | copy result data =>
      simp only [exec] at h
      cases h
      split
      · rename_i hmem
        refine hs.of_lends (Nat.le_refl _) (fun g r h => ?_) hs.slots
        refine h.imp_left fun h => ?_
        rcases List.mem_cons.mp h with heq | h
        · exact heq ▸ hmem
        · exact h
      · exact hs
  | drop result data =>
      cases h
      exact hs.of_lends (Nat.le_refl _) (fun g r h => h.imp_left List.mem_of_mem_erase) hs.slots
  | clear | setCreator =>
      cases h
      exact hs.withPool nofun
  | disable data =>
      cases h
      exact hs.withPool fun _ => ResPool.mem_slotRefs_dropSlot
  | setLength maxlen =>
      cases h
      refine hs.withPool fun r h => ?_
      cases s.pool.setLength_vec maxlen with
      | inl hvec => exact nomatch hvec ▸ h
      | inr hvec => exact hvec ▸ h
  | setTimeout timeout =>
      cases h
      refine hs.withPool fun r h => ?_
      cases s.pool.setTimeout_vec timeout with
      | inl hvec => exact nomatch hvec ▸ h
      | inr hvec => exact hvec ▸ h

/-- Whatever the threads do and in whichever order, no resource is held through
two results of get() at once. -/
theorem never_lent_twice (threads : Nat) (maxlen timeout : Int) (turns : List PoolTurn) :
    Always exec Exclusive (new threads maxlen timeout) turns :=
  always_of_respects (fun _ hs => hs.exclusive) (fun _ _ _ hs _ h => exec_sound hs h)
    (new_sound threads maxlen timeout) (respects_true _ turns)

end PoolRun

end TAlib
