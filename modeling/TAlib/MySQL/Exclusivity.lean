import Mathlib.Data.Nat.Find
import TAlib.Foundation.Ownership
import TAlib.MySQL.Pool

/-!
A connection is held by one thread at a time. What a mutex guards is stated for the
time when it is free, and what a thread knows for the place where it stands: behind
lock and locki the others leave that alone.
-/

namespace TAlib

open Foundation

namespace PoolThreads

section Slots

variable {s : PoolThreads} {i j : Nat} {x y : Slot} {thread conn : Nat} {b : Bool}

theorem slot_eq_ok : s.slot i = .ok x ↔ ∃ vec, s.pool_ = some vec ∧ vec[i]? = some x := by
  unfold slot
  cases s.pool_ with
  | none => simp
  | some vec => cases hx : vec[i]? <;> simp [hx]

theorem pool_of_slot (h : s.slot i = .ok x) : s.pool_ ≠ none := by
  obtain ⟨vec, hvec, -⟩ := slot_eq_ok.mp h
  rw [hvec]
  exact Option.some_ne_none vec

theorem slot_congr {t : PoolThreads} (h : t.pool_ = s.pool_) (i : Nat) : t.slot i = s.slot i := by
  rw [slot, slot, h]

theorem setSecond_pool : (s.setSecond i b).pool_ = none ↔ s.pool_ = none := Option.map_eq_none_iff

/-- Only the flag changes, and that of one slot. -/
theorem slot_setSecond : (s.setSecond i b).slot j = .ok y ↔
    ∃ x, s.slot j = .ok x ∧ y = if i = j then { x with second := b } else x := by
  have hget (vec : List Slot) : (vec.modify i fun slot => { slot with second := b })[j]? = some y ↔
      ∃ x, vec[j]? = some x ∧ y = if i = j then { x with second := b } else x := by
    rw [List.getElem?_modify]
    simp only [Option.map_eq_map, Option.map_eq_some_iff, @eq_comm _ y]
  simp only [slot_eq_ok, setSecond, Option.map_eq_some_iff]
  constructor
  · rintro ⟨_, ⟨vec, hvec, rfl⟩, hy⟩
    obtain ⟨x, hx, heq⟩ := (hget vec).mp hy
    exact ⟨x, ⟨vec, hvec, hx⟩, heq⟩
  · rintro ⟨x, ⟨vec, hvec, hx⟩, heq⟩
    exact ⟨_, ⟨vec, hvec, rfl⟩, (hget vec).mpr ⟨x, hx, heq⟩⟩

end Slots

/-- What the mutexes guard, and what is so all the time. -/
structure Stored (s : PoolThreads) : Prop where
  initReady : s.initmutex.ready = true
  /-- Before the Pool is there, nobody has begun with it. -/
  untouched : s.initmutex.holder = none → s.pool_ = none →
    s.mutex.ready = false ∧ s.execmutex.ready = false
  ready : s.pool_ ≠ none → s.mutex.ready = true
  unlocked : s.pool_ = none → s.mutex.holder = none
  pools : s.pools = if s.pool_ = none then 0 else 1
  exists_slot : s.pool_ ≠ none → ∀ i : Nat, i < s.poolSize_ → ∃ x, s.slot i = .ok x
  slot_lt : ∀ {i x}, s.slot i = .ok x → i < s.poolSize_
  apart : ∀ {i j x y}, s.slot i = .ok x → s.slot j = .ok y → x.first = y.first → i = j
  flag : ∀ {i x}, s.slot i = .ok x → (x.second = true ↔ ∃ thread, x.first ∈ s.held thread)
  exclusive : Exclusive s.held
  owned : ∀ {thread conn}, conn ∈ s.held thread → ∃ i x, s.slot i = .ok x ∧ x.first = conn

/-- What a thread can rely on at a place. -/
def At (s : PoolThreads) (thread : Nat) : PoolPoint → Prop
  | .idle | .entering => True
  | .testing => s.initmutex.holder = some thread ∧
      (s.pool_ = none → s.mutex.ready = false ∧ s.execmutex.ready = false)
  | .preparing => s.initmutex.holder = some thread ∧ s.pool_ = none ∧ s.mutex.ready = false ∧
      s.execmutex.ready = false
  | .preparingExec => s.initmutex.holder = some thread ∧ s.pool_ = none ∧ s.mutex.ready = true ∧
      s.execmutex.ready = false
  | .creating => s.initmutex.holder = some thread ∧ s.pool_ = none ∧ s.mutex.ready = true
  | .leaving => s.initmutex.holder = some thread ∧ s.pool_ ≠ none
  | .waiting => s.pool_ ≠ none
  | .scanning i => s.mutex.holder = some thread ∧ s.pool_ ≠ none ∧
      ∀ j x, j < i → s.slot j = .ok x → x.second = true
  | .found conn => s.mutex.holder = some thread ∧ conn ∈ s.held thread
  | .missed => s.mutex.holder = some thread ∧ s.pool_ ≠ none ∧
      ∀ j x, s.slot j = .ok x → x.second = true
  | .releasing conn => conn ∈ s.held thread
  | .searching conn i => s.mutex.holder = some thread ∧ conn ∈ s.held thread ∧
      ∀ j x, j < i → s.slot j = .ok x → x.first ≠ conn
  | .released conn => s.mutex.holder = some thread ∧
      ∃ i x, s.slot i = .ok x ∧ x.first = conn ∧ x.second = false

/-- A thread that has left the first section of getConnection behind. -/
def PastCreation (s : PoolThreads) (thread : Nat) : Prop :=
  match s.point thread with
  | .idle => s.held thread ≠ []
  | .entering | .testing | .preparing | .preparingExec | .creating => False
  | _ => True

/-- A connection has one holder, and a flag that says so. There is one Pool. -/
structure HeldApart (s : PoolThreads) : Prop where
  flag : ∀ vec, s.pool_ = some vec →
    ∀ x ∈ vec, (x.second = true ↔ ∃ thread, x.first ∈ s.held thread)
  alone : ∀ thread thread' conn, conn ∈ s.held thread → conn ∈ s.held thread' → thread = thread'
  once : ∀ thread, (s.held thread).Nodup
  onePool : s.pools ≤ 1
  created : ∀ thread, s.PastCreation thread → s.pools = 1

/-- What has been released is there for whoever looks next: a thread that gets the
mutex while a slot is free has the connection of the first such slot when it leaves
the loop, and a thread that leaves the loop without one has seen no free slot. -/
structure Serves (s : PoolThreads) : Prop where
  released : ∀ thread conn, s.point thread = .released conn →
    ∃ i x, s.slot i = .ok x ∧ x.first = conn ∧ x.second = false
  missed : ∀ thread, s.point thread = .missed → ∀ i x, s.slot i = .ok x → x.second = true
  next : ∀ thread connected, s.point thread = .waiting → s.mutex.holder = none →
    ∀ i x, s.slot i = .ok x → x.second = false →
      ∃ j y t, j ≤ i ∧ s.slot j = .ok y ∧ y.second = false ∧
        run exec s (List.replicate (j + 2) (.step thread connected)) = .ok t ∧
        t.point thread = .found y.first ∧ y.first ∈ t.held thread

structure Sound (s : PoolThreads) : Prop where
  stored : s.Stored
  points : ∀ thread, s.At thread (s.point thread)

/-- What the steps of the others leave alone for a thread. -/
structure Frame (s t : PoolThreads) (thread : Nat) : Prop where
  init : s.initmutex.holder = some thread → t.initmutex.holder = some thread
  untouched : s.initmutex.holder = some thread → s.pool_ = none →
    t.pool_ = none ∧ t.mutex.ready = s.mutex.ready ∧ t.execmutex.ready = s.execmutex.ready
  lock : s.mutex.holder = some thread → t.mutex.holder = some thread ∧ t.pool_ = s.pool_
  made : s.pool_ ≠ none → t.pool_ ≠ none
  held : t.held thread = s.held thread

theorem At.frame {s t : PoolThreads} {thread : Nat} (hf : Frame s t thread) {p : PoolPoint}
    (h : s.At thread p) : t.At thread p := by
  cases p with
  | idle | entering => trivial
  | testing =>
      refine ⟨hf.init h.1, fun hnone => ?_⟩
      have hpool : s.pool_ = none := by
        by_contra hsome
        exact hf.made hsome hnone
      obtain ⟨-, hready, hexec⟩ := hf.untouched h.1 hpool
      rw [hready, hexec]
      exact h.2 hpool
  | preparing =>
      obtain ⟨hpool, hready, hexec⟩ := hf.untouched h.1 h.2.1
      exact ⟨hf.init h.1, hpool, hready.trans h.2.2.1, hexec.trans h.2.2.2⟩
  | preparingExec =>
      obtain ⟨hpool, hready, hexec⟩ := hf.untouched h.1 h.2.1
      exact ⟨hf.init h.1, hpool, hready.trans h.2.2.1, hexec.trans h.2.2.2⟩
  | creating =>
      obtain ⟨hpool, hready, -⟩ := hf.untouched h.1 h.2.1
      exact ⟨hf.init h.1, hpool, hready.trans h.2.2⟩
  | leaving => exact ⟨hf.init h.1, hf.made h.2⟩
  | waiting => exact hf.made h
  | scanning i =>
      obtain ⟨hholder, hpool⟩ := hf.lock h.1
      exact ⟨hholder, hf.made h.2.1, fun j x hj hx => h.2.2 j x hj (slot_congr hpool j ▸ hx)⟩
  | found conn => exact ⟨(hf.lock h.1).1, hf.held ▸ h.2⟩
  | missed =>
      obtain ⟨hholder, hpool⟩ := hf.lock h.1
      exact ⟨hholder, hf.made h.2.1, fun j x hx => h.2.2 j x (slot_congr hpool j ▸ hx)⟩
  | releasing conn =>
      change conn ∈ t.held thread
      rw [hf.held]
      exact h
  | searching conn i =>
      obtain ⟨hholder, hpool⟩ := hf.lock h.1
      exact ⟨hholder, hf.held ▸ h.2.1, fun j x hj hx => h.2.2 j x hj (slot_congr hpool j ▸ hx)⟩
  | released conn =>
      obtain ⟨hholder, hpool⟩ := hf.lock h.1
      obtain ⟨i, x, hx, hsame⟩ := h.2
      exact ⟨hholder, i, x, (slot_congr hpool i).trans hx, hsame⟩

theorem Frame.refl (s : PoolThreads) (thread : Nat) : Frame s s thread :=
  ⟨id, fun _ h => ⟨h, rfl, rfl⟩, fun h => ⟨h, rfl⟩, id, rfl⟩

theorem At.goto {s : PoolThreads} {thread u : Nat} {p q : PoolPoint} (h : s.At u q) :
    (s.goto thread p).At u q := by
  cases q <;> exact h

theorem goto_point_self (s : PoolThreads) (thread : Nat) (p : PoolPoint) :
    (s.goto thread p).point thread = p := by
  simp only [goto, Function.update_self]

theorem goto_point_of_ne {s : PoolThreads} {thread u : Nat} {p : PoolPoint} (h : u ≠ thread) :
    (s.goto thread p).point u = s.point u := by
  simp only [goto, Function.update_of_ne h]

theorem Stored.goto {s : PoolThreads} (h : s.Stored) (thread : Nat) (p : PoolPoint) :
    (s.goto thread p).Stored :=
  ⟨h.initReady, h.untouched, h.ready, h.unlocked, h.pools, h.exists_slot, h.slot_lt, h.apart,
    h.flag, h.exclusive, h.owned⟩

/-- A thread changes what it may, and goes on. -/
theorem Sound.moves {s t : PoolThreads} {thread : Nat} {p : PoolPoint} (hs : s.Sound)
    (ht : t.Stored) (hpoint : t.point = s.point) (hat : t.At thread p)
    (hframe : ∀ u, u ≠ thread → Frame s t u) : (t.goto thread p).Sound := by
  refine ⟨ht.goto thread p, fun u => ?_⟩
  by_cases hu : u = thread
  · subst hu
    rw [goto_point_self]
    exact hat.goto
  · rw [goto_point_of_ne hu, hpoint]
    exact ((hs.points u).frame (hframe u hu)).goto

theorem Sound.goto {s : PoolThreads} {thread : Nat} {p : PoolPoint} (hs : s.Sound)
    (hat : s.At thread p) : (s.goto thread p).Sound :=
  hs.moves hs.stored rfl hat fun u _ => .refl s u

section Locks

variable {s : PoolThreads} {thread : Nat} {p : PoolPoint}

/-- Results of a step: the only ways to stop are those of the constructors. -/
def Fine (c : Except PoolStop PoolThreads) : Prop :=
  (∃ t, c = .ok t ∧ t.Sound) ∨ c = .error .exits ∨ c = .error .badArrayLength

theorem Sound.fine (hs : s.Sound) : Fine (.ok s) := .inl ⟨s, rfl, hs⟩

theorem Stored.withInit (h : s.Stored) {m : Mutex} (hready : m.ready = true)
    (hfree : m.holder = none → s.pool_ = none →
      s.mutex.ready = false ∧ s.execmutex.ready = false) : { s with initmutex := m }.Stored :=
  ⟨hready, hfree, h.ready, h.unlocked, h.pools, h.exists_slot, h.slot_lt, h.apart, h.flag,
    h.exclusive, h.owned⟩

theorem Stored.withMutex (h : s.Stored) {m : Mutex}
    (hready : m.ready = s.mutex.ready ∨ (m.ready = true ∧ s.initmutex.holder ≠ none))
    (hholder : s.pool_ = none → m.holder = none) : { s with mutex := m }.Stored := by
  refine ⟨h.initReady, fun hfree hpool => ?_, fun hpool => ?_, hholder, h.pools, h.exists_slot,
    h.slot_lt, h.apart, h.flag, h.exclusive, h.owned⟩
  · cases hready with
    | inl hsame => exact ⟨hsame.trans (h.untouched hfree hpool).1, (h.untouched hfree hpool).2⟩
    | inr hinit => exact absurd hfree hinit.2
  · cases hready with
    | inl hsame => exact hsame.trans (h.ready hpool)
    | inr hinit => exact hinit.1

/-- Whoever gets initmutex finds the Pool either made or not begun with. -/
theorem Sound.lockInit (hs : s.Sound)
    (hat : s.initmutex.holder = none →
      { s with initmutex := ⟨true, some thread⟩ }.At thread p) : Fine (s.lockInit thread p) := by
  simp only [PoolThreads.lockInit, Mutex.lock, hs.stored.initReady, Bool.not_true,
    Bool.false_eq_true, if_false]
  split
  · rename_i hfree
    have hstored : { s with initmutex := ⟨true, some thread⟩ }.Stored :=
      hs.stored.withInit rfl fun h => by cases h
    refine (hs.moves hstored rfl (hat hfree) fun u _ => ?_).fine
    refine ⟨fun h => ?_, fun h => ?_, fun h => ⟨h, rfl⟩, id, rfl⟩
    · cases hfree.symm.trans h
    · cases hfree.symm.trans h
  · exact hs.fine

theorem Sound.lock (hs : s.Sound) (hpool : s.pool_ ≠ none)
    (hat : { s with mutex := ⟨true, some thread⟩ }.At thread p) : Fine (s.lock thread p) := by
  have hready := hs.stored.ready hpool
  simp only [PoolThreads.lock, Mutex.lock, hready, Bool.not_true, Bool.false_eq_true, if_false]
  split
  · rename_i hfree
    have hstored : { s with mutex := ⟨true, some thread⟩ }.Stored :=
      hs.stored.withMutex (.inl hready.symm) fun h => absurd h hpool
    refine (hs.moves hstored rfl hat fun u _ => ?_).fine
    refine ⟨id, fun _ h => ⟨h, hready.symm, rfl⟩, fun h => ?_, id, rfl⟩
    cases hfree.symm.trans h
  · exact hs.fine

theorem Sound.unlock (hs : s.Sound) (hholder : s.mutex.holder = some thread)
    (hat : { s with mutex := ⟨s.mutex.ready, none⟩ }.At thread p) : Fine (s.unlock thread p) := by
  simp only [PoolThreads.unlock, Mutex.unlock, if_pos hholder]
  have hstored : { s with mutex := ⟨s.mutex.ready, none⟩ }.Stored :=
    hs.stored.withMutex (.inl rfl) fun _ => rfl
  refine (hs.moves hstored rfl hat fun u hu => ?_).fine
  refine ⟨id, fun _ h => ⟨h, rfl, rfl⟩, fun h => ?_, id, rfl⟩
  exact absurd (Option.some.inj (hholder.symm.trans h)).symm hu

end Locks

section Creation

variable {s : PoolThreads} {thread : Nat}

/-- A thread that holds initmutex keeps the others out of the creation. -/
theorem Frame.of_init {t : PoolThreads} {u : Nat} (hholder : s.initmutex.holder = some thread)
    (hu : u ≠ thread) (hlock : s.mutex.holder = some u → t.mutex.holder = some u ∧
      t.pool_ = s.pool_)
    (hmade : s.pool_ ≠ none → t.pool_ ≠ none) (hheld : t.held = s.held) : Frame s t u := by
  have hnot : s.initmutex.holder ≠ some u := by
    rw [hholder]
    exact fun h => hu (Option.some.inj h).symm
  exact ⟨fun h => absurd h hnot, fun h => absurd h hnot, hlock, hmade, congrFun hheld u⟩

theorem slot_withPool {i : Nat} {x : Slot} :
    s.withPool.slot i = .ok x ↔ i < s.poolSize_.toNat ∧ x = ⟨s.connections + i, false⟩ := by
  rw [slot_eq_ok]
  simp only [withPool, Option.some.injEq, exists_eq_left', List.getElem?_map,
    Option.map_eq_some_iff]
  constructor
  · rintro ⟨j, hj, rfl⟩
    obtain ⟨hlt, heq⟩ := List.getElem?_eq_some_iff.mp hj
    rw [List.getElem_range] at heq
    rw [List.length_range] at hlt
    exact ⟨hlt, by rw [heq]⟩
  · rintro ⟨hlt, rfl⟩
    exact ⟨i, List.getElem?_range hlt, rfl⟩

/-- A new Connection is held by nobody. -/
theorem Stored.withPool (h : s.Stored) (hpool : s.pool_ = none) (hready : s.mutex.ready = true) :
    s.withPool.Stored := by
  have hheld (u conn : Nat) : conn ∉ s.held u := fun hmem => by
    obtain ⟨i, x, hx, -⟩ := h.owned hmem
    exact pool_of_slot hx hpool
  refine ⟨h.initReady, fun _ hnone => ?_, fun _ => hready, fun hnone => ?_, ?_, fun _ i hi => ?_,
    fun {i x} hx => ?_, fun {i j x y} hx hy hsame => ?_, fun {i x} hx => ?_, h.exclusive,
    fun {u conn} hmem => absurd hmem (hheld u conn)⟩
  · cases hnone
  · cases hnone
  · have hpools := h.pools
    rw [if_pos hpool] at hpools
    rw [PoolThreads.withPool, hpools, if_neg (Option.some_ne_none _)]
  · exact ⟨_, slot_withPool.mpr ⟨(Int.lt_toNat).mpr hi, rfl⟩⟩
  · exact Int.lt_toNat.mp (slot_withPool.mp hx).1
  · obtain ⟨-, rfl⟩ := slot_withPool.mp hx
    obtain ⟨-, rfl⟩ := slot_withPool.mp hy
    exact Nat.add_left_cancel hsame
  · obtain ⟨-, rfl⟩ := slot_withPool.mp hx
    refine iff_of_false Bool.false_ne_true ?_
    rintro ⟨u, hmem⟩
    exact hheld u _ hmem

theorem Sound.prepare (hs : s.Sound) (hat : s.At thread .preparing) :
    Fine (s.mutex.init >>= fun m => .ok ({ s with mutex := m }.goto thread .preparingExec)) := by
  obtain ⟨hholder, hpool, hready, hexec⟩ := hat
  have hinit : s.mutex.init = .ok ⟨true, none⟩ := by
    rw [Mutex.init, hready]
    rfl
  have hstored : { s with mutex := ⟨true, none⟩ }.Stored :=
    hs.stored.withMutex (.inr ⟨rfl, by rw [hholder]; exact Option.some_ne_none _⟩) fun _ => rfl
  have hat : { s with mutex := ⟨true, none⟩ }.At thread .preparingExec :=
    ⟨hholder, hpool, rfl, hexec⟩
  rw [hinit, ok_bind]
  refine (hs.moves hstored rfl hat fun u hu => ?_).fine
  refine .of_init hholder hu (fun h => ?_) id rfl
  rw [hs.stored.unlocked hpool] at h
  cases h

theorem Sound.prepareExec (hs : s.Sound) (hat : s.At thread .preparingExec) :
    Fine (s.execmutex.init >>= fun m => .ok ({ s with execmutex := m }.goto thread .creating)) := by
  obtain ⟨hholder, hpool, hready, hexec⟩ := hat
  have hinit : s.execmutex.init = .ok ⟨true, none⟩ := by
    rw [Mutex.init, hexec]
    rfl
  have hst := hs.stored
  have hstored : { s with execmutex := ⟨true, none⟩ }.Stored :=
    ⟨hst.initReady, fun hfree _ => absurd (hholder.symm.trans hfree) (Option.some_ne_none _),
      hst.ready, hst.unlocked, hst.pools, hst.exists_slot, hst.slot_lt, hst.apart, hst.flag,
      hst.exclusive, hst.owned⟩
  have hat : { s with execmutex := ⟨true, none⟩ }.At thread .creating := ⟨hholder, hpool, hready⟩
  rw [hinit, ok_bind]
  refine (hs.moves hstored rfl hat fun u hu => ?_).fine
  exact .of_init hholder hu (fun h => ⟨h, rfl⟩) id rfl

theorem Sound.leave (hs : s.Sound) (hat : s.At thread .leaving) :
    Fine (s.initmutex.unlock thread >>= fun m =>
      .ok ({ s with initmutex := m }.goto thread .waiting)) := by
  obtain ⟨hholder, hpool⟩ := hat
  have hstored : { s with initmutex := ⟨s.initmutex.ready, none⟩ }.Stored :=
    hs.stored.withInit hs.stored.initReady fun _ h => absurd h hpool
  have hat : { s with initmutex := ⟨s.initmutex.ready, none⟩ }.At thread .waiting := hpool
  rw [Mutex.unlock, if_pos hholder, ok_bind]
  refine (hs.moves hstored rfl hat fun u hu => ?_).fine
  exact .of_init hholder hu (fun h => ⟨h, rfl⟩) id rfl

theorem Sound.create (hs : s.Sound) {connected : Bool} (hat : s.At thread .creating) :
    Fine (s.create connected >>= fun t => .ok (t.goto thread .leaving)) := by
  obtain ⟨hholder, hpool, hready⟩ := hat
  unfold PoolThreads.create
  split
  · exact .inr (.inr rfl)
  · split
    · exact .inr (.inl rfl)
    · have hmade : s.withPool.pool_ ≠ none := Option.some_ne_none _
      have hat : s.withPool.At thread .leaving := ⟨hholder, hmade⟩
      refine (hs.moves (hs.stored.withPool hpool hready) rfl hat fun u hu => ?_).fine
      refine .of_init hholder hu (fun h => ?_) (fun _ => hmade) rfl
      rw [hs.stored.unlocked hpool] at h
      cases h

end Creation

section Loops

variable {s : PoolThreads} {thread conn i : Nat} {x : Slot}

/-- A thread that holds mutex keeps the others away from the slots. -/
theorem Frame.of_lock {t : PoolThreads} {u : Nat} (hholder : s.mutex.holder = some thread)
    (hu : u ≠ thread) (hmade : s.pool_ ≠ none) (hmade' : t.pool_ ≠ none)
    (hinit : t.initmutex = s.initmutex) (hheld : t.held u = s.held u) : Frame s t u := by
  have hnot : s.mutex.holder ≠ some u := by
    rw [hholder]
    exact fun h => hu (Option.some.inj h).symm
  exact ⟨fun h => hinit ▸ h, fun _ h => absurd h hmade, fun h => absurd h hnot, fun _ => hmade',
    hheld⟩

/-- A slot gets the flag that goes with its connection, and no other connection changes
hands. -/
theorem Stored.mark (h : s.Stored) (hx : s.slot i = .ok x) {b : Bool} {held : Nat → List Nat}
    (hexclusive : Exclusive held) (hself : b = true ↔ ∃ u, x.first ∈ held u)
    (hothers : ∀ c, c ≠ x.first → ∀ u, c ∈ held u ↔ c ∈ s.held u) :
    { s.setSecond i b with held := held }.Stored := by
  have hpool := pool_of_slot hx
  have hslot {j : Nat} {y : Slot} (hy : { s.setSecond i b with held := held }.slot j = .ok y) :
      ∃ z, s.slot j = .ok z ∧ y.first = z.first ∧ y.second = if i = j then b else z.second := by
    obtain ⟨z, hz, rfl⟩ := slot_setSecond.mp hy
    split
    · exact ⟨z, hz, rfl, rfl⟩
    · exact ⟨z, hz, rfl, rfl⟩
  refine ⟨h.initReady, fun _ hnone => absurd (setSecond_pool.mp hnone) hpool,
    fun _ => h.ready hpool,
    fun hnone => absurd (setSecond_pool.mp hnone) hpool, ?_, fun _ j hj => ?_, fun {j y} hy => ?_,
    fun {j k y y'} hy hy' hsame => ?_, fun {j y} hy => ?_, hexclusive, fun {u c} hmem => ?_⟩
  · have hsome : { s.setSecond i b with held := held }.pool_ ≠ none := mt setSecond_pool.mp hpool
    rw [if_neg hsome]
    exact h.pools.trans (if_neg hpool)
  · obtain ⟨z, hz⟩ := h.exists_slot hpool j hj
    exact ⟨_, slot_setSecond.mpr ⟨z, hz, rfl⟩⟩
  · obtain ⟨z, hz, -⟩ := hslot hy
    exact h.slot_lt hz
  · obtain ⟨z, hz, hfirst, -⟩ := hslot hy
    obtain ⟨z', hz', hfirst', -⟩ := hslot hy'
    exact h.apart hz hz' (hfirst ▸ hfirst' ▸ hsame)
  · obtain ⟨z, hz, hfirst, hsecond⟩ := hslot hy
    rw [hfirst, hsecond]
    split
    · rename_i hij
      subst hij
      cases hx.symm.trans hz
      exact hself
    · rename_i hij
      have hne : z.first ≠ x.first := fun hsame => hij (h.apart hx hz hsame.symm)
      rw [h.flag hz]
      exact exists_congr fun u => (hothers z.first hne u).symm
  · by_cases hc : c = x.first
    · exact ⟨i, _, slot_setSecond.mpr ⟨x, hx, rfl⟩, by rw [if_pos rfl, hc]⟩
    · obtain ⟨j, z, hz, rfl⟩ := h.owned ((hothers c hc u).mp hmem)
      refine ⟨j, _, slot_setSecond.mpr ⟨z, hz, rfl⟩, ?_⟩
      split <;> rfl

/-- The slot is marked and its connection is the thread's in one step. -/
theorem Stored.take (h : s.Stored) (hx : s.slot i = .ok x) (hfree : x.second = false) :
    ((s.setSecond i true).take thread x.first).Stored := by
  have hnobody (u : Nat) : x.first ∉ s.held u := fun hmem => by
    rw [(h.flag hx).mpr ⟨u, hmem⟩] at hfree
    cases hfree
  refine h.mark hx (h.exclusive.take hnobody) (iff_of_true rfl ⟨thread, ?_⟩) fun c hc u => ?_
  · exact Exclusive.mem_take.mpr (.inl ⟨rfl, rfl⟩)
  · refine Exclusive.mem_take.trans (or_iff_right ?_)
    exact fun hnew => hc hnew.2

theorem Stored.giveBack (h : s.Stored) (hx : s.slot i = .ok x) (hheld : x.first ∈ s.held thread) :
    ((s.setSecond i false).giveBack thread x.first).Stored := by
  refine h.mark hx h.exclusive.giveBack (iff_of_false Bool.false_ne_true ?_) fun c hc u => ?_
  · rintro ⟨u, hmem⟩
    exact h.exclusive.not_mem_giveBack hheld u hmem
  · refine h.exclusive.mem_giveBack.trans (and_iff_left ?_)
    exact fun hgone => hc hgone.2

theorem Sound.scan (hs : s.Sound) (hat : s.At thread (.scanning i)) : Fine (s.scan thread i) := by
  obtain ⟨hholder, hpool, hbusy⟩ := hat
  unfold PoolThreads.scan
  split
  · rename_i hlt
    obtain ⟨x, hx⟩ := hs.stored.exists_slot hpool i hlt
    rw [hx, ok_bind]
    split
    · rename_i hfree
      have hsome : ((s.setSecond i true).take thread x.first).pool_ ≠ none :=
        mt setSecond_pool.mp hpool
      have hat : ((s.setSecond i true).take thread x.first).At thread (.found x.first) :=
        ⟨hholder, Exclusive.mem_take.mpr (.inl ⟨rfl, rfl⟩)⟩
      refine (hs.moves (hs.stored.take hx hfree) rfl hat fun u hu => ?_).fine
      exact .of_lock hholder hu hpool hsome rfl (Function.update_of_ne hu _ _)
    · rename_i hset
      refine (hs.goto (show s.At thread (.scanning (i + 1))
        from ⟨hholder, hpool, fun j y hj hy => ?_⟩)).fine
      cases Nat.lt_or_eq_of_le (Nat.le_of_lt_succ hj) with
      | inl hlt => exact hbusy j y hlt hy
      | inr heq =>
          subst heq
          cases hx.symm.trans hy
          exact Bool.not_eq_false _ ▸ hset
  · rename_i hend
    refine (hs.goto (show s.At thread .missed from ⟨hholder, hpool, fun j y hy => ?_⟩)).fine
    have := hs.stored.slot_lt hy
    exact hbusy j y (by omega) hy

theorem Sound.search (hs : s.Sound) (hat : s.At thread (.searching conn i)) :
    Fine (s.search thread conn i) := by
  obtain ⟨hholder, hheld, hothers⟩ := hat
  obtain ⟨k, z, hz, hfirst⟩ := hs.stored.owned hheld
  have hpool := pool_of_slot hz
  have hk : i ≤ k := by
    by_contra hlt
    exact hothers k z (Nat.lt_of_not_le hlt) hz hfirst
  have hlt : (i : Int) < s.poolSize_ := by
    have := hs.stored.slot_lt hz
    omega
  obtain ⟨x, hx⟩ := hs.stored.exists_slot hpool i hlt
  unfold PoolThreads.search
  rw [if_pos hlt, hx, ok_bind]
  split
  · rename_i hconn
    subst hconn
    have hsome : ((s.setSecond i false).giveBack thread x.first).pool_ ≠ none :=
      mt setSecond_pool.mp hpool
    have hat : ((s.setSecond i false).giveBack thread x.first).At thread (.released x.first) :=
      ⟨hholder, i, _, slot_setSecond.mpr ⟨x, hx, rfl⟩, by rw [if_pos rfl], by rw [if_pos rfl]⟩
    refine (hs.moves (hs.stored.giveBack hx hheld) rfl hat fun u hu => ?_).fine
    exact .of_lock hholder hu hpool hsome rfl (Function.update_of_ne hu _ _)
  · rename_i hne
    refine (hs.goto (show s.At thread (.searching conn (i + 1)) from
      ⟨hholder, hheld, fun j y hj hy => ?_⟩)).fine
    cases Nat.lt_or_eq_of_le (Nat.le_of_lt_succ hj) with
    | inl hlt => exact hothers j y hlt hy
    | inr heq =>
        subst heq
        cases hx.symm.trans hy
        exact hne

end Loops

section Runs

variable {s t : PoolThreads}

theorem new_sound (poolSize : Int) : (new poolSize).Sound := by
  have hslot {i : Nat} {x : Slot} (h : (new poolSize).slot i = .ok x) : False := by cases h
  exact ⟨⟨rfl, fun _ _ => ⟨rfl, rfl⟩, fun h => absurd rfl h, fun _ => rfl, rfl,
    fun h => absurd rfl h,
    fun h => (hslot h).elim, fun h => (hslot h).elim, fun h => (hslot h).elim, exclusive_empty,
    fun h => absurd h List.not_mem_nil⟩, fun _ => trivial⟩

theorem step_fine (hs : s.Sound) (thread : Nat) (connected : Bool) :
    Fine (s.step thread connected) := by
  have hat := hs.points thread
  unfold step
  split
  · exact hs.fine
  · refine hs.lockInit fun hfree => ⟨rfl, fun hnone => hs.stored.untouched hfree hnone⟩
  · rename_i hpoint
    rw [hpoint] at hat
    refine (hs.goto ?_).fine
    split
    · rename_i hnone
      exact ⟨hat.1, hnone, hat.2 hnone⟩
    · rename_i hsome
      exact ⟨hat.1, hsome⟩
  · rename_i hpoint
    exact hs.prepare (hpoint ▸ hat)
  · rename_i hpoint
    exact hs.prepareExec (hpoint ▸ hat)
  · rename_i hpoint
    exact hs.create (hpoint ▸ hat)
  · rename_i hpoint
    exact hs.leave (hpoint ▸ hat)
  · rename_i hpoint
    rw [hpoint] at hat
    exact hs.lock hat ⟨rfl, hat, fun j x hj => absurd hj (Nat.not_lt_zero j)⟩
  · rename_i hpoint
    exact hs.scan (hpoint ▸ hat)
  · rename_i hpoint
    rw [hpoint] at hat
    exact hs.unlock hat.1 trivial
  · rename_i hpoint
    rw [hpoint] at hat
    exact hs.unlock hat.1 hat.2.1
  · rename_i hpoint
    rw [hpoint] at hat
    obtain ⟨i, x, hx, -⟩ := hs.stored.owned hat
    exact hs.lock (pool_of_slot hx) ⟨rfl, hat, fun j x hj => absurd hj (Nat.not_lt_zero j)⟩
  · rename_i hpoint
    exact hs.search (hpoint ▸ hat)
  · rename_i hpoint
    rw [hpoint] at hat
    exact hs.unlock hat.1 trivial

theorem exec_fine (hs : s.Sound) {call : PoolCall} (horderly : s.Orderly call) :
    Fine (s.exec call) := by
  cases call with
  | getConnection thread =>
      rw [exec]
      split
      · exact (hs.goto (show s.At thread .entering from trivial)).fine
      · exact hs.fine
  | releaseConnection thread conn =>
      rw [exec]
      split
      · exact (hs.goto (show s.At thread (.releasing conn) from horderly)).fine
      · exact hs.fine
  | step thread connected => exact step_fine hs thread connected

/-- The loop from a slot on, by induction on the busy slots before a free one. -/
theorem scan_reaches (connected : Bool) {thread k n : Nat} {y : Slot}
    (hpoint : s.point thread = .scanning k) (hsize : (k + n : Nat) < s.poolSize_)
    (hbusy : ∀ m, m < n → ∃ x, s.slot (k + m) = .ok x ∧ x.second = true)
    (hy : s.slot (k + n) = .ok y) (hfree : y.second = false) :
    ∃ t, run exec s (List.replicate (n + 1) (.step thread connected)) = .ok t ∧
      t.point thread = .found y.first ∧ y.first ∈ t.held thread := by
  have hstep : s.exec (.step thread connected) = s.scan thread k := by
    simp only [exec, step, hpoint]
  have hlt : (k : Int) < s.poolSize_ := by omega
  induction n generalizing s k with
  | zero =>
      have hscan : s.scan thread k =
          .ok (((s.setSecond k true).take thread y.first).goto thread (.found y.first)) := by
        rw [PoolThreads.scan, if_pos hlt, show s.slot k = .ok y from hy, ok_bind, if_pos hfree]
        rfl
      refine ⟨_, run_cons_ok.mpr ⟨_, hstep.trans hscan, rfl⟩, goto_point_self _ _ _, ?_⟩
      exact Exclusive.mem_take.mpr (.inl ⟨rfl, rfl⟩)
  | succ n ih =>
      obtain ⟨x, hx, hset⟩ := hbusy 0 (Nat.succ_pos n)
      have hscan : s.scan thread k = .ok (s.goto thread (.scanning (k + 1))) := by
        rw [PoolThreads.scan, if_pos hlt, show s.slot k = .ok x from hx, ok_bind,
          if_neg (by rw [hset]; decide)]
        rfl
      have hshift (m : Nat) : k + 1 + m = k + (m + 1) := by omega
      have hpoint' := goto_point_self s thread (.scanning (k + 1))
      obtain ⟨t, hrun, hfound⟩ := ih hpoint'
        (by rw [hshift]; exact hsize) (fun m hm => by rw [hshift]; exact hbusy (m + 1) (by omega))
        (by rw [hshift]; exact hy) (by simp only [exec, step, hpoint'])
        (by
          change ((k + 1 : Nat) : Int) < s.poolSize_
          omega)
      exact ⟨t, run_cons_ok.mpr ⟨_, hstep.trans hscan, hrun⟩, hfound⟩

theorem Sound.heldApart (hs : s.Sound) : s.HeldApart := by
  have hst := hs.stored
  refine ⟨fun vec hvec x hx => ?_, fun _ _ _ h h' => hst.exclusive.unique h h',
    hst.exclusive.nodup, ?_, fun thread hpast => ?_⟩
  · obtain ⟨i, hi⟩ := List.mem_iff_getElem?.mp hx
    exact hst.flag (slot_eq_ok.mpr ⟨vec, hvec, hi⟩)
  · rw [hst.pools]
    split <;> decide
  · have hheld {conn : Nat} (hmem : conn ∈ s.held thread) : s.pool_ ≠ none := by
      obtain ⟨i, x, hx, -⟩ := hst.owned hmem
      exact pool_of_slot hx
    rw [hst.pools, if_neg]
    have hat := hs.points thread
    rw [PastCreation] at hpast
    cases hpoint : s.point thread with
    | idle =>
        simp only [hpoint] at hpast
        obtain ⟨conn, hmem⟩ := List.exists_mem_of_ne_nil _ hpast
        exact hheld hmem
    | entering | testing | preparing | preparingExec | creating =>
        simp only [hpoint] at hpast
    | leaving => exact (hpoint ▸ hat : s.At thread .leaving).2
    | waiting => exact (hpoint ▸ hat : s.At thread .waiting)
    | scanning i => exact (hpoint ▸ hat : s.At thread (.scanning i)).2.1
    | found conn => exact hheld (hpoint ▸ hat : s.At thread (.found conn)).2
    | missed => exact (hpoint ▸ hat : s.At thread .missed).2.1
    | releasing conn => exact hheld (hpoint ▸ hat : s.At thread (.releasing conn))
    | searching conn i => exact hheld (hpoint ▸ hat : s.At thread (.searching conn i)).2.1
    | released conn =>
        obtain ⟨-, i, x, hx, -⟩ := (hpoint ▸ hat : s.At thread (.released conn))
        exact pool_of_slot hx

theorem Sound.serves (hs : s.Sound) : s.Serves := by
  have hst := hs.stored
  refine ⟨fun thread conn hpoint => ?_, fun thread hpoint => ?_,
    fun thread connected hpoint hmutex i x hx hfree => ?_⟩
  · exact (hpoint ▸ hs.points thread : s.At thread (.released conn)).2
  · exact (hpoint ▸ hs.points thread : s.At thread .missed).2.2
  · classical
    have hexists : ∃ j y, s.slot j = .ok y ∧ y.second = false := ⟨i, x, hx, hfree⟩
    obtain ⟨y, hy, hyfree⟩ := Nat.find_spec hexists
    have hle : Nat.find hexists ≤ i := Nat.find_min' hexists ⟨x, hx, hfree⟩
    have hpool := pool_of_slot hx
    have hlock : s.exec (.step thread connected) =
        .ok ({ s with mutex := ⟨true, some thread⟩ }.goto thread (.scanning 0)) := by
      simp only [exec, step, hpoint, PoolThreads.lock, Mutex.lock, hst.ready hpool, hmutex,
        Bool.not_true, Bool.false_eq_true, if_false, if_true]
      rfl
    have hbusy (m : Nat) (hm : m < Nat.find hexists) : ∃ z, s.slot m = .ok z ∧ z.second = true := by
      have hlt := hst.slot_lt hy
      obtain ⟨z, hz⟩ := hst.exists_slot hpool m (by omega)
      refine ⟨z, hz, ?_⟩
      by_contra hset
      exact Nat.find_min hexists hm ⟨z, hz, Bool.not_eq_true _ ▸ hset⟩
    obtain ⟨t, hrun, hfound⟩ := scan_reaches connected
      (goto_point_self { s with mutex := ⟨true, some thread⟩ } thread (.scanning 0))
      (n := Nat.find hexists) (by rw [Nat.zero_add]; exact hst.slot_lt hy)
      (fun m hm => by rw [Nat.zero_add]; exact hbusy m hm) (by rw [Nat.zero_add]; exact hy) hyfree
    exact ⟨Nat.find hexists, y, t, hle, hy, hyfree, run_cons_ok.mpr ⟨_, hlock, hrun⟩, hfound⟩

/-- In every run of getConnection and releaseConnection in which threads release what
they hold, for any number of threads and in any order of their steps, the flags are
those of the held connections, each of which has one holder, what was released is found
again, and one Pool is created. The process ends only in the constructors. -/
theorem connections_exclusive {poolSize : Int} {calls : List PoolCall}
    (h : Respects exec Orderly (new poolSize) calls) :
    (∀ e, run exec (new poolSize) calls = .error e → e = .exits ∨ e = .badArrayLength) ∧
      Always exec (fun s => s.HeldApart ∧ s.Serves) (new poolSize) calls := by
  have hstep (s : PoolThreads) (call : PoolCall) (t : PoolThreads) (hs : s.Sound)
      (horderly : s.Orderly call) (ht : s.exec call = .ok t) : t.Sound := by
    rcases exec_fine hs horderly with ⟨t', ht', hsound⟩ | hstop | hstop
    · cases ht.symm.trans ht'
      exact hsound
    · cases ht.symm.trans hstop
    · cases ht.symm.trans hstop
  refine ⟨fun e he => ?_, always_of_respects (fun s hs => ⟨hs.heldApart, hs.serves⟩) hstep
    (new_sound poolSize) h⟩
  by_contra hother
  refine run_avoids_of_invariant hstep (fun s call hs horderly herror => ?_)
    (new_sound poolSize) h he
  rcases exec_fine hs horderly with ⟨t', ht', -⟩ | hstop | hstop
  · cases herror.symm.trans ht'
  · cases herror.symm.trans hstop
    exact hother (.inl rfl)
  · cases herror.symm.trans hstop
    exact hother (.inr rfl)

/-- Two threads and one connection: the second one waits for the release. -/
theorem connections_exclusive_handover :
    let steps (thread n : Nat) : List PoolCall := List.replicate n (.step thread true)
    let calls : List PoolCall := .getConnection 1 :: .getConnection 2 :: steps 1 9 ++ steps 2 5 ++
      .releaseConnection 1 0 :: steps 1 1 ++ steps 2 2 ++ steps 1 3 ++ steps 2 3
    (∃ s, run exec (new 1) calls = .ok s ∧ s.held 1 = [] ∧ s.held 2 = [0]) ∧
      Always exec (fun s => s.HeldApart ∧ s.Serves) (new 1) calls := by
  intro steps calls
  have hgiven : resultHolds (fun s : PoolThreads => s.held 1 = [] ∧ s.held 2 = [0])
      (run exec (new 1) calls) = true := by decide +kernel
  exact ⟨resultHolds_iff.mp hgiven,
    (connections_exclusive (show Respects exec Orderly (new 1) calls by decide +kernel)).2⟩

end Runs

end PoolThreads
end TAlib
