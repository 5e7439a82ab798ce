import Mathlib.Data.Nat.Find
import TAlib.Redis.ConnectPool
import TAlib.Redis.Lending

/-!
One visit to the pool of connections. While no connection is idle, an attempt
finds a free slot or none, and the creator decides what get() returns: the first
connection it makes before the time is up. A connection that is rejected leaves
the pool as it was, with a place for the next one.
-/

namespace TAlib

open Foundation RedisConnect

namespace ResPool

/-- The slot has nothing to lend: it is free, or its resource is in use. -/
def Settled (others : List Resource) (vec : List Data) (item : Data) : Prop :=
  ∀ r, item.data = some r → useCount others vec none r ≠ 1

/-- The slot that the scan has chosen is free. -/
def Chosen (vec : List Data) (idx : Option Nat) : Prop :=
  ∀ i, idx = some i → ∃ item, vec[i]? = some item ∧ item.data = none

theorem Chosen.append {vec : List Data} {idx : Option Nat} (h : Chosen vec idx)
    (vec' : List Data) : Chosen (vec ++ vec') idx := by
  intro i hi
  obtain ⟨item, hitem, hdata⟩ := h i hi
  have hlt := (List.getElem?_eq_some_iff.mp hitem).1
  exact ⟨item, by rwa [List.getElem?_append_left hlt], hdata⟩

theorem chosen_last (vec : List Data) {item : Data} (h : item.data = none) :
    Chosen (vec ++ [item]) (some vec.length) := by
  rintro i ⟨⟩
  exact ⟨item, by simp, h⟩

theorem useCount_tmp {others : List Resource} {vec : List Data} {tmp : Option Resource}
    {r : Resource} (h : tmp ≠ some r) : useCount others vec tmp r = useCount others vec none r := by
  cases tmp with
  | none => rfl
  | some t =>
      have hne : t ≠ r := fun heq => h (heq ▸ rfl)
      simp [useCount, List.count_append, hne]

/-- The scan walks over settled slots and chooses the last free one. -/
theorem scan_settled (others : List Resource) (timeout now clock : Int) (mid rest : List Data) :
    ∀ (done : List Data) (idx : Option Nat), Chosen done idx →
      (∀ item ∈ mid, Settled others (done ++ mid ++ rest) item) →
      ∃ idx', scan others timeout now clock done none idx (mid ++ rest) =
          scan others timeout now clock (done ++ mid) none idx' rest ∧
        Chosen (done ++ mid) idx' ∧
        (idx' = none ↔ idx = none ∧ ∀ item ∈ mid, item.data ≠ none) := by
  induction mid with
  | nil =>
      intro done idx hidx _
      exact ⟨idx, by simp, by simpa using hidx, by simp⟩
  | cons item mid ih =>
      intro done idx hidx hsettled
      have hvec : done ++ item :: mid = done ++ [item] ++ mid := by simp
      rw [hvec] at hsettled ⊢
      have hmid : ∀ item' ∈ mid, Settled others (done ++ [item] ++ mid ++ rest) item' :=
        fun item' h => hsettled item' (List.mem_cons_of_mem _ h)
      cases hdata : item.data with
      | none =>
          obtain ⟨idx', hscan, hchosen, hnone⟩ := ih (done ++ [item]) (some done.length)
            (chosen_last done hdata) hmid
          refine ⟨idx', ?_, hchosen, ?_⟩
          · simp only [List.cons_append, scan, hdata]
            exact hscan
          · simp [hnone, hdata]
      | some r =>
          have hcount := hsettled item List.mem_cons_self r hdata
          obtain ⟨idx', hscan, hchosen, hnone⟩ := ih (done ++ [item]) idx
            (hidx.append [item]) hmid
          refine ⟨idx', ?_, hchosen, ?_⟩
          · simp only [List.cons_append, scan, hdata]
            rw [if_neg (by simpa using hcount)]
            exact hscan
          · simp [hnone, hdata]

/-- What the scan has dropped from the slots behind it makes no difference ahead. -/
theorem scan_tmp (others : List Resource) (timeout now clock : Int) (rest : List Data) :
    ∀ (done : List Data) (tmp : Option Resource) (idx : Option Nat),
      (∀ r ∈ slotRefs rest, tmp ≠ some r) →
      ∃ tmp', scan others timeout now clock done tmp idx rest =
        { scan others timeout now clock done none idx rest with tmp := tmp' } := by
  induction rest with
  | nil => exact fun done tmp idx _ => ⟨tmp, rfl⟩
  | cons item rest ih =>
      intro done tmp idx htmp
      have hrest : ∀ r ∈ slotRefs rest, tmp ≠ some r := by
        intro r hr
        refine htmp r ?_
        rw [slotRefs_cons]
        exact List.mem_append_right _ hr
      cases hdata : item.data with
      | none =>
          simp only [scan, hdata]
          exact ⟨_, rfl⟩
      | some r =>
          have hr : tmp ≠ some r := htmp r (by simp [slotRefs_cons, hdata])
          simp only [scan, hdata, useCount_tmp hr]
          split
          · exact ⟨_, rfl⟩
          · exact ih _ _ _ hrest

theorem dropSlot_split {r : Resource} {xs ys : List Data} {item : Data}
    (hxs : ∀ x ∈ xs, x.data ≠ some r) (hitem : item.data = some r) :
    dropSlot (some r) (xs ++ item :: ys) = xs ++ { item with data := none } :: ys := by
  induction xs with
  | nil => simp [dropSlot, hitem]
  | cons x xs ih =>
      have hx : some r ≠ x.data := fun h => hxs x List.mem_cons_self h.symm
      simp only [List.cons_append, dropSlot, if_neg hx]
      rw [ih fun y hy => hxs y (List.mem_cons_of_mem _ hy)]

theorem dropSlot_absent {r : Resource} {xs : List Data} (hxs : r ∉ slotRefs xs) :
    dropSlot (some r) xs = xs := by
  induction xs with
  | nil => rfl
  | cons x xs ih =>
      simp only [slotRefs_cons, List.mem_append, not_or] at hxs
      have hx : some r ≠ x.data := fun h => hxs.1 (by simp [← h])
      simp only [dropSlot, if_neg hx, ih hxs.2]

/-- A resource that no slot has yet is recorded and then disabled: the slots refer
to what they referred to, and the one used for it is free. -/
theorem record_disable {p : ResPool} {idx : Option Nat} {r : Resource}
    (hchosen : Chosen p.vec idx) (hfresh : r ∉ slotRefs p.vec) (clock : Int) :
    ∃ q, p.record idx r clock = .ok q ∧ q.maxlen = p.maxlen ∧ q.timeout = p.timeout ∧
      slotRefs (q.disable (some r)).vec = slotRefs p.vec ∧
      ((∃ item ∈ (q.disable (some r)).vec, item.data = none) ∨
        idx = none ∧ (q.disable (some r)).vec = p.vec) := by
  have hnot (x) (hx : x ∈ p.vec) : x.data ≠ some r := fun h => hfresh (mem_slotRefs.mpr ⟨x, hx, h⟩)
  have hupdate : (Data.update r clock).data = some r := rfl
  cases idx with
  | none =>
      simp only [record]
      split
      · refine ⟨_, rfl, rfl, rfl, ?_, .inl ?_⟩
        · simp only [disable, dropSlot_split hnot hupdate]
          simp [slotRefs]
        · simp only [disable, dropSlot_split hnot hupdate]
          exact ⟨_, List.mem_append_right _ List.mem_cons_self, rfl⟩
      · refine ⟨p, rfl, rfl, rfl, ?_, .inr ⟨trivial, ?_⟩⟩
        · simp only [disable, dropSlot_absent hfresh]
        · simp only [disable, dropSlot_absent hfresh]
  | some i =>
      obtain ⟨item, hitem, hdata⟩ := hchosen i rfl
      obtain ⟨hlt, hget⟩ := List.getElem?_eq_some_iff.mp hitem
      have hset : p.vec.set i (Data.update r clock) =
          p.vec.take i ++ Data.update r clock :: p.vec.drop (i + 1) :=
            List.set_eq_take_append_cons_drop ..
          |>.trans (if_pos hlt)
      have hvec : p.vec = p.vec.take i ++ item :: p.vec.drop (i + 1) := by
        rw [← hget, ← List.drop_eq_getElem_cons hlt, List.take_append_drop]
      have htake (x) (hx : x ∈ p.vec.take i) : x.data ≠ some r := hnot x (List.mem_of_mem_take hx)
      simp only [record, if_pos hlt]
      refine ⟨_, rfl, rfl, rfl, ?_, .inl ?_⟩
      · simp only [disable, hset, dropSlot_split htake hupdate]
        conv => rhs; rw [hvec]
        simp [slotRefs_append, slotRefs_cons, hdata]
      · simp only [disable, hset, dropSlot_split htake hupdate]
        exact ⟨_, List.mem_append_right _ List.mem_cons_self, rfl⟩

end ResPool

namespace ConnectPool

/-- The slot holds the only reference. -/
def Alone (w : ConnectPool) (r : Resource) : Prop :=
  ResPool.useCount w.others w.pool.vec none r = 1

instance (w : ConnectPool) (r : Resource) : Decidable (w.Alone r) :=
  inferInstanceAs (Decidable (_ = _))

/-- No place for a new connection: every slot's is in use, and maxlen is reached. -/
def Full (w : ConnectPool) : Prop :=
  w.pool.maxlen ≤ w.pool.vec.length ∧ ∀ item ∈ w.pool.vec, ∃ r ∈ item.data, ¬ w.Alone r

/-- References are to connections that were made; the static pool has a timeout. -/
structure Valid (w : ConnectPool) : Prop where
  slots : ∀ r ∈ ResPool.slotRefs w.pool.vec, r < w.conns.length
  others : ∀ r ∈ w.others, r < w.conns.length
  timeout : 0 < w.pool.timeout

/-- No connection is idle. -/
structure Exhausted (w : ConnectPool) : Prop where
  valid : w.Valid
  busy : ∀ r ∈ ResPool.slotRefs w.pool.vec, ¬ w.Alone r

theorem not_full_of_free {w : ConnectPool} (h : ∃ item ∈ w.pool.vec, item.data = none) :
    ¬ w.Full := by
  rintro ⟨-, hfull⟩
  obtain ⟨item, hitem, hdata⟩ := h
  obtain ⟨r, hr, -⟩ := hfull item hitem
  rw [hdata] at hr
  cases hr

/-- With no idle connection the scan finds a free slot or none. -/
theorem Exhausted.scan {w : ConnectPool} (hw : w.Exhausted) (now clock : Int) :
    ∃ idx, ResPool.scan w.others w.pool.timeout now clock [] none none w.pool.vec =
        ⟨w.pool.vec, none, idx, none⟩ ∧ ResPool.Chosen w.pool.vec idx ∧
      (idx = none ↔ ∀ item ∈ w.pool.vec, item.data ≠ none) := by
  have hsettled : ∀ item ∈ w.pool.vec, ResPool.Settled w.others ([] ++ w.pool.vec ++ []) item := by
    intro item hitem r hr
    rw [List.nil_append, List.append_nil]
    exact hw.busy r (ResPool.mem_slotRefs.mpr ⟨item, hitem, hr⟩)
  obtain ⟨idx, hscan, hchosen, hnone⟩ := ResPool.scan_settled w.others w.pool.timeout now clock
    w.pool.vec [] [] none nofun hsettled
  rw [List.append_nil] at hscan
  refine ⟨idx, hscan, hchosen, hnone.trans ?_⟩
  simp

theorem Exhausted.full_iff {w : ConnectPool} (hw : w.Exhausted) :
    w.Full ↔ (∀ item ∈ w.pool.vec, item.data ≠ none) ∧ w.pool.maxlen ≤ w.pool.vec.length := by
  refine ⟨fun h => ⟨fun item hitem hdata => ?_, h.1⟩, fun h => ⟨h.2, fun item hitem => ?_⟩⟩
  · exact not_full_of_free ⟨item, hitem, hdata⟩ h
  · obtain ⟨r, hr⟩ := Option.ne_none_iff_exists'.mp (h.1 item hitem)
    exact ⟨r, hr, hw.busy r (ResPool.mem_slotRefs.mpr ⟨item, hitem, hr⟩)⟩

variable {passwd : Bytes} {v : Visit} {i : Nat} {w : ConnectPool}

theorem attempt_full (hw : w.Exhausted) (hfull : w.Full) :
    w.attempt passwd v i = .ok (w, none) := by
  obtain ⟨idx, hscan, -, hnone⟩ := hw.scan (v.now i) (v.stamp i)
  obtain ⟨hslots, hlen⟩ := hw.full_iff.mp hfull
  simp only [attempt, hscan, setVec]
  rw [if_pos ⟨hnone.mpr hslots, hlen⟩]

theorem attempt_none (hw : w.Exhausted) (hdial : creator passwd (v.dial i) = none) :
    w.attempt passwd v i = .ok (w, none) := by
  obtain ⟨idx, hscan, -, -⟩ := hw.scan (v.now i) (v.stamp i)
  simp only [attempt, hscan, setVec, create, hdial]
  split
  · rfl
  · rfl

/-- With a place for it the new connection is handed out, and when it is rejected
the pool has nothing idle and a place as before. -/
theorem attempt_some (hw : w.Exhausted) (hplace : ¬ w.Full) {c : Connection}
    (hdial : creator passwd (v.dial i) = some c) :
    ∃ w', w.attempt passwd v i = .ok (w', some w.conns.length) ∧
      w'.errorCode w.conns.length = c.getErrorCode ∧
      (w'.reject w.conns.length).Exhausted ∧ ¬ (w'.reject w.conns.length).Full := by
  obtain ⟨idx, hscan, hchosen, hnone⟩ := hw.scan (v.now i) (v.stamp i)
  have hfresh : w.conns.length ∉ ResPool.slotRefs w.pool.vec := fun h =>
    Nat.lt_irrefl _ (hw.valid.slots _ h)
  obtain ⟨q, hrecord, hmaxlen, htimeout, hrefs, hfree⟩ :=
    ResPool.record_disable hchosen hfresh (v.stamp i)
  have hroom : ¬ (idx = none ∧ (w.pool.vec.length : Int) ≥ w.pool.maxlen) := fun h =>
    hplace (hw.full_iff.mpr ⟨hnone.mp h.1, h.2⟩)
  refine ⟨{ w with pool := q, conns := w.conns ++ [c] }, ?_, ?_, ⟨⟨?_, ?_, ?_⟩, ?_⟩, ?_⟩
  · simp only [attempt, hscan, setVec, if_neg hroom, create, hdial, hrecord, ok_bind]
    rfl
  · simp [errorCode]
  · intro r hr
    simp only [reject, hrefs] at hr ⊢
    rw [List.length_append]
    exact Nat.lt_add_right _ (hw.valid.slots r hr)
  · intro r hr
    simp only [reject, List.length_append, List.length_singleton] at hr ⊢
    cases List.mem_cons.mp hr with
    | inl heq => exact heq ▸ Nat.lt_succ_self _
    | inr hmem => exact Nat.lt_succ_of_lt (hw.valid.others r hmem)
  · simp only [reject, ResPool.disable, htimeout]
    exact hw.valid.timeout
  · intro r hr
    simp only [reject, hrefs] at hr
    have hne : w.conns.length ≠ r := fun heq => hfresh (heq ▸ hr)
    have hbusy := hw.busy r hr
    simp only [Alone, ResPool.useCount, reject, hrefs, Option.toList_none, List.append_nil,
      List.count_append] at hbusy ⊢
    rwa [List.count_cons_of_ne hne]
  · rcases hfree with hfree | ⟨hidx, hvec⟩
    · exact not_full_of_free hfree
    · rintro ⟨hlen, -⟩
      refine hroom ⟨hidx, ?_⟩
      simp only [reject, hvec] at hlen
      rw [← hmaxlen]
      exact hlen

/-- The creator answers in this visit with this connection: the attempts before
got nothing, and none of them was the last. -/
def Answers (passwd : Bytes) (v : Visit) (c : Connection) : Prop :=
  ∃ n, creator passwd (v.dial n) = some c ∧
    ∀ m < n, creator passwd (v.dial m) = none ∧ (1 ≤ m → v.after m ≤ v.after 0 + 3)

/-- The creator's first connection in this visit is one whose AUTH was rejected. -/
def Rejects (passwd : Bytes) (v : Visit) : Prop :=
  ∃ c, Answers passwd v c ∧ c.getErrorCode ≠ 0

/-- The time of the visit passes. -/
def Passes (v : Visit) : Prop := ∃ n, 1 ≤ n ∧ v.after 0 + 3 < v.after n

theorem tryAgain_mono {x : ConnectPool × Option Resource} {fuel fuel' : Nat}
    (hle : fuel ≤ fuel') (h : tryAgain passwd v fuel i w = .ok (some x)) :
    tryAgain passwd v fuel' i w = .ok (some x) := by
  induction fuel generalizing fuel' i w with
  | zero => cases h
  | succ fuel ih =>
      obtain ⟨fuel', rfl⟩ := Nat.exists_eq_succ_of_ne_zero (Nat.ne_of_gt (Nat.lt_of_lt_of_le
        (Nat.succ_pos fuel) hle))
      simp only [tryAgain, bind_eq_ok] at h ⊢
      obtain ⟨⟨w', data⟩, hattempt, h⟩ := h
      refine ⟨(w', data), hattempt, ?_⟩
      cases data with
      | some r => exact h
      | none =>
          dsimp only at h ⊢
          split
          · rename_i htime
            rwa [if_pos htime] at h
          · rename_i htime
            rw [if_neg htime] at h
            exact ih (Nat.le_of_succ_le_succ hle) h

theorem get_mono {x : ConnectPool × Option Resource} {fuel fuel' : Nat} (hle : fuel ≤ fuel')
    (h : w.get passwd v fuel = .ok (some x)) : w.get passwd v fuel' = .ok (some x) := by
  unfold get at h ⊢
  split
  · rename_i htimeout
    rwa [if_pos htimeout] at h
  · rename_i htimeout
    rw [if_neg htimeout] at h
    rw [bind_eq_ok] at h ⊢
    obtain ⟨⟨w', data⟩, hattempt, h⟩ := h
    refine ⟨(w', data), hattempt, ?_⟩
    cases data with
    | some r => exact h
    | none => exact tryAgain_mono hle h

/-- Two calls with enough fuel agree. -/
theorem get_unique {x y : ConnectPool × Option Resource} {fuel fuel' : Nat}
    (h : w.get passwd v fuel = .ok (some x)) (h' : w.get passwd v fuel' = .ok (some y)) :
    x = y := by
  have hx := get_mono (Nat.le_max_left fuel fuel') h
  have hy := get_mono (Nat.le_max_right fuel fuel') h'
  exact Option.some.inj (Except.ok.inj (hx.symm.trans hy))

/-- Attempts that get nothing, up to the one after which the time is up. -/
theorem tryAgain_none {k : Nat} (hnone : ∀ m ≤ k, w.attempt passwd v (i + m) = .ok (w, none))
    (htime : v.after 0 + 3 < v.after (i + k)) :
    tryAgain passwd v (k + 1) i w = .ok (some (w, none)) := by
  induction k generalizing i with
  | zero =>
      have h := hnone 0 (Nat.le_refl 0)
      rw [Nat.add_zero] at h htime
      simp only [tryAgain, h, ok_bind, if_pos htime]
      rfl
  | succ k ih =>
      have h := hnone 0 (Nat.zero_le _)
      rw [Nat.add_zero] at h
      rw [tryAgain, h, ok_bind]
      dsimp only
      split
      · rfl
      · refine ih (fun m hm => ?_) ?_
        · rw [Nat.add_assoc, Nat.add_comm 1 m]
          exact hnone (m + 1) (Nat.succ_le_succ hm)
        · rw [Nat.add_assoc, Nat.add_comm 1 k]
          exact htime

/-- Attempts that get nothing, up to one that gets a connection in time. -/
theorem tryAgain_some {k : Nat} {w' : ConnectPool} {r : Resource}
    (hnone : ∀ m < k, w.attempt passwd v (i + m) = .ok (w, none) ∧
      v.after (i + m) ≤ v.after 0 + 3)
    (hsome : w.attempt passwd v (i + k) = .ok (w', some r)) :
    tryAgain passwd v (k + 1) i w = .ok (some (w', some r)) := by
  induction k generalizing i with
  | zero =>
      rw [Nat.add_zero] at hsome
      simp only [tryAgain, hsome, ok_bind]
      rfl
  | succ k ih =>
      obtain ⟨h, htime⟩ := hnone 0 (Nat.succ_pos k)
      rw [Nat.add_zero] at h htime
      rw [tryAgain, h, ok_bind]
      dsimp only
      rw [if_neg (Int.not_lt.mpr htime)]
      refine ih (fun m hm => ?_) ?_
      · rw [Nat.add_assoc, Nat.add_comm 1 m]
        exact hnone (m + 1) (Nat.succ_lt_succ hm)
      · rw [Nat.add_assoc, Nat.add_comm 1 k]
        exact hsome

theorem get_pooled (hw : w.Valid) (fuel : Nat) :
    w.get passwd v fuel = (do
      let (w, data) ← w.attempt passwd v 0
      match data with
      | some data => return some (w, some data)
      | none => tryAgain passwd v fuel 1 w) :=
  if_neg (Int.not_le.mpr hw.timeout)

/-- Nothing to be had before the time is up. -/
theorem get_none (hw : w.Valid) {n : Nat} (hpos : 1 ≤ n) (htime : v.after 0 + 3 < v.after n)
    (hnone : ∀ m ≤ n, w.attempt passwd v m = .ok (w, none)) :
    ∃ fuel, w.get passwd v fuel = .ok (some (w, none)) := by
  obtain ⟨k, rfl⟩ := Nat.exists_eq_add_of_le hpos
  refine ⟨k + 1, ?_⟩
  rw [get_pooled hw, hnone 0 (Nat.zero_le _), ok_bind]
  exact tryAgain_none (fun m hm => hnone (1 + m) (Nat.add_le_add_left hm 1)) htime

/-- The creator's answer is handed out. -/
theorem get_answers (hw : w.Exhausted) (hplace : ¬ w.Full) {c : Connection}
    (hanswers : Answers passwd v c) :
    ∃ fuel w', w.get passwd v fuel = .ok (some (w', some w.conns.length)) ∧
      w'.errorCode w.conns.length = c.getErrorCode ∧
      (w'.reject w.conns.length).Exhausted ∧ ¬ (w'.reject w.conns.length).Full := by
  obtain ⟨n, hdial, hbefore⟩ := hanswers
  obtain ⟨w', hattempt, hfacts⟩ := attempt_some hw hplace hdial
  refine ⟨n + 1, w', ?_, hfacts⟩
  rw [get_pooled hw.valid]
  cases n with
  | zero => rw [hattempt]; rfl
  | succ n =>
      rw [attempt_none hw (hbefore 0 (Nat.succ_pos n)).1, ok_bind]
      refine tryAgain_mono (Nat.le_succ _) (tryAgain_some (k := n) (fun m hm => ?_) ?_)
      · have h := hbefore (1 + m) (by omega)
        exact ⟨attempt_none hw h.1, h.2 (Nat.le_add_right 1 m)⟩
      · rw [Nat.add_comm]
        exact hattempt

/-- The creator does not answer in time. -/
theorem get_unanswered (hw : w.Exhausted) (hpasses : Passes v)
    (hnot : ∀ c, ¬ Answers passwd v c) : ∃ fuel, w.get passwd v fuel = .ok (some (w, none)) := by
  classical
  obtain ⟨hpos, htime⟩ := Nat.find_spec hpasses
  have hearly : ∀ m < Nat.find hpasses, 1 ≤ m → v.after m ≤ v.after 0 + 3 := fun m hm h1 =>
    Int.not_lt.mp fun hlt => Nat.find_min hpasses hm ⟨h1, hlt⟩
  have hdial : ∀ m ≤ Nat.find hpasses, creator passwd (v.dial m) = none := by
    intro m
    induction m using Nat.strongRecOn with
    | ind m ih =>
        intro hm
        cases hc : creator passwd (v.dial m) with
        | none => rfl
        | some c =>
            refine absurd ⟨m, hc, fun k hk => ?_⟩ (hnot c)
            exact ⟨ih k hk (Nat.le_of_lt (Nat.lt_of_lt_of_le hk hm)),
              hearly k (Nat.lt_of_lt_of_le hk hm)⟩
  exact get_none hw.valid hpos htime fun m hm => attempt_none hw (hdial m hm)

end ConnectPool

end TAlib
