import TAlib.Redis.PoolVisit

/-!
When RedisConnect::grasp returns. The pool first hands out its idle connections
in the order of their slots; a broken one is taken out and grasp starts over.
With no idle connection left the creator decides, and it hands on a connection
whose AUTH was rejected, because the error codes of auth count as true. Nothing
but the server ends the recursion then.
-/

namespace TAlib

open Foundation RedisConnect

namespace ConnectPool

variable {passwd : Bytes} {v : Visit} {w : ConnectPool}
variable {visits : Nat → Visit} {level : Nat}

/-- With enough fuel grasp returns. -/
def Returns (passwd : Bytes) (visits : Nat → Visit) (level : Nat) (w : ConnectPool) : Prop :=
  ∃ fuel x, grasp passwd visits fuel level w = .ok (some x)

theorem grasp_mono {x : ConnectPool × Option Resource} {fuel fuel' : Nat} (hle : fuel ≤ fuel')
    (h : grasp passwd visits fuel level w = .ok (some x)) :
    grasp passwd visits fuel' level w = .ok (some x) := by
  induction fuel generalizing fuel' level w with
  | zero => cases h
  | succ fuel ih =>
      obtain ⟨fuel', rfl⟩ := Nat.exists_eq_succ_of_ne_zero (Nat.ne_of_gt (Nat.lt_of_lt_of_le
        (Nat.succ_pos fuel) hle))
      have hle := Nat.le_of_succ_le_succ hle
      simp only [grasp, bind_eq_ok] at h ⊢
      obtain ⟨y, hget, h⟩ := h
      cases y with
      | none => cases h
      | some y =>
          obtain ⟨w', data⟩ := y
          refine ⟨some (w', data), get_mono hle hget, ?_⟩
          cases data with
          | none => exact h
          | some r =>
              dsimp only at h ⊢
              split
              · rename_i hcode
                rw [if_pos hcode] at h
                exact ih hle h
              · rename_i hcode
                rwa [if_neg hcode] at h

theorem returns_of_get_none {fuel : Nat} {w' : ConnectPool}
    (hget : w.get passwd (visits level) fuel = .ok (some (w', none))) :
    Returns passwd visits level w := by
  refine ⟨fuel + 1, (w', none), ?_⟩
  simp only [grasp, hget, ok_bind]
  rfl

/-- One recursive call, when the pool hands out a connection. -/
theorem returns_iff_of_get {fuel : Nat} {w' : ConnectPool} {r : Resource}
    (hget : w.get passwd (visits level) fuel = .ok (some (w', some r))) :
    Returns passwd visits level w ↔
      w'.errorCode r = 0 ∨ Returns passwd visits (level + 1) (w'.reject r) := by
  constructor
  · rintro ⟨fuel', x, h⟩
    cases fuel' with
    | zero => cases h
    | succ fuel' =>
        simp only [grasp, bind_eq_ok] at h
        obtain ⟨y, hget', h⟩ := h
        cases y with
        | none => cases h
        | some y =>
            obtain rfl := get_unique hget hget'
            dsimp only at h
            split at h
            · exact .inr ⟨fuel', x, h⟩
            · rename_i hcode
              exact .inl (not_not.mp hcode)
  · intro h
    by_cases hcode : w'.errorCode r = 0
    · refine ⟨fuel + 1, (w', some r), ?_⟩
      simp only [grasp, hget, ok_bind, hcode, ne_eq, not_true_eq_false, if_false]
      rfl
    · obtain ⟨fuel', x, h⟩ := h.resolve_left hcode
      refine ⟨max fuel fuel' + 1, x, ?_⟩
      simp only [grasp, get_mono (Nat.le_max_left fuel fuel') hget, ok_bind]
      rw [if_pos hcode]
      exact grasp_mono (Nat.le_max_right fuel fuel') h

/-- A connection that grasp returns has no error. -/
theorem grasp_usable {fuel : Nat} {w' : ConnectPool} {r : Resource}
    (h : grasp passwd visits fuel level w = .ok (some (w', some r))) : w'.errorCode r = 0 := by
  induction fuel generalizing level w with
  | zero => cases h
  | succ fuel ih =>
      simp only [grasp, bind_eq_ok] at h
      obtain ⟨y, -, h⟩ := h
      match y, h with
      | some (_, some _), h =>
          dsimp only at h
          split at h
          · exact ih h
          · rename_i hcode
            cases h
            exact not_not.mp hcode

/-- With nothing idle and a place for a new connection only the server ends the
recursion. -/
theorem returns_iff_server (hpasses : ∀ l, Passes (visits l)) (hw : w.Exhausted)
    (hplace : ¬ w.Full) :
    Returns passwd visits level w ↔ ∃ l ≥ level, ¬ Rejects passwd (visits l) := by
  constructor
  · rintro ⟨fuel, x, h⟩
    by_contra hnot
    have hall : ∀ l ≥ level, Rejects passwd (visits l) := fun l hl => by
      by_contra hl'
      exact hnot ⟨l, hl, hl'⟩
    clear hnot
    induction fuel generalizing level w with
    | zero => cases h
    | succ fuel ih =>
        obtain ⟨c, hanswers, hcode⟩ := hall level (Nat.le_refl _)
        obtain ⟨fuel', w', hget, herror, hw', hplace'⟩ := get_answers hw hplace hanswers
        simp only [grasp, bind_eq_ok] at h
        obtain ⟨y, hget', h⟩ := h
        cases y with
        | none => cases h
        | some y =>
            obtain rfl := get_unique hget hget'
            dsimp only at h
            rw [if_pos (herror ▸ hcode)] at h
            exact ih hw' hplace' h fun l hl => hall l (Nat.le_of_succ_le hl)
  · rintro ⟨l, hl, hnot⟩
    obtain ⟨k, rfl⟩ := Nat.exists_eq_add_of_le hl
    induction k generalizing level w with
    | zero =>
        by_cases hanswers : ∃ c, Answers passwd (visits level) c
        · obtain ⟨c, hc⟩ := hanswers
          obtain ⟨fuel, w', hget, herror, -⟩ := get_answers hw hplace hc
          refine (returns_iff_of_get hget).mpr (.inl ?_)
          rw [herror]
          by_contra hcode
          exact hnot ⟨c, hc, hcode⟩
        · obtain ⟨fuel, hget⟩ := get_unanswered hw (hpasses level) (not_exists.mp hanswers)
          exact returns_of_get_none hget
    | succ k ih =>
        by_cases hanswers : ∃ c, Answers passwd (visits level) c
        · obtain ⟨c, hc⟩ := hanswers
          obtain ⟨fuel, w', hget, -, hw', hplace'⟩ := get_answers hw hplace hc
          refine (returns_iff_of_get hget).mpr (.inr (ih hw' hplace' (Nat.le_add_right _ _) ?_))
          rwa [Nat.add_assoc, Nat.add_comm 1 k]
        · obtain ⟨fuel, hget⟩ := get_unanswered hw (hpasses level) (not_exists.mp hanswers)
          exact returns_of_get_none hget

/-- With every connection in use get() gives up. -/
theorem returns_of_full (hpasses : ∀ l, Passes (visits l)) (hw : w.Exhausted) (hfull : w.Full) :
    Returns passwd visits level w := by
  obtain ⟨n, hpos, htime⟩ := hpasses level
  obtain ⟨fuel, hget⟩ := get_none hw.valid hpos htime fun m _ => attempt_full hw hfull
  exact returns_of_get_none hget

/-- The idle connection is neither worn out nor too old to be lent. -/
def Lendable (item : ResPool.Data) (timeout now : Int) : Prop :=
  item.num < 100 ∧ item.utime + timeout > now

instance (item : ResPool.Data) (timeout now : Int) : Decidable (Lendable item timeout now) :=
  inferInstanceAs (Decidable (_ ∧ _))

/-- From this slot and this visit on: an idle connection that gets lent is in
order, or behind the last of them a visit is not answered with a rejected AUTH. -/
def Relieved (passwd : Bytes) (visits : Nat → Visit) (w : ConnectPool) :
    Nat → List ResPool.Data → Prop
  | level, [] => ∃ l ≥ level, ¬ Rejects passwd (visits l)
  | level, item :: rest =>
      match item.data with
      | none => Relieved passwd visits w level rest
      | some r =>
          if w.Alone r then
            if Lendable item w.pool.timeout ((visits level).now 0) then
              w.errorCode r = 0 ∨ Relieved passwd visits w (level + 1) rest
            else Relieved passwd visits w level rest
          else Relieved passwd visits w level rest

theorem Alone.not_mem {done rest : List ResPool.Data} {item : ResPool.Data} {r : Resource}
    (hvec : w.pool.vec = done ++ item :: rest) (hdata : item.data = some r) (h : w.Alone r) :
    r ∉ ResPool.slotRefs done ∧ r ∉ ResPool.slotRefs rest ∧ r ∉ w.others := by
  simp only [Alone, ResPool.useCount, hvec, ResPool.slotRefs_append, ResPool.slotRefs_cons, hdata,
    Option.toList_none, Option.toList_some, List.count_append, List.count_nil,
    List.count_singleton_self] at h
  simp only [← List.count_eq_zero]
  omega

/-- Another resource counts the same when this one has left its slot. -/
theorem useCount_freed {others : List Resource} {done rest : List ResPool.Data}
    {item freed : ResPool.Data} {r r' : Resource} (hdata : item.data = some r)
    (hfreed : freed.data = none) (hne : r ≠ r') :
    ResPool.useCount others (done ++ [freed] ++ rest) none r' =
      ResPool.useCount others (done ++ item :: rest) none r' := by
  simp [ResPool.useCount, ResPool.slotRefs, hdata, hfreed, hne, List.count_append]

/-- get() makes its first attempt and depends on nothing else in the pool. -/
theorem get_congr {w' : ConnectPool} (hw : w.Valid) (hw' : w'.Valid)
    (h : w.attempt passwd v 0 = w'.attempt passwd v 0) (fuel : Nat) :
    w.get passwd v fuel = w'.get passwd v fuel := by
  rw [get_pooled hw, get_pooled hw', h]

theorem returns_congr {w' : ConnectPool}
    (h : ∀ fuel, w.get passwd (visits level) fuel = w'.get passwd (visits level) fuel) :
    Returns passwd visits level w ↔ Returns passwd visits level w' := by
  constructor
  · rintro ⟨fuel, x, hx⟩
    refine ⟨fuel, x, ?_⟩
    cases fuel with
    | zero => exact hx
    | succ fuel => rwa [grasp, ← h fuel, ← grasp]
  · rintro ⟨fuel, x, hx⟩
    refine ⟨fuel, x, ?_⟩
    cases fuel with
    | zero => exact hx
    | succ fuel => rwa [grasp, h fuel, ← grasp]

/-- The slots before have nothing to lend, so the scan arrives at this one. -/
theorem scan_arrives {done rest : List ResPool.Data} (hvec : w.pool.vec = done ++ rest)
    (hdone : ∀ r ∈ ResPool.slotRefs done, ¬ w.Alone r) (now clock : Int) :
    ∃ idx, ResPool.scan w.others w.pool.timeout now clock [] none none w.pool.vec =
      ResPool.scan w.others w.pool.timeout now clock done none idx rest := by
  have hsettled : ∀ item ∈ done, ResPool.Settled w.others ([] ++ done ++ rest) item := by
    intro item hitem r hr
    rw [List.nil_append, ← hvec]
    exact hdone r (ResPool.mem_slotRefs.mpr ⟨item, hitem, hr⟩)
  obtain ⟨idx, hscan, -, -⟩ := ResPool.scan_settled w.others w.pool.timeout now clock done rest
    [] none nofun hsettled
  rw [hvec]
  exact ⟨idx, hscan⟩

/-- An idle connection that is not lent leaves its slot, as if it had been free. -/
theorem attempt_expired {done rest : List ResPool.Data} {item : ResPool.Data} {r : Resource}
    (hvec : w.pool.vec = done ++ item :: rest) (hdone : ∀ r ∈ ResPool.slotRefs done, ¬ w.Alone r)
    (hdata : item.data = some r) (halone : w.Alone r)
    (hold : ¬ Lendable item w.pool.timeout (v.now 0)) :
    w.attempt passwd v 0 =
      (w.setVec (done ++ [{ item with data := none }] ++ rest)).attempt passwd v 0 := by
  obtain ⟨hnotdone, hnotrest, -⟩ := Alone.not_mem hvec hdata halone
  have hvec' : (w.setVec (done ++ [{ item with data := none }] ++ rest)).pool.vec =
      done ++ { item with data := none } :: rest := List.append_assoc ..
  have hdone' : ∀ r' ∈ ResPool.slotRefs done,
      ¬ (w.setVec (done ++ [{ item with data := none }] ++ rest)).Alone r' := by
    intro r' hr'
    have hne : r ≠ r' := fun heq => hnotdone (heq ▸ hr')
    have hbusy := hdone r' hr'
    simp only [Alone, setVec, hvec] at hbusy ⊢
    rwa [useCount_freed hdata rfl hne]
  obtain ⟨idx, hscan⟩ := scan_arrives hvec hdone (v.now 0) (v.stamp 0)
  obtain ⟨idx', hscan'⟩ := scan_arrives hvec' hdone' (v.now 0) (v.stamp 0)
  have hcount : ResPool.useCount w.others (done ++ item :: rest) none r = 1 := hvec ▸ halone
  obtain ⟨tmp, htmp⟩ := ResPool.scan_tmp w.others w.pool.timeout (v.now 0) (v.stamp 0) rest
    (done ++ [{ item with data := none }]) (some r) (some done.length)
    fun r' hr' heq => hnotrest (Option.some.inj heq ▸ hr')
  rw [ResPool.scan, hdata] at hscan
  dsimp only at hscan
  have hfresh : ¬ (item.num < 100 ∧ item.utime + w.pool.timeout > v.now 0) := hold
  rw [if_pos hcount, if_neg hfresh, htmp] at hscan
  simp only [ResPool.scan] at hscan'
  have hlen : (w.setVec (done ++ [{ item with data := none }] ++ rest)).pool.vec.length =
      w.pool.vec.length := by
    rw [hvec', hvec]
    simp
  unfold attempt
  rw [hscan, hscan', hlen]
  rfl

theorem attempt_lent {done rest : List ResPool.Data} {item : ResPool.Data} {r : Resource}
    (hvec : w.pool.vec = done ++ item :: rest) (hdone : ∀ r ∈ ResPool.slotRefs done, ¬ w.Alone r)
    (hdata : item.data = some r) (halone : w.Alone r)
    (hlendable : Lendable item w.pool.timeout (v.now 0)) :
    w.attempt passwd v 0 =
      .ok (w.setVec (done ++ { item with num := item.num + 1, utime := v.stamp 0 } :: rest),
        some r) := by
  obtain ⟨idx, hscan⟩ := scan_arrives hvec hdone (v.now 0) (v.stamp 0)
  have hcount : ResPool.useCount w.others (done ++ item :: rest) none r = 1 := hvec ▸ halone
  rw [ResPool.scan, hdata] at hscan
  dsimp only at hscan
  have hfresh : item.num < 100 ∧ item.utime + w.pool.timeout > v.now 0 := hlendable
  rw [if_pos hcount, if_pos hfresh] at hscan
  simp only [attempt, hscan, hdata]

/-- The pool state when the walk has come to these slots. -/
structure Walked (w₀ w : ConnectPool) (done rest : List ResPool.Data) : Prop where
  valid : w.Valid
  vec : w.pool.vec = done ++ rest
  done : ∀ r ∈ ResPool.slotRefs done, ¬ w.Alone r
  rest : ∀ r ∈ ResPool.slotRefs rest, w.Alone r ↔ w₀.Alone r
  conns : w.conns = w₀.conns
  timeout : w.pool.timeout = w₀.pool.timeout

theorem Walked.next {w₀ : ConnectPool} {done rest : List ResPool.Data} {item : ResPool.Data}
    (h : Walked w₀ w done (item :: rest)) (hitem : ∀ r, item.data = some r → ¬ w.Alone r) :
    Walked w₀ w (done ++ [item]) rest := by
  refine ⟨h.valid, by simp [h.vec], fun r hr => ?_, fun r hr => h.rest r ?_, h.conns, h.timeout⟩
  · rw [ResPool.slotRefs_append, List.mem_append] at hr
    rcases hr with hr | hr
    · exact h.done r hr
    · obtain ⟨item', hmem, hr⟩ := ResPool.mem_slotRefs.mp hr
      cases List.mem_singleton.mp hmem
      exact hitem r hr
  · rw [ResPool.slotRefs_cons]
    exact List.mem_append_right _ hr

/-- An idle connection has left its slot; the reference of a frame may be left. -/
theorem Walked.freed {w₀ w' : ConnectPool} {done rest : List ResPool.Data}
    {item freed : ResPool.Data} {r : Resource} (h : Walked w₀ w done (item :: rest))
    (hdata : item.data = some r) (halone : w.Alone r) (hfreed : freed.data = none)
    (hvec : w'.pool.vec = done ++ [freed] ++ rest) (hconns : w'.conns = w.conns)
    (htimeout : w'.pool.timeout = w.pool.timeout)
    (hothers : w'.others = w.others ∨ w'.others = r :: w.others) :
    Walked w₀ w' (done ++ [freed]) rest := by
  obtain ⟨hnotdone, hnotrest, -⟩ := Alone.not_mem h.vec hdata halone
  have hslots : ResPool.slotRefs w.pool.vec =
      ResPool.slotRefs done ++ r :: ResPool.slotRefs rest := by
    simp [h.vec, ResPool.slotRefs_append, ResPool.slotRefs_cons, hdata]
  have hslots' : ResPool.slotRefs w'.pool.vec = ResPool.slotRefs done ++ ResPool.slotRefs rest := by
    simp [hvec, ResPool.slotRefs, hfreed]
  have hsame (r') (hne : r ≠ r') : w'.Alone r' ↔ w.Alone r' := by
    simp only [Alone, ResPool.useCount, hslots, hslots', List.count_append,
      List.count_cons_of_ne hne, Option.toList_none]
    cases hothers with
    | inl heq => rw [heq]
    | inr heq => rw [heq, List.count_cons_of_ne hne]
  have hlt := h.valid.slots r (by rw [hslots]; simp)
  refine ⟨⟨fun r' hr' => ?_, fun r' hr' => ?_, htimeout ▸ h.valid.timeout⟩, hvec, fun r' hr' => ?_,
    fun r' hr' => ?_, hconns.trans h.conns, htimeout.trans h.timeout⟩
  · rw [hconns]
    refine h.valid.slots r' ?_
    rw [hslots]
    rw [hslots'] at hr'
    exact (List.mem_append.mp hr').elim (List.mem_append_left _)
      fun hr' => List.mem_append_right _ (List.mem_cons_of_mem _ hr')
  · rw [hconns]
    rcases hothers with heq | heq
    · exact h.valid.others r' (heq ▸ hr')
    · rcases List.mem_cons.mp (heq ▸ hr') with rfl | hr'
      · exact hlt
      · exact h.valid.others r' hr'
  · have hr' : r' ∈ ResPool.slotRefs done := by simpa [ResPool.slotRefs, hfreed] using hr'
    rw [hsame r' fun heq => hnotdone (heq ▸ hr')]
    exact h.done r' hr'
  · rw [hsame r' fun heq => hnotrest (heq ▸ hr')]
    exact h.rest r' (by simp [ResPool.slotRefs_cons, hr'])

/-- The idle connection of this slot is lent. -/
theorem Walked.returns_lent {w₀ : ConnectPool} {done rest : List ResPool.Data} {item : ResPool.Data}
    {r : Resource} (h : Walked w₀ w done (item :: rest)) (hdata : item.data = some r)
    (halone : w.Alone r) (hlend : Lendable item w.pool.timeout ((visits level).now 0)) :
    ∃ w' freed, Walked w₀ w' (done ++ [freed]) rest ∧ ¬ w'.Full ∧
      (Returns passwd visits level w ↔
        w₀.errorCode r = 0 ∨ Returns passwd visits (level + 1) w') := by
  obtain ⟨hnotdone, -, -⟩ := Alone.not_mem h.vec hdata halone
  have hattempt : w.attempt passwd (visits level) 0 = _ :=
    attempt_lent h.vec h.done hdata halone hlend
  generalize hu : ({ item with num := item.num + 1, utime := (visits level).stamp 0 } :
    ResPool.Data) = u at hattempt
  have hudata : u.data = some r := by rw [← hu]; exact hdata
  have hvec : ((w.setVec (done ++ u :: rest)).reject r).pool.vec =
      done ++ [{ u with data := none }] ++ rest := by
    simp only [reject, setVec, ResPool.disable]
    rw [ResPool.dropSlot_split (fun x hx hr => hnotdone (ResPool.mem_slotRefs.mpr ⟨x, hx, hr⟩))
      hudata]
    simp
  have hget : w.get passwd (visits level) 0 =
      .ok (some (w.setVec (done ++ u :: rest), some r)) := by
    rw [get_pooled h.valid, hattempt]
    rfl
  have hcode : (w.setVec (done ++ u :: rest)).errorCode r = w₀.errorCode r := by
    simp only [errorCode, setVec, h.conns]
  refine ⟨_, _, h.freed hdata halone rfl hvec rfl rfl (.inr rfl), ?_, ?_⟩
  · exact not_full_of_free ⟨{ u with data := none }, by rw [hvec]; simp, rfl⟩
  · rw [returns_iff_of_get hget, hcode]

/-- The idle connection of this slot is dropped. -/
theorem Walked.returns_expired {w₀ : ConnectPool} {done rest : List ResPool.Data}
    {item : ResPool.Data} {r : Resource} (h : Walked w₀ w done (item :: rest))
    (hdata : item.data = some r) (halone : w.Alone r)
    (hold : ¬ Lendable item w.pool.timeout ((visits level).now 0)) :
    ∃ w' freed, Walked w₀ w' (done ++ [freed]) rest ∧ ¬ w'.Full ∧
      (Returns passwd visits level w ↔ Returns passwd visits level w') := by
  have hfreed : Walked w₀ (w.setVec (done ++ [{ item with data := none }] ++ rest)) _ rest :=
    h.freed hdata halone rfl rfl rfl rfl (.inl rfl)
  refine ⟨_, _, hfreed, ?_, returns_congr (get_congr h.valid hfreed.valid ?_)⟩
  · exact not_full_of_free ⟨{ item with data := none }, by simp [setVec], rfl⟩
  · exact attempt_expired h.vec h.done hdata halone hold

/-- The walk over the remaining slots decides whether grasp returns. -/
theorem Walked.returns_iff {w₀ : ConnectPool} (hpasses : ∀ l, Passes (visits l))
    {done rest : List ResPool.Data} (h : Walked w₀ w done rest) :
    Returns passwd visits level w ↔ w.Full ∨ Relieved passwd visits w₀ level rest := by
  induction rest generalizing done level w with
  | nil =>
      have hw : w.Exhausted := ⟨h.valid, fun r hr => h.done r (by simpa [h.vec] using hr)⟩
      by_cases hfull : w.Full
      · exact iff_of_true (returns_of_full hpasses hw hfull) (.inl hfull)
      · rw [returns_iff_server hpasses hw hfull]
        simp only [Relieved, hfull, false_or]
  | cons item rest ih =>
      cases hdata : item.data with
      | none =>
          rw [ih (h.next fun r hr => nomatch hdata.symm.trans hr)]
          simp only [Relieved, hdata]
      | some r =>
          have hmem : r ∈ ResPool.slotRefs (item :: rest) := by simp [ResPool.slotRefs_cons, hdata]
          by_cases halone : w.Alone r
          · have halone₀ := (h.rest r hmem).mp halone
            have hnotfull : ¬ w.Full := by
              rintro ⟨-, hfull⟩
              obtain ⟨r', hr', hbusy⟩ := hfull item (by simp [h.vec])
              cases hdata.symm.trans hr'
              exact hbusy halone
            simp only [Relieved, hdata, if_pos halone₀, hnotfull, false_or, ← h.timeout]
            by_cases hlend : Lendable item w.pool.timeout ((visits level).now 0)
            · obtain ⟨w', freed, hwalked, hplace, hreturns⟩ := h.returns_lent hdata halone hlend
              rw [hreturns, ih hwalked, if_pos hlend]
              simp only [hplace, false_or]
            · obtain ⟨w', freed, hwalked, hplace, hreturns⟩ := h.returns_expired hdata halone hlend
              rw [hreturns, ih hwalked, if_neg hlend]
              simp only [hplace, false_or]
          · have hbusy₀ : ¬ w₀.Alone r := fun h' => halone ((h.rest r hmem).mpr h')
            have hnext := h.next fun r' hr' => by
              cases hdata.symm.trans hr'
              exact halone
            rw [ih hnext]
            simp only [Relieved, hdata, if_neg hbusy₀]

/-- grasp returns, and returns NULL or a connection without an error, exactly when
the pool is full, an idle connection that it lends is in order, or some later
visit is not answered with a rejected AUTH. -/
theorem grasp_returns_iff (passwd : Bytes) (visits : Nat → Visit) (w : ConnectPool)
    (hw : w.Valid) (hpasses : ∀ l, Passes (visits l)) :
    (∃ fuel w' data, grasp passwd visits fuel 0 w = .ok (some (w', data)) ∧
        ∀ r, data = some r → w'.errorCode r = 0) ↔
      w.Full ∨ Relieved passwd visits w 0 w.pool.vec := by
  have hwalked : Walked w w [] w.pool.vec := ⟨hw, rfl, nofun, fun _ _ => Iff.rfl, rfl, rfl⟩
  rw [← hwalked.returns_iff hpasses]
  constructor
  · rintro ⟨fuel, w', data, h, -⟩
    exact ⟨fuel, (w', data), h⟩
  · rintro ⟨fuel, ⟨w', data⟩, h⟩
    refine ⟨fuel, w', data, h, ?_⟩
    rintro r rfl
    exact grasp_usable h

/-- The pool before its first use. -/
def unused : ConnectPool := ⟨⟨8, 60, []⟩, [], []⟩

theorem unused_valid : unused.Valid :=
  ⟨fun _ h => absurd h List.not_mem_nil, fun _ h => absurd h List.not_mem_nil, by decide⟩

/-- Every connect succeeds, AUTH ends with this code, and the clock moves on. -/
def answering (reply : Int) : Visit :=
  ⟨fun _ => .connected reply, fun _ => 0, fun _ => 0, fun n => 4 * n⟩

theorem answering_passes (reply : Int) : Passes (answering reply) :=
  ⟨1, Nat.le_refl 1, (by decide : (4 * ((0 : Nat) : Int) + 3 < 4 * ((1 : Nat) : Int)))⟩

/-- The first AUTH is rejected, the second accepted. -/
theorem grasp_returns_second :
    ∃ fuel w' data, grasp [112] (fun l => answering (if l = 0 then FAIL else OK)) fuel 0 unused =
        .ok (some (w', data)) ∧ ∀ r, data = some r → w'.errorCode r = 0 := by
  refine (grasp_returns_iff _ _ _ unused_valid fun l => answering_passes _).mpr
    (.inr ⟨1, by decide, ?_⟩)
  rintro ⟨c, ⟨n, hdial, -⟩, hcode⟩
  cases hdial
  exact hcode rfl

/-- The server accepts every connection and rejects every AUTH. -/
theorem grasp_never_returns :
    unused.Valid ∧ Passes (answering FAIL) ∧
      ∀ fuel x, grasp [112] (fun _ => answering FAIL) fuel 0 unused ≠ .ok (some x) := by
  refine ⟨unused_valid, answering_passes FAIL, fun fuel x h => ?_⟩
  have hplace : ¬ unused.Full := fun h => absurd h.1 (by decide)
  have hidle : unused.Exhausted := ⟨unused_valid, fun _ h => absurd h List.not_mem_nil⟩
  obtain ⟨l, -, hnot⟩ := (returns_iff_server (fun _ => answering_passes FAIL) hidle hplace).mp
    ⟨fuel, x, h⟩
  exact hnot ⟨⟨false, FAIL⟩, ⟨0, rfl, fun _ h => absurd h (Nat.not_lt_zero _)⟩, by decide⟩

end ConnectPool

end TAlib
