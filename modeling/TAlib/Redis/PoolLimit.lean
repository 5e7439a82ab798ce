import Mathlib.Data.Finset.Card
import TAlib.Redis.Lending

/-!
The limit of the pool. A call decides in its first locked section where the
resource will go that it is about to create, and puts it there in the second.
In between, another call may have made the same decision. The pool keeps its
limit, and a slot for all that it lends, as long as each created resource still
finds the place that was chosen for it.
-/

namespace TAlib

open Foundation

namespace PoolTurn

/-- get() and what is done with its results, but no other use of the pool. -/
def Borrows : PoolTurn → Prop
  | .call _ | .step _ _ _ | .copy _ _ | .drop _ _ => True
  | .clear | .disable _ | .setLength _ | .setTimeout _ | .setCreator => False

instance (turn : PoolTurn) : Decidable turn.Borrows := by
  unfold Borrows
  split <;> infer_instance

end PoolTurn

namespace GetPoint

/-- What grasp has found or created, and recorded. -/
def found : GetPoint → Option Resource
  | .returning _ data => data
  | _ => none

/-- The call is about to enlarge the vector. -/
def enlarges : GetPoint → Bool
  | .creating none _ | .recording none _ _ => true
  | _ => false

theorem data_of_found {p : GetPoint} {r : Resource} (h : p.found = some r) : p.data = some r := by
  cases p with
  | returning tmp data => exact h
  | _ => cases h

end GetPoint

namespace PoolRun

/-- The resources held by a borrower or kept in a slot, each once. -/
def inUse (s : PoolRun) : Finset Resource :=
  (s.held.map Prod.snd ++ ResPool.slotRefs s.pool.vec).toFinset

/-- No more resources are in use than maxlen; a negative maxlen admits none. -/
def Limited (s : PoolRun) : Prop := s.inUse.card ≤ s.pool.maxlen.toNat

/-- What a borrower holds is in some slot. -/
def Recorded (s : PoolRun) : Prop := ∀ p ∈ s.held, p.2 ∈ ResPool.slotRefs s.pool.vec

instance (s : PoolRun) : Decidable s.Limited := inferInstanceAs (Decidable (_ ≤ _))

instance (s : PoolRun) : Decidable s.Recorded := inferInstanceAs (Decidable (∀ _ ∈ _, _))

/-- The resources that a borrower holds or a call is about to return. -/
def lent (s : PoolRun) : List Resource :=
  s.calls.filterMap (fun c => c.point.data) ++ s.held.map Prod.snd

/-- The place chosen for a created resource is still there: the vector has room
for one more, or the resource in the chosen slot, if any, is not lent. -/
def FindsPlace (s : PoolRun) : Option Nat → Prop
  | none => s.pool.vec.length < ofInt s.pool.maxlen
  | some i => ∀ item ∈ s.pool.vec[i]?, ∀ r ∈ item.data, r ∉ s.lent

instance (s : PoolRun) (idx : Option Nat) : Decidable (s.FindsPlace idx) := by
  unfold FindsPlace
  split <;> infer_instance

/-- Every second section of grasp finds the place that was chosen in the first. -/
def KeepsPlaces (s : PoolRun) : PoolTurn → Prop
  | .step thread _ _ =>
      match (s.calls[thread]?).map GetCall.point with
      | some (.recording idx _ _) => s.FindsPlace idx
      | _ => True
  | _ => True

instance (s : PoolRun) (turn : PoolTurn) : Decidable (s.KeepsPlaces turn) := by
  unfold KeepsPlaces
  split
  · split <;> infer_instance
  · infer_instance

theorem mem_lent {s : PoolRun} {r : Resource} : r ∈ s.lent ↔ ∃ g, s.Lends g r := by
  simp only [lent, List.mem_append, List.mem_filterMap, List.mem_map, Lends]
  constructor
  · rintro (⟨c, hc, h⟩ | ⟨⟨g, r'⟩, h, rfl⟩)
    · exact ⟨c.result, .inr ⟨c, hc, rfl, h⟩⟩
    · exact ⟨g, .inl h⟩
  · rintro ⟨g, h | ⟨c, hc, -, h⟩⟩
    · exact .inr ⟨(g, r), h, rfl⟩
    · exact .inl ⟨c, hc, h⟩

end PoolRun

/-- What a call relies on in the pool. -/
structure GetCall.Stocked (c : GetCall) (p : ResPool) : Prop where
  found : ∀ r, c.point.found = some r → r ∈ ResPool.slotRefs p.vec
  enlarges : c.point.enlarges = true → 0 < p.maxlen
  pooled : c.point ≠ .bypassing

/-- A call that has found nothing and enlarges nothing. -/
theorem GetCall.Stocked.of_bare {c : GetCall} {p : ResPool} (hfound : c.point.found = none)
    (henlarges : c.point.enlarges = false) (hpooled : c.point ≠ .bypassing) : c.Stocked p := by
  refine ⟨fun r hr => ?_, fun h => ?_, hpooled⟩
  · rw [hfound] at hr
    cases hr
  · rw [henlarges] at h
    cases h

namespace PoolRun

structure Stocked (s : PoolRun) : Prop where
  timeout : 0 < s.pool.timeout
  room : s.pool.vec.length ≤ s.pool.maxlen.toNat
  recorded : s.Recorded
  calls : ∀ c ∈ s.calls, c.Stocked s.pool

theorem Stocked.limited {s : PoolRun} (hs : s.Stocked) : s.Limited := by
  have hsub : s.inUse ⊆ (ResPool.slotRefs s.pool.vec).toFinset := by
    intro r hr
    simp only [inUse, List.mem_toFinset, List.mem_append, List.mem_map] at hr ⊢
    rcases hr with ⟨p, hp, rfl⟩ | hr
    · exact hs.recorded p hp
    · exact hr
  calc s.inUse.card
      ≤ (ResPool.slotRefs s.pool.vec).toFinset.card := Finset.card_le_card hsub
    _ ≤ (ResPool.slotRefs s.pool.vec).length := List.toFinset_card_le _
    _ ≤ s.pool.vec.length := List.length_filterMap_le _ _
    _ ≤ s.pool.maxlen.toNat := hs.room

theorem new_stocked (threads : Nat) (maxlen timeout : Int) (h : 0 < timeout) :
    (new threads maxlen timeout).Stocked := by
  refine ⟨h, Nat.zero_le _, nofun, fun c hc => ?_⟩
  cases List.eq_of_mem_replicate hc
  exact (.of_bare rfl rfl (by simp))

/-- The slots change, but not those of lent resources. -/
theorem Stocked.withVec {s : PoolRun} (hs : s.Stocked) {vec : List ResPool.Data}
    (hroom : vec.length ≤ s.pool.maxlen.toNat)
    (hkeeps : ∀ r ∈ ResPool.slotRefs s.pool.vec, r ∈ s.lent → r ∈ ResPool.slotRefs vec) :
    { s with pool := { s.pool with vec := vec } }.Stocked := by
  refine ⟨hs.timeout, hroom, fun p hp => ?_, fun c hc => ?_⟩
  · exact hkeeps p.2 (hs.recorded p hp) (mem_lent.mpr ⟨p.1, .inl hp⟩)
  · have hcall := hs.calls c hc
    refine ⟨fun r hr => ?_, hcall.enlarges, hcall.pooled⟩
    have hlends : s.Lends c.result r := .inr ⟨c, hc, rfl, GetPoint.data_of_found hr⟩
    exact hkeeps r (hcall.found r hr) (mem_lent.mpr ⟨c.result, hlends⟩)

theorem Stocked.setCall {s : PoolRun} (hs : s.Stocked) (thread : Nat) {c : GetCall}
    (hc : c.Stocked s.pool) : { s with calls := s.calls.set thread c }.Stocked := by
  refine ⟨hs.timeout, hs.room, hs.recorded, fun c' hc' => ?_⟩
  cases List.mem_or_eq_of_mem_set hc' with
  | inl hmem => exact hs.calls c' hmem
  | inr heq =>
      subst heq
      exact hc

theorem Stocked.giveOut {s : PoolRun} (hs : s.Stocked) (thread : Nat) (c : GetCall)
    {data : Resource} (hslot : data ∈ ResPool.slotRefs s.pool.vec) :
    (s.giveOut thread c data).Stocked := by
  have hset := hs.setCall thread (c := { c with point := .idle }) (.of_bare rfl rfl (by simp))
  refine ⟨hset.timeout, hset.room, fun p hp => ?_, hset.calls⟩
  rcases List.mem_cons.mp hp with rfl | hp
  · exact hslot
  · exact hs.recorded p hp

/-- A resource in use elsewhere keeps its slot in the first section, and what
is lent there has one. -/
theorem lockedScan_stocked {s : PoolRun} (hs : s.Stocked) (thread : Nat) (c : GetCall)
    (now clock : Int) : (s.lockedScan thread c now clock).Stocked := by
  have hscan := s.scan_current now clock
  unfold lockedScan
  generalize ResPool.scan s.others s.pool.timeout now clock [] none none s.pool.vec = r at hscan
  have hpool : { s with pool := { s.pool with vec := r.vec } }.Stocked := by
    refine hs.withVec (hscan.length ▸ hs.room) fun data hdata hlent => ?_
    obtain ⟨g, hg⟩ := mem_lent.mp hlent
    exact hscan.keeps data hdata (mem_others_of_lends hg)
  dsimp only
  cases hlent : r.lent with
  | none =>
      cases r.idx with
      | none => exact hpool.setCall thread (.of_bare rfl rfl (by simp))
      | some i => exact hpool.setCall thread (.of_bare rfl rfl (by simp))
  | some data =>
      refine hpool.setCall thread ⟨fun r' hr' => ?_, nofun, nofun⟩
      cases hr'
      exact (hscan.lent data hlent).2

theorem retry_stocked {s : PoolRun} (hs : s.Stocked) (thread : Nat) (c : GetCall) (clock : Int) :
    (s.retry thread c clock).Stocked := by
  unfold retry
  split
  · exact hs.setCall thread (.of_bare rfl rfl (by simp))
  · split
    · exact hs.setCall thread (.of_bare rfl rfl (by simp))
    · exact hs.setCall thread (.of_bare rfl rfl (by simp))

/-- The second section records the resource and loses none that is lent. -/
theorem record_stocked {s : PoolRun} (hs : s.Stocked) {idx : Option Nat}
    {data : Resource} {clock : Int} {p : ResPool} (hplace : s.FindsPlace idx)
    (hmaxlen : idx = none → 0 < s.pool.maxlen) (h : s.pool.record idx data clock = .ok p) :
    { s with pool := p }.Stocked ∧ data ∈ ResPool.slotRefs p.vec := by
  cases idx with
  | none =>
      have hlt : s.pool.vec.length < ofInt s.pool.maxlen := hplace
      simp only [ResPool.record, if_pos hlt] at h
      cases h
      have hpos := hmaxlen rfl
      refine ⟨hs.withVec ?_ fun r hr _ => ?_, ?_⟩
      · unfold ofInt at hlt
        simp only [List.length_append, List.length_singleton]
        omega
      · rw [ResPool.slotRefs_append]
        exact List.mem_append_left _ hr
      · rw [ResPool.slotRefs_append]
        exact List.mem_append_right _ (by simp [ResPool.slotRefs, ResPool.Data.update])
  | some i =>
      simp only [ResPool.record] at h
      split at h
      · rename_i hlt
        cases h
        refine ⟨hs.withVec ?_ fun r hr hlent => ?_, ?_⟩
        · rw [List.length_set]
          exact hs.room
        · obtain ⟨item, hitem, hdata⟩ := ResPool.mem_slotRefs.mp hr
          obtain ⟨j, hj⟩ := List.mem_iff_getElem?.mp hitem
          by_cases hij : i = j
          · subst hij
            exact absurd hlent (hplace item hj r hdata)
          · refine ResPool.mem_slotRefs.mpr ⟨item, List.mem_iff_getElem?.mpr ⟨j, ?_⟩, hdata⟩
            rw [List.getElem?_set_ne hij, hj]
        · exact ResPool.mem_slotRefs.mpr
            ⟨ResPool.Data.update data clock, List.mem_set hlt _, rfl⟩
      · cases h

theorem step_stocked {s t : PoolRun} (hs : s.Stocked) {thread : Nat} {c : GetCall} {clock : Int}
    {made : Bool} (hc : s.calls[thread]? = some c)
    (hkeeps : s.KeepsPlaces (.step thread clock made))
    (h : s.step thread c clock made = .ok t) : t.Stocked := by
  have hcall := hs.calls c (List.mem_of_getElem? hc)
  cases hpoint : c.point with
  | idle =>
      simp only [step, hpoint] at h
      cases h
      exact hs
  | entering =>
      simp only [step, hpoint, if_neg (Int.not_le.mpr hs.timeout)] at h
      cases h
      exact hs.setCall thread (.of_bare rfl rfl (by simp))
  | bypassing => exact absurd hpoint hcall.pooled
  | grasping =>
      simp only [step, hpoint] at h
      cases h
      exact hs.setCall thread (.of_bare rfl rfl (by simp))
  | locking now =>
      simp only [step, hpoint] at h
      cases h
      exact lockedScan_stocked hs thread c now clock
  | deciding len tmp =>
      simp only [step, hpoint] at h
      cases h
      split
      · exact hs.setCall thread (.of_bare rfl rfl (by simp))
      · rename_i hlen
        refine hs.setCall thread ⟨fun r hr => ?_, fun _ => by omega, by simp⟩
        cases hr
  | creating idx tmp =>
      simp only [step, hpoint] at h
      cases h
      split
      · have hs' : { s with created := s.created + 1 }.Stocked :=
          ⟨hs.timeout, hs.room, hs.recorded, hs.calls⟩
        refine hs'.setCall thread ⟨fun r hr => ?_, fun h => hcall.enlarges ?_, by simp⟩
        · cases hr
        · cases idx with
          | none => rw [hpoint]; rfl
          | some i => cases h
      · exact hs.setCall thread (.of_bare rfl rfl (by simp))
  | recording idx tmp data =>
      simp only [step, hpoint, bind_eq_ok] at h
      obtain ⟨pool, hrecord, h⟩ := h
      cases h
      have hplace : s.FindsPlace idx := by
        simpa only [KeepsPlaces, hc, Option.map_some, hpoint] using hkeeps
      have hmaxlen (hidx : idx = none) : 0 < s.pool.maxlen :=
        hcall.enlarges (by rw [hpoint, hidx]; rfl)
      obtain ⟨hpool, hslot⟩ := record_stocked hs hplace hmaxlen hrecord
      refine hpool.setCall thread ⟨fun r hr => ?_, fun h => ?_, by simp⟩
      · cases hr
        exact hslot
      · cases h
  | returning tmp data =>
      cases data with
      | none =>
          simp only [step, hpoint] at h
          cases h
          exact retry_stocked hs thread c clock
      | some data =>
          simp only [step, hpoint] at h
          cases h
          exact hs.giveOut thread c (hcall.found data (by rw [hpoint]; rfl))

theorem exec_stocked {s t : PoolRun} {turn : PoolTurn} (hs : s.Stocked) (hborrows : turn.Borrows)
    (hkeeps : s.KeepsPlaces turn) (h : s.exec turn = .ok t) : t.Stocked := by
  cases turn with
  | call thread =>
      simp only [exec] at h
      split at h
      · cases h
        have hset := hs.setCall thread (c := ⟨s.results, none, .entering⟩)
          (.of_bare rfl rfl (by simp))
        exact ⟨hset.timeout, hset.room, hset.recorded, hset.calls⟩
      · cases h
        exact hs
  | step thread clock made =>
      simp only [exec] at h
      split at h
      · rename_i c hc
        exact step_stocked hs hc hkeeps h
      · cases h
        exact hs
  | copy result data =>
      simp only [exec] at h
      cases h
      split
      · rename_i hmem
        refine ⟨hs.timeout, hs.room, fun p hp => ?_, hs.calls⟩
        rcases List.mem_cons.mp hp with rfl | hp
        · exact hs.recorded _ hmem
        · exact hs.recorded p hp
      · exact hs
  | drop result data =>
      cases h
      exact ⟨hs.timeout, hs.room, fun p hp => hs.recorded p (List.mem_of_mem_erase hp), hs.calls⟩
  | clear | disable _ | setLength _ | setTimeout _ | setCreator => exact hborrows.elim

/-- While each created resource finds its place, the pool keeps its limit and a
slot for everything that is lent. -/
theorem limit_kept (threads : Nat) (maxlen timeout : Int) (htimeout : 0 < timeout)
    (turns : List PoolTurn) (hborrows : ∀ turn ∈ turns, turn.Borrows)
    (hplaces : Respects exec KeepsPlaces (new threads maxlen timeout) turns) :
    Always exec (fun s => s.Limited ∧ s.Recorded) (new threads maxlen timeout) turns := by
  have hall : Respects exec (fun _ turn => turn.Borrows) (new threads maxlen timeout) turns :=
    respects_of_forall (fun turn h _ => hborrows turn h) _
  have hadmitted := hall.and hplaces
  exact always_of_respects (fun _ hs => ⟨hs.limited, hs.recorded⟩)
    (fun _ _ _ hs hpre h => exec_stocked hs hpre.1 hpre.2 h)
      (new_stocked threads maxlen timeout htimeout)
    hadmitted

/-- The thread goes on in get() up to the call of the creator. -/
def upToCreator (thread : Nat) : List PoolTurn :=
  .call thread :: List.replicate 4 (.step thread 0 true)

/-- Two threads find the vector shorter than maxlen before either has enlarged it. -/
def twoCreations : List PoolTurn :=
  upToCreator 0 ++ upToCreator 1 ++
    (List.replicate 3 [.step 0 0 true, .step 1 0 true]).flatten

/-- There are places for both of them. -/
theorem limit_kept_interleaved :
    Always exec (fun s => s.Limited ∧ s.Recorded) (new 2 2 60) twoCreations ∧
      ∃ s, run exec (new 2 2 60) twoCreations = .ok s ∧ s.held = [(1, 1), (0, 0)] :=
  ⟨limit_kept 2 2 60 (by decide) _ (by decide) (by decide +kernel),
    resultHolds_iff.mp (by decide +kernel)⟩

/-- There is a place for one of them only. -/
theorem limit_exceeded :
    0 < (60 : Int) ∧ (∀ turn ∈ twoCreations, turn.Borrows) ∧
      (∃ s, run exec (new 2 1 60) twoCreations = .ok s ∧ s.held = [(1, 1), (0, 0)] ∧
        ¬ s.Limited ∧ ¬ s.Recorded) ∧
      ¬ Always exec (fun s => s.Limited ∧ s.Recorded) (new 2 1 60) twoCreations := by
  have hrun : ∃ s, run exec (new 2 1 60) twoCreations = .ok s ∧ s.held = [(1, 1), (0, 0)] ∧
      ¬ s.Limited ∧ ¬ s.Recorded := resultHolds_iff.mp (by decide +kernel)
  refine ⟨by decide, by decide, hrun, fun h => ?_⟩
  obtain ⟨s, hs, -, hlimited, -⟩ := hrun
  exact hlimited (h.last hs).1

end PoolRun

end TAlib
