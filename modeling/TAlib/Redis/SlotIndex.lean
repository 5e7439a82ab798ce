import TAlib.Redis.PoolLimit

/-!
The slot that grasp chooses in its first locked section and writes in its second.
get() itself never takes a slot away, so the index stays good until another
thread empties the vector; when that happens, the call can go on to write a slot
that is gone.
-/

namespace TAlib

open Foundation

namespace GetPoint

/-- The index that a call still has to use. -/
def pending : GetPoint → Option Nat
  | .creating idx _ | .recording idx _ _ => idx
  | _ => none

end GetPoint

namespace ResPool

/-- The operation takes the slots away. -/
def Empties (p : ResPool) : PoolTurn → Prop
  | .clear | .setCreator => True
  | .setLength maxlen => p.vec.length > ofInt maxlen
  | .setTimeout timeout => timeout ≤ 0
  | _ => False

theorem dropSlot_length (data : Option Resource) (vec : List Data) :
    (dropSlot data vec).length = vec.length := by
  induction vec with
  | nil => rfl
  | cons item vec ih =>
      rw [dropSlot]
      split
      · rfl
      · simp only [List.length_cons, ih]

end ResPool

namespace PoolRun

/-- A write of a slot is to one that exists. -/
def InRange (s : PoolRun) : PoolTurn → Prop
  | .step thread _ _ =>
      match (s.calls[thread]?).map GetCall.point with
      | some (.recording (some i) _ _) => i < s.pool.vec.length
      | _ => True
  | _ => True

instance (s : PoolRun) : (turn : PoolTurn) → Decidable (s.InRange turn)
  | .step thread clock made => by
      dsimp only [InRange]
      generalize (s.calls[thread]?).map GetCall.point = point
      rcases point with - | - | - | - | - | - | - | - | ⟨- | i, tmp, data⟩
      case some.recording.some => exact inferInstanceAs (Decidable (i < s.pool.vec.length))
      all_goals exact isTrue trivial
  | .call _ | .copy .. | .drop .. | .clear | .disable _ | .setLength _ | .setTimeout _
  | .setCreator => isTrue trivial

/-- The slots are not taken away while a call has an index to use. -/
def Spares (s : PoolRun) (turn : PoolTurn) : Prop :=
  s.pool.Empties turn → ∀ c ∈ s.calls, c.point.pending = none

/-- All writes of slots in a run are in range, and so are those of any run in which
from some point of it on only the calls of get() go on. -/
def WritesInRange (s : PoolRun) (turns : List PoolTurn) : Prop :=
  Respects exec InRange s turns ∧ ∀ before after steps, turns = before ++ after →
    (∀ turn ∈ steps, ∃ thread clock made, turn = .step thread clock made) →
    Respects exec InRange s (before ++ steps)

/-- Every index that is to be used is that of a slot. -/
def Reserved (s : PoolRun) : Prop :=
  ∀ c ∈ s.calls, ∀ i, c.point.pending = some i → i < s.pool.vec.length

theorem new_reserved (threads : Nat) (maxlen timeout : Int) :
    (new threads maxlen timeout).Reserved := by
  intro c hc i hi
  cases List.eq_of_mem_replicate hc
  cases hi

theorem Reserved.inRange {s : PoolRun} (hs : s.Reserved) (turn : PoolTurn) : s.InRange turn := by
  cases turn with
  | step thread clock made =>
      simp only [InRange]
      split
      · rename_i i tmp data hpoint
        obtain ⟨c, hc, hpoint⟩ := Option.map_eq_some_iff.mp hpoint
        exact hs c (List.mem_of_getElem? hc) i (by rw [hpoint]; rfl)
      · trivial
  | _ => trivial

theorem Reserved.setCall {s : PoolRun} (hs : s.Reserved) (thread : Nat) {c : GetCall}
    (hc : ∀ i, c.point.pending = some i → i < s.pool.vec.length) :
    { s with calls := s.calls.set thread c }.Reserved := by
  intro c' hc' i hi
  cases List.mem_or_eq_of_mem_set hc' with
  | inl hmem => exact hs c' hmem i hi
  | inr heq => exact hc i (heq ▸ hi)

theorem Reserved.setPoint {s : PoolRun} (hs : s.Reserved) (thread : Nat) (c : GetCall)
    {point : GetPoint} (hpoint : ∀ i, point.pending = some i → i < s.pool.vec.length) :
    (s.setPoint thread c point).Reserved :=
  hs.setCall thread (c := { c with point := point }) hpoint

/-- As many slots as before are enough. -/
theorem Reserved.withPool {s : PoolRun} (hs : s.Reserved) {p : ResPool}
    (hp : s.pool.vec.length ≤ p.vec.length) : { s with pool := p }.Reserved :=
  fun c hc i hi => Nat.lt_of_lt_of_le (hs c hc i hi) hp

theorem lockedScan_reserved {s : PoolRun} (hs : s.Reserved) (thread : Nat) (c : GetCall)
    (now clock : Int) : (s.lockedScan thread c now clock).Reserved := by
  have hscan := s.scan_current now clock
  unfold lockedScan
  generalize ResPool.scan s.others s.pool.timeout now clock [] none none s.pool.vec = r at hscan
  have hpool : { s with pool := { s.pool with vec := r.vec } }.Reserved :=
    hs.withPool (Nat.le_of_eq hscan.length.symm)
  dsimp only
  cases r.lent with
  | some data => exact hpool.setPoint thread c nofun
  | none =>
      cases hidx : r.idx with
      | none => exact hpool.setPoint thread c nofun
      | some i =>
          refine hpool.setPoint thread c fun j hj => ?_
          cases hj
          exact Nat.lt_of_lt_of_eq (hscan.idx i hidx) hscan.length.symm

theorem record_reserved {s : PoolRun} (hs : s.Reserved) {idx : Option Nat}
    (hidx : ∀ i, idx = some i → i < s.pool.vec.length) (data : Resource) (clock : Int) :
    ∃ p, s.pool.record idx data clock = .ok p ∧ { s with pool := p }.Reserved := by
  cases idx with
  | none =>
      refine ⟨_, rfl, hs.withPool ?_⟩
      split
      · simp only [List.length_append]
        exact Nat.le_add_right _ _
      · exact Nat.le_refl _
  | some i =>
      refine ⟨_, if_pos (hidx i rfl), hs.withPool ?_⟩
      simp only [List.length_set]
      exact Nat.le_refl _

/-- The calls of get() go on without taking a slot away. -/
theorem step_reserved {s : PoolRun} (hs : s.Reserved) {thread : Nat} {c : GetCall}
    (hc : s.calls[thread]? = some c) (clock : Int) (made : Bool) :
    ∃ t, s.step thread c clock made = .ok t ∧ t.Reserved := by
  have hcall := hs c (List.mem_of_getElem? hc)
  unfold step
  cases hpoint : c.point with
  | idle => exact ⟨_, rfl, hs⟩
  | entering =>
      refine ⟨_, rfl, hs.setPoint thread c ?_⟩
      split <;> exact nofun
  | bypassing =>
      refine ⟨_, rfl, ?_⟩
      split
      · exact hs.setPoint thread c nofun
      · exact hs.setPoint thread c nofun
  | grasping => exact ⟨_, rfl, hs.setPoint thread c nofun⟩
  | locking now => exact ⟨_, rfl, lockedScan_reserved hs thread c now clock⟩
  | deciding len tmp =>
      refine ⟨_, rfl, hs.setPoint thread c ?_⟩
      split <;> exact nofun
  | creating idx tmp =>
      refine ⟨_, rfl, ?_⟩
      split
      · refine hs.setPoint thread c fun i hi => hcall i ?_
        rw [hpoint]
        exact hi
      · exact hs.setPoint thread c nofun
  | recording idx tmp data =>
      have hidx : ∀ i, idx = some i → i < s.pool.vec.length := fun i hi => hcall i (by
        rw [hpoint]
        exact hi)
      obtain ⟨p, hp, hrep⟩ := record_reserved hs hidx data clock
      have hdone : ∀ i, (GetPoint.returning tmp (some data)).pending = some i → i < p.vec.length :=
        nofun
      refine ⟨_, ?_, hrep.setPoint thread c hdone⟩
      simp only [hp]
      rfl
  | returning tmp data =>
      cases data with
      | some data => exact ⟨_, rfl, hs.setPoint thread c nofun⟩
      | none =>
          refine ⟨_, rfl, ?_⟩
          unfold retry
          split
          · exact hs.setPoint thread _ nofun
          · refine hs.setPoint thread c ?_
            split <;> exact nofun

/-- An operation empties the vector or takes no slot away. -/
theorem exec_empties {s : PoolRun} {turn : PoolTurn} (h : s.pool.Empties turn) :
    ∃ t, s.exec turn = .ok t ∧ t.calls = s.calls ∧ t.pool.vec = [] := by
  cases turn with
  | clear | setCreator => exact ⟨_, rfl, rfl, rfl⟩
  | setLength maxlen =>
      refine ⟨_, rfl, rfl, ?_⟩
      have h' : s.pool.vec.length > ofInt maxlen := h
      simp only [ResPool.setLength, if_pos h']
      rfl
  | setTimeout timeout =>
      refine ⟨_, rfl, rfl, ?_⟩
      have h' : timeout ≤ 0 := h
      simp only [ResPool.setTimeout, if_pos h']
      rfl
  | _ => exact h.elim

theorem exec_reserved {s : PoolRun} (hs : s.Reserved) {turn : PoolTurn} (hspares : s.Spares turn) :
    ∃ t, s.exec turn = .ok t ∧ t.Reserved := by
  by_cases hempties : s.pool.Empties turn
  · obtain ⟨t, ht, hcalls, -⟩ := exec_empties hempties
    refine ⟨t, ht, fun c hc i hi => ?_⟩
    rw [hcalls] at hc
    rw [hspares hempties c hc] at hi
    cases hi
  · cases turn with
    | call thread =>
        simp only [exec]
        split
        · refine ⟨_, rfl, hs.setCall thread fun i hi => ?_⟩
          cases hi
        · exact ⟨_, rfl, hs⟩
    | step thread clock made =>
        simp only [exec]
        split
        · rename_i c hc
          exact step_reserved hs hc clock made
        · exact ⟨_, rfl, hs⟩
    | copy result data =>
        refine ⟨_, rfl, ?_⟩
        split
        · exact hs
        · exact hs
    | drop result data => exact ⟨_, rfl, hs⟩
    | disable data =>
        exact ⟨_, rfl, hs.withPool (Nat.le_of_eq (ResPool.dropSlot_length data _).symm)⟩
    | clear | setCreator => exact absurd trivial hempties
    | setLength maxlen =>
        refine ⟨_, rfl, hs.withPool ?_⟩
        have h' : ¬ s.pool.vec.length > ofInt maxlen := hempties
        simp only [ResPool.setLength, if_neg h']
        exact Nat.le_refl _
    | setTimeout timeout =>
        refine ⟨_, rfl, hs.withPool ?_⟩
        have h' : ¬ timeout ≤ 0 := hempties
        simp only [ResPool.setTimeout, if_neg h']
        exact Nat.le_refl _

theorem exec_reserved_of_ok {s t : PoolRun} (hs : s.Reserved) {turn : PoolTurn}
    (hspares : s.Spares turn) (h : s.exec turn = .ok t) : t.Reserved := by
  obtain ⟨t', ht', hres⟩ := exec_reserved hs hspares
  cases Except.ok.inj (ht'.symm.trans h)
  exact hres

theorem inRange_of_spares {s : PoolRun} (hs : s.Reserved) {turns : List PoolTurn}
    (h : Respects exec Spares s turns) : Respects exec InRange s turns :=
  h.of_invariant (fun _ turn hs _ => hs.inRange turn) (fun _ _ _ hs hspares ht =>
    exec_reserved_of_ok hs hspares ht) hs

/-- A call with an index into an empty vector goes on to write the slot. -/
theorem not_inRange_of_empty {s : PoolRun} (hvec : s.pool.vec = []) {thread i : Nat} {c : GetCall}
    (hc : s.calls[thread]? = some c) (hi : c.point.pending = some i) :
    ∃ steps, (∀ turn ∈ steps, ∃ thread clock made, turn = .step thread clock made) ∧
      ¬ Respects exec InRange s steps := by
  have hwrite {s : PoolRun} (hvec : s.pool.vec = []) {c : GetCall} {tmp : Option Resource}
      {data : Resource} (hc : s.calls[thread]? = some c)
        (hpoint : c.point = .recording (some i) tmp data) :
      ¬ s.InRange (.step thread 0 true) := by
    simp only [InRange, hc, Option.map_some, hpoint, hvec]
    exact Nat.not_lt_zero i
  cases hpoint : c.point with
  | recording idx tmp data =>
      rw [hpoint] at hi
      cases hi
      refine ⟨[.step thread 0 true], fun turn h => ⟨thread, 0, true, List.mem_singleton.mp h⟩, ?_⟩
      exact fun h => hwrite hvec hc hpoint h.1
  | creating idx tmp =>
      rw [hpoint] at hi
      cases hi
      refine ⟨[.step thread 0 true, .step thread 0 true], fun turn h => ⟨thread, 0, true, ?_⟩,
        fun h => ?_⟩
      · simpa using h
      · let t := { s with created := s.created + 1 }.setPoint thread c
          (.recording (some i) tmp s.created)
        have hexec : s.exec (.step thread 0 true) = .ok t := by
          simp only [exec, hc, step, hpoint, if_true]
          rfl
        have hcalls : t.calls[thread]? =
            some { c with point := .recording (some i) tmp s.created } :=
          List.getElem?_set_self (List.getElem?_eq_some_iff.mp hc).1
        exact hwrite (s := t) hvec hcalls rfl (h.2 t hexec).1
  | _ =>
      rw [hpoint] at hi
      cases hi

/-- Writes of slots are in range exactly in the runs whose operations spare the
slots that a call is going to write. -/
theorem writesInRange_iff (threads : Nat) (maxlen timeout : Int) (turns : List PoolTurn) :
    WritesInRange (new threads maxlen timeout) turns ↔
      Respects exec Spares (new threads maxlen timeout) turns := by
  have hnew := new_reserved threads maxlen timeout
  generalize new threads maxlen timeout = s at hnew
  constructor
  · rintro ⟨-, h⟩
    induction turns generalizing s with
    | nil => trivial
    | cons turn turns ih =>
        by_cases hspares : s.Spares turn
        · refine ⟨hspares, fun t ht => ih t (exec_reserved_of_ok hnew hspares ht) ?_⟩
          intro before after steps hsplit hsteps
          exact (h (turn :: before) after steps (congrArg (turn :: ·) hsplit) hsteps).2 t ht
        · simp only [Spares, Classical.not_imp, not_forall] at hspares
          obtain ⟨hempties, c, hc, hpending⟩ := hspares
          obtain ⟨i, hi⟩ := Option.ne_none_iff_exists'.mp hpending
          obtain ⟨t, ht, hcalls, hvec⟩ := exec_empties hempties
          obtain ⟨thread, hthread⟩ := List.mem_iff_getElem?.mp hc
          obtain ⟨steps, hsteps, hnot⟩ := not_inRange_of_empty hvec (hcalls ▸ hthread) hi
          exact absurd ((h [turn] turns steps rfl hsteps).2 t ht) hnot
  · intro h
    refine ⟨inRange_of_spares hnew h, fun before after steps hsplit hsteps => ?_⟩
    rw [hsplit] at h
    refine inRange_of_spares hnew (h.initial.append fun m _ => ?_)
    refine respects_of_forall (fun turn hturn s => ?_) m
    obtain ⟨thread, clock, made, rfl⟩ := hsteps turn hturn
    exact False.elim

/-- A first call of get() puts a resource into a slot. The second finds it out of
time and chooses the slot, and the vector is cleared before the slot is written. -/
def clearedMeanwhile : List PoolTurn :=
  upToCreator 0 ++ List.replicate 3 (.step 0 0 true) ++ [.drop 0 0, .call 0] ++
    List.replicate 3 (.step 0 60 true) ++ [.clear] ++ List.replicate 2 (.step 0 60 true)

theorem not_writesInRange_after_clear :
    run exec (new 1 8 60) clearedMeanwhile = .error .outOfBounds ∧
      ¬ WritesInRange (new 1 8 60) clearedMeanwhile := by
  have hrespects : ¬ Respects exec InRange (new 1 8 60) clearedMeanwhile := by decide +kernel
  refine ⟨faultOf_eq_some.mp ?_, fun h => hrespects h.1⟩
  decide +kernel

end PoolRun

end TAlib
