import Mathlib.Data.Int.CardIntervalMod
import TAlib.Foundation.Runs
import TAlib.Reactor.LoopThread

/-!
The pool of src/Reactor/EventLoopThreadPool.h and EventLoopThreadPool.cpp. The thread
of the base loop calls start(), which starts the loop threads one after the other and
waits for each, and from then on it asks for loops. The loop threads run meanwhile. A
loop lives on the stack of its thread, and is gone when a callback has made it quit.
-/

namespace TAlib

open Foundation

/-- An EventLoop*: that of the base loop, NULL, or the loop of a thread of the pool. -/
inductive LoopRef where
  | base
  | null
  | ofThread (i : Nat)
  deriving DecidableEq, Repr

structure EventLoopThreadPool where
  numThreads : Int
  started : Bool
  threads : List EventLoopThread
  loops : List LoopRef
  next : Nat
  /-- The thread of the base loop is in start(). -/
  starting : Bool
  /-- What getNextLoop has returned so far. -/
  given : List LoopRef
  deriving DecidableEq, Repr

inductive ThreadPoolStop where
  | startedTwice
  | notStarted
  | outOfBounds
  | inStartLoop (fault : Fault)
  deriving DecidableEq

/-- What comes next: the call of start(), a step in it, where `quit` is what m_quit of a
new loop is constructed with, a step of a loop thread or a callback of it that quits,
and a call of getNextLoop. -/
inductive ThreadPoolStep where
  | start
  | goOn (quit : Bool)
  | loopThread (i : Nat) (quits : Bool)
  | getNextLoop
  deriving DecidableEq, Repr

namespace EventLoopThreadPool

def new (numThreads : Int) : EventLoopThreadPool := ⟨numThreads, false, [], [], 0, false, []⟩

def start (s : EventLoopThreadPool) : Except ThreadPoolStop EventLoopThreadPool :=
  if s.started then .error .startedTwice else .ok { s with started := true, starting := true }

/-- In start(): at the condition of the for loop, or in startLoop of the last thread,
which returns p_loop. -/
def goOn (s : EventLoopThreadPool) (quit : Bool) : Except ThreadPoolStop EventLoopThreadPool :=
  match s.threads[s.loops.length]? with
  | none =>
      if s.loops.length < s.numThreads then
        .ok { s with threads := s.threads ++ [.new quit] }
      else .ok { s with starting := false }
  | some t =>
      match t.exec .owner with
      | .error fault => .error (.inStartLoop fault)
      | .ok t' =>
          let s := { s with threads := s.threads.set s.loops.length t' }
          if t.owner = .returning then
            let loop := if t.published then .ofThread s.loops.length else .null
            .ok { s with loops := s.loops ++ [loop] }
          else .ok s

def loopThread (s : EventLoopThreadPool) (i : Nat) (quits : Bool) :
    Except ThreadPoolStop EventLoopThreadPool :=
  match s.threads[i]? with
  | none => .ok s
  | some t =>
      match t.exec (if quits then .callbackQuits else .loopThread) with
      | .error fault => .error (.inStartLoop fault)
      | .ok t => .ok { s with threads := s.threads.set i t }

def getNextLoop (s : EventLoopThreadPool) : Except ThreadPoolStop (LoopRef × EventLoopThreadPool) :=
  if s.started = false then .error .notStarted
  else if s.loops = [] then .ok (.base, s)
  else
    match s.loops[s.next]? with
    | none => .error .outOfBounds
    | some loop =>
        let next := s.next + 1
        .ok (loop, { s with next := if s.loops.length ≤ next then 0 else next })

def getLoopForHash (s : EventLoopThreadPool) (hashCode : Nat) : Except ThreadPoolStop LoopRef :=
  if s.loops = [] then .ok .base
  else
    match s.loops[hashCode % s.loops.length]? with
    | none => .error .outOfBounds
    | some loop => .ok loop

def getAllLoops (s : EventLoopThreadPool) : Except ThreadPoolStop (List LoopRef) :=
  if s.started = false then .error .notStarted
  else if s.loops = [] then .ok [.base]
  else .ok s.loops

/-- A thread that is in start() calls nothing. -/
def exec (s : EventLoopThreadPool) : ThreadPoolStep → Except ThreadPoolStop EventLoopThreadPool
  | .start => if s.starting then .ok s else s.start
  | .goOn quit => if s.starting then s.goOn quit else .ok s
  | .loopThread i quits => s.loopThread i quits
  | .getNextLoop =>
      if s.starting then .ok s
      else do
        let (loop, s) ← s.getNextLoop
        return { s with given := s.given ++ [loop] }

end EventLoopThreadPool

/-- The thread has set p_loop, and the EventLoop has not begun to end. -/
def LoopThreadPoint.running : LoopThreadPoint → Bool
  | .entering | .clearing | .raising | .testing | .iterating => true
  | _ => false

/-- Behind the while loop of loop(). -/
def LoopThreadPoint.ending : LoopThreadPoint → Bool
  | .lowering | .unpublishing | .destroying | .ended => true
  | _ => false

namespace EventLoopThread

variable {t t' : EventLoopThread}

/-- m_looping is set in the while loop only, and no assert on it has failed. -/
structure Asserted (t : EventLoopThread) : Prop where
  looping : t.looping = t.thread.inside
  failed : t.failed = []

theorem Asserted.stepLoopThread (h : t.Asserted) : t.stepLoopThread.Asserted := by
  have hlooping := h.looping
  cases hthread : t.thread with
  | notStarted | ended =>
      simp only [EventLoopThread.stepLoopThread, hthread]
      exact h
  | constructing | clearing | raising | lowering =>
      rw [hthread] at hlooping
      simp only [EventLoopThread.stepLoopThread, hthread]
      exact ⟨by first | rfl | exact hlooping, h.failed⟩
  | publishing | iterating | unpublishing =>
      rw [hthread] at hlooping
      simp only [EventLoopThread.stepLoopThread, hthread]
      exact ⟨hlooping, h.failed⟩
  | testing =>
      rw [hthread] at hlooping
      simp only [EventLoopThread.stepLoopThread, hthread]
      split
      · exact ⟨hlooping, h.failed⟩
      · exact ⟨hlooping, h.failed⟩
  | entering | destroying =>
      rw [hthread] at hlooping
      have hholds : (! t.looping) = true := by rw [hlooping]; rfl
      simp only [EventLoopThread.stepLoopThread, hthread, assert_of_true hholds]
      exact ⟨hlooping, h.failed⟩

/-- A callback runs in the while loop. -/
theorem Asserted.callbackQuits (h : t.Asserted) (hthread : t.thread = .iterating) :
    (t.assert .quit t.looping).setQuit.Asserted := by
  have hlooping := h.looping
  rw [hthread] at hlooping
  rw [assert_of_true hlooping]
  exact ⟨h.looping, h.failed⟩

/-- A loop thread up to the end of startLoop. Unless its callback asks for it, the loop
does not end. -/
structure Steady (t : EventLoopThread) : Prop where
  begun : t.owner = .starting → t.thread = .notStarted
  quit : t.requested = false → t.thread.cleared = true → t.quit = false
  stays : t.requested = false → t.thread.ending = false
  published : t.requested = false → t.published = t.thread.running
  waited : t.owner = .returning ∨ t.owner = .started → t.requested = false → t.published = true
  asserted : t.Asserted

theorem new_steady (quit : Bool) : (new quit).Steady where
  begun _ := rfl
  quit _ hcleared := by cases hcleared
  stays _ := rfl
  published _ := rfl
  waited h := by
    cases h with
    | inl h => cases h
    | inr h => cases h
  asserted := ⟨rfl, rfl⟩

/-- A step of the thread that it takes without being asked to quit. -/
theorem Steady.moves (h : t.Steady) {u : EventLoopThread} (howner : u.owner = t.owner)
    (hrequested : u.requested = t.requested) (hasserted : u.Asserted)
    (hbegun : t.thread = .notStarted → u.thread = .notStarted)
    (hrest : t.requested = false → (u.thread.cleared = true → u.quit = false) ∧
      u.thread.ending = false ∧ u.published = u.thread.running ∧
      (t.thread.running = true → u.thread.running = true)) : u.Steady := by
  refine ⟨fun hu => hbegun (h.begun (howner ▸ hu)), ?_, ?_, ?_, ?_, hasserted⟩
  · exact fun hu => (hrest (hrequested ▸ hu)).1
  · exact fun hu => (hrest (hrequested ▸ hu)).2.1
  · exact fun hu => (hrest (hrequested ▸ hu)).2.2.1
  · intro hwaited hu
    rw [hrequested] at hu
    rw [howner] at hwaited
    obtain ⟨-, -, hpublished, hruns⟩ := hrest hu
    rw [hpublished]
    exact hruns ((h.published hu).symm.trans (h.waited hwaited hu))

theorem Steady.stepLoopThread (h : t.Steady) : t.stepLoopThread.Steady ∧
    t.stepLoopThread.owner = t.owner ∧ t.stepLoopThread.requested = t.requested := by
  have hsame : t.stepLoopThread.owner = t.owner ∧ t.stepLoopThread.requested = t.requested := by
    simp only [EventLoopThread.stepLoopThread, EventLoopThread.assert]
    repeat' split
    all_goals exact ⟨rfl, rfl⟩
  refine ⟨h.moves hsame.1 hsame.2 h.asserted.stepLoopThread ?_ fun hu => ?_, hsame⟩
  · intro hthread
    simp only [EventLoopThread.stepLoopThread, hthread]
  · have hquit := h.quit hu
    have hstays := h.stays hu
    have hpublished := h.published hu
    cases hthread : t.thread with
    | notStarted =>
        have hstep : t.stepLoopThread = t := by simp only [EventLoopThread.stepLoopThread, hthread]
        rw [hthread] at hpublished
        rw [hstep, hthread]
        exact ⟨(fun h => by cases h), rfl, hpublished, (fun h => by cases h)⟩
    | constructing =>
        rw [hthread] at hpublished
        simp only [EventLoopThread.stepLoopThread, hthread]
        exact ⟨(fun h => by cases h), rfl, hpublished, (fun h => by cases h)⟩
    | publishing =>
        simp only [EventLoopThread.stepLoopThread, hthread]
        exact ⟨(fun h => by cases h), rfl, rfl, (fun h => by cases h)⟩
    | entering =>
        rw [hthread] at hpublished
        have hassert : (t.assert .loop (! t.looping)).published = t.published := by
          simp only [EventLoopThread.assert]
          split <;> rfl
        simp only [EventLoopThread.stepLoopThread, hthread]
        exact ⟨(fun h => by cases h), rfl, hassert.trans hpublished, fun _ => rfl⟩
    | clearing =>
        rw [hthread] at hpublished
        simp only [EventLoopThread.stepLoopThread, hthread]
        exact ⟨fun _ => trivial, rfl, hpublished, fun _ => rfl⟩
    | raising | iterating =>
        rw [hthread] at hpublished hquit
        simp only [EventLoopThread.stepLoopThread, hthread]
        exact ⟨fun _ => hquit rfl, rfl, hpublished, fun _ => rfl⟩
    | testing =>
        rw [hthread] at hpublished hquit
        have hnot : ¬ t.quit = true := Bool.eq_false_iff.mp (hquit rfl)
        simp only [EventLoopThread.stepLoopThread, hthread, if_neg hnot]
        exact ⟨fun _ => hquit rfl, rfl, hpublished, fun _ => rfl⟩
    | lowering | unpublishing | destroying | ended =>
        rw [hthread] at hstays
        cases hstays

theorem Steady.callbackQuits (h : t.Steady) (hok : t.exec .callbackQuits = .ok t') :
    t'.Steady ∧ t'.owner = t.owner ∧ (t.requested = true → t'.requested = true) := by
  cases hok
  by_cases hthread : t.thread = .iterating
  · rw [if_pos hthread]
    have howner : ((t.assert .quit t.looping).setQuit).owner = t.owner := by
      simp only [setQuit, EventLoopThread.assert]
      split <;> rfl
    refine ⟨⟨fun hu => ?_, fun hu => ?_, fun hu => ?_, fun hu => ?_, fun _ hu => ?_,
      h.asserted.callbackQuits hthread⟩, howner, fun _ => rfl⟩
    · rw [howner] at hu
      cases hthread.symm.trans (h.begun hu)
    all_goals cases hu
  · rw [if_neg hthread]
    exact ⟨h, rfl, id⟩

/-- The owner is in startLoop. -/
def InStartLoop (t : EventLoopThread) : Prop :=
  t.owner = .starting ∨ t.owner = .waiting ∨ t.owner = .returning

theorem Steady.owner (h : t.Steady) (hin : t.InStartLoop) :
    ∃ t', t.exec .owner = .ok t' ∧ t'.Steady ∧ t'.requested = t.requested ∧
      (t.owner = .returning → t'.owner = .started) ∧
      (t.owner ≠ .returning → t'.InStartLoop) := by
  cases howner : t.owner with
  | starting =>
      have hthread := h.begun howner
      refine ⟨{ t with thread := .constructing, owner := .waiting }, ?_,
        ⟨fun h => ?_, fun _ h => ?_, fun _ => rfl, fun hu => ?_, fun h => ?_, ?_,
          h.asserted.failed⟩,
        rfl, fun h => ?_, fun _ => .inr (.inl rfl)⟩
      · simp only [exec, stepOwner, howner]
      · cases h
      · cases h
      · have hpublished := h.published hu
        rw [hthread] at hpublished
        exact hpublished
      · cases h with
        | inl h => cases h
        | inr h => cases h
      · have hlooping := h.asserted.looping
        rw [hthread] at hlooping
        exact hlooping
      · cases h
  | waiting =>
      by_cases hpublished : t.published = true
      · refine ⟨{ t with owner := .returning }, ?_,
          ⟨fun h => ?_, h.quit, h.stays, h.published, fun _ _ => hpublished, h.asserted.looping,
            h.asserted.failed⟩, rfl, fun h => ?_, fun _ => .inr (.inr rfl)⟩
        · simp only [exec, stepOwner, howner, if_pos hpublished]
        · cases h
        · cases h
      · refine ⟨t, ?_, h, rfl, (fun h => by cases h), fun _ => .inr (.inl howner)⟩
        simp only [exec, stepOwner, howner, if_neg hpublished]
  | returning =>
      refine ⟨{ t with owner := .started }, ?_,
        ⟨fun h => ?_, h.quit, h.stays, h.published, fun _ => h.waited (.inl howner),
          h.asserted.looping, h.asserted.failed⟩, rfl, fun _ => rfl, fun hne => absurd rfl hne⟩
      · simp only [exec, stepOwner, howner]
      · cases h
  | started | checking | calling | asserting | requesting | waking | joining | destroyed =>
      simp only [InStartLoop, howner, reduceCtorEq, or_self] at hin

theorem alive_of_running {p : LoopThreadPoint} (h : p.running = true) : p.alive = true := by
  cases p with
  | entering | clearing | raising | testing | iterating => rfl
  | notStarted | constructing | publishing | lowering | unpublishing | destroying | ended => cases h

end EventLoopThread

namespace EventLoopThreadPool

variable {s : EventLoopThreadPool}

/-- What the call with this number gets, with the loops in turn. -/
def turn (loops : List LoopRef) (call : Nat) : LoopRef := loops.getD (call % loops.length) .base

/-- startLoop of this thread has returned its loop, or NULL when the loop had quit by
then. -/
def Handed (s : EventLoopThreadPool) (i : Nat) : Prop :=
  ∃ t, s.threads[i]? = some t ∧ t.owner = .started ∧
    (s.loops[i]? = some (.ofThread i) ∨ t.requested = true ∧ s.loops[i]? = some .null)

/-- What every step keeps. -/
structure Sound (s : EventLoopThreadPool) : Prop where
  steady : ∀ (i : Nat) (t : EventLoopThread), s.threads[i]? = some t → t.Steady
  handed : ∀ i < s.loops.length, s.Handed i
  current : ∀ t : EventLoopThread, s.threads[s.loops.length]? = some t → t.InStartLoop
  behind : s.threads.length ≤ s.loops.length + 1
  limit : s.threads.length ≤ s.numThreads.toNat
  idle : s.started = false → s.threads = [] ∧ s.loops = []
  inside : s.starting = true ∨ s.started = false → s.given = []
  entered : s.starting = true → s.started = true
  full : s.started = true → s.starting = false →
    s.threads.length = s.loops.length ∧ s.loops.length = s.numThreads.toNat
  rotation : s.given = (List.range s.given.length).map (turn s.loops)
  next : s.next = if s.loops = [] then 0 else s.given.length % s.loops.length

theorem new_sound (numThreads : Int) : (new numThreads).Sound where
  steady i t ht := by cases ht
  handed i hi := absurd hi (Nat.not_lt_zero i)
  current t ht := by cases ht
  behind := Nat.zero_le _
  limit := Nat.zero_le _
  idle _ := ⟨rfl, rfl⟩
  inside _ := rfl
  entered h := by cases h
  full h := by cases h
  rotation := rfl
  next := rfl

theorem Sound.loops_le (h : s.Sound) : s.loops.length ≤ s.threads.length := by
  by_contra hlt
  obtain ⟨t, ht, -⟩ := h.handed s.threads.length (Nat.not_le.mp hlt)
  exact absurd (List.getElem?_eq_some_iff.mp ht).1 (Nat.lt_irrefl _)

theorem getElem?_setThread {k : Nat} {t : EventLoopThread} (hk : s.threads[k]? = some t)
    (t' : EventLoopThread) (i : Nat) :
    (s.threads.set k t')[i]? = if k = i then some t' else s.threads[i]? := by
  rw [List.getElem?_set, if_pos (List.getElem?_eq_some_iff.mp hk).1]

theorem Sound.steady_set (h : s.Sound) {k : Nat} {t t' : EventLoopThread}
    (hk : s.threads[k]? = some t) (hsteady : t'.Steady) (i : Nat) (u : EventLoopThread)
    (hu : (s.threads.set k t')[i]? = some u) : u.Steady := by
  rw [getElem?_setThread hk] at hu
  split at hu
  · cases hu
    exact hsteady
  · exact h.steady i u hu

/-- A thread of the pool moves on, and its owner stays in or behind startLoop. -/
theorem Sound.setThread (h : s.Sound) {k : Nat} {t t' : EventLoopThread}
    (hk : s.threads[k]? = some t) (hsteady : t'.Steady)
    (hrequested : t.requested = true → t'.requested = true)
    (hstarted : t.owner = .started → t'.owner = .started)
    (hin : t.InStartLoop → t'.InStartLoop) : Sound { s with threads := s.threads.set k t' } := by
  have hlt := (List.getElem?_eq_some_iff.mp hk).1
  have hset := getElem?_setThread hk t'
  have hlen : (s.threads.set k t').length = s.threads.length := List.length_set
  refine ⟨h.steady_set hk hsteady, fun i hi => ?_, fun u hu => ?_, hlen ▸ h.behind,
    hlen ▸ h.limit, fun hidle => ?_, h.inside, h.entered, fun hs hn => hlen ▸ h.full hs hn,
      h.rotation, h.next⟩
  · obtain ⟨u, hu, howner, hloop⟩ := h.handed i hi
    by_cases hik : k = i
    · subst hik
      cases hk.symm.trans hu
      refine ⟨t', ?_, hstarted howner, hloop.imp_right fun hnull => ⟨hrequested hnull.1, hnull.2⟩⟩
      rw [hset, if_pos rfl]
    · refine ⟨u, ?_, howner, hloop⟩
      rw [hset, if_neg hik]
      exact hu
  · rw [hset] at hu
    split at hu
    · rename_i heq
      cases hu
      exact hin (h.current t (heq ▸ hk))
    · exact h.current u hu
  · rw [(h.idle hidle).1] at hlt
    exact absurd hlt (Nat.not_lt_zero k)

theorem Sound.start (h : s.Sound) :
    s.start = .error .startedTwice ∨ ∃ u, s.start = .ok u ∧ u.Sound := by
  by_cases hstarted : s.started = true
  · exact .inl (if_pos hstarted)
  · have hidle := h.idle (Bool.eq_false_iff.mpr hstarted)
    have hgiven := h.inside (.inr (Bool.eq_false_iff.mpr hstarted))
    exact .inr ⟨_, if_neg hstarted, h.steady, h.handed, h.current, h.behind, h.limit,
      (fun h => by cases h), fun _ => hgiven, fun _ => rfl, (fun _ h => by cases h), h.rotation,
      h.next⟩

/-- start() waits for the loop of the thread that it has started last, and then starts
the next one. -/
theorem Sound.goOn (h : s.Sound) (hstarting : s.starting = true) (quit : Bool) :
    ∃ u, s.goOn quit = .ok u ∧ u.Sound := by
  have hstarted := h.entered hstarting
  have hgiven := h.inside (.inl hstarting)
  cases hcurrent : s.threads[s.loops.length]? with
  | none =>
      have hlen : s.threads.length = s.loops.length :=
        Nat.le_antisymm (List.getElem?_eq_none_iff.mp hcurrent) h.loops_le
      by_cases hmore : (s.loops.length : Int) < s.numThreads
      · refine ⟨{ s with threads := s.threads ++ [.new quit] }, ?_, ?_⟩
        · rw [EventLoopThreadPool.goOn, hcurrent]
          exact if_pos hmore
        · have hlast {i : Nat} {t : EventLoopThread}
              (ht : (s.threads ++ [EventLoopThread.new quit])[i]? = some t) :
              s.threads[i]? = some t ∨ i = s.threads.length ∧ t = .new quit := by
            rw [List.getElem?_append] at ht
            split at ht
            · exact .inl ht
            · rename_i hi
              obtain ⟨hzero, hnew⟩ := List.getElem?_eq_some_iff.mp ht
              rw [List.length_singleton] at hzero
              refine .inr ⟨by omega, ?_⟩
              rw [← hnew, List.getElem_singleton]
          have hroom : s.threads.length + 1 ≤ s.numThreads.toNat := by omega
          refine ⟨fun i t ht => ?_, fun i hi => ?_, fun t ht => ?_, ?_, ?_, fun hno => ?_,
            fun _ => hgiven, fun _ => hstarted, fun _ hno => ?_, h.rotation, h.next⟩
          · cases hlast ht with
            | inl hold => exact h.steady i t hold
            | inr hnew =>
                rw [hnew.2]
                exact EventLoopThread.new_steady quit
          · obtain ⟨t, ht, howner, hloop⟩ := h.handed i hi
            refine ⟨t, ?_, howner, hloop⟩
            rw [List.getElem?_append_left (List.getElem?_eq_some_iff.mp ht).1]
            exact ht
          · cases hlast ht with
            | inl hold => cases hcurrent.symm.trans hold
            | inr hnew =>
                rw [hnew.2]
                exact .inl rfl
          · rw [List.length_append, List.length_singleton, hlen]
          · rw [List.length_append]
            exact hroom
          · cases hstarted.symm.trans hno
          · cases hstarting.symm.trans hno
      · have hcount : s.loops.length = s.numThreads.toNat := by
          have hlimit := h.limit
          omega
        refine ⟨{ s with starting := false }, ?_, ?_⟩
        · rw [EventLoopThreadPool.goOn, hcurrent]
          exact if_neg hmore
        · refine ⟨h.steady, h.handed, h.current, h.behind, h.limit, h.idle, fun _ => hgiven,
            fun _ => hstarted, fun _ _ => ⟨hlen, hcount⟩, h.rotation, h.next⟩
  | some t =>
      have hin := h.current t hcurrent
      obtain ⟨t', ht', hsteady, hrequested, hreturns, hstays⟩ := (h.steady _ t hcurrent).owner hin
      by_cases hreturning : t.owner = .returning
      · let loop : LoopRef := if t.published then .ofThread s.loops.length else .null
        refine ⟨{ s with
          threads := s.threads.set s.loops.length t', loops := s.loops ++ [loop] }, ?_, ?_⟩
        · simp only [EventLoopThreadPool.goOn, hcurrent, ht', if_pos hreturning]
          rfl
        · have hset := getElem?_setThread hcurrent t'
          have hlen : (s.threads.set s.loops.length t').length = s.threads.length := List.length_set
          have hlast : (s.loops ++ [loop])[s.loops.length]? = some loop := by
            rw [List.getElem?_append_right (Nat.le_refl _), Nat.sub_self]
            rfl
          refine ⟨h.steady_set hcurrent hsteady, fun i hi => ?_, fun u hu => ?_, ?_, ?_,
            fun hno => ?_, fun _ => hgiven, fun _ => hstarted, fun _ hno => ?_, ?_, ?_⟩
          · rw [List.length_append, List.length_singleton] at hi
            by_cases hik : s.loops.length = i
            · subst hik
              refine ⟨t', ?_, hreturns hreturning, ?_⟩
              · rw [hset, if_pos rfl]
              · rw [hlast]
                by_cases hpublished : t.published = true
                · exact .inl (congrArg some (if_pos hpublished))
                · refine .inr ⟨?_, congrArg some (if_neg hpublished)⟩
                  rw [hrequested]
                  exact Bool.of_not_eq_false fun hu =>
                    hpublished ((h.steady _ t hcurrent).waited (.inl hreturning) hu)
            · have hlt : i < s.loops.length := by omega
              obtain ⟨u, hu, howner, hloop⟩ := h.handed i hlt
              refine ⟨u, ?_, howner, ?_⟩
              · rw [hset, if_neg hik]
                exact hu
              · rw [List.getElem?_append_left hlt]
                exact hloop
          · have hlt := (List.getElem?_eq_some_iff.mp hu).1
            rw [hlen, List.length_append, List.length_singleton] at hlt
            exact absurd h.behind (Nat.not_le.mpr hlt)
          · rw [hlen, List.length_append, List.length_singleton]
            exact Nat.le_succ_of_le h.behind
          · rw [hlen]
            exact h.limit
          · cases hstarted.symm.trans hno
          · cases hstarting.symm.trans hno
          · rw [hgiven]
            rfl
          · have hnext := h.next
            rw [hgiven, List.length_nil, Nat.zero_mod, ite_self] at hnext
            rw [hgiven, List.length_nil, Nat.zero_mod, ite_self]
            exact hnext
      · refine ⟨{ s with threads := s.threads.set s.loops.length t' }, ?_, ?_⟩
        · simp only [EventLoopThreadPool.goOn, hcurrent, ht', if_neg hreturning]
        · refine h.setThread hcurrent hsteady (fun hu => hrequested.trans hu) (fun howner => ?_)
            fun _ => hstays hreturning
          simp only [EventLoopThread.InStartLoop, howner, reduceCtorEq, or_self] at hin

theorem Sound.loopThread (h : s.Sound) (i : Nat) (quits : Bool) :
    ∃ u, s.loopThread i quits = .ok u ∧ u.Sound := by
  cases hi : s.threads[i]? with
  | none =>
      refine ⟨s, ?_, h⟩
      rw [EventLoopThreadPool.loopThread, hi]
  | some t =>
      have hsteady := h.steady i t hi
      cases quits with
      | false =>
          obtain ⟨hsteady', howner, hrequested⟩ := hsteady.stepLoopThread
          refine ⟨{ s with threads := s.threads.set i t.stepLoopThread }, ?_,
            h.setThread hi hsteady' (fun hu => hrequested.trans hu) (fun hu => howner.trans hu)
              fun hin => ?_⟩
          · rw [EventLoopThreadPool.loopThread, hi]
            rfl
          · rw [EventLoopThread.InStartLoop, howner]
            exact hin
      | true =>
          cases ht : t.exec .callbackQuits with
          | error fault => cases ht
          | ok t' =>
              obtain ⟨hsteady', howner, hrequested⟩ := hsteady.callbackQuits ht
              refine ⟨{ s with threads := s.threads.set i t' }, ?_,
                h.setThread hi hsteady' hrequested (fun hu => howner.trans hu) fun hin => ?_⟩
              · simp only [EventLoopThreadPool.loopThread, hi, if_true, ht]
              · rw [EventLoopThread.InStartLoop, howner]
                exact hin

theorem turn_mem {loops : List LoopRef} (hloops : loops ≠ []) (call : Nat) :
    loops[call % loops.length]? = some (turn loops call) := by
  have hlt : call % loops.length < loops.length :=
    Nat.mod_lt _ (List.length_pos_iff.mpr hloops)
  rw [turn, List.getD_eq_getElem?_getD, List.getElem?_eq_getElem hlt, Option.getD_some]

/-- ++m_next, which starts again at the end. -/
theorem advance_eq {n k : Nat} (hn : 0 < n) :
    (if n ≤ k % n + 1 then 0 else k % n + 1) = (k + 1) % n := by
  have hlt := Nat.mod_lt k hn
  have hmod : (k + 1) % n = (k % n + 1) % n := (Nat.mod_add_mod k n 1).symm
  rw [hmod]
  split
  · have hlast : k % n + 1 = n := by omega
    rw [hlast, Nat.mod_self]
  · exact (Nat.mod_eq_of_lt (by omega : k % n + 1 < n)).symm

/-- The loop that comes next in turn is handed out. -/
theorem Sound.getNextLoop (h : s.Sound) (hstarting : s.starting = false)
    (hstarted : s.started = true) : ∃ u, s.getNextLoop = .ok (turn s.loops s.given.length, u) ∧
      Sound { u with given := u.given ++ [turn s.loops s.given.length] } := by
  have hrotation {loops : List LoopRef} {given : List LoopRef}
      (hgiven : given = (List.range given.length).map (turn loops)) :
      given ++ [turn loops given.length] =
        (List.range (given ++ [turn loops given.length]).length).map (turn loops) := by
    rw [List.length_append, List.length_singleton, List.range_succ, List.map_append, ← hgiven]
    rfl
  have hinside : ¬ (s.starting = true ∨ s.started = false) := by
    rw [hstarting, hstarted]
    intro h
    cases h with
    | inl h => cases h
    | inr h => cases h
  have hnot : ¬ s.started = false := fun hno => hinside (.inr hno)
  by_cases hloops : s.loops = []
  · refine ⟨s, ?_, h.steady, h.handed, h.current, h.behind, h.limit, h.idle,
      fun hno => absurd hno hinside, h.entered, h.full, hrotation h.rotation, ?_⟩
    · rw [EventLoopThreadPool.getNextLoop, if_neg hnot, if_pos hloops, turn, hloops]
      rfl
    · rw [h.next, if_pos hloops, if_pos hloops]
  · have hnext := h.next
    have hpos := List.length_pos_iff.mpr hloops
    rw [if_neg hloops] at hnext
    refine ⟨{ s with next := if s.loops.length ≤ s.next + 1 then 0 else s.next + 1 }, ?_, h.steady,
      h.handed, h.current, h.behind, h.limit, h.idle, fun hno => absurd hno hinside, h.entered,
      h.full, hrotation h.rotation, ?_⟩
    · simp only [EventLoopThreadPool.getNextLoop, if_neg hnot, if_neg hloops, hnext,
        turn_mem hloops]
    · rw [if_neg hloops, List.length_append, List.length_singleton, ← advance_eq hpos, ← hnext]

/-- A step returns unless start() is called again or getNextLoop before start(). -/
theorem Sound.step (h : s.Sound) (step : ThreadPoolStep) :
    s.exec step = .error .startedTwice ∨ s.exec step = .error .notStarted ∨
      ∃ u, s.exec step = .ok u ∧ u.Sound := by
  cases step with
  | start =>
      by_cases hstarting : s.starting = true
      · exact .inr (.inr ⟨s, if_pos hstarting, h⟩)
      · rw [exec, if_neg hstarting]
        cases h.start with
        | inl hbad => exact .inl hbad
        | inr hok => exact .inr (.inr hok)
  | goOn quit =>
      by_cases hstarting : s.starting = true
      · obtain ⟨u, hu, hsound⟩ := h.goOn hstarting quit
        refine .inr (.inr ⟨u, ?_, hsound⟩)
        rw [exec, if_pos hstarting]
        exact hu
      · exact .inr (.inr ⟨s, if_neg hstarting, h⟩)
  | loopThread i quits => exact .inr (.inr (h.loopThread i quits))
  | getNextLoop =>
      by_cases hstarting : s.starting = true
      · exact .inr (.inr ⟨s, if_pos hstarting, h⟩)
      · rw [exec, if_neg hstarting]
        by_cases hstarted : s.started = true
        · obtain ⟨u, hu, hsound⟩ := h.getNextLoop (Bool.eq_false_iff.mpr hstarting) hstarted
          refine .inr (.inr ⟨_, ?_, hsound⟩)
          rw [hu]
          rfl
        · refine .inr (.inl ?_)
          rw [EventLoopThreadPool.getNextLoop, if_pos (Bool.eq_false_iff.mpr hstarted)]
          rfl

theorem Sound.run (h : s.Sound) (steps : List ThreadPoolStep) :
    Foundation.run exec s steps = .error .startedTwice ∨
      Foundation.run exec s steps = .error .notStarted ∨
        ∃ u, Foundation.run exec s steps = .ok u ∧ u.Sound := by
  induction steps generalizing s with
  | nil => exact .inr (.inr ⟨s, rfl, h⟩)
  | cons step steps ih =>
      rw [Foundation.run]
      obtain hbad | hbad | ⟨u, hu, hsound⟩ := h.step step
      · rw [hbad]
        exact .inl rfl
      · rw [hbad]
        exact .inr (.inl rfl)
      · rw [hu, ok_bind]
        exact ih hsound

/-- What a pool is for. -/
structure Spreads (s : EventLoopThreadPool) : Prop where
  /-- No assert on m_looping has failed in any of its threads. -/
  asserts : ∀ (i : Nat) (t : EventLoopThread), s.threads[i]? = some t → t.failed = []
  /-- start() has started as many threads as it was told to, and has the loop of each. -/
  complete : s.started = true → s.starting = false → s.loops.length = s.numThreads.toNat
  /-- A loop of the pool is alive, unless a callback has asked it to quit. -/
  alive : ∀ i < s.loops.length, ∃ t, s.threads[i]? = some t ∧ (t.requested = true ∨
    s.loops[i]? = some (.ofThread i) ∧ t.published = true ∧ t.thread.alive = true)
  /-- The calls of getNextLoop get the loops in turn, -/
  rotation : s.given = (List.range s.given.length).map (turn s.loops)
  /-- so each loop is given out as often as the others, or once more. -/
  even : ∀ i, s.loops[i]? = some (.ofThread i) → s.given.count (.ofThread i) =
    s.given.length / s.loops.length + if i < s.given.length % s.loops.length then 1 else 0
  /-- What can be got for a hash is among what getAllLoops returns. -/
  hashed : s.started = true → ∃ loops, s.getAllLoops = .ok loops ∧
    ∀ hashCode, ∃ loop ∈ loops, s.getLoopForHash hashCode = .ok loop

theorem countP_range (p : Nat → Prop) [DecidablePred p] (n : Nat) :
    (List.range n).countP p = Nat.count p n := by
  induction n with
  | zero => rfl
  | succ n ih =>
      rw [List.range_succ, List.countP_append, ih, Nat.count_succ, List.countP_singleton]
      simp only [decide_eq_true_eq]

theorem Sound.even (h : s.Sound) {i : Nat} (hi : s.loops[i]? = some (.ofThread i)) :
    s.given.count (.ofThread i) = s.given.length / s.loops.length +
      if i < s.given.length % s.loops.length then 1 else 0 := by
  have hlt := (List.getElem?_eq_some_iff.mp hi).1
  have hpos : 0 < s.loops.length := Nat.lt_of_le_of_lt (Nat.zero_le i) hlt
  have hloops : s.loops ≠ [] := List.length_pos_iff.mp hpos
  -- this loop is at no other place of m_loops
  have hturn (j : Nat) : turn s.loops j = .ofThread i ↔ j ≡ i [MOD s.loops.length] := by
    have hj := turn_mem hloops j
    constructor
    · intro heq
      obtain ⟨t, -, -, hown⟩ := h.handed (j % s.loops.length) (Nat.mod_lt j hpos)
      rw [hj, heq] at hown
      cases hown with
      | inl hsame =>
          cases hsame
          exact (Nat.mod_modEq j _).symm
      | inr hnull => cases hnull.2
    · intro hmod
      have hmod : j % s.loops.length = i % s.loops.length := hmod
      rw [hmod, Nat.mod_eq_of_lt hlt, hi] at hj
      exact (Option.some.inj hj).symm
  have hcount : s.given.count (.ofThread i) =
      Nat.count (· ≡ i [MOD s.loops.length]) s.given.length := by
    rw [← countP_range, h.rotation, List.count_eq_countP, List.countP_map, List.length_map,
      List.length_range]
    refine List.countP_congr fun j _ => ?_
    simp only [Function.comp_apply, beq_iff_eq, decide_eq_true_eq]
    exact hturn j
  rw [hcount, Nat.count_modEq_card _ hpos, Nat.mod_eq_of_lt hlt]

theorem Sound.spreads (h : s.Sound) : s.Spreads where
  asserts := fun i t ht => (h.steady i t ht).asserted.failed
  complete := fun hstarted hstarting => (h.full hstarted hstarting).2
  alive := by
    intro i hi
    obtain ⟨t, ht, howner, hloop⟩ := h.handed i hi
    refine ⟨t, ht, ?_⟩
    by_cases hrequested : t.requested = true
    · exact .inl hrequested
    · have hu := Bool.eq_false_iff.mpr hrequested
      have hsteady := h.steady i t ht
      have hpublished := hsteady.waited (.inr howner) hu
      refine .inr ⟨hloop.resolve_right fun hnull => hrequested hnull.1, hpublished, ?_⟩
      exact EventLoopThread.alive_of_running ((hsteady.published hu).symm.trans hpublished)
  rotation := h.rotation
  even := fun i => h.even
  hashed := by
    intro hstarted
    have hnot : ¬ s.started = false := by
      rw [hstarted]
      intro h
      cases h
    by_cases hloops : s.loops = []
    · refine ⟨[.base], ?_, fun hashCode => ⟨.base, List.mem_singleton_self _, if_pos hloops⟩⟩
      rw [getAllLoops, if_neg hnot, if_pos hloops]
    · refine ⟨s.loops, ?_, fun hashCode => ⟨turn s.loops hashCode, ?_, ?_⟩⟩
      · rw [getAllLoops, if_neg hnot, if_neg hloops]
      · exact List.mem_of_getElem? (turn_mem hloops hashCode)
      · simp only [getLoopForHash, if_neg hloops, turn_mem hloops]

/-- However the threads take turns, start() returns with a loop for each thread and the
loops are given out evenly; a run ends only at the asserts that start() is called once
and before getNextLoop, and no assert on m_looping fails in any of the threads. -/
theorem pool_spreads (numThreads : Int) (steps : List ThreadPoolStep) :
    run exec (new numThreads) steps = .error .startedTwice ∨
      run exec (new numThreads) steps = .error .notStarted ∨
        ∃ u, run exec (new numThreads) steps = .ok u ∧ u.Spreads := by
  obtain hbad | hbad | ⟨u, hu, hsound⟩ := (new_sound numThreads).run steps
  · exact .inl hbad
  · exact .inr (.inl hbad)
  · exact .inr (.inr ⟨u, hu, hsound.spreads⟩)

end EventLoopThreadPool

end TAlib
