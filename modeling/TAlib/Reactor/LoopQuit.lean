import TAlib.Reactor.Wakeup

/-!
EventLoop::loop and EventLoop::quit of src/Reactor/EventLoop.cpp over the task queue.
Another thread sets m_quit and wakes the loop up in a second step; a callback of the
loop only sets m_quit. The loop looks at m_quit between two iterations, so it finishes
the one it is in, and what is pushed after the swap of that one stays in the queue.
-/

namespace TAlib

open Foundation

/-- Where the loop thread stands with respect to the while loop of loop(). -/
inductive WhilePoint where
  /-- loop() is not called yet. -/
  | before
  /-- At the condition. -/
  | test
  | body
  /-- Behind the while loop, before m_looping = false. -/
  | lowering
  | returned
  deriving DecidableEq, Repr

/-- `quitting` says which other threads stand in quit() between m_quit = true and the
wakeup. -/
structure QuitLoop (φ : Type) where
  task : TaskLoop φ
  place : WhilePoint
  quit : Bool
  looping : Bool
  quitting : Nat → Bool

inductive QuitStep (φ : Type) where
  | task (step : TaskStep φ)
  | test
  | lower
  /-- Another thread, first half of quit(). -/
  | quit (thread : Nat)
  /-- Another thread, second half of quit(). -/
  | finishQuit (thread : Nat)
  /-- A callback of the loop calls quit(). -/
  | quitInLoop
  deriving DecidableEq

inductive QuitStop where
  | notThere
  /-- assert(m_looping == true) of quit(). -/
  | notLooping
  deriving DecidableEq

/-- The part of an iteration that the loop thread is in. -/
inductive LoopStage where
  | outside
  | polling
  | beforeSwap
  | afterSwap
  deriving DecidableEq, Repr

def LoopPoint.stage {φ : Type} : LoopPoint φ → LoopStage
  | .outside => .outside
  | .polling => .polling
  | .dispatching _ | .handling _ | .flagging | .swapping => .beforeSwap
  | .batch _ | .calling _ => .afterSwap

namespace QuitLoop

variable {φ : Type}

/-- What the constructor leaves in m_quit is not known. -/
def new (quit : Bool) : QuitLoop φ := ⟨.new, .before, quit, false, fun _ => false⟩

def runTask (s : QuitLoop φ) (step : TaskStep φ) : Except QuitStop (QuitLoop φ) :=
  match s.task.exec step with
  | .error _ => .error .notThere
  | .ok task => .ok { s with task := task }

/-- epoll_wait has something to report: the wakeup fd when its counter is positive, or
another channel, which may be ready at any time. Without a timeout it waits for that. -/
def Ready (s : QuitLoop φ) (active : List Source) : Prop :=
  active ≠ [] ∧ (.wakeup ∈ active → 0 < s.task.wakeupCounter)

instance (s : QuitLoop φ) (active : List Source) : Decidable (s.Ready active) :=
  inferInstanceAs (Decidable (_ ∧ (_ → _)))

/-- A step of the queue. An iteration ends at the condition of the while loop, and poll
is called behind it. -/
def execTask (s : QuitLoop φ) (step : TaskStep φ) : Except QuitStop (QuitLoop φ) :=
  match step with
  | .loop => do
      let s ← s.runTask .loop
      return { s with place := .test, quit := false, looping := true }
  | .poll active =>
      if s.place = .body ∧ s.Ready active then s.runTask (.poll active) else .error .notThere
  | .push thread f => if s.quitting thread then .error .notThere else s.runTask (.push thread f)
  | .next => do
      let t ← s.runTask .next
      return if t.task.point.stage = .polling then { t with place := .test } else t
  | step => s.runTask step

def exec (s : QuitLoop φ) : QuitStep φ → Except QuitStop (QuitLoop φ)
  | .task step => s.execTask step
  | .test =>
      if s.place = .test then .ok { s with place := if s.quit then .lowering else .body }
      else .error .notThere
  | .lower =>
      if s.place = .lowering then .ok { s with place := .returned, looping := false }
      else .error .notThere
  | .quit thread =>
      if s.quitting thread || s.task.pushed thread then .error .notThere
      else if s.looping then
        .ok { s with quit := true, quitting := Function.update s.quitting thread true }
      else .error .notLooping
  | .finishQuit thread =>
      if s.quitting thread then
        .ok { s with
          task := s.task.wakeup, quitting := Function.update s.quitting thread false }
      else .error .notThere
  | .quitInLoop =>
      if s.task.inCallBack && !s.task.queueing then
        if s.looping then .ok { s with quit := true } else .error .notLooping
      else .error .notThere

end QuitLoop

theorem LoopStage.beforeSwap_ne_polling : LoopStage.beforeSwap ≠ .polling := by decide

theorem LoopStage.afterSwap_ne_polling : LoopStage.afterSwap ≠ .polling := by decide

/-- loop() is called, or poll returns. -/
def TaskStep.starts {φ : Type} : TaskStep φ → Bool
  | .loop | .poll _ => true
  | _ => false

namespace TaskLoop

variable {φ : Type} {s t : TaskLoop φ} {step : TaskStep φ}

/-- The functors that the loop has taken out of the queue. -/
def called (s : TaskLoop φ) : List φ := s.executed ++ s.rest

/-- The steps that the loop thread takes at most to the end of the iteration. -/
def togo (s : TaskLoop φ) : Nat :=
  (match s.point with
    | .outside => 0
    | .polling => 9 + 2 * s.pendingFunctors.length
    | .dispatching active => 6 + 2 * active.length + 2 * s.pendingFunctors.length
    | .handling active => 7 + 2 * active.length + 2 * s.pendingFunctors.length
    | .flagging => 5 + 2 * s.pendingFunctors.length
    | .swapping => 4 + 2 * s.pendingFunctors.length
    | .batch functors => 3 + 2 * functors.length
    | .calling functors => 4 + 2 * functors.length) + if s.queueing then 1 else 0

/-- What a step does to the iteration that the loop is in. -/
inductive Proceeds (s t : TaskLoop φ) (step : TaskStep φ) : Prop where
  | stays (stage : t.point.stage = s.point.stage) (called : t.called = s.called)
      (counter : s.point.stage = .polling → s.wakeupCounter ≤ t.wakeupCounter)
      (steps : step.starts = false)
  | begins (step : step = .loop) (outside : s.point.stage = .outside)
      (polling : t.point.stage = .polling) (called : t.called = s.called)
  | polls (active : List Source) (step : step = .poll active) (polling : s.point.stage = .polling)
      (stage : t.point.stage = .beforeSwap) (called : t.called = s.called)
  | swaps (step : step = .next) (stage : s.point.stage = .beforeSwap)
      (after : t.point.stage = .afterSwap) (called : t.called = s.stream)
  | ends (step : step = .next) (stage : s.point.stage = .afterSwap)
      (polling : t.point.stage = .polling) (called : t.called = s.called)

theorem wakeup_mono (s : TaskLoop φ) : s.wakeupCounter ≤ s.wakeup.wakeupCounter := by
  rw [wakeup]
  split
  · exact Nat.le_succ _
  · exact Nat.le_refl _

theorem advance_proceeds (h : s.advance = .ok t) : Proceeds s t .next := by
  cases hpoint : s.point with
  | outside | polling | handling _ | calling _ =>
      simp only [advance, hpoint] at h
      cases h
  | dispatching active =>
      have hstays {u : TaskLoop φ} (hstage : u.point.stage = .beforeSwap)
          (hexecuted : u.executed = s.executed) (hrest : u.rest = []) : Proceeds s u .next := by
        refine .stays ?_ ?_ (fun hpolling => ?_) rfl
        · rw [hstage, hpoint]
          rfl
        · rw [TaskLoop.called, hexecuted, hrest, TaskLoop.called, rest, hpoint]
        · rw [hpoint] at hpolling
          cases hpolling
      cases active with
      | nil =>
          simp only [advance, hpoint] at h
          cases h
          exact hstays rfl rfl rfl
      | cons source active =>
          cases source with
          | wakeup | other =>
              simp only [advance, hpoint] at h
              cases h
              exact hstays rfl rfl rfl
  | flagging =>
      simp only [advance, hpoint] at h
      cases h
      refine .stays ?_ ?_ (fun _ => Nat.le_refl _) rfl
      · rw [hpoint]
        rfl
      · simp only [TaskLoop.called, rest, hpoint]
  | swapping =>
      simp only [advance, hpoint] at h
      cases h
      refine .swaps rfl ?_ rfl ?_
      · rw [hpoint]
        rfl
      · simp only [TaskLoop.called, stream, rest, hpoint, List.append_nil]
  | batch functors =>
      cases functors with
      | nil =>
          simp only [advance, hpoint] at h
          cases h
          refine .ends rfl ?_ rfl ?_
          · rw [hpoint]
            rfl
          · simp only [TaskLoop.called, rest, hpoint]
      | cons f functors =>
          simp only [advance, hpoint] at h
          cases h
          refine .stays ?_ ?_ (fun _ => Nat.le_refl _) rfl
          · rw [hpoint]
            rfl
          · simp only [TaskLoop.called, rest, hpoint, List.append_assoc, List.singleton_append]

theorem exec_proceeds (h : s.exec step = .ok t) : Proceeds s t step := by
  cases step with
  | push thread f =>
      simp only [exec] at h
      split at h
      · cases h
      · cases h
        exact .stays rfl rfl (fun _ => Nat.le_refl _) rfl
  | wake thread =>
      simp only [exec] at h
      split at h
      · cases h
        obtain ⟨n, hn⟩ := wakeup_eq s
        have hmono := wakeup_mono s
        rw [hn] at hmono ⊢
        exact .stays rfl rfl (fun _ => hmono) rfl
      · cases h
  | queue f =>
      simp only [exec] at h
      split at h
      · cases h
        exact .stays rfl rfl (fun _ => Nat.le_refl _) rfl
      · cases h
  | finishQueue =>
      simp only [exec] at h
      split at h
      · cases h
        split
        · obtain ⟨n, hn⟩ := wakeup_eq s
          have hmono := wakeup_mono s
          rw [hn] at hmono ⊢
          exact .stays rfl rfl (fun _ => hmono) rfl
        · exact .stays rfl rfl (fun _ => Nat.le_refl _) rfl
      · cases h
  | loop =>
      simp only [exec] at h
      split at h
      · rename_i hpoint
        cases h
        refine .begins rfl ?_ rfl ?_
        · rw [hpoint]
          rfl
        · simp only [TaskLoop.called, rest, hpoint]
      · cases h
  | poll active =>
      simp only [exec] at h
      split at h
      · rename_i hpoint
        cases h
        refine .polls active rfl ?_ rfl ?_
        · rw [hpoint]
          rfl
        · simp only [TaskLoop.called, rest, hpoint]
      · cases h
  | back =>
      simp only [exec] at h
      split at h
      · cases h
      · cases hpoint : s.point with
        | handling active | calling active =>
            simp only [back, hpoint] at h
            cases h
            refine .stays ?_ ?_ (fun _ => Nat.le_refl _) rfl
            · rw [hpoint]
              rfl
            · simp only [TaskLoop.called, rest, hpoint]
        | outside | polling | dispatching _ | flagging | swapping | batch _ =>
            simp only [back, hpoint] at h
            cases h
  | next => exact advance_proceeds h

theorem togo_long (h : s.point ≠ .outside) : 2 < s.togo := by
  rw [togo]
  cases hpoint : s.point with
  | outside => exact absurd hpoint h
  | polling | dispatching _ | handling _ | flagging | swapping | batch _ | calling _ =>
      simp only
      omega

end TaskLoop

/-- Steps of the loop thread that begin nothing new: the statements of loop() and
doPendingFunctors, and the returns of what they call, of poll only for the wakeup. -/
def TaskStep.ofLoop {φ : Type} : TaskStep φ → Bool
  | .finishQueue | .back | .next => true
  | .poll active => active = [.wakeup]
  | .push _ _ | .wake _ | .queue _ | .loop => false

namespace TaskLoop

variable {φ : Type} {s t : TaskLoop φ} {step : TaskStep φ}

/-- An iteration in which poll has returned can go on to its end. -/
theorem forward (hs : s.Sound) (houtside : s.point.stage ≠ .outside)
    (hpolling : s.point.stage ≠ .polling) :
    ∃ step t, step.ofLoop = true ∧ s.exec step = .ok t ∧
      (t.point.stage = .polling ∧ step = .next ∨ t.point.stage ≠ .polling ∧ t.togo < s.togo) := by
  cases hq : s.queueing with
  | true =>
      have hcall := hs.queueing hq
      refine ⟨.finishQueue, _, rfl, if_pos hq, .inr ?_⟩
      obtain ⟨n, hn⟩ := wakeup_eq s
      have hstays (u : TaskLoop φ) (hpoint : u.point = s.point)
          (hpending : u.pendingFunctors = s.pendingFunctors) (hdone : u.queueing = false) :
          u.point.stage ≠ .polling ∧ u.togo < s.togo := by
        constructor
        · rw [hpoint]
          cases hwhere : s.point with
          | handling _ => exact LoopStage.beforeSwap_ne_polling
          | calling _ => exact LoopStage.afterSwap_ne_polling
          | outside | polling | dispatching _ | flagging | swapping | batch _ =>
              rw [inCallBack, hwhere] at hcall
              cases hcall
        · rw [togo, togo, hpoint, hpending, hdone, hq]
          exact Nat.lt_succ_self _
      split
      · rw [hn]
        exact hstays _ rfl rfl rfl
      · exact hstays _ rfl rfl rfl
  | false =>
      cases hpoint : s.point with
      | outside => exact absurd (by rw [hpoint]; rfl) houtside
      | polling => exact absurd (by rw [hpoint]; rfl) hpolling
      | dispatching active =>
          cases active with
          | nil =>
              refine ⟨.next, { s with point := .flagging }, rfl, ?_,
                .inr ⟨LoopStage.beforeSwap_ne_polling, ?_⟩⟩
              · simp only [exec, advance, hpoint]
              · simp only [togo, hpoint, List.length_nil]
                omega
          | cons source active =>
              cases source with
              | wakeup =>
                  refine ⟨.next, { s.handleRead with point := .dispatching active }, rfl, ?_,
                    .inr ⟨LoopStage.beforeSwap_ne_polling, ?_⟩⟩
                  · simp only [exec, advance, hpoint]
                  · simp only [togo, handleRead, hpoint, List.length_cons]
                    omega
              | other =>
                  refine ⟨.next, { s with point := .handling active }, rfl, ?_,
                    .inr ⟨LoopStage.beforeSwap_ne_polling, ?_⟩⟩
                  · simp only [exec, advance, hpoint]
                  · simp only [togo, hpoint, List.length_cons]
                    omega
      | handling active =>
          refine ⟨.back, { s with point := .dispatching active }, rfl, ?_,
            .inr ⟨LoopStage.beforeSwap_ne_polling, ?_⟩⟩
          · simp only [exec, back, hpoint, hq, if_false, Bool.false_eq_true]
          · simp only [togo, hpoint]
            omega
      | flagging =>
          refine ⟨.next, { s with callingPendingFunctors := true, point := .swapping }, rfl, ?_,
            .inr ⟨LoopStage.beforeSwap_ne_polling, ?_⟩⟩
          · simp only [exec, advance, hpoint]
          · simp only [togo, hpoint]
            omega
      | swapping =>
          refine ⟨.next, { s with pendingFunctors := [], point := .batch s.pendingFunctors }, rfl,
            ?_, .inr ⟨LoopStage.afterSwap_ne_polling, ?_⟩⟩
          · simp only [exec, advance, hpoint]
          · simp only [togo, hpoint]
            omega
      | batch functors =>
          cases functors with
          | nil =>
              refine ⟨.next, { s with callingPendingFunctors := false, point := .polling }, rfl, ?_,
                .inl ⟨rfl, rfl⟩⟩
              simp only [exec, advance, hpoint]
          | cons f functors =>
              refine ⟨.next, { s with executed := s.executed ++ [f], point := .calling functors },
                rfl, ?_,
                  .inr ⟨LoopStage.afterSwap_ne_polling, ?_⟩⟩
              · simp only [exec, advance, hpoint]
              · simp only [togo, hpoint, List.length_cons]
                omega
      | calling functors =>
          refine ⟨.back, { s with point := .batch functors }, rfl, ?_,
            .inr ⟨LoopStage.afterSwap_ne_polling, ?_⟩⟩
          · simp only [exec, back, hpoint, hq, if_false, Bool.false_eq_true]
          · simp only [togo, hpoint]
            omega

end TaskLoop

/-- The steps of the queue among the steps. -/
def tasksOf {φ : Type} (steps : List (QuitStep φ)) : List (TaskStep φ) :=
  steps.filterMap fun step =>
    match step with
    | .task step => some step
    | _ => none

@[simp] theorem tasksOf_append {φ : Type} (steps steps' : List (QuitStep φ)) :
    tasksOf (steps ++ steps') = tasksOf steps ++ tasksOf steps' := List.filterMap_append ..

def TaskStep.isPoll {φ : Type} : TaskStep φ → Bool
  | .poll _ => true
  | _ => false

/-- A step of the loop thread that begins nothing new, or the second half of a quit()
that has begun. -/
def QuitStep.finishes {φ : Type} : QuitStep φ → Bool
  | .task step => step.ofLoop
  | .test | .lower | .finishQuit _ => true
  | .quit _ | .quitInLoop => false

/-- How often poll returns among these steps. -/
def pollsOf {φ : Type} (steps : List (QuitStep φ)) : Nat := (tasksOf steps).countP TaskStep.isPoll

namespace QuitLoop

variable {φ : Type} {s t : QuitLoop φ} {step : QuitStep φ}

def stage (s : QuitLoop φ) : LoopStage := s.task.point.stage

/-- The loop thread is in poll, or about to call it. -/
def InPoll (s : QuitLoop φ) : Prop := s.place = .body ∧ s.stage = .polling

/-- No swap comes before the condition of the while loop. -/
def Late (s : QuitLoop φ) : Prop := s.place ≠ .body ∨ s.stage = .afterSwap

/-- What a step does to the loop thread and to m_quit. -/
inductive Proceeds (s t : QuitLoop φ) (step : QuitStep φ) : Prop where
  | stays (place : t.place = s.place) (stage : t.stage = s.stage) (quit : t.quit = s.quit)
      (quitting : t.quitting = s.quitting) (called : t.task.called = s.task.called)
      (counter : s.stage = .polling → s.task.wakeupCounter ≤ t.task.wakeupCounter)
      (polls : pollsOf [step] = 0)
  | begins (outside : s.stage = .outside) (place : t.place = .test) (stage : t.stage = .polling)
      (quit : t.quit = false) (polls : pollsOf [step] = 0)
  | polls (poll : s.InPoll) (place : t.place = .body) (stage : t.stage = .beforeSwap)
      (quit : t.quit = s.quit) (polls : pollsOf [step] = 1)
  | swaps (before : s.stage = .beforeSwap) (place : t.place = s.place)
    (stage : t.stage = .afterSwap)
      (quit : t.quit = s.quit) (called : t.task.called = s.task.stream) (polls : pollsOf [step] = 0)
  | ends (after : s.stage = .afterSwap) (place : t.place = .test) (stage : t.stage = .polling)
      (quit : t.quit = s.quit) (called : t.task.called = s.task.called) (polls : pollsOf [step] = 0)
  | tests (test : s.place = .test) (place : t.place = if s.quit then .lowering else .body)
      (task : t.task = s.task) (quit : t.quit = s.quit) (polls : pollsOf [step] = 0)
  | lowers (lowering : s.place = .lowering) (place : t.place = .returned) (task : t.task = s.task)
      (quit : t.quit = s.quit) (polls : pollsOf [step] = 0)
  | quits (place : t.place = s.place) (task : t.task = s.task) (quit : t.quit = true)
      (woken : s.stage = .polling → ∃ thread, t.quitting thread = true) (polls : pollsOf [step] = 0)
  | wakes (place : t.place = s.place) (stage : t.stage = s.stage) (quit : t.quit = s.quit)
      (called : t.task.called = s.task.called) (counter : 0 < t.task.wakeupCounter)
      (polls : pollsOf [step] = 0)

theorem runTask_ok {step : TaskStep φ} (h : s.runTask step = .ok t) :
    ∃ task, s.task.exec step = .ok task ∧ t = { s with task := task } := by
  rw [runTask] at h
  split at h
  · cases h
  · rename_i task htask
    cases h
    exact ⟨task, htask, rfl⟩

/-- A step of the queue that begins and ends nothing. -/
theorem runTask_stays {step : TaskStep φ} (h : s.runTask step = .ok t)
    (hstarts : step.starts = false) (hnext : step ≠ .next) : Proceeds s t (.task step) := by
  obtain ⟨task, htask, rfl⟩ := runTask_ok h
  have hpolls : pollsOf [QuitStep.task step] = 0 := by
    cases step with
    | poll active => cases hstarts
    | push _ _ | wake _ | queue _ | finishQueue | loop | back | next => rfl
  cases TaskLoop.exec_proceeds htask with
  | stays stage called counter => exact .stays rfl stage rfl rfl called counter hpolls
  | begins step =>
      rw [step] at hstarts
      cases hstarts
  | polls active step =>
      rw [step] at hstarts
      cases hstarts
  | swaps step => exact absurd step hnext
  | ends step => exact absurd step hnext

theorem execTask_proceeds {step : TaskStep φ} (h : s.execTask step = .ok t) :
    Proceeds s t (.task step) := by
  cases step with
  | loop =>
      obtain ⟨u, hu, h⟩ := bind_eq_ok.mp h
      cases h
      obtain ⟨task, htask, rfl⟩ := runTask_ok hu
      cases TaskLoop.exec_proceeds htask with
      | stays stage called counter starts => cases starts
      | begins step outside polling called => exact .begins outside rfl polling rfl rfl
      | polls active step => cases step
      | swaps step => cases step
      | ends step => cases step
  | poll active =>
      simp only [execTask] at h
      split at h
      · rename_i hbody
        obtain ⟨task, htask, rfl⟩ := runTask_ok h
        cases TaskLoop.exec_proceeds htask with
        | stays stage called counter starts => cases starts
        | begins step => cases step
        | polls active' step polling stage called =>
            exact .polls ⟨hbody.1, polling⟩ hbody.1 stage rfl rfl
        | swaps step => cases step
        | ends step => cases step
      · cases h
  | next =>
      obtain ⟨u, hu, h⟩ := bind_eq_ok.mp h
      cases h
      obtain ⟨task, htask, rfl⟩ := runTask_ok hu
      have hmoves := TaskLoop.exec_proceeds htask
      by_cases hpolling : task.point.stage = .polling
      · rw [if_pos hpolling]
        cases hmoves with
        | stays stage called counter steps =>
            -- nothing follows for the loop thread while it polls
            have hsame : s.task.point.stage = .polling := stage.symm.trans hpolling
            cases hpoint : s.task.point with
            | polling =>
                simp only [TaskLoop.exec, TaskLoop.advance, hpoint] at htask
                cases htask
            | outside | dispatching _ | handling _ | flagging | swapping | batch _ | calling _ =>
                rw [hpoint] at hsame
                cases hsame
        | begins step => cases step
        | polls active step => cases step
        | swaps step before after called => cases after.symm.trans hpolling
        | ends step after polling called => exact .ends after rfl polling rfl called rfl
      · rw [if_neg hpolling]
        cases hmoves with
        | stays stage called counter steps => exact .stays rfl stage rfl rfl called counter rfl
        | begins step => cases step
        | polls active step => cases step
        | swaps step before after called => exact .swaps before rfl after rfl called rfl
        | ends step after polling called => exact absurd polling hpolling
  | push thread f =>
      simp only [execTask] at h
      split at h
      · cases h
      · exact runTask_stays h rfl fun h => by cases h
  | wake _ | queue _ | finishQueue | back => exact runTask_stays h rfl fun h => by cases h

theorem exec_proceeds (h : s.exec step = .ok t) : Proceeds s t step := by
  cases step with
  | task step => exact execTask_proceeds h
  | test =>
      simp only [exec] at h
      split at h
      · rename_i htest
        cases h
        exact .tests htest rfl rfl rfl rfl
      · cases h
  | lower =>
      simp only [exec] at h
      split at h
      · rename_i hlowering
        cases h
        exact .lowers hlowering rfl rfl rfl rfl
      · cases h
  | quit thread =>
      simp only [exec] at h
      split at h
      · cases h
      · split at h
        · cases h
          exact .quits rfl rfl rfl (fun _ => ⟨thread, Function.update_self _ _ _⟩) rfl
        · cases h
  | finishQuit thread =>
      simp only [exec] at h
      split at h
      · cases h
        obtain ⟨n, hn⟩ := TaskLoop.wakeup_eq s.task
        have hpos := TaskLoop.wakeup_pos s.task
        rw [hn] at hpos ⊢
        exact .wakes rfl rfl rfl rfl hpos rfl
      · cases h
  | quitInLoop =>
      simp only [exec] at h
      split at h
      · rename_i hcall
        split at h
        · cases h
          refine .quits rfl rfl rfl (fun hpolling => ?_) rfl
          rw [Bool.and_eq_true, TaskLoop.inCallBack] at hcall
          rw [stage] at hpolling
          cases hpoint : s.task.point with
          | outside | polling | dispatching _ | flagging | swapping | batch _ =>
              rw [hpoint] at hcall
              cases hcall.1
          | handling _ | calling _ =>
              rw [hpoint] at hpolling
              cases hpolling
        · cases h
      · cases h

theorem runTask_sound {step : TaskStep φ} (hs : s.task.Sound) (h : s.runTask step = .ok t) :
    t.task.Sound ∧ t.task.stream = s.task.stream ++ queuedBy [step] := by
  obtain ⟨task, htask, rfl⟩ := runTask_ok h
  exact TaskLoop.exec_sound hs htask

theorem execTask_sound {step : TaskStep φ} (hs : s.task.Sound) (h : s.execTask step = .ok t) :
    t.task.Sound ∧ t.task.stream = s.task.stream ++ queuedBy [step] := by
  cases step with
  | loop =>
      obtain ⟨u, hu, h⟩ := bind_eq_ok.mp h
      cases h
      have hsound := runTask_sound hs hu
      exact hsound
  | poll active =>
      simp only [execTask] at h
      split at h
      · exact runTask_sound hs h
      · cases h
  | push thread f =>
      simp only [execTask] at h
      split at h
      · cases h
      · exact runTask_sound hs h
  | next =>
      obtain ⟨u, hu, h⟩ := bind_eq_ok.mp h
      cases h
      have hsound := runTask_sound hs hu
      split
      · exact hsound
      · exact hsound
  | wake _ | queue _ | finishQueue | back => exact runTask_sound hs h

/-- The queue stays sound under quit(), which pushes nothing. -/
theorem exec_sound (hs : s.task.Sound) (h : s.exec step = .ok t) :
    t.task.Sound ∧ t.task.stream = s.task.stream ++ queuedBy (tasksOf [step]) := by
  have hsame (htask : t.task = s.task) (hnone : tasksOf [step] = []) :
      t.task.Sound ∧ t.task.stream = s.task.stream ++ queuedBy (tasksOf [step]) := by
    rw [htask, hnone]
    exact ⟨hs, (List.append_nil _).symm⟩
  cases step with
  | task step => exact execTask_sound hs h
  | test | lower =>
      simp only [exec] at h
      split at h
      · cases h
        exact hsame rfl rfl
      · cases h
  | quit thread =>
      simp only [exec] at h
      split at h
      · cases h
      · split at h
        · cases h
          exact hsame rfl rfl
        · cases h
  | finishQuit thread =>
      simp only [exec] at h
      split at h
      · cases h
        obtain ⟨n, hn⟩ := TaskLoop.wakeup_eq s.task
        have hpos := TaskLoop.wakeup_pos s.task
        rw [hn] at hpos ⊢
        exact ⟨⟨hs.flag, hs.queueing, fun _ => .inr (.inl hpos)⟩, (List.append_nil _).symm⟩
      · cases h
  | quitInLoop =>
      simp only [exec] at h
      split at h
      · split at h
        · cases h
          exact hsame rfl rfl
        · cases h
      · cases h

/-- What every step keeps. -/
structure Sound (s : QuitLoop φ) : Prop where
  task : s.task.Sound
  before : s.place = .before ↔ s.stage = .outside
  outside : s.place ≠ .body → s.place ≠ .before → s.stage = .polling
  /-- The loop does not sleep through quit(). -/
  awake : s.quit = true → s.InPoll →
    0 < s.task.wakeupCounter ∨ ∃ thread, s.quitting thread = true

theorem new_sound (quit : Bool) : (new quit : QuitLoop φ).Sound :=
  ⟨TaskLoop.new_sound, iff_of_true rfl rfl, fun _ h => absurd rfl h, fun _ h => by cases h.1⟩

theorem Sound.in_body (hs : s.Sound) (houtside : s.stage ≠ .outside)
    (hpolling : s.stage ≠ .polling) : s.place = .body := by
  apply Classical.byContradiction
  intro hbody
  have hbefore : s.place ≠ .before := fun h => houtside (hs.before.mp h)
  exact hpolling (hs.outside hbody hbefore)

theorem sound_exec (hs : s.Sound) (h : s.exec step = .ok t) : t.Sound := by
  have htask := (exec_sound hs.task h).1
  cases exec_proceeds h with
  | stays place stage quit quitting called counter polls =>
      refine ⟨htask, ?_, ?_, fun hquit hpoll => ?_⟩
      · rw [place, stage]
        exact hs.before
      · rw [place, stage]
        exact hs.outside
      · rw [InPoll, place, stage] at hpoll
        rw [quitting]
        exact (hs.awake (quit ▸ hquit) hpoll).imp_left fun hpos =>
          Nat.lt_of_lt_of_le hpos (counter hpoll.2)
  | begins outside place stage quit polls =>
      refine ⟨htask, ?_, fun _ _ => stage, fun hquit => ?_⟩
      · rw [place, stage]
        decide
      · cases quit.symm.trans hquit
  | polls poll place stage quit polls =>
      refine ⟨htask, ?_, fun hbody => absurd place hbody, fun _ hpoll => ?_⟩
      · rw [place, stage]
        decide
      · cases stage.symm.trans hpoll.2
  | swaps before place stage quit called polls =>
      have hbody : t.place = .body :=
        place.trans (hs.in_body (by rw [before]; decide) (by rw [before]; decide))
      refine ⟨htask, ?_, fun h => absurd hbody h, fun _ hpoll => ?_⟩
      · rw [hbody, stage]
        decide
      · cases stage.symm.trans hpoll.2
  | ends after place stage quit called polls =>
      refine ⟨htask, ?_, fun _ _ => stage, fun _ hpoll => ?_⟩
      · rw [place, stage]
        decide
      · cases place.symm.trans hpoll.1
  | tests test place task quit polls =>
      have hstage : t.stage = .polling := by
        rw [stage, task]
        exact hs.outside (by rw [test]; decide) (by rw [test]; decide)
      refine ⟨htask, ?_, fun _ _ => hstage, fun hquit hpoll => ?_⟩
      · rw [place, hstage]
        split
        · decide
        · decide
      · rw [quit] at hquit
        rw [if_pos hquit] at place
        cases place.symm.trans hpoll.1
  | lowers lowering place task quit polls =>
      have hstage : t.stage = .polling := by
        rw [stage, task]
        exact hs.outside (by rw [lowering]; decide) (by rw [lowering]; decide)
      refine ⟨htask, ?_, fun _ _ => hstage, fun _ hpoll => ?_⟩
      · rw [place, hstage]
        decide
      · cases place.symm.trans hpoll.1
  | quits place task quit woken polls =>
      have hstage : t.stage = s.stage := by rw [stage, task, stage]
      refine ⟨htask, ?_, ?_, fun _ hpoll => .inr (woken (hstage.symm.trans hpoll.2))⟩
      · rw [place, hstage]
        exact hs.before
      · rw [place, hstage]
        exact hs.outside
  | wakes place stage quit called counter polls =>
      refine ⟨htask, ?_, ?_, fun _ _ => .inl counter⟩
      · rw [place, stage]
        exact hs.before
      · rw [place, stage]
        exact hs.outside

/-- m_quit was set since loop() was called. -/
def Told (s : QuitLoop φ) : Prop := s.quit = true ∧ s.place ≠ .before

theorem told_exec (hs : s.Sound) (htold : s.Told) (h : s.exec step = .ok t) : t.Told := by
  obtain ⟨hquit, hbefore⟩ := htold
  cases exec_proceeds h with
  | stays place stage quit quitting called counter polls =>
      exact ⟨quit.trans hquit, place ▸ hbefore⟩
  | begins outside place stage quit polls => exact absurd (hs.before.mpr outside) hbefore
  | polls poll place stage quit polls => exact ⟨quit.trans hquit, by rw [place]; decide⟩
  | swaps before place stage quit called polls => exact ⟨quit.trans hquit, place ▸ hbefore⟩
  | ends after place stage quit called polls => exact ⟨quit.trans hquit, by rw [place]; decide⟩
  | tests test place task quit polls =>
      rw [if_pos hquit] at place
      exact ⟨quit.trans hquit, by rw [place]; decide⟩
  | lowers lowering place task quit polls => exact ⟨quit.trans hquit, by rw [place]; decide⟩
  | quits place task quit woken polls => exact ⟨quit, place ▸ hbefore⟩
  | wakes place stage quit called counter polls => exact ⟨quit.trans hquit, place ▸ hbefore⟩

instance (s : QuitLoop φ) : Decidable s.InPoll :=
  inferInstanceAs (Decidable (s.place = .body ∧ s.stage = .polling))

instance (s : QuitLoop φ) : Decidable s.Late :=
  inferInstanceAs (Decidable (s.place ≠ .body ∨ s.stage = .afterSwap))

/-- How often poll may still return. -/
def pollsLeft (s : QuitLoop φ) : Nat := if s.InPoll then 1 else 0

theorem pollsLeft_same (hplace : t.place = s.place) (hstage : t.stage = s.stage) :
    t.pollsLeft = s.pollsLeft := by
  have hpoll : t.InPoll ↔ s.InPoll := by rw [InPoll, hplace, hstage, InPoll]
  exact if_congr hpoll rfl rfl

theorem pollsLeft_out (hpoll : ¬ t.InPoll) : t.pollsLeft ≤ s.pollsLeft := by
  rw [pollsLeft, if_neg hpoll]
  exact Nat.zero_le _

theorem polls_exec (hs : s.Sound) (htold : s.Told) (h : s.exec step = .ok t) :
    pollsOf [step] + t.pollsLeft ≤ s.pollsLeft := by
  cases exec_proceeds h with
  | stays place stage quit quitting called counter polls =>
      rw [polls, Nat.zero_add, pollsLeft_same place stage]
  | begins outside place stage quit polls => exact absurd (hs.before.mpr outside) htold.2
  | polls poll place stage quit polls =>
      have hout : ¬ t.InPoll := fun hpoll => by cases stage.symm.trans hpoll.2
      rw [polls, pollsLeft, if_neg hout, pollsLeft, if_pos poll]
  | swaps before place stage quit called polls =>
      rw [polls, Nat.zero_add]
      exact pollsLeft_out fun hpoll => by cases stage.symm.trans hpoll.2
  | ends after place stage quit called polls =>
      rw [polls, Nat.zero_add]
      exact pollsLeft_out fun hpoll => by cases place.symm.trans hpoll.1
  | tests test place task quit polls =>
      rw [if_pos htold.1] at place
      rw [polls, Nat.zero_add]
      exact pollsLeft_out fun hpoll => by cases place.symm.trans hpoll.1
  | lowers lowering place task quit polls =>
      rw [polls, Nat.zero_add]
      exact pollsLeft_out fun hpoll => by cases place.symm.trans hpoll.1
  | quits place task quit woken polls =>
      rw [polls, Nat.zero_add, pollsLeft_same place (by rw [stage, task, stage])]
  | wakes place stage quit called counter polls =>
      rw [polls, Nat.zero_add, pollsLeft_same place stage]

theorem late_same (hplace : t.place = s.place) (hstage : t.stage = s.stage) :
    t.Late ↔ s.Late := by
  rw [Late, hplace, hstage, Late]

/-- Behind its last swap the loop takes nothing more out of the queue. -/
theorem late_exec (hs : s.Sound) (htold : s.Told) (hlate : s.Late) (h : s.exec step = .ok t) :
    t.Late ∧ t.task.called = s.task.called := by
  cases exec_proceeds h with
  | stays place stage quit quitting called counter polls =>
      exact ⟨(late_same place stage).mpr hlate, called⟩
  | begins outside place stage quit polls => exact absurd (hs.before.mpr outside) htold.2
  | polls poll place stage quit polls =>
      cases hlate with
      | inl hbody => exact absurd poll.1 hbody
      | inr hafter => cases poll.2.symm.trans hafter
  | swaps before place stage quit called polls =>
      cases hlate with
      | inl hbody =>
          exact absurd (hs.in_body (by rw [before]; decide) (by rw [before]; decide)) hbody
      | inr hafter => cases before.symm.trans hafter
  | ends after place stage quit called polls => exact ⟨.inl (by rw [place]; decide), called⟩
  | tests test place task quit polls =>
      rw [if_pos htold.1] at place
      exact ⟨.inl (by rw [place]; decide), by rw [task]⟩
  | lowers lowering place task quit polls => exact ⟨.inl (by rw [place]; decide), by rw [task]⟩
  | quits place task quit woken polls =>
      exact ⟨(late_same place (by rw [stage, task, stage])).mpr hlate, by rw [task]⟩
  | wakes place stage quit called counter polls =>
      exact ⟨(late_same place stage).mpr hlate, called⟩

/-- These functors are taken out of the queue, or a swap is still to come. -/
def Covers (s : QuitLoop φ) (functors : List φ) : Prop :=
  s.Late ∧ functors <+: s.task.called ∨ ¬ s.Late ∧ functors <+: s.task.stream

theorem covers_exec {functors : List φ} (hs : s.Sound) (htold : s.Told)
    (hcovers : s.Covers functors) (h : s.exec step = .ok t) : t.Covers functors := by
  cases hcovers with
  | inl hcalled =>
      obtain ⟨hlate, hfunctors⟩ := hcalled
      have hstep := late_exec hs htold hlate h
      exact .inl ⟨hstep.1, by rwa [hstep.2]⟩
  | inr hstream =>
      obtain ⟨hlate, hfunctors⟩ := hstream
      have hbody : s.place = .body := Classical.not_not.mp fun hbody => hlate (.inl hbody)
      have hgrown : functors <+: t.task.stream := by
        rw [(exec_sound hs.task h).2]
        exact hfunctors.trans (List.prefix_append _ _)
      cases exec_proceeds h with
      | stays place stage quit quitting called counter polls =>
          exact .inr ⟨(late_same place stage).not.mpr hlate, hgrown⟩
      | begins outside place stage quit polls => exact absurd (hs.before.mpr outside) htold.2
      | polls poll place stage quit polls =>
          refine .inr ⟨fun h => ?_, hgrown⟩
          cases h with
          | inl hout => exact absurd place hout
          | inr hafter => cases stage.symm.trans hafter
      | swaps before place stage quit called polls => exact .inl ⟨.inr stage, by rwa [called]⟩
      | ends after place stage quit called polls => exact absurd (.inr after) hlate
      | tests test place task quit polls => cases test.symm.trans hbody
      | lowers lowering place task quit polls => cases lowering.symm.trans hbody
      | quits place task quit woken polls =>
          exact .inr ⟨(late_same place (by rw [stage, task, stage])).not.mpr hlate, hgrown⟩
      | wakes place stage quit called counter polls =>
          exact .inr ⟨(late_same place stage).not.mpr hlate, hgrown⟩

/-- What holds of a run up to the call of quit. -/
theorem run_sound {steps : List (QuitStep φ)} (hs : s.Sound) (h : run exec s steps = .ok t) :
    t.Sound ∧ t.task.stream = s.task.stream ++ queuedBy (tasksOf steps) := by
  induction steps generalizing s with
  | nil =>
      cases h
      exact ⟨hs, (List.append_nil _).symm⟩
  | cons step steps ih =>
      obtain ⟨m, hm, ht⟩ := run_cons_ok.mp h
      obtain ⟨hsound, hstream⟩ := ih (sound_exec hs hm) ht
      refine ⟨hsound, ?_⟩
      rw [hstream, (exec_sound hs.task hm).2, List.append_assoc, ← queuedBy_append,
        ← tasksOf_append]
      rfl

theorem pollsOf_cons (step : QuitStep φ) (steps : List (QuitStep φ)) :
    pollsOf (step :: steps) = pollsOf [step] + pollsOf steps := by
  rw [← List.singleton_append, pollsOf, tasksOf_append, List.countP_append]
  rfl

/-- What holds of the run behind quit. -/
theorem run_told {steps : List (QuitStep φ)} (hs : s.Sound) (htold : s.Told)
    (h : run exec s steps = .ok t) :
    t.Told ∧ pollsOf steps + t.pollsLeft ≤ s.pollsLeft ∧
      (s.Late → t.Late ∧ t.task.called = s.task.called) ∧
      ∀ functors, s.Covers functors → t.Covers functors := by
  induction steps generalizing s with
  | nil =>
      cases h
      exact ⟨htold, Nat.le_of_eq (Nat.zero_add _), fun hlate => ⟨hlate, rfl⟩, fun _ h => h⟩
  | cons step steps ih =>
      obtain ⟨m, hm, ht⟩ := run_cons_ok.mp h
      obtain ⟨htold', hpolls, hlate, hcovers⟩ := ih (sound_exec hs hm) (told_exec hs htold hm) ht
      refine ⟨htold', ?_, fun h => ?_, fun functors h => ?_⟩
      · have hstep := polls_exec hs htold hm
        rw [pollsOf_cons]
        omega
      · have hstep := late_exec hs htold h hm
        have hrest := hlate hstep.1
        exact ⟨hrest.1, hrest.2.trans hstep.2⟩
      · exact hcovers functors (covers_exec hs htold h hm)

/-- The wakeup of quit() is still to come before poll returns. -/
def Asleep (s : QuitLoop φ) : Prop := s.stage = .polling ∧ s.task.wakeupCounter = 0

instance (s : QuitLoop φ) : Decidable s.Asleep := inferInstanceAs (Decidable (_ ∧ _))

/-- The steps that it takes at most to the end of loop(). -/
def togo (s : QuitLoop φ) : Nat :=
  match s.place with
  | .before | .returned => 0
  | .lowering => 1
  | .test => 2
  | .body => s.task.togo + if s.Asleep then 1 else 0

theorem togo_body (h : s.place = .body) :
    s.togo = s.task.togo + if s.Asleep then 1 else 0 := by
  rw [togo, h]

theorem togo_le (h : s.place = .body) : s.task.togo ≤ s.togo := by
  rw [togo_body h]
  exact Nat.le_add_right _ _

theorem togo_awake (h : s.place = .body) (hawake : ¬ s.Asleep) : s.togo = s.task.togo := by
  rw [togo_body h, if_neg hawake, Nat.add_zero]

/-- The wakeup comes when quit() has not brought it yet, and poll returns with it. -/
theorem forward_in_poll (hs : s.Sound) (htold : s.Told) (hpoll : s.InPoll) :
    ∃ step t, step.finishes = true ∧ s.exec step = .ok t ∧ t.togo < s.togo := by
  obtain ⟨hbody, hpolling⟩ := hpoll
  by_cases hcounter : s.task.wakeupCounter = 0
  · obtain ⟨thread, hquitting⟩ := (hs.awake htold.1 ⟨hbody, hpolling⟩).resolve_left
      (by rw [hcounter]; exact Nat.lt_irrefl 0)
    refine ⟨.finishQuit thread, _, rfl, if_pos hquitting, ?_⟩
    obtain ⟨n, hn⟩ := TaskLoop.wakeup_eq s.task
    have hpos := TaskLoop.wakeup_pos s.task
    rw [hn] at hpos ⊢
    refine Nat.lt_of_le_of_lt (Nat.le_of_eq (togo_awake hbody fun h => Nat.ne_of_gt hpos h.2)) ?_
    rw [togo_body hbody, if_pos ⟨hpolling, hcounter⟩]
    exact Nat.lt_succ_self _
  · have hpoint : s.task.point = .polling := by
      rw [stage] at hpolling
      cases hpoint : s.task.point with
      | polling => rfl
      | outside | dispatching _ | handling _ | flagging | swapping | batch _ | calling _ =>
          rw [hpoint] at hpolling
          cases hpolling
    have hready : s.Ready [.wakeup] := ⟨by decide, fun _ => Nat.pos_of_ne_zero hcounter⟩
    refine ⟨.task (.poll [.wakeup]),
      { s with task := { s.task with point := .dispatching [.wakeup] } },
      rfl, ?_, Nat.lt_of_lt_of_le ?_ (togo_le hbody)⟩
    · simp only [exec, execTask, runTask, TaskLoop.exec, hpoint, if_pos (And.intro hbody hready)]
    · refine Nat.lt_of_le_of_lt (Nat.le_of_eq
        (togo_awake hbody fun h => LoopStage.beforeSwap_ne_polling h.1)) ?_
      simp only [TaskLoop.togo, hpoint, List.length_singleton]
      omega

/-- Where the loop thread does not stand behind loop(), it can go on. -/
theorem forward (hs : s.Sound) (htold : s.Told) (hplace : s.place ≠ .returned) :
    ∃ step t, step.finishes = true ∧ s.exec step = .ok t ∧ t.togo < s.togo := by
  cases hwhere : s.place with
  | before => exact absurd hwhere htold.2
  | returned => exact absurd hwhere hplace
  | test =>
      refine ⟨.test, { s with place := .lowering }, rfl, ?_, ?_⟩
      · simp only [exec, hwhere, htold.1, if_true]
      · simp only [togo, hwhere]
        exact Nat.lt_succ_self 1
  | lowering =>
      refine ⟨.lower, { s with place := .returned, looping := false }, rfl, ?_, ?_⟩
      · simp only [exec, hwhere, if_true]
      · simp only [togo, hwhere]
        exact Nat.zero_lt_one
  | body =>
      by_cases hpoll : s.stage = .polling
      · exact forward_in_poll hs htold ⟨hwhere, hpoll⟩
      have houtside : s.stage ≠ .outside := fun hpoint => htold.2 (hs.before.mpr hpoint)
      obtain ⟨step, task, hloop, htask, hend⟩ := TaskLoop.forward hs.task houtside hpoll
      have hlong : 2 < s.task.togo := TaskLoop.togo_long fun hpoint =>
        houtside (by rw [stage, hpoint]; rfl)
      cases hend with
      | inl hends =>
          obtain ⟨hpolling, rfl⟩ := hends
          refine ⟨.task .next, { s with task := task, place := .test }, rfl, ?_,
            Nat.lt_of_lt_of_le hlong (togo_le hwhere)⟩
          simp only [exec, execTask, runTask, htask]
          exact congrArg Except.ok (if_pos hpolling)
      | inr hgoes =>
          obtain ⟨hpolling, htogo⟩ := hgoes
          have hfewer : ({ s with task := task } : QuitLoop φ).togo < s.togo := by
            refine Nat.lt_of_le_of_lt (Nat.le_of_eq (togo_awake hwhere fun h => hpolling h.1)) ?_
            exact Nat.lt_of_lt_of_le htogo (togo_le hwhere)
          refine ⟨.task step, { s with task := task }, hloop, ?_, hfewer⟩
          cases step with
          | poll active =>
              cases TaskLoop.exec_proceeds htask with
              | stays stage called counter starts => cases starts
              | begins step => cases step
              | polls active' step polling => exact absurd polling hpoll
              | swaps step => cases step
              | ends step => cases step
          | next =>
              simp only [exec, execTask, runTask, htask]
              exact congrArg Except.ok (if_neg hpolling)
          | finishQueue | back => simp only [exec, execTask, runTask, htask]
          | push _ _ | wake _ | queue _ | loop => cases hloop

/-- Where the callbacks return and no quit() stops halfway, loop() comes to its end. -/
theorem returns (hs : s.Sound) (htold : s.Told) :
    ∃ steps t, (∀ step ∈ steps, step.finishes = true) ∧ run exec s steps = .ok t ∧
      t.place = .returned := by
  generalize hn : s.togo = n
  induction n using Nat.strong_induction_on generalizing s with
  | h n ih =>
      by_cases hplace : s.place = .returned
      · exact ⟨[], s, fun _ h => (List.not_mem_nil h).elim, rfl, hplace⟩
      · obtain ⟨step, m, hfinishes, hm, htogo⟩ := forward hs htold hplace
        obtain ⟨steps, t, hsteps, ht, hreturned⟩ :=
          ih m.togo (hn ▸ htogo) (sound_exec hs hm) (told_exec hs htold hm) rfl
        refine ⟨step :: steps, t, fun x hx => ?_, run_cons_ok.mpr ⟨m, hm, ht⟩, hreturned⟩
        cases List.mem_cons.mp hx with
        | inl hhead => rwa [hhead]
        | inr htail => exact hsteps x htail

/-- However the threads interleave, m_quit ends the loop: poll returns at most once more
and does not sleep, the loop can always go on to its end, and every functor of before quit
is called first when the swap of the last iteration is still to come. Behind that swap no
further functor is called. None is lost: what is not called is in the queue. -/
theorem quit_ends_loop {quit : Bool} {before after : List (QuitStep φ)}
    (hs : run exec (new quit) before = .ok s) (htold : s.Told) (ht : run exec s after = .ok t) :
    pollsOf after ≤ s.pollsLeft ∧
      (t.InPoll → 0 < t.task.wakeupCounter ∨ ∃ thread, t.quitting thread = true) ∧
      t.task.executed ++ t.task.rest ++ t.task.pendingFunctors =
        queuedBy (tasksOf (before ++ after)) ∧
      (s.Late → t.task.called = s.task.called) ∧
      (¬ s.Late → t.place = .returned → queuedBy (tasksOf before) <+: t.task.executed) ∧
      ∃ steps u, (∀ step ∈ steps, step.finishes = true) ∧ run exec t steps = .ok u ∧
        u.place = .returned := by
  obtain ⟨hsound, hstream⟩ := run_sound (new_sound quit) hs
  obtain ⟨hsound', hstream'⟩ := run_sound hsound ht
  obtain ⟨htold', hpolls, hlate, hcovers⟩ := run_told hsound htold ht
  refine ⟨Nat.le_of_add_right_le hpolls, hsound'.awake htold'.1, ?_, fun h => (hlate h).2, ?_,
    returns hsound' htold'⟩
  · rw [tasksOf_append, queuedBy_append, ← TaskLoop.stream, hstream', hstream]
    rfl
  · intro hearly hreturned
    have hbefore : s.Covers (queuedBy (tasksOf before)) := by
      refine .inr ⟨hearly, ?_⟩
      rw [hstream]
      exact List.prefix_rfl
    have hout : t.Late := .inl (by rw [hreturned]; decide)
    have hstage : t.stage = .polling :=
      hsound'.outside (by rw [hreturned]; decide) (by rw [hreturned]; decide)
    have hrest : t.task.rest = [] := by
      rw [stage] at hstage
      cases hpoint : t.task.point with
      | batch _ | calling _ =>
          rw [hpoint] at hstage
          cases hstage
      | outside | polling | dispatching _ | handling _ | flagging | swapping =>
          rw [TaskLoop.rest, hpoint]
    cases hcovers _ hbefore with
    | inl hcalled =>
        have hprefix := hcalled.2
        rwa [TaskLoop.called, hrest, List.append_nil] at hprefix
    | inr hstream => exact absurd hout hstream.1

/-- A functor of before quit is called; one that comes behind the last swap is not. -/
theorem quit_ends_loop_push_after_swap :
    ∃ s t : QuitLoop Nat,
      run exec (new true) [.task .loop, .test, .task (.push 0 1), .quit 1] = .ok s ∧
      run exec s [.finishQuit 1, .task (.poll [.wakeup]), .task .next, .task .next, .task .next,
        .task .next, .task .next, .task .back, .task (.push 2 2), .task .next, .test, .lower] =
          .ok t ∧
      queuedBy (tasksOf [.task .loop, .test, .task (.push 0 1), .quit 1]) <+: t.task.executed ∧
      t.task.executed ++ t.task.rest ++ t.task.pendingFunctors = [1, 2] := by
  have hs : run exec (new true : QuitLoop Nat)
      [.task .loop, .test, .task (.push 0 1), .quit 1] = .ok ⟨⟨.polling, false, false, [1], 0,
        Function.update (fun _ => false) 0 true, []⟩, .body, true, true,
        Function.update (fun _ => false) 1 true⟩ := rfl
  have ht : run exec (⟨⟨.polling, false, false, [1], 0, Function.update (fun _ => false) 0 true,
      []⟩, .body, true, true, Function.update (fun _ => false) 1 true⟩ : QuitLoop Nat)
      [.finishQuit 1, .task (.poll [.wakeup]), .task .next, .task .next, .task .next, .task .next,
        .task .next, .task .back, .task (.push 2 2), .task .next, .test, .lower] =
      .ok ⟨⟨.polling, false, false, [2], 0,
        Function.update (Function.update (fun _ => false) 0 true) 2 true, [1]⟩, .returned, true,
        false, Function.update (Function.update (fun _ => false) 1 true) 1 false⟩ := rfl
  obtain ⟨-, -, hall, -, hfirst, -⟩ := quit_ends_loop hs ⟨rfl, by decide⟩ ht
  exact ⟨_, _, hs, ht, hfirst (by decide) rfl, hall⟩

end QuitLoop

end TAlib
