import TAlib.Common.Outcome

/-!
The loop thread of src/Reactor/EventLoopThread.cpp: an owner that calls
startLoop and then destroys the EventLoopThread, and the new thread with the
EventLoop it keeps on its stack. A step is one access to what the threads
share. The EventLoop constructor leaves m_quit as it finds it, m_exiting is
never read, and no init callback can be set. A condition variable may wake for
no reason, so its notification needs no state.
-/

namespace TAlib

open Foundation

/-- Where the new thread stands in threadFunc and EventLoop::loop. -/
inductive LoopThreadPoint where
  | notStarted
  /-- Started, before the EventLoop is constructed. -/
  | constructing
  /-- About to set p_loop under m_mutex. -/
  | publishing
  /-- At the assert of loop(). -/
  | entering
  /-- Before m_quit = false. -/
  | clearing
  /-- Before m_looping = true. -/
  | raising
  /-- At the condition of the while loop. -/
  | testing
  /-- In the body of the while loop. -/
  | iterating
  /-- Before m_looping = false. -/
  | lowering
  /-- Back in threadFunc, before p_loop = NULL. -/
  | unpublishing
  /-- At the end of threadFunc, before the destructor of the EventLoop. -/
  | destroying
  | ended
  deriving DecidableEq, Repr

/-- Where the owner stands in startLoop and ~EventLoopThread. -/
inductive OwnerPoint where
  /-- At the assert of startLoop. -/
  | starting
  /-- At the condition on p_loop, with m_mutex or in the wait. -/
  | waiting
  /-- Reading p_loop for the result of startLoop. -/
  | returning
  /-- Between startLoop and the destructor. -/
  | started
  /-- At p_loop != NULL in the destructor. -/
  | checking
  /-- Reading p_loop for the call of quit(). -/
  | calling
  /-- At the assert of quit(). -/
  | asserting
  /-- Before m_quit = true. -/
  | requesting
  /-- Before the test for the thread and the wakeup. -/
  | waking
  | joining
  | destroyed
  deriving DecidableEq, Repr

/-- The asserts on m_looping. -/
inductive LoopingAssert where
  | loop
  | quit
  | destructor
  deriving DecidableEq, Repr

structure EventLoopThread where
  /-- p_loop is not NULL. -/
  published : Bool
  quit : Bool
  looping : Bool
  thread : LoopThreadPoint
  owner : OwnerPoint
  /-- The asserts that failed. The run goes on after them, as in a build
  without asserts, so that what becomes of the request is seen as well. -/
  failed : List LoopingAssert
  /-- Some call of quit() has set m_quit. -/
  requested : Bool
  /-- An iteration was started with m_quit false after that. -/
  lost : Bool
  deriving DecidableEq, Repr

/-- Whose step comes next. -/
inductive ThreadTurn where
  | owner
  | loopThread
  /-- A callback of the current iteration calls quit() on its own loop. -/
  | callbackQuits
  deriving DecidableEq, Repr

namespace LoopThreadPoint

/-- The EventLoop is constructed and not yet destroyed. -/
def alive : LoopThreadPoint → Bool
  | .notStarted | .constructing | .ended => false
  | _ => true

/-- m_looping is set at this point. -/
def inside : LoopThreadPoint → Bool
  | .testing | .iterating | .lowering => true
  | _ => false

/-- m_quit has been set to false by loop(). -/
def cleared : LoopThreadPoint → Bool
  | .raising | .testing | .iterating | .lowering | .unpublishing | .destroying | .ended => true
  | _ => false

end LoopThreadPoint

namespace EventLoopThread

/-- Before startLoop. What m_quit will be constructed with is not known. -/
def new (quit : Bool) : EventLoopThread :=
  ⟨false, quit, false, .notStarted, .starting, [], false, false⟩

def assert (s : EventLoopThread) (site : LoopingAssert) (holds : Bool) : EventLoopThread :=
  if holds then s else { s with failed := s.failed ++ [site] }

/-- m_quit = true in quit(). -/
def setQuit (s : EventLoopThread) : EventLoopThread := { s with quit := true, requested := true }

def stepLoopThread (s : EventLoopThread) : EventLoopThread :=
  match s.thread with
  | .notStarted | .ended => s
  | .constructing => { s with looping := false, thread := .publishing }
  | .publishing => { s with published := true, thread := .entering }
  | .entering => { s.assert .loop (! s.looping) with thread := .clearing }
  | .clearing => { s with quit := false, thread := .raising }
  | .raising => { s with looping := true, thread := .testing }
  | .testing =>
      if s.quit then { s with thread := .lowering }
      else { s with thread := .iterating, lost := s.lost || s.requested }
  | .iterating => { s with thread := .testing }
  | .lowering => { s with looping := false, thread := .unpublishing }
  | .unpublishing => { s with published := false, thread := .destroying }
  | .destroying => { s.assert .destructor (! s.looping) with thread := .ended }

/-- A use of the EventLoop by the owner. -/
def onLoop (s t : EventLoopThread) : Except Fault EventLoopThread :=
  if s.thread.alive then .ok t else .error .dangling

def stepOwner (s : EventLoopThread) : Except Fault EventLoopThread :=
  match s.owner with
  | .starting => .ok { s with thread := .constructing, owner := .waiting }
  | .waiting => .ok (if s.published then { s with owner := .returning } else s)
  | .returning => .ok { s with owner := .started }
  | .started => .ok { s with owner := .checking }
  | .checking => .ok { s with owner := if s.published then .calling else .destroyed }
  | .calling => if s.published then .ok { s with owner := .asserting } else .error .nullPointer
  | .asserting => s.onLoop { s.assert .quit s.looping with owner := .requesting }
  | .requesting => s.onLoop { s.setQuit with owner := .waking }
  | .waking => s.onLoop { s with owner := .joining }
  | .joining => .ok (if s.thread = .ended then { s with owner := .destroyed } else s)
  | .destroyed => .ok s

def exec (s : EventLoopThread) : ThreadTurn → Except Fault EventLoopThread
  | .owner => s.stepOwner
  | .loopThread => .ok s.stepLoopThread
  | .callbackQuits => .ok (if s.thread = .iterating then (s.assert .quit s.looping).setQuit else s)

/-- The assert of quit() has not failed and no request was lost. -/
def Handshake (s : EventLoopThread) : Prop := .quit ∉ s.failed ∧ s.lost = false

instance (s : EventLoopThread) : Decidable s.Handshake := inferInstanceAs (Decidable (_ ∧ _))

/-- The owner finds p_loop still set when it reads it for quit(), the loop thread in its
while loop at the assert, and the EventLoop alive as long as it uses it. -/
def MeetsLoop (s : EventLoopThread) : ThreadTurn → Prop
  | .owner =>
      match s.owner with
      | .calling => s.published = true
      | .asserting => s.thread.inside = true
      | .requesting | .waking => s.thread.alive = true
      | _ => True
  | .loopThread | .callbackQuits => True

theorem assert_of_true {s : EventLoopThread} {holds : Bool} (h : holds = true)
    (site : LoopingAssert) : s.assert site holds = s := if_pos h

/-- What both threads keep while quit() is called inside the while loop only. -/
structure Sound (s : EventLoopThread) : Prop where
  handshake : s.Handshake
  looping : s.looping = s.thread.inside
  starting : s.owner = .starting → s.thread = .notStarted
  requesting : s.owner = .requesting → s.thread.cleared = true
  requested : s.requested = true → s.thread.cleared = true ∧ s.quit = true

theorem new_sound (quit : Bool) : (new quit).Sound :=
  ⟨⟨nofun, rfl⟩, rfl, fun _ => rfl, nofun, nofun⟩

/-- The loop thread moves on and touches only p_loop and m_looping. -/
theorem Sound.moves {s t : EventLoopThread} (hs : s.Sound) (hstarted : s.thread ≠ .notStarted)
    (hframe : { t with published := s.published, looping := s.looping, thread := s.thread } = s)
    (hlooping : t.looping = t.thread.inside)
    (hcleared : s.thread.cleared = true → t.thread.cleared = true) : t.Sound := by
  have howner : t.owner = s.owner := (congrArg owner hframe :)
  have hfailed : t.failed = s.failed := (congrArg failed hframe :)
  have hlost : t.lost = s.lost := (congrArg lost hframe :)
  have hquit : t.quit = s.quit := (congrArg quit hframe :)
  have hrequested : t.requested = s.requested := (congrArg EventLoopThread.requested hframe :)
  refine ⟨⟨?_, ?_⟩, hlooping, ?_, ?_, ?_⟩
  · rw [hfailed]
    exact hs.handshake.1
  · rw [hlost]
    exact hs.handshake.2
  · rw [howner]
    exact fun h => absurd (hs.starting h) hstarted
  · rw [howner]
    exact fun h => hcleared (hs.requesting h)
  · rw [hrequested, hquit]
    exact fun h => ⟨hcleared (hs.requested h).1, (hs.requested h).2⟩

theorem stepLoopThread_sound {s : EventLoopThread} (hs : s.Sound) : s.stepLoopThread.Sound := by
  have hlooping := hs.looping
  cases hthread : s.thread with
  | notStarted | ended =>
      simp only [stepLoopThread, hthread]
      exact hs
  | constructing | publishing | raising | iterating | lowering | unpublishing =>
      rw [hthread] at hlooping
      simp only [stepLoopThread, hthread]
      refine hs.moves (by simp [hthread]) rfl ?_ (by simp [hthread, LoopThreadPoint.cleared])
      first | exact hlooping | rfl
  | entering | destroying =>
      rw [hthread] at hlooping
      have hholds : (! s.looping) = true := by rw [hlooping]; rfl
      simp only [stepLoopThread, hthread, assert_of_true hholds]
      exact hs.moves (by simp [hthread]) rfl hlooping (by simp [hthread, LoopThreadPoint.cleared])
  | clearing =>
      rw [hthread] at hlooping
      -- before m_quit = false no request has been made
      have hnot (h : s.thread.cleared = true) : False := by
        simp [hthread, LoopThreadPoint.cleared] at h
      simp only [stepLoopThread, hthread]
      refine ⟨hs.handshake, hlooping, fun h => ?_, fun _ => rfl, fun h => ?_⟩
      · exact nomatch hthread.symm.trans (hs.starting h)
      · exact (hnot (hs.requested h).1).elim
  | testing =>
      rw [hthread] at hlooping
      by_cases hquit : s.quit = true
      · simp only [stepLoopThread, hthread, if_pos hquit]
        exact hs.moves (by simp [hthread]) rfl hlooping fun _ => rfl
      · have hnot : s.requested = false := by
          cases h : s.requested with
          | false => rfl
          | true => exact absurd (hs.requested h).2 hquit
        simp only [stepLoopThread, hthread, if_neg hquit, hnot, Bool.or_false]
        exact hs.moves (by simp [hthread]) (by simp [← hnot]) hlooping fun _ => rfl

theorem Sound.owner_moves {s : EventLoopThread} (hs : s.Sound) {p : OwnerPoint}
    (hstarting : p ≠ .starting) (hrequesting : p ≠ .requesting) : { s with owner := p }.Sound :=
  ⟨hs.handshake, hs.looping, fun h => absurd h hstarting, fun h => absurd h hrequesting,
    hs.requested⟩

theorem onLoop_of_alive {s : EventLoopThread} (h : s.thread.alive = true) (t : EventLoopThread) :
    s.onLoop t = .ok t := if_pos h

theorem alive_of_inside {p : LoopThreadPoint} (h : p.inside = true) : p.alive = true := by
  cases p <;> first | rfl | cases h

theorem cleared_of_inside {p : LoopThreadPoint} (h : p.inside = true) : p.cleared = true := by
  cases p <;> first | rfl | cases h

/-- m_quit is set once loop() has set it to false. -/
theorem Sound.setQuit {s : EventLoopThread} (hs : s.Sound) (h : s.thread.cleared = true) :
    s.setQuit.Sound :=
  ⟨hs.handshake, hs.looping, hs.starting, fun _ => h, fun _ => ⟨h, rfl⟩⟩

theorem stepOwner_sound {s : EventLoopThread} (hs : s.Sound) (hmeets : s.MeetsLoop .owner) :
    ∃ t, s.stepOwner = .ok t ∧ t.Sound := by
  cases howner : s.owner with
  | starting =>
      have hthread := hs.starting howner
      have hnot (h : s.thread.cleared = true) : False := by
        simp [hthread, LoopThreadPoint.cleared] at h
      have hlooping := hs.looping
      rw [hthread] at hlooping
      simp only [stepOwner, howner]
      exact ⟨_, rfl, hs.handshake, hlooping, nofun, nofun, fun h => (hnot (hs.requested h).1).elim⟩
  | waiting =>
      simp only [stepOwner, howner]
      refine ⟨_, rfl, ?_⟩
      split
      · exact hs.owner_moves (by decide) (by decide)
      · exact hs
  | returning | started =>
      simp only [stepOwner, howner]
      exact ⟨_, rfl, hs.owner_moves (by decide) (by decide)⟩
  | checking =>
      simp only [stepOwner, howner]
      refine ⟨_, rfl, ?_⟩
      split
      · exact hs.owner_moves (by decide) (by decide)
      · exact hs.owner_moves (by decide) (by decide)
  | calling =>
      simp only [MeetsLoop, howner] at hmeets
      simp only [stepOwner, howner, if_pos hmeets]
      exact ⟨_, rfl, hs.owner_moves (by decide) (by decide)⟩
  | asserting =>
      simp only [MeetsLoop, howner] at hmeets
      simp only [stepOwner, howner, onLoop_of_alive (alive_of_inside hmeets),
        assert_of_true (hs.looping.trans hmeets)]
      exact ⟨_, rfl, hs.handshake, hs.looping, nofun, fun _ => cleared_of_inside hmeets,
        hs.requested⟩
  | requesting =>
      simp only [MeetsLoop, howner] at hmeets
      simp only [stepOwner, howner, onLoop_of_alive hmeets]
      exact ⟨_, rfl, (hs.setQuit (hs.requesting howner)).owner_moves (by decide) (by decide)⟩
  | waking =>
      simp only [MeetsLoop, howner] at hmeets
      simp only [stepOwner, howner, onLoop_of_alive hmeets]
      exact ⟨_, rfl, hs.owner_moves (by decide) (by decide)⟩
  | joining =>
      simp only [stepOwner, howner]
      refine ⟨_, rfl, ?_⟩
      split
      · exact hs.owner_moves (by decide) (by decide)
      · exact hs
  | destroyed =>
      simp only [stepOwner, howner]
      exact ⟨s, rfl, hs⟩

theorem callbackQuits_sound {s : EventLoopThread} (hs : s.Sound) (hthread : s.thread = .iterating) :
    (s.assert .quit s.looping).setQuit.Sound := by
  have hinside : s.thread.inside = true := by rw [hthread]; rfl
  rw [assert_of_true (hs.looping.trans hinside)]
  exact hs.setQuit (cleared_of_inside hinside)

theorem exec_sound {s : EventLoopThread} {turn : ThreadTurn} (hs : s.Sound)
    (hmeets : s.MeetsLoop turn) : ∃ t, s.exec turn = .ok t ∧ t.Sound := by
  cases turn with
  | owner => exact stepOwner_sound hs hmeets
  | loopThread => exact ⟨_, rfl, stepLoopThread_sound hs⟩
  | callbackQuits =>
      refine ⟨_, rfl, ?_⟩
      split
      · rename_i hthread
        exact callbackQuits_sound hs hthread
      · exact hs

/-- The owner reads NULL or a destroyed EventLoop, or the assert of quit() fails. -/
theorem exec_fails {s t : EventLoopThread} {turn : ThreadTurn} (hs : s.Sound)
    (hmeets : ¬ s.MeetsLoop turn) (h : s.exec turn = .ok t) : ¬ t.Handshake := by
  cases turn with
  | loopThread | callbackQuits => exact absurd trivial hmeets
  | owner =>
      cases howner : s.owner with
      | starting | waiting | returning | started | checking | joining | destroyed =>
          simp only [MeetsLoop, howner] at hmeets
          exact absurd trivial hmeets
      | calling =>
          simp only [MeetsLoop, howner] at hmeets
          simp only [exec, stepOwner, howner, if_neg hmeets] at h
          cases h
      | asserting =>
          simp only [MeetsLoop, howner, Bool.not_eq_true] at hmeets
          simp only [exec, stepOwner, howner, onLoop] at h
          split at h
          · cases h
            simp [Handshake, assert, hs.looping.trans hmeets]
          · cases h
      | requesting | waking =>
          simp only [MeetsLoop, howner] at hmeets
          simp only [exec, stepOwner, howner, onLoop, if_neg hmeets] at h
          cases h

/-- Under every interleaving the run goes through, the assert of quit() holds and no
request is lost exactly when the destructor calls quit() while the loop thread is in the
while loop of loop() and goes on before the EventLoop is destroyed. -/
theorem handshake_iff_meets_loop (quit : Bool) (turns : List ThreadTurn) :
    ((∃ s, run exec (new quit) turns = .ok s) ∧ Always exec Handshake (new quit) turns) ↔
      Respects exec MeetsLoop (new quit) turns := by
  have hruns : ((∃ s, run exec (new quit) turns = .ok s) ∧ Always exec Handshake (new quit) turns ∧
      Respects exec (fun _ _ => True) (new quit) turns) ↔
        Respects exec MeetsLoop (new quit) turns :=
    returns_always_iff_respects (fun _ hs => hs.handshake)
      (fun _ _ hs hmeets => ⟨trivial, exec_sound hs hmeets⟩)
      (fun _ _ _ hs hmeets h => exec_fails hs hmeets h) (new_sound quit) turns
  constructor
  · rintro ⟨hreturns, hhandshake⟩
    exact hruns.mp ⟨hreturns, hhandshake, respects_true _ _⟩
  · intro hmeets
    obtain ⟨hreturns, hhandshake, -⟩ := hruns.mpr hmeets
    exact ⟨hreturns, hhandshake⟩

/-- The EventLoopThread is destroyed as soon as startLoop has returned: p_loop is
set and loop() has not begun. The request is then overwritten. -/
def destroyedAtOnce : List ThreadTurn :=
  [.owner, .loopThread, .loopThread, .owner, .owner, .owner, .owner, .owner, .owner, .owner, .owner,
    .loopThread, .loopThread, .loopThread, .loopThread]

theorem handshake_fails_at_once :
    ¬ Always exec Handshake (new false) destroyedAtOnce ∧
      ∃ s, run exec (new false) destroyedAtOnce = .ok s ∧ s.failed = [.quit] ∧ s.lost = true ∧
        s.owner = .joining ∧ s.thread = .iterating := by
  have hrun : ∃ s, run exec (new false) destroyedAtOnce = .ok s ∧ s.failed = [.quit] ∧
      s.lost = true ∧ s.owner = .joining ∧ s.thread = .iterating :=
    resultHolds_iff.mp (by decide)
  refine ⟨fun h => ?_, hrun⟩
  obtain ⟨s, hs, -, hlost, -⟩ := hrun
  exact nomatch hlost.symm.trans (h.last hs).2

end EventLoopThread

end TAlib
