import Mathlib.Data.List.Nodup
import TAlib.Foundation.Descriptors
import TAlib.Foundation.Runs

/-!
The acceptor of src/Reactor/Acceptor.cpp in its process. handleRead runs in one
thread, but the descriptors belong to the whole process: between two system calls
of its EMFILE branch other threads open and close descriptors of their own, and
peers connect. A step is one system call, or one of these. Logging is left out,
and with it what it may do to errno.
-/

namespace TAlib

open Foundation

def EAGAIN : Nat := 11
def EMFILE : Nat := 24

/-- Closing a descriptor that another part of the process holds would pull it away
from there. -/
inductive AcceptorStop where
  | foreignClose
  deriving DecidableEq, Repr

inductive Holder where
  | acceptor
  | connection
  | other
  deriving DecidableEq, Repr

/-- Where handleRead stands. -/
inductive AcceptorPoint where
  /-- Not in handleRead. -/
  | waiting
  /-- Before the first close of m_idleFd. -/
  | closing
  /-- Before ::accept. -/
  | accepting
  /-- Before the second close. -/
  | closingAgain
  /-- Before ::open. -/
  | opening
  /-- The destructor has run. -/
  | destroyed
  deriving DecidableEq, Repr

/-- `idleFd` is none when m_idleFd is negative. -/
structure Acceptor where
  sockfd : Nat
  idleFd : Option Nat
  newConnectionCallBack : Bool
  point : AcceptorPoint
  deriving DecidableEq, Repr

/-- What became of a connection that was accepted. -/
inductive Fate where
  | handed (fd : Nat)
  | dropped
  deriving DecidableEq, Repr

/-- The descriptors of the process, and the connections of the listening socket:
those in its queue, and those that have left it. -/
structure Listener where
  table : Descriptors Holder
  backlog : List Nat
  arrived : List Nat
  taken : List (Nat × Fate)
  acceptor : Acceptor

/-- `failure` is an error that the kernel gives for reasons of its own. -/
inductive ListenerStep where
  /-- A peer connects. -/
  | connect (peer : Nat)
  /-- Another part of the process opens a descriptor. -/
  | opens
  /-- It closes one that it holds. -/
  | closes (fd : Nat)
  | handleRead (failure : Option Nat)
  /-- The next system call of handleRead. -/
  | next (failure : Option Nat)
  | destroy
  deriving DecidableEq, Repr

namespace Listener

def setPoint (s : Listener) (point : AcceptorPoint) : Listener :=
  { s with acceptor := { s.acceptor with point := point } }

def setIdleFd (s : Listener) (idleFd : Option Nat) : Listener :=
  { s with acceptor := { s.acceptor with idleFd := idleFd } }

def take (s : Listener) (peer : Nat) (fate : Fate) : Listener :=
  { s with taken := s.taken ++ [(peer, fate)] }

/-- The constructor; the assert behind it fails without an idle descriptor. -/
def construct (table : Descriptors Holder) (newConnectionCallBack : Bool) : Option Listener := do
  let sockfd ← table.lowest
  let table := table.opened sockfd .acceptor
  let idleFd ← table.lowest
  return ⟨table.opened idleFd .acceptor, [], [], [],
    ⟨sockfd, some idleFd, newConnectionCallBack, .waiting⟩⟩

/-- accept: the descriptor is reserved before the queue is looked at. -/
def accept (s : Listener) (failure : Option Nat) (w : Holder) :
    Except Nat (Nat × Nat × Listener) :=
  match failure with
  | some e => .error e
  | none =>
      match s.table.lowest, s.backlog with
      | none, _ => .error EMFILE
      | some _, [] => .error EAGAIN
      | some fd, peer :: rest =>
          .ok (fd, peer, { s with table := s.table.opened fd w, backlog := rest })

def close (s : Listener) (fd : Option Nat) : Except AcceptorStop Listener :=
  match s.table.close .acceptor fd with
  | none => .error .foreignClose
  | some table => .ok { s with table := table }

/-- The descriptor is the connection's from the callback on. -/
def handleRead (s : Listener) (failure : Option Nat) : Except AcceptorStop Listener :=
  if s.acceptor.newConnectionCallBack then
    match s.accept failure .connection with
    | .ok (fd, peer, s) => .ok (s.take peer (.handed fd))
    | .error e => .ok (if e = EMFILE then s.setPoint .closing else s)
  else
    match s.accept failure .acceptor with
    | .ok (fd, peer, s) => (s.take peer .dropped).close (some fd)
    | .error e => .ok (if e = EMFILE then s.setPoint .closing else s)

def openNull (s : Listener) (failure : Option Nat) : Option Nat × Listener :=
  match failure, s.table.lowest with
  | none, some fd => (some fd, { s with table := s.table.opened fd .acceptor })
  | _, _ => (none, s)

def next (s : Listener) (failure : Option Nat) : Except AcceptorStop Listener :=
  match s.acceptor.point with
  | .waiting | .destroyed => .ok s
  | .closing => do
      let s ← s.close s.acceptor.idleFd
      return s.setPoint .accepting
  | .accepting =>
      match s.accept failure .acceptor with
      | .ok (fd, peer, s) =>
          .ok (((s.take peer .dropped).setIdleFd (some fd)).setPoint .closingAgain)
      | .error _ => .ok ((s.setIdleFd none).setPoint .closingAgain)
  | .closingAgain => do
      let s ← s.close s.acceptor.idleFd
      return s.setPoint .opening
  | .opening =>
      let (idleFd, s) := s.openNull failure
      .ok ((s.setIdleFd idleFd).setPoint .waiting)

/-- The destructor, and with it that of m_acceptSocket. -/
def destroy (s : Listener) : Except AcceptorStop Listener := do
  let s ← s.close s.acceptor.idleFd
  let s ← s.close (some s.acceptor.sockfd)
  return s.setPoint .destroyed

def exec (s : Listener) : ListenerStep → Except AcceptorStop Listener
  | .connect peer => .ok { s with backlog := s.backlog ++ [peer], arrived := s.arrived ++ [peer] }
  | .opens =>
      match s.table.lowest with
      | none => .ok s
      | some fd => .ok { s with table := s.table.opened fd .other }
  | .closes fd =>
      if s.table.holder fd = some .other ∨ s.table.holder fd = some .connection then
        .ok { s with table := s.table.closed fd }
      else .ok s
  | .handleRead failure => if s.acceptor.point = .waiting then s.handleRead failure else .ok s
  | .next failure => s.next failure
  | .destroy => if s.acceptor.point = .waiting then s.destroy else .ok s

/-- What the acceptor holds, by where it stands. -/
def holdings (a : Acceptor) : List Nat :=
  match a.point with
  | .waiting | .closing | .closingAgain => a.idleFd.toList ++ [a.sockfd]
  | .accepting | .opening => [a.sockfd]
  | .destroyed => []

/-- The acceptor holds what it should and nothing twice, and no connection is lost
on its way out of the queue. -/
structure Sound (s : Listener) : Prop where
  holds : s.table.Holds .acceptor (holdings s.acceptor)
  nodup : (holdings s.acceptor).Nodup
  order : s.arrived = s.taken.map Prod.fst ++ s.backlog
  below : ∀ fd, s.acceptor.idleFd = some fd → fd < s.table.limit

theorem construct_sound {table : Descriptors Holder} (hnone : table.Holds .acceptor [])
    {callback : Bool} {s : Listener} (h : construct table callback = some s) :
    s.Sound ∧ s.acceptor.point = .waiting ∧ s.acceptor.idleFd ≠ none := by
  simp only [construct, Option.bind_eq_bind, Option.bind_eq_some_iff] at h
  obtain ⟨sockfd, hsockfd, idleFd, hidle, h⟩ := h
  cases h
  have hheld := (hnone.opened_self sockfd).opened_self idleFd
  have hne : sockfd ≠ idleFd := by
    intro heq
    have hfree := Descriptors.lowest_free hidle
    rw [← heq] at hfree
    have hused := (hnone.opened_self sockfd sockfd).mpr List.mem_cons_self
    rw [hfree] at hused
    cases hused
  refine ⟨⟨hheld, ?_, rfl, fun fd hfd => ?_⟩, rfl, Option.some_ne_none _⟩
  · simp [holdings, hne.symm]
  · cases hfd
    have hlt := Descriptors.lowest_lt hidle
    exact hlt

theorem accept_ok {s t : Listener} {failure : Option Nat} {w : Holder} {fd peer : Nat}
    (h : s.accept failure w = .ok (fd, peer, t)) :
    failure = none ∧ s.table.lowest = some fd ∧ ∃ rest, s.backlog = peer :: rest ∧
      t = { s with table := s.table.opened fd w, backlog := rest } := by
  simp only [accept] at h
  split at h
  · cases h
  · split at h
    · cases h
    · cases h
    · rename_i fd' peer' rest hlowest hbacklog
      cases h
      exact ⟨rfl, hlowest, rest, hbacklog, rfl⟩

/-- A close of what the acceptor has to give back succeeds. -/
theorem close_ok {s : Listener} {fd : Option Nat} {fds : List Nat}
    (h : s.table.Holds .acceptor (fd.toList ++ fds)) (hnodup : (fd.toList ++ fds).Nodup) :
    ∃ table, s.close fd = .ok { s with table := table } ∧ table.limit = s.table.limit ∧
      table.Holds .acceptor fds ∧ (∀ g, fd = some g → g < s.table.limit → table.lowest ≠ none) ∧
      (s.table.lowest ≠ none → table.lowest ≠ none) := by
  cases fd with
  | none => exact ⟨s.table, rfl, rfl, h, fun g hg => absurd hg.symm (Option.some_ne_none g), id⟩
  | some fd =>
      obtain ⟨hclose, hheld⟩ := Descriptors.Holds.close h (List.nodup_cons.mp hnodup).1
      refine ⟨s.table.closed fd, ?_, rfl, hheld, fun g hg hlt => ?_, fun hroom =>
        Descriptors.lowest_closed hroom fd⟩
      · simp only [close, hclose]
      · cases hg
        exact Descriptors.lowest_ne_none hlt (Function.update_self _ _ _)

/-- A failed accept leaves everything as it is, but for the branch of EMFILE. -/
theorem accept_failed_sound {s : Listener} (hs : s.Sound) (hpoint : s.acceptor.point = .waiting)
    (e : Nat) : Sound (if e = EMFILE then s.setPoint .closing else s) := by
  split
  · have hsame : holdings { s.acceptor with point := .closing } = holdings s.acceptor := by
      simp only [holdings, hpoint]
    exact ⟨fun fd => (hs.holds fd).trans (by rw [← hsame]; rfl), hsame ▸ hs.nodup, hs.order,
      hs.below⟩
  · exact hs

theorem handleRead_sound {s : Listener} (hs : s.Sound) (hpoint : s.acceptor.point = .waiting)
    (failure : Option Nat) : ∃ t, s.handleRead failure = .ok t ∧ t.Sound := by
  simp only [handleRead]
  split
  · split
    · rename_i fd peer m haccept
      obtain ⟨-, hlowest, rest, hbacklog, rfl⟩ := accept_ok haccept
      have hheld := hs.holds.opened_other (Descriptors.lowest_free hlowest)
        (show Holder.connection ≠ .acceptor by decide)
      refine ⟨_, rfl, hheld, hs.nodup, ?_, hs.below⟩
      simp [take, hs.order, hbacklog]
    · rename_i e _
      exact ⟨_, rfl, accept_failed_sound hs hpoint e⟩
  · split
    · rename_i fd peer m haccept
      obtain ⟨-, hlowest, rest, hbacklog, rfl⟩ := accept_ok haccept
      have hheld := hs.holds.opened_self fd
      have hnot : fd ∉ holdings s.acceptor := by
        intro hmem
        rw [← hs.holds fd, Descriptors.lowest_free hlowest] at hmem
        cases hmem
      let m : Listener :=
        take { s with table := s.table.opened fd .acceptor, backlog := rest } peer .dropped
      have hm : m.table.Holds .acceptor ((some fd).toList ++ holdings s.acceptor) := hheld
      obtain ⟨table, hclose, hlimit, hheld', -⟩ :=
        close_ok hm (List.nodup_cons.mpr ⟨hnot, hs.nodup⟩)
      refine ⟨_, hclose, hheld', hs.nodup, ?_, fun g hg => ?_⟩
      · simp [m, take, hs.order, hbacklog]
      · change g < table.limit
        rw [hlimit]
        exact hs.below g hg
    · rename_i e _
      exact ⟨_, rfl, accept_failed_sound hs hpoint e⟩

/-- A new descriptor of the acceptor beside its socket. -/
theorem opened_sound {s : Listener} {fd : Nat}
    (hholds : s.table.Holds .acceptor [s.acceptor.sockfd])
    (hlowest : s.table.lowest = some fd) :
    (s.table.opened fd .acceptor).Holds .acceptor ((some fd).toList ++ [s.acceptor.sockfd]) ∧
      ((some fd).toList ++ [s.acceptor.sockfd]).Nodup ∧ fd < s.table.limit := by
  refine ⟨hholds.opened_self fd, ?_, Descriptors.lowest_lt hlowest⟩
  refine List.nodup_cons.mpr ⟨fun hmem => ?_, List.nodup_singleton _⟩
  change fd ∈ [s.acceptor.sockfd] at hmem
  rw [← hholds fd, Descriptors.lowest_free hlowest] at hmem
  cases hmem

theorem next_sound {s : Listener} (hs : s.Sound) (failure : Option Nat) :
    ∃ t, s.next failure = .ok t ∧ t.Sound := by
  have hholds := hs.holds
  have hnodup := hs.nodup
  cases hpoint : s.acceptor.point with
  | waiting | destroyed =>
      simp only [next, hpoint]
      exact ⟨s, rfl, hs⟩
  | closing | closingAgain =>
      simp only [holdings, hpoint] at hholds hnodup
      obtain ⟨table, hclose, hlimit, hheld, -⟩ := close_ok hholds hnodup
      simp only [next, hpoint, hclose, ok_bind]
      refine ⟨_, rfl, hheld, List.nodup_singleton _, hs.order, fun fd hfd => ?_⟩
      change fd < table.limit
      rw [hlimit]
      exact hs.below fd hfd
  | accepting =>
      simp only [holdings, hpoint] at hholds
      simp only [next, hpoint]
      split
      · rename_i fd peer m haccept
        obtain ⟨-, hlowest, rest, hbacklog, rfl⟩ := accept_ok haccept
        obtain ⟨hheld, hnodup', hlt⟩ := opened_sound hholds hlowest
        refine ⟨_, rfl, hheld, hnodup', ?_, fun g hg => ?_⟩
        · simp [take, setIdleFd, setPoint, hs.order, hbacklog]
        · cases hg
          exact hlt
      · exact ⟨_, rfl, hholds, List.nodup_singleton _, hs.order, fun g hg => by cases hg⟩
  | opening =>
      simp only [holdings, hpoint] at hholds
      simp only [next, hpoint, openNull]
      split
      · rename_i fd hlowest
        obtain ⟨hheld, hnodup', hlt⟩ := opened_sound hholds hlowest
        refine ⟨_, rfl, hheld, hnodup', hs.order, fun g hg => ?_⟩
        cases hg
        exact hlt
      · exact ⟨_, rfl, hholds, List.nodup_singleton _, hs.order, fun g hg => by cases hg⟩

theorem destroy_sound {s : Listener} (hs : s.Sound) (hpoint : s.acceptor.point = .waiting) :
    ∃ t, s.destroy = .ok t ∧ t.Sound := by
  have hholds := hs.holds
  have hnodup := hs.nodup
  simp only [holdings, hpoint] at hholds hnodup
  obtain ⟨table, hclose, hlimit, hheld, -⟩ := close_ok hholds hnodup
  have hheld' : ({ s with table := table } : Listener).table.Holds .acceptor
      ((some s.acceptor.sockfd).toList ++ []) := hheld
  obtain ⟨table', hclose', hlimit', hheld'', -⟩ := close_ok hheld' (List.nodup_singleton _)
  simp only [destroy, hclose, ok_bind, hclose']
  refine ⟨_, rfl, hheld'', List.nodup_nil, hs.order, fun fd hfd => ?_⟩
  change fd < table'.limit
  rw [hlimit', hlimit]
  exact hs.below fd hfd

theorem exec_sound {s : Listener} (hs : s.Sound) (a : ListenerStep) :
    ∃ t, s.exec a = .ok t ∧ t.Sound := by
  cases a with
  | connect peer =>
      refine ⟨_, rfl, hs.holds, hs.nodup, ?_, hs.below⟩
      simp only [hs.order, List.append_assoc]
  | opens =>
      simp only [exec]
      split
      · exact ⟨_, rfl, hs⟩
      · rename_i fd hlowest
        have hheld := hs.holds.opened_other (Descriptors.lowest_free hlowest)
          (show Holder.other ≠ .acceptor by decide)
        exact ⟨_, rfl, hheld, hs.nodup, hs.order, hs.below⟩
  | closes fd =>
      simp only [exec]
      split
      · rename_i hother
        refine ⟨_, rfl, ?_, hs.nodup, hs.order, hs.below⟩
        cases hother with
        | inl hu => exact hs.holds.closed_other hu (by decide)
        | inr hu => exact hs.holds.closed_other hu (by decide)
      · exact ⟨_, rfl, hs⟩
  | handleRead failure =>
      simp only [exec]
      split
      · rename_i hpoint
        exact handleRead_sound hs hpoint failure
      · exact ⟨_, rfl, hs⟩
  | next failure => exact next_sound hs failure
  | destroy =>
      simp only [exec]
      split
      · rename_i hpoint
        exact destroy_sound hs hpoint
      · exact ⟨_, rfl, hs⟩

theorem run_sound {s : Listener} (hs : s.Sound) (steps : List ListenerStep) :
    ∃ t, run exec s steps = .ok t ∧ t.Sound := by
  induction steps generalizing s with
  | nil => exact ⟨s, rfl, hs⟩
  | cons a steps ih =>
      obtain ⟨m, hm, hsound⟩ := exec_sound hs a
      obtain ⟨t, ht, htsound⟩ := ih hsound
      exact ⟨t, run_cons_ok.mpr ⟨m, hm, ht⟩, htsound⟩

/-- However the calls of the acceptor fall between what the rest of the process
opens and closes, it closes nothing that is not its own, holds its socket and its
idle descriptor and no other one between its calls, nothing once it is destroyed,
and every connection that arrives is handed over, dropped or still in the queue, in
the order of arrival. -/
theorem descriptors_owned {table : Descriptors Holder} (hnone : table.Holds .acceptor [])
    {callback : Bool} {s : Listener} (h : construct table callback = some s)
    (steps : List ListenerStep) :
    ∃ t, run exec s steps = .ok t ∧
      (∀ fd, t.table.holder fd = some .acceptor ↔ fd ∈ holdings t.acceptor) ∧
      (holdings t.acceptor).Nodup ∧ t.arrived = t.taken.map Prod.fst ++ t.backlog := by
  obtain ⟨hs, -⟩ := construct_sound hnone h
  obtain ⟨t, ht, hsound⟩ := run_sound hs steps
  exact ⟨t, ht, hsound.holds, hsound.nodup, hsound.order⟩

/-- A process with its three standard descriptors, and room for three more. -/
def standardTable : Descriptors Holder := ⟨fun fd => if fd < 3 then some .other else none, 6⟩

theorem standardTable_holds : standardTable.Holds .acceptor [] := by
  intro fd
  simp only [standardTable]
  split <;> simp

/-- Another thread takes the place of the idle descriptor while handleRead is
between its close and its accept. -/
def stolenSteps : List ListenerStep :=
  [.opens, .connect 7, .handleRead none, .next none, .opens, .next none, .next none, .next none]

theorem descriptors_owned_stolen : ∃ s t, construct standardTable true = some s ∧
    run exec s stolenSteps = .ok t ∧ t.acceptor.idleFd = none ∧ t.backlog = [7] ∧
    ∀ fd, t.table.holder fd = some .acceptor ↔ fd ∈ holdings t.acceptor := by
  obtain ⟨s, hs⟩ : ∃ s, construct standardTable true = some s := ⟨_, rfl⟩
  obtain ⟨t, ht, hholds, -, -⟩ := descriptors_owned standardTable_holds hs stolenSteps
  have hcheck : resultHolds (fun t : Listener => t.acceptor.idleFd = none ∧ t.backlog = [7])
      (run exec s stolenSteps) = true := by
    cases hs
    decide +kernel
  obtain ⟨t', ht', hidle, hbacklog⟩ := resultHolds_iff.mp hcheck
  cases Except.ok.inj (ht'.symm.trans ht)
  exact ⟨s, t, hs, ht, hidle, hbacklog, hholds⟩

/-- The kernel gives no errors of its own, and no other thread opens descriptors. -/
def Steady : ListenerStep → Prop
  | .connect _ | .closes _ => True
  | .handleRead failure | .next failure => failure = none
  | .opens | .destroy => False

/-- A call of handleRead for a connection that waits. -/
def Starts (s : Listener) (a : ListenerStep) : Prop :=
  a = .handleRead none ∧ s.acceptor.point = .waiting ∧ s.backlog ≠ []

instance (s : Listener) (a : ListenerStep) : Decidable (s.Starts a) :=
  inferInstanceAs (Decidable (_ ∧ _ ∧ _))

/-- How often handleRead is called for a connection that waits. -/
def rounds : Listener → List ListenerStep → Nat
  | _, [] => 0
  | s, a :: as => (if s.Starts a then 1 else 0) +
      match s.exec a with
      | .ok t => rounds t as
      | .error _ => 0

/-- Whether a connection waits, as a number. -/
def waits (s : Listener) : Nat := if s.backlog = [] then 0 else 1

/-- `due` connections have been taken, or one fewer while the branch of EMFILE has
not come to its accept. There is an idle descriptor, or room for one. -/
def Working (s : Listener) (due : Nat) : Prop :=
  match s.acceptor.point with
  | .waiting => s.acceptor.idleFd ≠ none ∧ due ≤ s.taken.length
  | .closing => s.acceptor.idleFd ≠ none ∧ due ≤ s.taken.length + s.waits
  | .accepting => s.table.lowest ≠ none ∧ due ≤ s.taken.length + s.waits
  | .closingAgain =>
      (s.acceptor.idleFd ≠ none ∨ s.table.lowest ≠ none) ∧ due ≤ s.taken.length
  | .opening => s.table.lowest ≠ none ∧ due ≤ s.taken.length
  | .destroyed => False

/-- More room and more connections in the queue do no harm. -/
theorem Working.mono {s t : Listener} {due : Nat} (hs : s.Working due)
    (hacceptor : t.acceptor = s.acceptor) (htaken : t.taken = s.taken)
    (hroom : s.table.lowest ≠ none → t.table.lowest ≠ none) (hwaits : s.waits ≤ t.waits) :
    t.Working due := by
  simp only [Working, hacceptor, htaken] at hs ⊢
  cases hpoint : s.acceptor.point with
  | waiting =>
      simp only [hpoint] at hs
      exact hs
  | closing =>
      simp only [hpoint] at hs
      exact ⟨hs.1, by omega⟩
  | accepting =>
      simp only [hpoint] at hs
      exact ⟨hroom hs.1, by omega⟩
  | closingAgain =>
      simp only [hpoint] at hs
      exact ⟨hs.1.imp id hroom, hs.2⟩
  | opening =>
      simp only [hpoint] at hs
      exact ⟨hroom hs.1, hs.2⟩
  | destroyed =>
      simp only [hpoint] at hs

theorem accept_cases (s : Listener) (w : Holder) :
    (s.table.lowest = none ∧ s.accept none w = .error EMFILE) ∨
      (s.waits = 0 ∧ s.table.lowest ≠ none ∧ s.accept none w = .error EAGAIN) ∨
      ∃ fd peer t, s.accept none w = .ok (fd, peer, t) ∧ s.waits = 1 := by
  cases hlowest : s.table.lowest with
  | none =>
      refine .inl ⟨rfl, ?_⟩
      simp only [accept, hlowest]
  | some fd =>
      cases hbacklog : s.backlog with
      | nil =>
          refine .inr (.inl ⟨?_, Option.some_ne_none fd, ?_⟩)
          · simp only [waits, hbacklog, if_true]
          · simp only [accept, hlowest, hbacklog]
      | cons peer rest =>
          refine .inr (.inr ⟨fd, peer,
            { s with table := s.table.opened fd w, backlog := rest }, ?_, ?_⟩)
          · simp only [accept, hlowest, hbacklog]
          · simp [waits, hbacklog]

/-- A call of handleRead takes the connection that waits, or goes for it. -/
theorem handleRead_working {s t : Listener} {due : Nat} (hs : s.Working due)
    (hpoint : s.acceptor.point = .waiting) (h : s.handleRead none = .ok t) :
    t.Working (due + s.waits) := by
  simp only [Working, hpoint] at hs
  have hfailed {e : Nat} (hor : e = EMFILE ∨ (e ≠ EMFILE ∧ s.waits = 0)) :
      Working (if e = EMFILE then s.setPoint .closing else s) (due + s.waits) := by
    cases hor with
    | inl heq =>
        rw [if_pos heq]
        exact ⟨hs.1, Nat.add_le_add_right hs.2 _⟩
    | inr hne =>
        rw [if_neg hne.1, hne.2]
        simp only [Working, hpoint]
        exact hs
  have htaken {fd peer : Nat} {m : Listener} {w : Holder} {fate : Fate}
      (haccept : s.accept none w = .ok (fd, peer, m)) (hone : s.waits = 1)
      (table : Descriptors Holder) :
      Working { m.take peer fate with table := table } (due + s.waits) := by
    obtain ⟨-, -, rest, -, rfl⟩ := accept_ok haccept
    simp only [Working, take, hpoint, List.length_append, List.length_singleton, hone]
    exact ⟨hs.1, Nat.add_le_add_right hs.2 1⟩
  have hagain : EAGAIN ≠ EMFILE := by decide
  simp only [handleRead] at h
  split at h
  · rcases s.accept_cases .connection
      with ⟨-, haccept⟩ | ⟨hzero, -, haccept⟩ | ⟨fd, peer, m, haccept, hone⟩
    · rw [haccept] at h
      cases h
      exact hfailed (.inl rfl)
    · rw [haccept] at h
      cases h
      exact hfailed (.inr ⟨hagain, hzero⟩)
    · rw [haccept] at h
      cases h
      exact htaken haccept hone _
  · rcases s.accept_cases .acceptor
      with ⟨-, haccept⟩ | ⟨hzero, -, haccept⟩ | ⟨fd, peer, m, haccept, hone⟩
    · rw [haccept] at h
      cases h
      exact hfailed (.inl rfl)
    · rw [haccept] at h
      cases h
      exact hfailed (.inr ⟨hagain, hzero⟩)
    · rw [haccept] at h
      simp only [close] at h
      split at h
      · cases h
      · cases h
        exact htaken haccept hone _

/-- The next call of handleRead comes closer to the end of its branch, or ends it. -/
theorem next_working {s t : Listener} {due : Nat} (hsound : s.Sound) (hs : s.Working due)
    (h : s.next none = .ok t) : t.Working due := by
  have hholds := hsound.holds
  have hnodup := hsound.nodup
  cases hpoint : s.acceptor.point with
  | waiting | destroyed =>
      simp only [next, hpoint] at h
      cases h
      exact hs
  | closing =>
      simp only [holdings, hpoint] at hholds hnodup
      simp only [Working, hpoint] at hs
      obtain ⟨table, hclose, -, -, hfreed, -⟩ := close_ok hholds hnodup
      simp only [next, hpoint, hclose, ok_bind] at h
      cases h
      obtain ⟨fd, hfd⟩ := Option.ne_none_iff_exists'.mp hs.1
      exact ⟨hfreed fd hfd (hsound.below fd hfd), hs.2⟩
  | accepting =>
      simp only [Working, hpoint] at hs
      simp only [next, hpoint] at h
      rcases s.accept_cases .acceptor with ⟨hnone, -⟩ | ⟨hzero, hroom, haccept⟩ |
        ⟨fd, peer, m, haccept, hone⟩
      · exact absurd hnone hs.1
      · rw [haccept] at h
        cases h
        rw [hzero] at hs
        exact ⟨.inr hroom, hs.2⟩
      · obtain ⟨-, -, rest, -, rfl⟩ := accept_ok haccept
        rw [haccept] at h
        cases h
        rw [hone] at hs
        refine ⟨.inl (Option.some_ne_none fd), ?_⟩
        simp only [take, setIdleFd, setPoint, List.length_append, List.length_singleton]
        exact hs.2
  | closingAgain =>
      simp only [holdings, hpoint] at hholds hnodup
      simp only [Working, hpoint] at hs
      obtain ⟨table, hclose, -, -, hfreed, hkept⟩ := close_ok hholds hnodup
      simp only [next, hpoint, hclose, ok_bind] at h
      cases h
      refine ⟨?_, hs.2⟩
      cases hs.1 with
      | inl hidle =>
          obtain ⟨fd, hfd⟩ := Option.ne_none_iff_exists'.mp hidle
          exact hfreed fd hfd (hsound.below fd hfd)
      | inr hroom => exact hkept hroom
  | opening =>
      simp only [Working, hpoint] at hs
      obtain ⟨fd, hfd⟩ := Option.ne_none_iff_exists'.mp hs.1
      simp only [next, hpoint, openNull, hfd] at h
      cases h
      exact ⟨Option.some_ne_none fd, hs.2⟩

theorem exec_working {s t : Listener} {due : Nat} {a : ListenerStep} (hsound : s.Sound)
    (hs : s.Working due) (ha : Steady a) (h : s.exec a = .ok t) :
    t.Working (due + if s.Starts a then 1 else 0) := by
  have hquiet (hne : a ≠ .handleRead none) : (due + if s.Starts a then 1 else 0) = due := by
    rw [if_neg fun hstarts => hne hstarts.1, Nat.add_zero]
  cases a with
  | connect peer =>
      cases h
      rw [hquiet (by simp)]
      refine hs.mono rfl rfl id ?_
      simp only [waits]
      split <;> simp
  | closes fd =>
      rw [hquiet (by simp)]
      simp only [exec] at h
      split at h
      · cases h
        exact hs.mono rfl rfl (fun hroom => Descriptors.lowest_closed hroom fd) (Nat.le_refl _)
      · cases h
        exact hs
  | handleRead failure =>
      cases ha
      simp only [exec] at h
      split at h
      · rename_i hpoint
        have hstarts : (if s.Starts (.handleRead none) then 1 else 0) = s.waits := by
          simp [Starts, hpoint, waits]
        rw [hstarts]
        exact handleRead_working hs hpoint h
      · rename_i hpoint
        cases h
        rw [if_neg fun hstarts => hpoint hstarts.2.1]
        exact hs
  | next failure =>
      cases ha
      rw [hquiet (by simp)]
      exact next_working hsound hs h
  | opens | destroy => exact ha.elim

theorem run_working {s t : Listener} {due : Nat} {steps : List ListenerStep} (hsound : s.Sound)
    (hs : s.Working due) (hsteady : ∀ a ∈ steps, Steady a) (h : run exec s steps = .ok t) :
    t.Working (due + rounds s steps) := by
  induction steps generalizing s due with
  | nil =>
      cases h
      exact hs
  | cons a steps ih =>
      obtain ⟨m, hm, h⟩ := run_cons_ok.mp h
      obtain ⟨m', hm', hsound'⟩ := exec_sound hsound a
      cases Except.ok.inj (hm'.symm.trans hm)
      have hnext := exec_working hsound hs (hsteady a List.mem_cons_self) hm
      have hrest := ih hsound' hnext (fun b hb => hsteady b (List.mem_cons_of_mem _ hb)) h
      simp only [rounds, hm]
      rwa [Nat.add_assoc] at hrest

/-- A full table does not keep connections waiting. From any point of a run at which
the acceptor has its idle descriptor, as long as no other thread opens descriptors
and whatever they close, every call of handleRead for a waiting connection takes
one, by handing it over or by dropping it, and the acceptor is back with an idle
descriptor. -/
theorem waiting_connections_taken {table : Descriptors Holder} (hnone : table.Holds .acceptor [])
    {callback : Bool} {s₀ s t : Listener} (h : construct table callback = some s₀)
    {before steps : List ListenerStep} (hbefore : run exec s₀ before = .ok s)
    (hpoint : s.acceptor.point = .waiting) (hidle : s.acceptor.idleFd ≠ none)
    (hsteady : ∀ a ∈ steps, Steady a) (hrun : run exec s steps = .ok t)
    (hback : t.acceptor.point = .waiting) :
    s.taken.length + rounds s steps ≤ t.taken.length ∧ t.acceptor.idleFd ≠ none := by
  obtain ⟨hs₀, -⟩ := construct_sound hnone h
  obtain ⟨s', hs', hsound⟩ := run_sound hs₀ before
  cases Except.ok.inj (hs'.symm.trans hbefore)
  have hstart : s.Working s.taken.length := by
    simp only [Working, hpoint]
    exact ⟨hidle, Nat.le_refl _⟩
  have hend := run_working hsound hstart hsteady hrun
  simp only [Working, hback] at hend
  exact ⟨hend.2, hend.1⟩

/-- The table is full when the connection arrives. -/
theorem waiting_connections_taken_full : ∃ s₀ s t, construct standardTable true = some s₀ ∧
    run exec s₀ [.opens] = .ok s ∧
    run exec s [.connect 7, .handleRead none, .next none, .next none, .next none, .next none] =
      .ok t ∧
    s.taken.length + 1 ≤ t.taken.length ∧ t.acceptor.idleFd ≠ none := by
  obtain ⟨s₀, hs₀⟩ : ∃ s, construct standardTable true = some s := ⟨_, rfl⟩
  have hcheck : resultHolds (fun s : Listener =>
      (s.acceptor.point = .waiting ∧ s.acceptor.idleFd ≠ none) ∧
      rounds s [.connect 7, .handleRead none, .next none, .next none, .next none, .next none] = 1 ∧
      resultHolds (fun t : Listener => t.acceptor.point = .waiting) (run exec s
        [.connect 7, .handleRead none, .next none, .next none, .next none, .next none]) = true)
      (run exec s₀ [.opens]) = true := by
    cases hs₀
    decide +kernel
  obtain ⟨s, hs, ⟨hpoint, hidle⟩, hrounds, hrun⟩ := resultHolds_iff.mp hcheck
  obtain ⟨t, ht, hback⟩ := resultHolds_iff.mp hrun
  have hsteady : ∀ a ∈ [.connect 7, .handleRead none, .next none, .next none, .next none,
      .next none], Steady a := by
    intro a ha
    simp only [List.mem_cons, List.not_mem_nil, or_false] at ha
    rcases ha with rfl | rfl | rfl | rfl | rfl | rfl
    · trivial
    all_goals rfl
  have htaken := waiting_connections_taken standardTable_holds hs₀ hs hpoint hidle hsteady ht hback
  rw [hrounds] at htaken
  exact ⟨s₀, s, t, hs₀, hs, ht, htaken⟩

end Listener
end TAlib
