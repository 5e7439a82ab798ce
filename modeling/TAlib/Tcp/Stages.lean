import TAlib.Tcp.Established
import TAlib.Tcp.TcpServer
import TAlib.Tcp.TeardownSteps

/-!
The life of a connection in its server. It is created in the base loop, comes
up in its io loop, is closed there, is removed from the set in the base loop
and destroyed in its io loop. At every stage the functors that the loops owe it
are exactly those that carry it to the next one, whatever the steps of the
other connections are in between.
-/

namespace TAlib

open Foundation

/-- The connection that a functor is bound to. -/
def Functor.subject : Functor → Nat
  | .connectEstablished c | .forceCloseInLoop c | .removeConnectionInLoop c
  | .connectDestroyed c => c

/-- The loop that a functor is queued in. -/
def Functor.home (ioLoop : Nat) : Functor → Nat
  | .removeConnectionInLoop _ => TcpServer.baseLoop
  | .connectEstablished _ | .forceCloseInLoop _ | .connectDestroyed _ => ioLoop

inductive Stage where
  | created
  | up
  | closed
  | removed
  | gone
  deriving DecidableEq

namespace Stage

/-- The functor that carries a connection to its next stage, if that is not an
event or a request to close. -/
def next : Stage → Nat → Option Functor
  | .created, c => some (.connectEstablished c)
  | .closed, c => some (.removeConnectionInLoop c)
  | .removed, c => some (.connectDestroyed c)
  | .up, _ | .gone, _ => none

/-- How many calls of a functor the loops owe, requests to close apart. -/
def due (stage : Stage) (f : Functor) : Nat := if stage.next f.subject = some f then 1 else 0

/-- The connection is in m_connectionsSet. -/
def inSet : Stage → Bool
  | .created | .up | .closed => true
  | .removed | .gone => false

/-- How often m_closeCallBack has been called. -/
def closes : Stage → Nat
  | .created | .up => 0
  | .closed | .removed | .gone => 1

/-- What the connection and its poller look like. -/
def Shows : Stage → InLoop → Prop
  | .created, i => i.conn.state = .kConnecting ∧ i.conn.channel.index < 0 ∧
      i.poller.interest i.conn.channel.fd = none
  | .up, i => i.isLive = true ∧ ∃ mask, i.Listening mask
  | .closed, i | .removed, i => i.conn.state = .kDisConnected ∧
      i.conn.channel.events = kNoneEvent ∧ i.Listening kNoneEvent
  | .gone, i => i.conn.state = .kDisConnected

theorem due_of_next {stage : Stage} {c : Nat} {g : Functor} (h : stage.next c = some g)
    {f : Functor} (hf : f.subject = c) (l ioLoop : Nat) :
    (if l = g.home ioLoop ∧ g = f then 1 else 0) =
      if l = f.home ioLoop then stage.due f else 0 := by
  simp only [due, hf, h, Option.some.injEq]
  by_cases hg : g = f
  · subst hg
    simp only [and_true, if_true]
  · simp only [hg, and_false, if_false, ite_self]

/-- A functor belongs to one stage. -/
theorem eq_of_next {stage stage' : Stage} {c : Nat} {f : Functor} (h : stage.next c = some f)
    (h' : stage'.next c = some f) : stage = stage' := by
  cases stage <;> cases h <;> cases stage' <;> first | rfl | cases h'

theorem due_of_none {stage : Stage} {c : Nat} (h : stage.next c = none) {f : Functor}
    (hf : f.subject = c) : stage.due f = 0 := by
  simp only [due, hf, h, reduceCtorEq, if_false]

end Stage

namespace TcpServer

def jobs (s : TcpServer) (l : Nat) (f : Functor) : Nat := (s.loops l).jobs f

structure At (s : TcpServer) (c : Nat) (o : Owned) (stage : Stage) : Prop where
  address : o.conn.channel.address = c
  bound : (s.inLoop o).Bound
  shows : stage.Shows (s.inLoop o)
  member : c ∈ s.connectionsSet ↔ stage.inSet = true
  closes : s.closeCallBacks c = stage.closes
  owed : ∀ l f, f.subject = c → f ≠ .forceCloseInLoop c →
    s.jobs l f = if l = f.home o.ioLoop then stage.due f else 0
  forced : ∀ l, l ≠ o.ioLoop → s.jobs l (.forceCloseInLoop c) = 0
  destroyed : o.destroyed = true ↔ stage = .gone

/-- An active channel of the loop `l`: if it is closed, it is not read from. -/
def Dispatchable (l : Nat) (o : Owned) : Prop :=
  o.ioLoop = l ∧ o.destroyed = false ∧ o.conn.state ≠ .kConnecting ∧
    (o.conn.state = .kDisConnected → ¬ InLoop.Readable o.conn.channel.revents)

structure Sound (s : TcpServer) : Prop where
  staged : ∀ c o, s.conns c = some o → ∃ stage, s.At c o stage
  fresh : ∀ c, s.conns c = none → c ∉ s.connectionsSet ∧ s.closeCallBacks c = 0 ∧
    ∀ l f, f.subject = c → s.jobs l f = 0
  apart : ∀ c c' o o', s.conns c = some o → s.conns c' = some o' → c ≠ c' →
    o.destroyed = false → o'.destroyed = false → o.conn.channel.fd ≠ o'.conn.channel.fd
  registered : ∀ l fd c, (s.loops l).poller.channels fd = some c → ∃ o, s.conns c = some o ∧
    o.ioLoop = l ∧ o.conn.channel.fd = fd ∧ o.destroyed = false
  active : ∀ l c, c ∈ (s.loops l).active → ∃ o, s.conns c = some o ∧ Dispatchable l o
  nodup : ∀ l, (s.loops l).active.Nodup

theorem new_sound : new.Sound where
  staged _ _ h := by cases h
  fresh _ _ := ⟨Finset.notMem_empty _, rfl, fun _ _ _ => rfl⟩
  apart _ _ _ _ h := by cases h
  registered _ _ _ h := by cases h
  active _ _ h := by cases h
  nodup _ := List.nodup_nil

/-- A step that concerns one connection only, its poller apart. -/
structure Touches (c : Nat) (s s' : TcpServer) : Prop where
  conns : ∀ c', c' ≠ c → s'.conns c' = s.conns c'
  member : ∀ c', c' ≠ c → (c' ∈ s'.connectionsSet ↔ c' ∈ s.connectionsSet)
  closes : ∀ c', c' ≠ c → s'.closeCallBacks c' = s.closeCallBacks c'
  jobs : ∀ l f, f.subject ≠ c → s'.jobs l f = s.jobs l f
  active : ∀ l, (s'.loops l).active = (s.loops l).active

theorem Touches.refl (c : Nat) (s : TcpServer) : s.Touches c s :=
  ⟨fun _ _ => rfl, fun _ _ => Iff.rfl, fun _ _ => rfl, fun _ _ _ => rfl, fun _ => rfl⟩

theorem Touches.trans {c : Nat} {s t u : TcpServer} (h : s.Touches c t) (h' : t.Touches c u) :
    s.Touches c u where
  conns c' hne := (h'.conns c' hne).trans (h.conns c' hne)
  member c' hne := (h'.member c' hne).trans (h.member c' hne)
  closes c' hne := (h'.closes c' hne).trans (h.closes c' hne)
  jobs l f hne := (h'.jobs l f hne).trans (h.jobs l f hne)
  active l := (h'.active l).trans (h.active l)

/-- The pollers say the same about a connection. -/
def SamePoll (s s' : TcpServer) (o : Owned) : Prop :=
  (s'.loops o.ioLoop).poller.channels o.conn.channel.fd =
      (s.loops o.ioLoop).poller.channels o.conn.channel.fd ∧
    (s'.loops o.ioLoop).poller.interest o.conn.channel.fd =
      (s.loops o.ioLoop).poller.interest o.conn.channel.fd

theorem shows_of_samePoll {s s' : TcpServer} {o : Owned} {stage : Stage}
    (h : stage.Shows (s.inLoop o)) (hpoll : stage ≠ .gone → s.SamePoll s' o) :
    stage.Shows (s'.inLoop o) := by
  have hlistening (hne : stage ≠ .gone) (mask : Events) (hmask : (s.inLoop o).Listening mask) :
      (s'.inLoop o).Listening mask :=
    ⟨(hpoll hne).1.trans hmask.1, (hpoll hne).2.trans hmask.2⟩
  cases stage with
  | created => exact ⟨h.1, h.2.1, (hpoll nofun).2.trans h.2.2⟩
  | up =>
      obtain ⟨hlive, mask, hmask⟩ := h
      exact ⟨hlive, mask, hlistening nofun mask hmask⟩
  | closed => exact ⟨h.1, h.2.1, hlistening nofun _ h.2.2⟩
  | removed => exact ⟨h.1, h.2.1, hlistening nofun _ h.2.2⟩
  | gone => exact h

/-- A connection that a step does not concern stays at its stage. -/
theorem At.of_touches {s s' : TcpServer} {c c' : Nat} {o : Owned} {stage : Stage}
    (h : s.At c' o stage) (ht : s.Touches c s') (hne : c' ≠ c)
    (hpoll : o.destroyed = false → s.SamePoll s' o) : s'.At c' o stage where
  address := h.address
  bound := ⟨h.bound.read, h.bound.write, h.bound.error, h.bound.close⟩
  shows := shows_of_samePoll h.shows fun hgone => hpoll
    (Bool.eq_false_iff.mpr fun hd => hgone (h.destroyed.mp hd))
  member := (ht.member c' hne).trans h.member
  closes := (ht.closes c' hne).trans h.closes
  owed l f hf hforce := (ht.jobs l f (by rwa [hf])).trans (h.owed l f hf hforce)
  forced l hl := (ht.jobs l (.forceCloseInLoop c') hne).trans (h.forced l hl)
  destroyed := h.destroyed

/-- A step that concerns one connection keeps the server sound when it leaves
that connection at some stage. -/
theorem Sound.of_touches {s s' : TcpServer} {c : Nat} {o' : Owned} {stage : Stage} (hs : s.Sound)
    (ht : s.Touches c s') (hc' : s'.conns c = some o') (hat : s'.At c o' stage)
    (hpoll : ∀ c₁ o₁, c₁ ≠ c → s.conns c₁ = some o₁ → o₁.destroyed = false → s.SamePoll s' o₁)
    (hapart : ∀ c₁ o₁, c₁ ≠ c → s.conns c₁ = some o₁ → o'.destroyed = false →
      o₁.destroyed = false → o'.conn.channel.fd ≠ o₁.conn.channel.fd)
    (hregistered : ∀ l fd a, (s'.loops l).poller.channels fd = some a →
      ∃ o, s'.conns a = some o ∧ o.ioLoop = l ∧ o.conn.channel.fd = fd ∧ o.destroyed = false)
    (hactive : ∀ l, c ∈ (s.loops l).active → Dispatchable l o') : s'.Sound where
  staged c₁ o₁ h₁ := by
    by_cases hne : c₁ = c
    · subst hne
      cases hc'.symm.trans h₁
      exact ⟨stage, hat⟩
    · rw [ht.conns c₁ hne] at h₁
      obtain ⟨stage₁, hat₁⟩ := hs.staged c₁ o₁ h₁
      exact ⟨stage₁, hat₁.of_touches ht hne (hpoll c₁ o₁ hne h₁)⟩
  fresh c₁ h₁ := by
    have hne : c₁ ≠ c := by
      intro heq
      rw [heq, hc'] at h₁
      cases h₁
    rw [ht.conns c₁ hne] at h₁
    obtain ⟨hmem, hcloses, hjobs⟩ := hs.fresh c₁ h₁
    refine ⟨fun hmem' => hmem ((ht.member c₁ hne).mp hmem'), (ht.closes c₁ hne).trans hcloses,
      fun l f hf => ?_⟩
    exact (ht.jobs l f (by rwa [hf])).trans (hjobs l f hf)
  apart c₁ c₂ o₁ o₂ h₁ h₂ hne hd₁ hd₂ := by
    by_cases hc₁ : c₁ = c
    · subst hc₁
      cases hc'.symm.trans h₁
      have hc₂ : c₂ ≠ c₁ := fun heq => hne heq.symm
      rw [ht.conns c₂ hc₂] at h₂
      exact hapart c₂ o₂ hc₂ h₂ hd₁ hd₂
    · rw [ht.conns c₁ hc₁] at h₁
      by_cases hc₂ : c₂ = c
      · subst hc₂
        cases hc'.symm.trans h₂
        exact (hapart c₁ o₁ hc₁ h₁ hd₂ hd₁).symm
      · rw [ht.conns c₂ hc₂] at h₂
        exact hs.apart c₁ c₂ o₁ o₂ h₁ h₂ hne hd₁ hd₂
  registered := hregistered
  active l c₁ h₁ := by
    rw [ht.active l] at h₁
    by_cases hne : c₁ = c
    · subst hne
      exact ⟨o', hc', hactive l h₁⟩
    · obtain ⟨o₁, ho₁, hdispatch⟩ := hs.active l c₁ h₁
      exact ⟨o₁, (ht.conns c₁ hne).trans ho₁, hdispatch⟩
  nodup l := by
    rw [ht.active l]
    exact hs.nodup l

/-- The same for a step that leaves the pollers alone. -/
theorem Sound.of_same_pollers {s s' : TcpServer} {c : Nat} {o o' : Owned} {stage : Stage}
    (hs : s.Sound) (ht : s.Touches c s') (hc : s.conns c = some o) (hc' : s'.conns c = some o')
    (hat : s'.At c o' stage) (hpoller : ∀ l, (s'.loops l).poller = (s.loops l).poller)
    (hloop : o'.ioLoop = o.ioLoop) (hfd : o'.conn.channel.fd = o.conn.channel.fd)
    (hd : o'.destroyed = o.destroyed) (hactive : ∀ l, c ∈ (s.loops l).active → Dispatchable l o') :
    s'.Sound := by
  refine hs.of_touches ht hc' hat (fun c₁ o₁ _ _ _ => ?_) (fun c₁ o₁ hne h₁ hd' hd₁ => ?_)
    (fun l fd a ha => ?_) hactive
  · rw [SamePoll, hpoller]
    exact ⟨rfl, rfl⟩
  · rw [hfd]
    exact hs.apart c c₁ o o₁ hc h₁ hne.symm (hd ▸ hd') hd₁
  · rw [hpoller l] at ha
    obtain ⟨o₁, h₁, hl₁, hfd₁, hd₁⟩ := hs.registered l fd a ha
    by_cases hne : a = c
    · subst hne
      cases hc.symm.trans h₁
      exact ⟨o', hc', hloop.trans hl₁, hfd.trans hfd₁, hd.trans hd₁⟩
    · exact ⟨o₁, (ht.conns a hne).trans h₁, hl₁, hfd₁, hd₁⟩

/-- The same for a step that changes what the poller of the io loop says about
the fd of the connection. -/
theorem Sound.of_own_poller {s s' : TcpServer} {c : Nat} {o o' : Owned} {stage : Stage}
    (hs : s.Sound) (ht : s.Touches c s') (hc : s.conns c = some o) (hopen : o.destroyed = false)
    (hc' : s'.conns c = some o') (hat : s'.At c o' stage)
    (helsewhere : ∀ l, l ≠ o.ioLoop → (s'.loops l).poller = (s.loops l).poller)
    (hpoller : (s.loops o.ioLoop).poller.SameBut o.conn.channel.fd (s'.loops o.ioLoop).poller)
    (hloop : o'.ioLoop = o.ioLoop) (hfd : o'.conn.channel.fd = o.conn.channel.fd)
    (hown : ∀ a, (s'.loops o.ioLoop).poller.channels o.conn.channel.fd = some a →
      a = c ∧ o'.destroyed = false)
    (hactive : ∀ l, c ∈ (s.loops l).active → Dispatchable l o') : s'.Sound := by
  refine hs.of_touches ht hc' hat (fun c₁ o₁ hne h₁ hd₁ => ?_) (fun c₁ o₁ hne h₁ _ hd₁ => ?_)
    (fun l fd a ha => ?_) hactive
  · by_cases hl : o₁.ioLoop = o.ioLoop
    · have hne' := hs.apart c₁ c o₁ o h₁ hc hne hd₁ hopen
      rw [SamePoll, hl]
      exact ⟨hpoller.channels _ hne', hpoller.interest _ hne'⟩
    · rw [SamePoll, helsewhere _ hl]
      exact ⟨rfl, rfl⟩
  · rw [hfd]
    exact hs.apart c c₁ o o₁ hc h₁ hne.symm hopen hd₁
  · by_cases hhere : l = o.ioLoop ∧ fd = o.conn.channel.fd
    · obtain ⟨rfl, rfl⟩ := hhere
      obtain ⟨rfl, hd'⟩ := hown a ha
      exact ⟨o', hc', hloop, hfd, hd'⟩
    · have hold : (s.loops l).poller.channels fd = some a := by
        by_cases hl : l = o.ioLoop
        · subst hl
          rwa [hpoller.channels fd fun heq => hhere ⟨rfl, heq⟩] at ha
        · rwa [helsewhere l hl] at ha
      obtain ⟨o₁, h₁, hl₁, hfd₁, hd₁⟩ := hs.registered l fd a hold
      have hne : a ≠ c := by
        intro heq
        subst heq
        cases hc.symm.trans h₁
        exact hhere ⟨hl₁.symm, hfd₁.symm⟩
      exact ⟨o₁, (ht.conns a hne).trans h₁, hl₁, hfd₁, hd₁⟩

end TcpServer
end TAlib
