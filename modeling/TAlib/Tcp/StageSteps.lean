import TAlib.Tcp.Stages

/-!
How the operations of a connection carry it from stage to stage: it comes up
and stays up, it is closed, removed and destroyed, and each of these steps
leaves the server sound and trips none of the asserts of the teardown.
-/

namespace TAlib

open Foundation

namespace TcpServer

/-- A step that changes nothing but what the loops owe. -/
structure QueuesOnly (s s' : TcpServer) : Prop where
  conns : s'.conns = s.conns
  set : s'.connectionsSet = s.connectionsSet
  closes : s'.closeCallBacks = s.closeCallBacks
  poller : ∀ l, (s'.loops l).poller = (s.loops l).poller
  active : ∀ l, (s'.loops l).active = (s.loops l).active

theorem QueuesOnly.touches {s s' : TcpServer} {c : Nat} (h : s.QueuesOnly s')
    (hjobs : ∀ l f, f.subject ≠ c → s'.jobs l f = s.jobs l f) : s.Touches c s' where
  conns c' _ := by rw [h.conns]
  member c' _ := by rw [h.set]
  closes c' _ := by rw [h.closes]
  jobs := hjobs
  active := h.active

theorem setLoop_poller {s : TcpServer} {l : Nat} {loop : EventLoop Functor}
    (h : loop.poller = (s.loops l).poller) (l' : Nat) :
    ((s.setLoop l loop).loops l').poller = (s.loops l').poller := by
  by_cases hl : l' = l
  · subst hl
    simpa only [setLoop, Function.update_self] using h
  · simp only [setLoop, Function.update_of_ne hl]

theorem setPhase_poller (s : TcpServer) (l : Nat) (phase : Phase Functor) (l' : Nat) :
    ((s.setPhase l phase).loops l').poller = (s.loops l').poller :=
  @setLoop_poller s l { s.loops l with phase := phase } rfl l'

/-- A loop is replaced by one with the same poller and the same active channels. -/
theorem setLoop_queuesOnly {s : TcpServer} {l : Nat} {loop : EventLoop Functor}
    (hpoller : loop.poller = (s.loops l).poller) (hactive : loop.active = (s.loops l).active) :
    s.QueuesOnly (s.setLoop l loop) where
  conns := rfl
  set := rfl
  closes := rfl
  poller := setLoop_poller hpoller
  active l' := by
    by_cases hl : l' = l
    · subst hl
      simpa only [setLoop, Function.update_self] using hactive
    · simp only [setLoop, Function.update_of_ne hl]

theorem queueInLoop_queuesOnly (s : TcpServer) (l : Nat) (f : Functor) :
    s.QueuesOnly (s.queueInLoop l f) := setLoop_queuesOnly rfl rfl

theorem queueInLoop_jobs (s : TcpServer) (l l' : Nat) (f g : Functor) :
    (s.queueInLoop l f).jobs l' g = s.jobs l' g + if l' = l ∧ f = g then 1 else 0 := by
  by_cases hl : l' = l
  · subst hl
    simp only [jobs, queueInLoop, setLoop, Function.update_self, EventLoop.queueInLoop_jobs,
      true_and]
  · simp only [jobs, queueInLoop, setLoop, Function.update_of_ne hl, hl, false_and, if_false,
      Nat.add_zero]

/-- The next functor is taken off the list of its loop. -/
theorem setPhase_calling {s : TcpServer} {l : Nat} {f : Functor} {rest : List Functor}
    (h : (s.loops l).phase = .calling (f :: rest)) :
    s.QueuesOnly (s.setPhase l (.calling rest)) ∧ ∀ l' g,
      s.jobs l' g = (s.setPhase l (.calling rest)).jobs l' g + if l' = l ∧ f = g then 1 else 0 := by
  refine ⟨setLoop_queuesOnly rfl ?_, fun l' g => ?_⟩
  · simp only [EventLoop.active, h]
  · by_cases hl : l' = l
    · subst hl
      simp only [jobs, setPhase, setLoop, Function.update_self, true_and]
      exact EventLoop.calling_jobs h g
    · simp only [jobs, setPhase, setLoop, Function.update_of_ne hl, hl, false_and, if_false,
        Nat.add_zero]

theorem store_conns (s : TcpServer) (c : Nat) (o : Owned) (r : InLoop) :
    (s.store c o r).conns c = some { o with conn := r.conn } := Function.update_self _ _ _

theorem store_poller (s : TcpServer) (c : Nat) (o : Owned) (r : InLoop) :
    ((s.store c o r).loops o.ioLoop).poller = r.poller := by
  simp only [store, setConn, setLoop, Function.update_self]

theorem store_poller_of_ne (s : TcpServer) (c : Nat) {o : Owned} (r : InLoop) {l : Nat}
    (hl : l ≠ o.ioLoop) : ((s.store c o r).loops l).poller = (s.loops l).poller := by
  simp only [store, setConn, setLoop, Function.update_of_ne hl]

theorem store_jobs (s : TcpServer) (c : Nat) (o : Owned) (r : InLoop) (l : Nat) (f : Functor) :
    (s.store c o r).jobs l f = s.jobs l f := by
  by_cases hl : l = o.ioLoop
  · subst hl
    simp only [jobs, store, setConn, setLoop, Function.update_self]
    rfl
  · simp only [jobs, store, setConn, setLoop, Function.update_of_ne hl]

theorem store_touches (s : TcpServer) (c : Nat) (o : Owned) (r : InLoop) :
    s.Touches c (s.store c o r) where
  conns c' hne := Function.update_of_ne hne _ _
  member _ _ := Iff.rfl
  closes _ _ := rfl
  jobs l f _ := store_jobs s c o r l f
  active l := by
    by_cases hl : l = o.ioLoop
    · subst hl
      simp only [store, setConn, setLoop, Function.update_self]
      rfl
    · simp only [store, setConn, setLoop, Function.update_of_ne hl]

theorem store_inLoop (s : TcpServer) (c : Nat) (o : Owned) (r : InLoop) :
    (s.store c o r).inLoop { o with conn := r.conn } = ⟨r.poller, r.conn, []⟩ := by
  simp only [inLoop, store_poller]

/-- Requests to close, and their calls, change nothing but the requests. -/
theorem Sound.of_requests {s s' : TcpServer} {c : Nat} {o : Owned} (hs : s.Sound)
    (hc : s.conns c = some o) (h : s.QueuesOnly s')
    (hjobs : ∀ l f, l = o.ioLoop ∧ f = .forceCloseInLoop c ∨ s'.jobs l f = s.jobs l f) :
    s'.Sound := by
  obtain ⟨stage, hat⟩ := hs.staged c o hc
  have hsame (l : Nat) (f : Functor) (hf : f ≠ .forceCloseInLoop c) : s'.jobs l f = s.jobs l f :=
    (hjobs l f).resolve_left fun heq => hf heq.2
  have ht : s.Touches c s' := h.touches fun l f hf => hsame l f fun heq => hf (by rw [heq]; rfl)
  have hpoll : s.SamePoll s' o := by
    rw [SamePoll, h.poller]
    exact ⟨rfl, rfl⟩
  have hat' : s'.At c o stage :=
    { address := hat.address
      bound := ⟨hat.bound.read, hat.bound.write, hat.bound.error, hat.bound.close⟩
      shows := shows_of_samePoll hat.shows fun _ => hpoll
      member := by rw [h.set]; exact hat.member
      closes := by rw [h.closes]; exact hat.closes
      owed := fun l f hf hforce => (hsame l f hforce).trans (hat.owed l f hf hforce)
      forced := fun l hl => ((hjobs l _).resolve_left fun heq => hl heq.1).trans (hat.forced l hl)
      destroyed := hat.destroyed }
  refine hs.of_same_pollers ht hc (h.conns ▸ hc) hat' h.poller rfl rfl rfl fun l hl => ?_
  obtain ⟨o₁, h₁, hdispatch⟩ := hs.active l c hl
  cases hc.symm.trans h₁
  exact hdispatch

theorem requests_sound {s : TcpServer} {c : Nat} {o : Owned} (hs : s.Sound)
    (hc : s.conns c = some o) (k : Nat) :
    ∃ s', run (perform c o.ioLoop) s (List.replicate k .queueForceCloseInLoop) = .ok s' ∧
      s'.Sound := by
  induction k generalizing s with
  | zero => exact ⟨s, rfl, hs⟩
  | succ k ih =>
      have hsound : (s.queueInLoop o.ioLoop (.forceCloseInLoop c)).Sound := by
        refine hs.of_requests hc (queueInLoop_queuesOnly s _ _) fun l f => ?_
        rw [queueInLoop_jobs]
        by_cases hf : l = o.ioLoop ∧ .forceCloseInLoop c = f
        · exact .inl ⟨hf.1, hf.2.symm⟩
        · exact .inr (by rw [if_neg hf, Nat.add_zero])
      obtain ⟨s', hs', hsound'⟩ := ih hsound hc
      exact ⟨s', hs', hsound'⟩

/-- The computation trips no assert of the teardown, and leaves a sound server. -/
structure Fine (x : Except Fault TcpServer) : Prop where
  avoids : ∀ e : Fault, e.ofTeardown = true → Avoids e x
  sound : ∀ s', x = .ok s' → s'.Sound

theorem Fine.ok {s : TcpServer} (h : s.Sound) : Fine (.ok s) :=
  ⟨fun e _ => .ok e s, fun _ heq => Except.ok.inj heq ▸ h⟩

theorem Fine.of_exists {x : Except Fault TcpServer} (h : ∃ s', x = .ok s' ∧ s'.Sound) : Fine x := by
  obtain ⟨s', rfl, hs'⟩ := h
  exact .ok hs'

theorem execute_fine {s : TcpServer} {c : Nat} {o : Owned} {f : InLoop → Except Fault InLoop}
    (hc : s.conns c = some o)
    (havoids : ∀ e : Fault, e.ofTeardown = true → Avoids e (f (s.inLoop o)))
    (hok : ∀ r, f (s.inLoop o) = .ok r →
      Fine (run (perform c o.ioLoop) (s.store c o r) r.effects)) : Fine (s.execute c f) := by
  have hexecute : s.execute c f =
      f (s.inLoop o) >>= fun r => run (perform c o.ioLoop) (s.store c o r) r.effects := by
    simp only [execute, hc]
  rw [hexecute]
  refine ⟨fun e he => (havoids e he).bind fun r hr => (hok r hr).avoids e he, fun s' h => ?_⟩
  obtain ⟨r, hr, h⟩ := bind_eq_ok.mp h
  exact (hok r hr).sound s' h

/-- A connection that is live in `s` comes up or stays up when its operation
leaves it live. Only the call that brought it up may be missing in `s₁`. -/
theorem continues_fine {s s₁ : TcpServer} {c : Nat} {o : Owned} {stage : Stage} {r : InLoop}
    (hs : s.Sound) (hc : s.conns c = some o) (hat : s.At c o stage) (hqueues : s.QueuesOnly s₁)
    (hstage : stage = .created ∨ stage = .up)
    (hothers : ∀ l f, f.subject ≠ c → s₁.jobs l f = s.jobs l f)
    (howed : ∀ l f, f.subject = c → f ≠ .forceCloseInLoop c → s₁.jobs l f = 0)
    (hforced : ∀ l, s₁.jobs l (.forceCloseInLoop c) = s.jobs l (.forceCloseInLoop c))
    (h : (s₁.inLoop o).Continues r) (hlistening : ∃ mask, r.Listening mask) :
    Fine (run (perform c o.ioLoop) (s₁.store c o r) r.effects) := by
  have hset : stage.inSet = true := by rcases hstage with rfl | rfl <;> rfl
  have hcloses : stage.closes = 0 := by rcases hstage with rfl | rfl <;> rfl
  have hopen : o.destroyed = false := by
    refine Bool.eq_false_iff.mpr fun hd => ?_
    have hgone := hat.destroyed.mp hd
    rcases hstage with rfl | rfl <;> cases hgone
  have hat' : (s₁.store c o r).At c { o with conn := r.conn } .up :=
    { address := h.frame.address.trans hat.address
      bound := by
        rw [store_inLoop]
        obtain ⟨hr, hw, he, hcl⟩ := InLoop.Bound.frame (s := s₁.inLoop o)
          ⟨hat.bound.read, hat.bound.write, hat.bound.error, hat.bound.close⟩ h.frame
        exact ⟨hr, hw, he, hcl⟩
      shows := by
        rw [store_inLoop]
        exact ⟨h.live, hlistening⟩
      member := by
        change c ∈ s₁.connectionsSet ↔ _
        rw [hqueues.set, hat.member, hset]
        rfl
      closes := by
        change s₁.closeCallBacks c = _
        rw [hqueues.closes, hat.closes, hcloses]
        rfl
      owed := fun l f hf hforce => by
        rw [store_jobs, howed l f hf hforce, Stage.due_of_none (c := c) rfl hf, ite_self]
      forced := fun l hl => by rw [store_jobs, hforced, hat.forced l hl]
      destroyed := by simp only [hopen, Bool.false_eq_true, reduceCtorEq] }
  have htouches := (hqueues.touches hothers).trans (store_touches s₁ c o r)
  have hsound : (s₁.store c o r).Sound := by
    refine hs.of_own_poller htouches hc hopen (store_conns s₁ c o r) hat' (fun l hl => ?_) ?_ rfl
      h.frame.fd (fun a ha => ?_) fun l hl => ?_
    · rw [store_poller_of_ne s₁ c r hl, hqueues.poller]
    · rw [store_poller, ← hqueues.poller]
      exact h.frame.poller
    · obtain ⟨mask, hmask⟩ := hlistening
      have hfd : r.conn.channel.fd = o.conn.channel.fd := h.frame.fd
      rw [store_poller, ← hfd, hmask.1] at ha
      exact ⟨(Option.some.inj ha).symm.trans (h.frame.address.trans hat.address), hopen⟩
    · obtain ⟨o₁, h₁, hl₁, hd₁, -⟩ := hs.active l c hl
      cases hc.symm.trans h₁
      have hlive := (InLoop.isLive_iff r).mp h.live
      refine ⟨hl₁, hd₁, ?_, fun hdown => absurd hdown (InLoop.not_down_of_live h.live)⟩
      rcases hlive with hstate | hstate <;> simp [hstate]
  obtain ⟨k, hk⟩ := h.effects
  rw [hk]
  exact .of_exists (requests_sound hsound (store_conns s₁ c o r) k)

/-- m_closeCallBack has been called for a connection of the set. -/
def afterClose (s : TcpServer) (c : Nat) (o : Owned) : TcpServer :=
  let s := { s with
    closeCallBacks := Function.update s.closeCallBacks c (s.closeCallBacks c + 1) }
  if o.ioLoop = baseLoop then
    ({ s with connectionsSet := s.connectionsSet.erase c } : TcpServer).queueInLoop o.ioLoop
      (.connectDestroyed c)
  else s.queueInLoop baseLoop (.removeConnectionInLoop c)

theorem removeConnectionInLoop_eq {s : TcpServer} {c : Nat} {o : Owned} (hc : s.conns c = some o)
    (hmem : c ∈ s.connectionsSet) : s.removeConnectionInLoop c =
      .ok (({ s with connectionsSet := s.connectionsSet.erase c } : TcpServer).queueInLoop o.ioLoop
        (.connectDestroyed c)) := by
  simp only [removeConnectionInLoop, if_pos hmem, require_of_true, ok_bind, hc]
  rfl

theorem perform_closeCallBack {s : TcpServer} {c : Nat} {o : Owned} (hc : s.conns c = some o)
    (hmem : c ∈ s.connectionsSet) :
    perform c o.ioLoop s .closeCallBack = .ok (s.afterClose c o) := by
  simp only [perform, removeConnection, afterClose]
  split
  · exact removeConnectionInLoop_eq (s := { s with
      closeCallBacks := Function.update s.closeCallBacks c (s.closeCallBacks c + 1) }) hc hmem
  · rfl

/-- The stage of a connection that has just been closed. -/
def afterCloseStage (o : Owned) : Stage := if o.ioLoop = baseLoop then .removed else .closed

theorem afterClose_touches (s : TcpServer) (c : Nat) (o : Owned) :
    s.Touches c (s.afterClose c o) := by
  have hcount : s.Touches c { s with
      closeCallBacks := Function.update s.closeCallBacks c (s.closeCallBacks c + 1) } :=
    ⟨fun _ _ => rfl, fun _ _ => Iff.rfl, fun _ hne => Function.update_of_ne hne _ _,
      fun _ _ _ => rfl, fun _ => rfl⟩
  have hqueue (t : TcpServer) (l : Nat) (f : Functor) (hf : f.subject = c) :
      t.Touches c (t.queueInLoop l f) := by
    refine (queueInLoop_queuesOnly t l f).touches fun l' g hg => ?_
    rw [queueInLoop_jobs, if_neg fun heq => hg (by rw [← heq.2, hf]), Nat.add_zero]
  simp only [afterClose]
  split
  · refine hcount.trans (Touches.trans ?_ (hqueue _ _ _ rfl))
    exact ⟨fun _ _ => rfl, fun _ hne => by simp [hne], fun _ _ => rfl, fun _ _ _ => rfl,
      fun _ => rfl⟩
  · exact hcount.trans (hqueue _ _ _ rfl)

theorem afterClose_conns (s : TcpServer) (c : Nat) (o : Owned) :
    (s.afterClose c o).conns = s.conns := by
  simp only [afterClose]
  split <;> rfl

theorem afterClose_poller (s : TcpServer) (c : Nat) (o : Owned) (l : Nat) :
    ((s.afterClose c o).loops l).poller = (s.loops l).poller := by
  simp only [afterClose]
  split
  · exact (queueInLoop_queuesOnly _ _ _).poller l
  · exact (queueInLoop_queuesOnly _ _ _).poller l

theorem afterClose_member {s : TcpServer} {c : Nat} (o : Owned) (hmem : c ∈ s.connectionsSet) :
    c ∈ (s.afterClose c o).connectionsSet ↔ (afterCloseStage o).inSet = true := by
  simp only [afterClose, afterCloseStage]
  split
  · simp [queueInLoop, setLoop, Stage.inSet]
  · simpa [queueInLoop, setLoop, Stage.inSet] using hmem

theorem afterClose_closes {s : TcpServer} {c : Nat} (o : Owned) (h : s.closeCallBacks c = 0) :
    (s.afterClose c o).closeCallBacks c = (afterCloseStage o).closes := by
  simp only [afterClose, afterCloseStage]
  split
  · simp [queueInLoop, setLoop, Stage.closes, h]
  · simp [queueInLoop, setLoop, Stage.closes, h]

/-- The close queues the functor that the next stage waits for, and no other. -/
theorem afterClose_jobs (s : TcpServer) {c : Nat} (o : Owned) (l : Nat) {f : Functor}
    (hf : f.subject = c) :
    (s.afterClose c o).jobs l f =
      s.jobs l f + if l = f.home o.ioLoop then (afterCloseStage o).due f else 0 := by
  simp only [afterClose, afterCloseStage]
  split
  · rw [queueInLoop_jobs, ← Stage.due_of_next (c := c) rfl hf]
    rfl
  · rw [queueInLoop_jobs, ← Stage.due_of_next (c := c) rfl hf]
    rfl

/-- The close of a live connection. -/
theorem closes_fine {s : TcpServer} {c : Nat} {o : Owned} {r : InLoop} (hs : s.Sound)
    (hc : s.conns c = some o) (hat : s.At c o .up) (hidle : c ∉ (s.loops o.ioLoop).active)
    (h : (s.inLoop o).ClosesOnce r) :
    Fine (run (perform c o.ioLoop) (s.store c o r) r.effects) := by
  have hopen : o.destroyed = false := Bool.eq_false_iff.mpr fun hd => nomatch hat.destroyed.mp hd
  obtain ⟨-, mask, hmask⟩ := hat.shows
  have hmask' := h.listening mask hmask
  have hmem : c ∈ (s.store c o r).connectionsSet := hat.member.mpr rfl
  have hperform : run (perform c o.ioLoop) (s.store c o r) [.closeCallBack] =
      .ok ((s.store c o r).afterClose c { o with conn := r.conn }) :=
    run_cons_ok.mpr ⟨_, perform_closeCallBack (o := { o with conn := r.conn })
      (store_conns s c o r) hmem, rfl⟩
  rw [h.effects]
  change Fine (run (perform c o.ioLoop) (s.store c o r) [.closeCallBack])
  rw [hperform]
  have hstage : afterCloseStage { o with conn := r.conn } = .closed ∨
      afterCloseStage { o with conn := r.conn } = .removed := by
    simp only [afterCloseStage]
    split
    · exact .inr rfl
    · exact .inl rfl
  have hgone : afterCloseStage { o with conn := r.conn } ≠ .gone := by
    rcases hstage with hstage | hstage <;> rw [hstage] <;> exact nofun
  have hat' : ((s.store c o r).afterClose c { o with conn := r.conn }).At c
      { o with conn := r.conn } (afterCloseStage { o with conn := r.conn }) :=
    { address := h.frame.address.trans hat.address
      bound := by
        obtain ⟨hr, hw, he, hcl⟩ := hat.bound.frame h.frame
        exact ⟨hr, hw, he, hcl⟩
      shows := by
        have hshows : Stage.closed.Shows ⟨r.poller, r.conn, []⟩ := ⟨h.down, h.events, hmask'⟩
        rw [inLoop, afterClose_poller, store_poller]
        rcases hstage with hstage | hstage <;> rw [hstage] <;> exact hshows
      member := afterClose_member _ hmem
      closes := afterClose_closes _ hat.closes
      owed := fun l f hf hforce => by
        rw [afterClose_jobs _ _ _ hf, store_jobs, hat.owed l f hf hforce,
          Stage.due_of_none (c := c) rfl hf, ite_self, Nat.zero_add]
      forced := fun l hl => by
        have hhome : l ≠ (Functor.forceCloseInLoop c).home o.ioLoop := hl
        rw [afterClose_jobs _ _ l (c := c) rfl, store_jobs, hat.forced l hl, if_neg hhome]
      destroyed := by simp only [hopen, Bool.false_eq_true, false_iff]; exact hgone }
  refine .ok (hs.of_own_poller ((store_touches s c o r).trans (afterClose_touches _ c _)) hc hopen
    ?_ hat' (fun l hl => ?_) ?_ rfl h.frame.fd (fun a ha => ?_) fun l hl => ?_)
  · rw [afterClose_conns, store_conns]
  · rw [afterClose_poller, store_poller_of_ne s c r hl]
  · rw [afterClose_poller, store_poller]
    exact h.frame.poller
  · have hfd : r.conn.channel.fd = o.conn.channel.fd := h.frame.fd
    rw [afterClose_poller, store_poller, ← hfd, hmask'.1] at ha
    exact ⟨(Option.some.inj ha).symm.trans (h.frame.address.trans hat.address), hopen⟩
  · obtain ⟨o₁, h₁, hl₁, -⟩ := hs.active l c hl
    cases hc.symm.trans h₁
    rw [← hl₁] at hl
    exact absurd hl hidle

/-- What is left of the functors of a connection when the one that carries it
on is called. -/
theorem At.owed_after {s s₁ : TcpServer} {c : Nat} {o : Owned} {stage : Stage} {g : Functor}
    (hat : s.At c o stage) (hnext : stage.next c = some g)
    (hjobs : ∀ l f, s.jobs l f = s₁.jobs l f + if l = g.home o.ioLoop ∧ g = f then 1 else 0) :
    (∀ l f, f.subject = c → f ≠ .forceCloseInLoop c → s₁.jobs l f = 0) ∧
      (∀ l, s₁.jobs l (.forceCloseInLoop c) = s.jobs l (.forceCloseInLoop c)) ∧
      ∀ l f, f.subject ≠ c → s₁.jobs l f = s.jobs l f := by
  have hg : g.subject = c ∧ g ≠ .forceCloseInLoop c := by
    cases stage <;> cases hnext <;> exact ⟨rfl, nofun⟩
  refine ⟨fun l f hf hforce => ?_, fun l => ?_, fun l f hf => ?_⟩
  · have howed := hat.owed l f hf hforce
    rw [hjobs, Stage.due_of_next hnext hf] at howed
    omega
  · rw [hjobs, if_neg fun heq => hg.2 heq.2, Nat.add_zero]
  · rw [hjobs, if_neg fun heq => hf (by rw [← heq.2, hg.1]), Nat.add_zero]

/-- removeConnectionInLoop, called by the base loop. -/
theorem removes_fine {s s₁ : TcpServer} {c : Nat} {o : Owned} (hs : s.Sound)
    (hc : s.conns c = some o) (hat : s.At c o .closed) (hqueues : s.QueuesOnly s₁)
    (hjobs : ∀ l f, s.jobs l f = s₁.jobs l f +
      if l = baseLoop ∧ .removeConnectionInLoop c = f then 1 else 0) :
    Fine (s₁.removeConnectionInLoop c) := by
  obtain ⟨howed, hforced, hothers⟩ := hat.owed_after (g := .removeConnectionInLoop c) rfl hjobs
  have hmem : c ∈ s₁.connectionsSet := by
    rw [hqueues.set]
    exact hat.member.mpr rfl
  have hc₁ : s₁.conns c = some o := by rw [hqueues.conns, hc]
  have hopen : o.destroyed = false := Bool.eq_false_iff.mpr fun hd => nomatch hat.destroyed.mp hd
  rw [removeConnectionInLoop_eq hc₁ hmem]
  have hlast := queueInLoop_queuesOnly
    { s₁ with connectionsSet := s₁.connectionsSet.erase c } o.ioLoop (.connectDestroyed c)
  have hpoller (l : Nat) := (hlast.poller l).trans (hqueues.poller l)
  have hat' : (({ s₁ with connectionsSet := s₁.connectionsSet.erase c } : TcpServer).queueInLoop
      o.ioLoop (.connectDestroyed c)).At c o .removed :=
    { address := hat.address
      bound := ⟨hat.bound.read, hat.bound.write, hat.bound.error, hat.bound.close⟩
      shows := by
        rw [inLoop, hpoller]
        exact hat.shows
      member := by simp [queueInLoop, setLoop, Stage.inSet]
      closes := by
        change s₁.closeCallBacks c = _
        rw [hqueues.closes, hat.closes]
        rfl
      owed := fun l f hf hforce => by
        rw [queueInLoop_jobs, ← Stage.due_of_next (c := c) rfl hf]
        change s₁.jobs l f + _ = _
        rw [howed l f hf hforce, Nat.zero_add]
        rfl
      forced := fun l hl => by
        rw [queueInLoop_jobs, if_neg fun heq => hl heq.1, Nat.add_zero]
        exact (hforced l).trans (hat.forced l hl)
      destroyed := by simp only [hopen, Bool.false_eq_true, reduceCtorEq] }
  have htouches : s₁.Touches c (({ s₁ with
      connectionsSet := s₁.connectionsSet.erase c } : TcpServer).queueInLoop o.ioLoop
        (.connectDestroyed c)) := by
    refine Touches.trans (t := { s₁ with connectionsSet := s₁.connectionsSet.erase c }) ?_
      (hlast.touches fun l f hf => ?_)
    · exact ⟨fun _ _ => rfl, fun _ hne => by simp [hne], fun _ _ => rfl, fun _ _ _ => rfl,
        fun _ => rfl⟩
    · rw [queueInLoop_jobs, if_neg fun heq => hf (by rw [← heq.2]; rfl), Nat.add_zero]
  refine .ok (hs.of_same_pollers ((hqueues.touches hothers).trans htouches) hc hc₁ hat' hpoller
    rfl rfl rfl fun l hl => ?_)
  obtain ⟨o₁, h₁, hdispatch⟩ := hs.active l c hl
  cases hc.symm.trans h₁
  exact hdispatch

/-- connectDestroyed, called by the io loop. -/
theorem destroys_fine {s s₁ : TcpServer} {c : Nat} {o : Owned} (hs : s.Sound)
    (hc : s.conns c = some o) (hat : s.At c o .removed) (hidle : c ∉ (s.loops o.ioLoop).active)
    (hqueues : s.QueuesOnly s₁)
    (hjobs : ∀ l f, s.jobs l f = s₁.jobs l f +
      if l = o.ioLoop ∧ .connectDestroyed c = f then 1 else 0) (calls : List UserCall) :
    Fine (s₁.call calls (.connectDestroyed c)) := by
  obtain ⟨howed, hforced, hothers⟩ := hat.owed_after (g := .connectDestroyed c) rfl hjobs
  have hopen : o.destroyed = false := Bool.eq_false_iff.mpr fun hd => nomatch hat.destroyed.mp hd
  have hc₁ : s₁.conns c = some o := by rw [hqueues.conns, hc]
  obtain ⟨hdown, hevents, hlistening⟩ := hat.shows
  have hlistening₁ : (s₁.inLoop o).Listening kNoneEvent := by
    rw [inLoop, hqueues.poller]
    exact hlistening
  obtain ⟨p', hdestroyed, hsame, habsent⟩ :=
    InLoop.connectDestroyed_ok (s := s₁.inLoop o) hdown hevents hlistening₁
  let r : InLoop := ⟨p', { o.conn with channel := { o.conn.channel with addedToLoop := false } },
    []⟩
  have hcall : s₁.call calls (.connectDestroyed c) = .ok ((s₁.store c o r).setConn c
      { o with conn := r.conn, destroyed := true }) := by
    have hexecute : s₁.execute c InLoop.connectDestroyed = .ok (s₁.store c o r) := by
      simp only [execute, hc₁, hdestroyed, ok_bind]
      rfl
    simp only [call, hexecute, ok_bind, store_conns]
    rfl
  rw [hcall]
  have htouches : (s₁.store c o r).Touches c ((s₁.store c o r).setConn c
      { o with conn := r.conn, destroyed := true }) :=
    ⟨fun _ hne => Function.update_of_ne hne _ _, fun _ _ => Iff.rfl, fun _ _ => rfl,
      fun _ _ _ => rfl, fun _ => rfl⟩
  have hat' : ((s₁.store c o r).setConn c { o with conn := r.conn, destroyed := true }).At c
      { o with conn := r.conn, destroyed := true } .gone :=
    { address := hat.address
      bound := ⟨hat.bound.read, hat.bound.write, hat.bound.error, hat.bound.close⟩
      shows := hdown
      member := by
        change c ∈ s₁.connectionsSet ↔ _
        rw [hqueues.set, hat.member]
        rfl
      closes := by
        change s₁.closeCallBacks c = _
        rw [hqueues.closes, hat.closes]
        rfl
      owed := fun l f hf hforce => by
        rw [Stage.due_of_none (c := c) rfl hf, ite_self]
        exact (store_jobs s₁ c o r l f).trans (howed l f hf hforce)
      forced := fun l hl => (store_jobs s₁ c o r l _).trans ((hforced l).trans (hat.forced l hl))
      destroyed := by simp only }
  refine .ok (hs.of_own_poller (((hqueues.touches hothers).trans (store_touches s₁ c o r)).trans
    htouches) hc hopen (Function.update_self _ _ _) hat' (fun l hl => ?_) ?_ rfl rfl
    (fun a ha => ?_) fun l hl => ?_)
  · exact (store_poller_of_ne s₁ c r hl).trans (hqueues.poller l)
  · change (s.loops o.ioLoop).poller.SameBut _ ((s₁.store c o r).loops o.ioLoop).poller
    rw [store_poller, ← hqueues.poller]
    exact hsame
  · change ((s₁.store c o r).loops o.ioLoop).poller.channels o.conn.channel.fd = some a at ha
    rw [store_poller] at ha
    exact absurd (habsent.symm.trans ha) nofun
  · obtain ⟨o₁, h₁, hl₁, -⟩ := hs.active l c hl
    cases hc.symm.trans h₁
    rw [← hl₁] at hl
    exact absurd hl hidle

/-- A call that reaches the input buffer at most. -/
theorem input_fine {s : TcpServer} {c : Nat} {o : Owned} (hs : s.Sound) (hc : s.conns c = some o)
    (b : Buffer) :
    Fine (run (perform c o.ioLoop) (s.store c o ((s.inLoop o).setInput b)) []) := by
  obtain ⟨stage, hat⟩ := hs.staged c o hc
  have hpoller (l : Nat) : ((s.store c o ((s.inLoop o).setInput b)).loops l).poller =
      (s.loops l).poller := by
    by_cases hl : l = o.ioLoop
    · rw [hl, store_poller]
      rfl
    · exact store_poller_of_ne s c _ hl
  have hat' : (s.store c o ((s.inLoop o).setInput b)).At c
      { o with conn := { o.conn with inputBuffer := b } } stage :=
    { address := hat.address
      bound := ⟨hat.bound.read, hat.bound.write, hat.bound.error, hat.bound.close⟩
      shows := by
        have hshows := hat.shows
        rw [inLoop, hpoller]
        cases stage <;> exact hshows
      member := hat.member
      closes := hat.closes
      owed := fun l f hf hforce => (store_jobs s c o _ l f).trans (hat.owed l f hf hforce)
      forced := fun l hl => (store_jobs s c o _ l _).trans (hat.forced l hl)
      destroyed := hat.destroyed }
  refine .ok (hs.of_same_pollers (store_touches s c o _) hc (store_conns s c o _) hat' hpoller rfl
    rfl rfl fun l hl => ?_)
  obtain ⟨o₁, h₁, hdispatch⟩ := hs.active l c hl
  cases hc.symm.trans h₁
  exact hdispatch

end TcpServer
end TAlib
