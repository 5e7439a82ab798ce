import TAlib.Tcp.StageSteps

/-!
The teardown of a connection happens once, in every interleaving of the loops,
as long as no event hangs up a connection that is already closed.
-/

namespace TAlib

open Foundation

namespace TcpServer

/-- A change of the order of work only. -/
theorem Sound.rescheduled {s s' : TcpServer} (hs : s.Sound) (hconns : s'.conns = s.conns)
    (hset : s'.connectionsSet = s.connectionsSet) (hcloses : s'.closeCallBacks = s.closeCallBacks)
    (hpoller : ∀ l, (s'.loops l).poller = (s.loops l).poller)
    (hjobs : ∀ l f, s'.jobs l f = s.jobs l f)
    (hactive : ∀ l c, c ∈ (s'.loops l).active → ∃ o, s.conns c = some o ∧ Dispatchable l o)
    (hnodup : ∀ l, (s'.loops l).active.Nodup) : s'.Sound where
  staged c o hc := by
    rw [hconns] at hc
    obtain ⟨stage, hat⟩ := hs.staged c o hc
    have hpoll : s.SamePoll s' o := by
      rw [SamePoll, hpoller]
      exact ⟨rfl, rfl⟩
    exact ⟨stage,
      { address := hat.address
        bound := ⟨hat.bound.read, hat.bound.write, hat.bound.error, hat.bound.close⟩
        shows := shows_of_samePoll hat.shows fun _ => hpoll
        member := by rw [hset]; exact hat.member
        closes := by rw [hcloses]; exact hat.closes
        owed := fun l f hf hforce => (hjobs l f).trans (hat.owed l f hf hforce)
        forced := fun l hl => (hjobs l _).trans (hat.forced l hl)
        destroyed := hat.destroyed }⟩
  fresh c hc := by
    rw [hconns] at hc
    rw [hset, hcloses]
    obtain ⟨hmem, hzero, hnone⟩ := hs.fresh c hc
    exact ⟨hmem, hzero, fun l f hf => (hjobs l f).trans (hnone l f hf)⟩
  apart := by
    rw [hconns]
    exact hs.apart
  registered l fd c h := by
    rw [hpoller] at h
    rw [hconns]
    exact hs.registered l fd c h
  active := by
    rw [hconns]
    exact hactive
  nodup := hnodup

/-- The loop `l` gets a new list of active channels. -/
theorem setPhase_dispatching_sound {s : TcpServer} {l : Nat} {active : List Nat} (hs : s.Sound)
    (hfunctors : (s.loops l).functors = [])
    (hactive : ∀ c, c ∈ active → ∃ o, s.conns c = some o ∧ Dispatchable l o)
    (hnodup : active.Nodup) : (s.setPhase l (.dispatching active)).Sound := by
  refine hs.rescheduled rfl rfl rfl (setPhase_poller s l _) (fun l' f => ?_) (fun l' c hc => ?_)
    fun l' => ?_
  · by_cases hl : l' = l
    · subst hl
      simp only [jobs, setPhase, setLoop, Function.update_self, EventLoop.jobs, hfunctors]
      rfl
    · simp only [jobs, setPhase, setLoop, Function.update_of_ne hl]
  · by_cases hl : l' = l
    · subst hl
      simp only [setPhase, setLoop, Function.update_self] at hc
      exact hactive c hc
    · simp only [setPhase, setLoop, Function.update_of_ne hl] at hc
      exact hs.active l' c hc
  · by_cases hl : l' = l
    · subst hl
      simp only [setPhase, setLoop, Function.update_self]
      exact hnodup
    · simp only [setPhase, setLoop, Function.update_of_ne hl]
      exact hs.nodup l'

/-- connectEstablished, called by the io loop. -/
theorem establishes_fine {s s₁ : TcpServer} {c : Nat} {o : Owned} (hs : s.Sound)
    (hc : s.conns c = some o) (hat : s.At c o .created) (hqueues : s.QueuesOnly s₁)
    (hjobs : ∀ l f, s.jobs l f = s₁.jobs l f +
      if l = o.ioLoop ∧ .connectEstablished c = f then 1 else 0) (calls : List UserCall) :
    Fine (s₁.execute c (·.connectEstablished calls)) := by
  obtain ⟨howed, hforced, hothers⟩ := hat.owed_after (g := .connectEstablished c) rfl hjobs
  have hc₁ : s₁.conns c = some o := by rw [hqueues.conns, hc]
  refine execute_fine hc₁ (fun e he => InLoop.connectEstablished_avoids he _ calls) fun r hr => ?_
  have hfree : (s₁.inLoop o).poller.interest o.conn.channel.fd = none := by
    rw [inLoop, hqueues.poller]
    exact hat.shows.2.2
  obtain ⟨hcontinues, hlistening⟩ := InLoop.connectEstablished_ok (s := s₁.inLoop o)
    hat.shows.2.1 hfree hr
  exact continues_fine hs hc hat hqueues (.inl rfl) hothers howed hforced hcontinues hlistening

/-- The server with a connection that has just been accepted. -/
def accepted (s : TcpServer) (c l : Nat) (conn : TcpConnection) : TcpServer :=
  { s.setConn c ⟨l, conn, false⟩ with connectionsSet := insert c s.connectionsSet }

theorem accepted_sound {s : TcpServer} {c sockfd l : Nat} {calls : List UserCall}
    {conn : TcpConnection} (hs : s.Sound) (henabled : s.Enabled (.newConnetion c sockfd l calls))
    (hnew : TcpConnection.new c sockfd = .ok conn) :
    ((s.accepted c l conn).queueInLoop l (.connectEstablished c)).Sound ∧
      ((s.accepted c l conn).queueInLoop l (.connectEstablished c)).At c ⟨l, conn, false⟩
        .created := by
  obtain ⟨hunused, hfree, hapart⟩ := henabled
  obtain ⟨hstate, -, hchannel, -⟩ := InLoop.new_ok hnew
  obtain ⟨hmem, hcloses, hjobs⟩ := hs.fresh c hunused
  have hqueues := queueInLoop_queuesOnly (s.accepted c l conn) l (.connectEstablished c)
  have hpoller (l' : Nat) : (((s.accepted c l conn).queueInLoop l (.connectEstablished c)).loops
      l').poller = (s.loops l').poller := hqueues.poller l'
  have hconn : ((s.accepted c l conn).queueInLoop l (.connectEstablished c)).conns c =
      some ⟨l, conn, false⟩ := Function.update_self _ _ _
  have htouches : s.Touches c ((s.accepted c l conn).queueInLoop l (.connectEstablished c)) := by
    refine Touches.trans (t := s.accepted c l conn) ?_ (hqueues.touches fun l' f hf => ?_)
    · exact ⟨fun _ hne => Function.update_of_ne hne _ _, fun _ hne => by simp [accepted, hne],
        fun _ _ => rfl, fun _ _ _ => rfl, fun _ => rfl⟩
    · rw [queueInLoop_jobs, if_neg fun heq => hf (by rw [← heq.2]; rfl), Nat.add_zero]
  have hat : ((s.accepted c l conn).queueInLoop l (.connectEstablished c)).At c ⟨l, conn, false⟩
      .created :=
    { address := by rw [hchannel]
      bound := ⟨by rw [inLoop, hchannel], by rw [inLoop, hchannel], by rw [inLoop, hchannel],
        by rw [inLoop, hchannel]⟩
      shows := by
        rw [inLoop, hpoller]
        refine ⟨hstate, ?_, ?_⟩
        · rw [hchannel]
          exact show (-1 : Int) < 0 by decide
        · rw [hchannel]
          exact hfree
      member := by simp [accepted, queueInLoop, setLoop, Stage.inSet]
      closes := hcloses
      owed := fun l' f hf _ => by
        rw [queueInLoop_jobs, ← Stage.due_of_next (c := c) rfl hf]
        change s.jobs l' f + _ = _
        rw [hjobs l' f hf, Nat.zero_add]
        rfl
      forced := fun l' _ => by
        rw [queueInLoop_jobs, if_neg fun heq => Functor.noConfusion heq.2, Nat.add_zero]
        exact hjobs l' _ rfl
      destroyed := by simp only [Bool.false_eq_true, reduceCtorEq] }
  refine ⟨hs.of_touches htouches hconn hat (fun c₁ o₁ _ _ _ => ?_) (fun c₁ o₁ _ h₁ _ hd₁ => ?_)
    (fun l' fd a ha => ?_) (fun l' hl' => ?_), hat⟩
  · rw [SamePoll, hpoller]
    exact ⟨rfl, rfl⟩
  · rw [hchannel]
    exact (hapart c₁ o₁ h₁ hd₁).symm
  · rw [hpoller] at ha
    obtain ⟨o₁, h₁, hrest⟩ := hs.registered l' fd a ha
    have hne : a ≠ c := by
      intro heq
      rw [heq, hunused] at h₁
      cases h₁
    exact ⟨o₁, (htouches.conns a hne).trans h₁, hrest⟩
  · obtain ⟨o₁, h₁, -⟩ := hs.active l' c hl'
    rw [hunused] at h₁
    cases h₁

theorem newConnetion_fine {s : TcpServer} {c sockfd l : Nat} {calls : List UserCall}
    (hs : s.Sound) (henabled : s.Enabled (.newConnetion c sockfd l calls)) :
    Fine (s.newConnetion c sockfd l calls) := by
  have hnew_avoids (e : Fault) (he : e.ofTeardown = true) : Avoids e (TcpConnection.new c sockfd) :=
    (Buffer.new_avoids (Fault.ofBuffer_of_teardown he) _).bind fun _ _ =>
      (Buffer.new_avoids (Fault.ofBuffer_of_teardown he) _).bind fun _ _ => .ok e _
  have hrest (conn : TcpConnection) (hnew : TcpConnection.new c sockfd = .ok conn) :
      Fine (if l = baseLoop then (s.accepted c l conn).execute c (·.connectEstablished calls)
        else .ok ((s.accepted c l conn).queueInLoop l (.connectEstablished c))) := by
    obtain ⟨hsound, hat⟩ := accepted_sound hs henabled hnew
    split
    · -- the call that runInLoop makes at once is one that need not be queued
      have hqueues := queueInLoop_queuesOnly (s.accepted c l conn) l (.connectEstablished c)
      have hback : ((s.accepted c l conn).queueInLoop l (.connectEstablished c)).QueuesOnly
          (s.accepted c l conn) :=
        ⟨rfl, rfl, rfl, fun l' => (hqueues.poller l').symm, fun l' => (hqueues.active l').symm⟩
      exact establishes_fine hsound (Function.update_self _ _ _) hat hback
        (fun l' f => queueInLoop_jobs _ _ _ _ _) calls
    · exact .ok hsound
  refine ⟨fun e he => (hnew_avoids e he).bind fun conn hnew => (hrest conn hnew).avoids e he,
    fun s' h => ?_⟩
  obtain ⟨conn, hnew, h⟩ := bind_eq_ok.mp h
  exact (hrest conn hnew).sound s' h

/-- The events of a poll are stored in a channel. -/
theorem setRevents_sound {s : TcpServer} {c : Nat} {o : Owned} (hs : s.Sound)
    (hc : s.conns c = some o) (hidle : c ∉ (s.loops o.ioLoop).active) (ev : Events) :
    (s.setConn c { o with conn := { o.conn with
      channel := o.conn.channel.setRevents ev } }).Sound := by
  obtain ⟨stage, hat⟩ := hs.staged c o hc
  have htouches : s.Touches c (s.setConn c { o with conn := { o.conn with
      channel := o.conn.channel.setRevents ev } }) :=
    ⟨fun _ hne => Function.update_of_ne hne _ _, fun _ _ => Iff.rfl, fun _ _ => rfl,
      fun _ _ _ => rfl, fun _ => rfl⟩
  have hshows := hat.shows
  have hat' : At (s.setConn c { o with conn := { o.conn with
      channel := o.conn.channel.setRevents ev } }) c { o with conn := { o.conn with
      channel := o.conn.channel.setRevents ev } } stage :=
    { address := hat.address
      bound := ⟨hat.bound.read, hat.bound.write, hat.bound.error, hat.bound.close⟩
      shows := by cases stage <;> exact hshows
      member := hat.member
      closes := hat.closes
      owed := hat.owed
      forced := hat.forced
      destroyed := hat.destroyed }
  refine hs.of_same_pollers htouches hc (Function.update_self _ _ _) hat' (fun _ => rfl) rfl rfl rfl
    fun l hl => ?_
  obtain ⟨o₁, h₁, hl₁, -⟩ := hs.active l c hl
  cases hc.symm.trans h₁
  rw [← hl₁] at hl
  exact absurd hl hidle

/-- What the kernel can report for a connection. -/
theorem reportable_dispatchable {s : TcpServer} {l fd c : Nat} {o : Owned} {ev : Events}
    (hs : s.Sound) (hchannel : (s.loops l).poller.channels fd = some c) (hc : s.conns c = some o)
    (hreport : Reportable (s.loops l).poller fd ev) :
    o.conn.channel.fd = fd ∧ Dispatchable l { o with conn := { o.conn with
      channel := o.conn.channel.setRevents ev } } := by
  obtain ⟨o₁, h₁, hl, hfd, hopen⟩ := hs.registered l fd c hchannel
  cases hc.symm.trans h₁
  obtain ⟨stage, hat⟩ := hs.staged c o hc
  obtain ⟨-, mask, hmask, hev⟩ := hreport
  have hinterest : (s.inLoop o).poller.interest o.conn.channel.fd = some mask := by
    rw [inLoop, hl, hfd, hmask]
  have hclosed (hdown : o.conn.state = .kDisConnected)
      (hlistening : (s.inLoop o).Listening kNoneEvent) : Dispatchable l { o with conn :=
        { o.conn with channel := o.conn.channel.setRevents ev } } := by
    refine ⟨hl, hopen, ?_, fun _ => ?_⟩
    · simp only [hdown, ne_eq, reduceCtorEq, not_false_eq_true]
    · cases hinterest.symm.trans hlistening.2
      exact not_meets_of_within hev (by decide)
  refine ⟨hfd, ?_⟩
  cases stage with
  | created => cases hinterest.symm.trans hat.shows.2.2
  | up =>
      have hlive : (s.inLoop o).isLive = true := hat.shows.1
      refine ⟨hl, hopen, ?_, fun hdown => absurd hdown (InLoop.not_down_of_live hlive)⟩
      have hstates : o.conn.state = .kConnected ∨ o.conn.state = .kDisConnecting :=
        (InLoop.isLive_iff _).mp hlive
      cases hstates with
      | inl h => simp [h]
      | inr h => simp [h]
  | closed => exact hclosed hat.shows.1 hat.shows.2.2
  | removed => exact hclosed hat.shows.1 hat.shows.2.2
  | gone =>
      rw [hat.destroyed.mpr rfl] at hopen
      cases hopen

/-- fillActiveChannels on what the kernel reported. -/
theorem fillActiveChannels_ok {l : Nat} {ready : List (Nat × Events)} {s s' : TcpServer}
    {active : List Nat} (hs : s.Sound) (hidle : (s.loops l).active = [])
    (hnodup : (ready.map Prod.fst).Nodup)
    (hreport : ∀ report ∈ ready, Reportable (s.loops l).poller report.1 report.2)
    (h : fillActiveChannels l s ready = .ok (s', active)) :
    s'.Sound ∧ s'.loops = s.loops ∧ active.Nodup ∧
      (∀ c, c ∈ active → ∃ o, s'.conns c = some o ∧ Dispatchable l o ∧
        o.conn.channel.fd ∈ ready.map Prod.fst) ∧
      ∀ c o, s.conns c = some o → o.conn.channel.fd ∉ ready.map Prod.fst → s'.conns c = some o := by
  induction ready generalizing s active with
  | nil =>
      cases h
      exact ⟨hs, rfl, List.nodup_nil, nofun, fun _ _ hc _ => hc⟩
  | cons entry rest ih =>
      obtain ⟨fd, ev⟩ := entry
      simp only [fillActiveChannels, bind_eq_ok, require_eq_ok] at h
      obtain ⟨_, -, h⟩ := h
      split at h
      · cases h
      · rename_i c hchannel
        split at h
        · cases h
        · rename_i o hc
          simp only [bind_eq_ok, require_eq_ok] at h
          obtain ⟨_, -, ⟨t, act⟩, hrest, h⟩ := h
          obtain ⟨rfl, rfl⟩ := Prod.mk.inj (Except.ok.inj h)
          obtain ⟨hfd, hdispatch⟩ := reportable_dispatchable hs hchannel hc
            (hreport (fd, ev) List.mem_cons_self)
          have hnot : c ∉ (s.loops o.ioLoop).active := by
            rw [show o.ioLoop = l from hdispatch.1, hidle]
            exact List.not_mem_nil
          rw [List.map_cons, List.nodup_cons] at hnodup
          obtain ⟨hsound, hloops, hact, hdispatchable, hothers⟩ := ih
            (setRevents_sound hs hc hnot ev) hidle hnodup.2
            (fun report hmem => hreport report (List.mem_cons_of_mem _ hmem)) hrest
          have hself : t.conns c = some { o with conn := { o.conn with
              channel := o.conn.channel.setRevents ev } } :=
            hothers c _ (Function.update_self _ _ _) (by rw [← hfd] at hnodup; exact hnodup.1)
          refine ⟨hsound, hloops, ?_, fun c' hc' => ?_, fun c' o' h' hnotin => ?_⟩
          · refine List.nodup_cons.mpr ⟨fun hmem => ?_, hact⟩
            obtain ⟨o₁, h₁, -, hfd₁⟩ := hdispatchable c hmem
            cases hself.symm.trans h₁
            rw [← hfd] at hnodup
            exact hnodup.1 hfd₁
          · rw [List.map_cons]
            cases List.mem_cons.mp hc' with
            | inl heq =>
                rw [heq]
                exact ⟨_, hself, hdispatch, List.mem_cons.mpr (.inl hfd)⟩
            | inr hmem =>
                obtain ⟨o₁, h₁, hd₁, hfd₁⟩ := hdispatchable c' hmem
                exact ⟨o₁, h₁, hd₁, List.mem_cons_of_mem _ hfd₁⟩
          · rw [List.map_cons, List.mem_cons, not_or] at hnotin
            refine hothers c' o' ?_ hnotin.2
            have hne : c' ≠ c := by
              intro heq
              rw [heq] at h'
              cases hc.symm.trans h'
              exact hnotin.1 hfd
            exact (Function.update_of_ne hne _ _).trans h'

theorem fillActiveChannels_avoids {e : Fault} (he : e.ofTeardown = true) (l : Nat) (s : TcpServer)
    (ready : List (Nat × Events)) : Avoids e (fillActiveChannels l s ready) := by
  induction ready generalizing s with
  | nil => exact .ok e _
  | cons entry rest ih =>
      simp only [fillActiveChannels]
      refine (require_avoids (InLoop.ne_of_ofTeardown he rfl)).bind fun _ _ => ?_
      split
      · exact .error (InLoop.ne_of_ofTeardown he rfl)
      · split
        · exact .error (InLoop.ne_of_ofTeardown he rfl)
        · refine (require_avoids (InLoop.ne_of_ofTeardown he rfl)).bind fun _ _ => ?_
          exact (ih _).bind fun _ _ => .ok e _

theorem poll_fine {s : TcpServer} {l : Nat} {ready : List (Nat × Events)} (hs : s.Sound)
    (henabled : s.Enabled (.poll l ready)) : Fine (s.poll l ready) := by
  obtain ⟨hphase, hnodup, hreport⟩ := henabled
  refine ⟨fun e he => (fillActiveChannels_avoids he l s _).bind fun _ _ => .ok e _, fun s' h => ?_⟩
  simp only [poll, bind_eq_ok] at h
  obtain ⟨⟨t, active⟩, hfill, h⟩ := h
  cases h
  have hidle : (s.loops l).active = [] := by simp only [EventLoop.active, hphase]
  obtain ⟨hsound, hloops, hact, hdispatchable, -⟩ := fillActiveChannels_ok hs hidle
    (by rw [List.map_take]; exact hnodup.sublist (List.take_sublist _ _))
    (fun report hmem => hreport report (List.mem_of_mem_take hmem)) hfill
  refine setPhase_dispatching_sound hsound ?_ (fun c hc => ?_) hact
  · rw [hloops, EventLoop.functors, hphase]
  · obtain ⟨o, ho, hd, -⟩ := hdispatchable c hc
    exact ⟨o, ho, hd⟩

/-- An operation of a connection that is up leaves it up or closes it. -/
theorem up_fine {s : TcpServer} {c : Nat} {o : Owned} {r : InLoop} (hs : s.Sound)
    (hc : s.conns c = some o) (hat : s.At c o .up)
    (h : (s.inLoop o).Continues r ∨ (c ∉ (s.loops o.ioLoop).active ∧ (s.inLoop o).ClosesOnce r)) :
    Fine (run (perform c o.ioLoop) (s.store c o r) r.effects) := by
  cases h with
  | inl h =>
      obtain ⟨-, mask, hmask⟩ := hat.shows
      refine continues_fine hs hc hat ⟨rfl, rfl, rfl, fun _ => rfl, fun _ => rfl⟩ (.inr rfl)
        (fun _ _ _ => rfl) (fun l f hf hforce => ?_) (fun _ => rfl) h (h.frame.listening mask hmask)
      rw [hat.owed l f hf hforce, Stage.due_of_none (c := c) rfl hf, ite_self]
  | inr h => exact closes_fine hs hc hat h.1 h.2

theorem At.not_live {s : TcpServer} {c : Nat} {o : Owned} {stage : Stage} (h : s.At c o stage)
    (hstage : stage ≠ .up) : (s.inLoop o).isLive = false := by
  have hshows := h.shows
  cases stage with
  | created => simp [InLoop.isLive, hshows.1]
  | up => exact absurd rfl hstage
  | closed => simp [InLoop.isLive, hshows.1]
  | removed => simp [InLoop.isLive, hshows.1]
  | gone =>
      have hdown : (s.inLoop o).conn.state = .kDisConnected := hshows
      simp [InLoop.isLive, hdown]

theorem user_fine {s : TcpServer} {c : Nat} {o : Owned} (hs : s.Sound) (hc : s.conns c = some o)
    (call : UserCall) : Fine (s.execute c (·.userCall call)) := by
  obtain ⟨stage, hat⟩ := hs.staged c o hc
  refine execute_fine hc (fun e he => InLoop.userCall_avoids he _ call) fun r hr => ?_
  by_cases hup : stage = .up
  · subst hup
    obtain ⟨hframe, hlive, heffects⟩ := InLoop.userCall_live hat.shows.1 hr
    exact up_fine hs hc hat (.inl ⟨hframe, hlive, heffects⟩)
  · obtain ⟨b, rfl⟩ := InLoop.userCall_idle (hat.not_live hup) hr
    exact input_fine hs hc b

/-- The head of the active channels is dispatched in an orderly way. -/
def Orderly (s : TcpServer) : Step → Prop
  | .dispatch l answers => ∀ c rest o, (s.loops l).phase = .dispatching (c :: rest) →
      s.conns c = some o → (s.inLoop o).Orderly answers
  | _ => True

/-- The server when the next active channel is taken off the list, and what is
known of its connection. -/
theorem dispatch_next {s : TcpServer} {l c : Nat} {rest : List Nat} (hs : s.Sound)
    (hphase : (s.loops l).phase = .dispatching (c :: rest)) :
    (s.setPhase l (.dispatching rest)).Sound ∧ ∃ o, s.conns c = some o ∧ Dispatchable l o ∧
      c ∉ ((s.setPhase l (.dispatching rest)).loops o.ioLoop).active ∧
      (s.setPhase l (.dispatching rest)).inLoop o = s.inLoop o := by
  have hactive : (s.loops l).active = c :: rest := by simp only [EventLoop.active, hphase]
  have hnodup := hs.nodup l
  rw [hactive, List.nodup_cons] at hnodup
  obtain ⟨o, hc, hdispatch⟩ := hs.active l c (by rw [hactive]; exact List.mem_cons_self)
  refine ⟨setPhase_dispatching_sound hs ?_ (fun c' hc' => ?_) hnodup.2, o, hc, hdispatch, ?_, ?_⟩
  · simp only [EventLoop.functors, hphase]
  · exact hs.active l c' (by rw [hactive]; exact List.mem_cons_of_mem _ hc')
  · rw [hdispatch.1]
    simp only [setPhase, setLoop, Function.update_self]
    exact hnodup.1
  · simp only [inLoop, hdispatch.1, setPhase, setLoop, Function.update_self]

/-- A connection in the list of active channels is up or closed. -/
theorem At.of_dispatchable {s : TcpServer} {c l : Nat} {o : Owned} {stage : Stage}
    (h : s.At c o stage) (hd : Dispatchable l o) :
    stage = .up ∨ (stage ≠ .up ∧ o.conn.state = .kDisConnected) := by
  have hshows := h.shows
  cases stage with
  | created => exact absurd hshows.1 hd.2.2.1
  | up => exact .inl rfl
  | closed => exact .inr ⟨nofun, hshows.1⟩
  | removed => exact .inr ⟨nofun, hshows.1⟩
  | gone =>
      have hopen := hd.2.1
      rw [h.destroyed.mpr rfl] at hopen
      cases hopen

theorem dispatch_fine {s : TcpServer} {l c : Nat} {rest : List Nat} {answers : InLoop.Answers}
    (hs : s.Sound) (hphase : (s.loops l).phase = .dispatching (c :: rest))
    (horderly : s.Orderly (.dispatch l answers)) :
    Fine ((s.setPhase l (.dispatching rest)).execute c fun i =>
      i.handleEvent i.conn.channel.revents answers) := by
  obtain ⟨hsound, o, hc, hd, hidle, hsame⟩ := dispatch_next hs hphase
  have hc₁ : (s.setPhase l (.dispatching rest)).conns c = some o := hc
  obtain ⟨stage, hat⟩ := hsound.staged c o hc₁
  have horder : ((s.setPhase l (.dispatching rest)).inLoop o).Orderly answers := by
    rw [hsame]
    exact horderly c rest o hphase hc
  rcases hat.of_dispatchable hd with rfl | ⟨hstage, hdown⟩
  · have hlive := hat.shows.1
    refine execute_fine hc₁ (fun e he => ?_) fun r hr => ?_
    · exact InLoop.handleEvent_avoids he hat.bound (.inl hlive)
        (fun h => absurd h (InLoop.not_down_of_live hlive)) horder
    · exact up_fine hsound hc₁ hat ((InLoop.handleEvent_live hat.bound hlive hr).imp_right
        fun h => ⟨hidle, h⟩)
  · refine execute_fine hc₁ (fun e he => ?_) fun r hr => ?_
    · exact InLoop.handleEvent_avoids he hat.bound (.inr hdown) hd.2.2.2 horder
    · obtain ⟨-, rfl⟩ := InLoop.handleEvent_down hat.bound hdown (hd.2.2.2 hdown) hr
      exact input_fine hsound hc₁ o.conn.inputBuffer

/-- A functor that is called has its connection at the stage it carries on. -/
theorem functor_stage {s : TcpServer} {l : Nat} {f : Functor} {rest : List Functor} (hs : s.Sound)
    (hphase : (s.loops l).phase = .calling (f :: rest)) :
    ∃ o stage, s.conns f.subject = some o ∧ s.At f.subject o stage ∧ l = f.home o.ioLoop ∧
      (f ≠ .forceCloseInLoop f.subject → stage.next f.subject = some f) := by
  have hpositive : s.jobs l f ≠ 0 := by
    rw [(setPhase_calling hphase).2]
    simp
  cases hc : s.conns f.subject with
  | none => exact absurd ((hs.fresh _ hc).2.2 l f rfl) hpositive
  | some o =>
      obtain ⟨stage, hat⟩ := hs.staged _ o hc
      refine ⟨o, stage, rfl, hat, ?_⟩
      by_cases hforce : f = .forceCloseInLoop f.subject
      · refine ⟨?_, fun hne => absurd hforce hne⟩
        by_contra hl
        rw [hforce] at hpositive hl
        exact hpositive (hat.forced l hl)
      · rw [hat.owed l f rfl hforce] at hpositive
        by_cases hl : l = f.home o.ioLoop
        · refine ⟨hl, fun _ => ?_⟩
          rw [if_pos hl, Stage.due] at hpositive
          by_contra hnext
          exact hpositive (if_neg hnext)
        · exact absurd (if_neg hl) hpositive

/-- forceCloseInLoop, called by the io loop. -/
theorem forceCloses_fine {s s₁ : TcpServer} {c : Nat} {o : Owned} (hs : s.Sound)
    (hc : s.conns c = some o) (hidle : (s.loops o.ioLoop).active = []) (hqueues : s.QueuesOnly s₁)
    (hjobs : ∀ l f, s.jobs l f = s₁.jobs l f +
      if l = o.ioLoop ∧ .forceCloseInLoop c = f then 1 else 0) :
    Fine (s₁.execute c InLoop.forceCloseInLoop) := by
  have hsound : s₁.Sound := by
    refine hs.of_requests hc hqueues fun l f => ?_
    by_cases hf : l = o.ioLoop ∧ .forceCloseInLoop c = f
    · exact .inl ⟨hf.1, hf.2.symm⟩
    · refine .inr ?_
      rw [hjobs, if_neg hf, Nat.add_zero]
  have hc₁ : s₁.conns c = some o := by rw [hqueues.conns, hc]
  obtain ⟨stage, hat⟩ := hsound.staged c o hc₁
  refine execute_fine hc₁ (fun e he => ?_) fun r hr => ?_
  · exact Avoids.ite (fun hlive => InLoop.handleClose_avoids he hlive) fun _ => .ok e _
  · simp only [InLoop.forceCloseInLoop] at hr
    split at hr
    · rename_i hlive
      have hup : stage = .up := by
        by_contra hstage
        rw [hat.not_live hstage] at hlive
        cases hlive
      subst hup
      refine up_fine hsound hc₁ hat (.inr ⟨?_, InLoop.handleClose_closes hr⟩)
      rw [hqueues.active, hidle]
      exact List.not_mem_nil
    · cases hr
      exact input_fine hsound hc₁ o.conn.inputBuffer

theorem functor_fine {s : TcpServer} {l : Nat} {f : Functor} {rest : List Functor} (hs : s.Sound)
    (hphase : (s.loops l).phase = .calling (f :: rest)) (calls : List UserCall) :
    Fine ((s.setPhase l (.calling rest)).call calls f) := by
  obtain ⟨o, stage, hc, hat, hl, hnext⟩ := functor_stage hs hphase
  obtain ⟨hqueues, hjobs⟩ := setPhase_calling hphase
  have hidle : (s.loops l).active = [] := by simp only [EventLoop.active, hphase]
  subst hl
  cases f with
  | connectEstablished c =>
      have hstage : stage = .created := Stage.eq_of_next (hnext (by simp)) rfl
      subst hstage
      exact establishes_fine hs hc hat hqueues hjobs calls
  | forceCloseInLoop c => exact forceCloses_fine hs hc hidle hqueues hjobs
  | removeConnectionInLoop c =>
      have hstage : stage = .closed := Stage.eq_of_next (hnext (by simp)) rfl
      subst hstage
      exact removes_fine hs hc hat hqueues hjobs
  | connectDestroyed c =>
      have hstage : stage = .removed := Stage.eq_of_next (hnext (by simp)) rfl
      subst hstage
      refine destroys_fine hs hc hat ?_ hqueues hjobs calls
      exact hidle ▸ List.not_mem_nil

/-- An orderly step trips no assert of the teardown and leaves a sound server. -/
theorem step_fine {s : TcpServer} {a : Step} (hs : s.Sound) (henabled : s.Enabled a)
    (horderly : s.Orderly a) : Fine (s.step a) := by
  cases a with
  | newConnetion c sockfd l calls => exact newConnetion_fine hs henabled
  | poll l ready => exact poll_fine hs henabled
  | dispatch l answers =>
      simp only [step]
      split
      · rename_i c rest hphase
        exact dispatch_fine hs hphase horderly
      · exact .ok hs
  | doPendingFunctors l =>
      have hphase : (s.loops l).phase = .dispatching [] := henabled
      have hfunctors : (s.loops l).functors = [] := by simp only [EventLoop.functors, hphase]
      have hqueues : s.QueuesOnly (s.setLoop l (s.loops l).doPendingFunctors) := by
        refine setLoop_queuesOnly rfl ?_
        simp only [EventLoop.active, EventLoop.doPendingFunctors, hphase]
      refine .ok (hs.rescheduled rfl rfl rfl hqueues.poller (fun l' f => ?_) (fun l' c hc => ?_)
        fun l' => ?_)
      · by_cases hl : l' = l
        · subst hl
          simp only [jobs, setLoop, Function.update_self,
            EventLoop.doPendingFunctors_jobs hfunctors]
        · simp only [jobs, setLoop, Function.update_of_ne hl]
      · rw [hqueues.active] at hc
        exact hs.active l' c hc
      · rw [hqueues.active]
        exact hs.nodup l'
  | functor l calls =>
      simp only [step]
      split
      · rename_i f rest hphase
        exact functor_fine hs hphase calls
      · exact .ok hs
  | user c call =>
      obtain ⟨o, hc⟩ := Option.isSome_iff_exists.mp henabled
      exact user_fine hs hc call

/-- A step that is not orderly does not return. -/
theorem orderly_of_step {s s' : TcpServer} {a : Step} (hs : s.Sound) (h : s.step a = .ok s') :
    s.Orderly a := by
  cases a with
  | dispatch l answers =>
      intro c rest o hphase hc
      simp only [step, hphase] at h
      obtain ⟨hsound, o₁, h₁, hd, -, hsame⟩ := dispatch_next hs hphase
      cases hc.symm.trans h₁
      have hc₁ : (s.setPhase l (.dispatching rest)).conns c = some o := hc
      simp only [execute, hc₁, bind_eq_ok, hsame] at h
      obtain ⟨r, hr, -⟩ := h
      obtain ⟨stage, hat⟩ := hs.staged c o hc
      refine InLoop.orderly_of_handleEvent hat.bound ?_ hr
      rcases hat.of_dispatchable hd with rfl | ⟨-, hdown⟩
      · exact .inl hat.shows.1
      · exact .inr hdown
  | newConnetion c sockfd l calls => trivial
  | poll l ready => trivial
  | doPendingFunctors l => trivial
  | functor l calls => trivial
  | user c call => trivial

/-- A step that the loops and the kernel can make, and that closes no connection
a second time. -/
def Admitted (s : TcpServer) (a : Step) : Prop := s.Enabled a ∧ s.Orderly a

theorem run_sound {s : TcpServer} {steps : List Step} (h : Respects step Admitted new steps)
    (hrun : run step new steps = .ok s) : s.Sound :=
  run_invariant (fun _ _ t hs ha ht => (step_fine hs ha.1 ha.2).sound t ht) new_sound h hrun

/-- The teardown of every connection happens once, in every run whose steps
close no connection a second time: none of its asserts fails, m_closeCallBack
is called at most once, removeConnectionInLoop finds its connection in the set,
and connectDestroyed finds it closed and without interest. Any other step does
not return. -/
theorem teardown_once {steps : List Step} (h : Respects step Admitted new steps) :
    (∀ e : Fault, e.ofTeardown = true → run step new steps ≠ .error e) ∧
      ∀ s, run step new steps = .ok s →
        (∀ c, s.closeCallBacks c ≤ 1) ∧
        (∀ l c rest, (s.loops l).phase = .calling (.removeConnectionInLoop c :: rest) →
          c ∈ s.connectionsSet) ∧
        (∀ l c rest, (s.loops l).phase = .calling (.connectDestroyed c :: rest) →
          ∃ o, s.conns c = some o ∧ o.ioLoop = l ∧ s.closeCallBacks c = 1 ∧
            o.conn.state = .kDisConnected ∧ o.conn.channel.events = kNoneEvent ∧
            (s.loops l).poller.interest o.conn.channel.fd = some kNoneEvent) ∧
        ∀ a s', ¬ s.Orderly a → s.step a ≠ .ok s' := by
  refine ⟨fun e he => ?_, fun s hrun => ?_⟩
  · exact run_avoids_of_invariant (fun _ _ t hs ha ht => (step_fine hs ha.1 ha.2).sound t ht)
      (fun _ _ hs ha => (step_fine hs ha.1 ha.2).avoids e he) new_sound h
  · have hs := run_sound h hrun
    refine ⟨fun c => ?_, fun l c rest hphase => ?_, fun l c rest hphase => ?_,
      fun a s' hnot hstep => hnot (orderly_of_step hs hstep)⟩
    · cases hc : s.conns c with
      | none =>
          rw [(hs.fresh c hc).2.1]
          exact Nat.zero_le 1
      | some o =>
          obtain ⟨stage, hat⟩ := hs.staged c o hc
          rw [hat.closes]
          cases stage <;> decide
    · obtain ⟨o, stage, -, hat, -, hnext⟩ := functor_stage hs hphase
      have hstage : stage = .closed := Stage.eq_of_next (hnext (by simp)) rfl
      subst hstage
      exact hat.member.mpr rfl
    · obtain ⟨o, stage, hc, hat, hl, hnext⟩ := functor_stage hs hphase
      have hstage : stage = .removed := Stage.eq_of_next (hnext (by simp)) rfl
      subst hstage
      obtain ⟨hdown, hevents, hlistening⟩ := hat.shows
      subst hl
      exact ⟨o, hc, rfl, hat.closes, hdown, hevents, hlistening.2⟩

instance (s : InLoop) (answers : InLoop.Answers) : Decidable (s.Orderly answers) :=
  inferInstanceAs (Decidable (_ → _))

instance (s : TcpServer) (l : Nat) (answers : InLoop.Answers) :
    Decidable (s.Orderly (.dispatch l answers)) :=
  match hphase : (s.loops l).phase with
  | .dispatching (c :: rest) =>
      match hc : s.conns c with
      | some o => decidable_of_iff ((s.inLoop o).Orderly answers)
          ⟨fun h c' rest' o' hphase' hc' => by
            cases hphase.symm.trans hphase'
            cases hc.symm.trans hc'
            exact h, fun h => h c rest o hphase hc⟩
      | none => isTrue fun c' rest' o' hphase' hc' => by
          cases hphase.symm.trans hphase'
          cases hc.symm.trans hc'
  | .dispatching [] => isTrue (by simp [Orderly, hphase])
  | .calling _ => isTrue (by simp [Orderly, hphase])

/-- The admission of a step other than an accept, which can be computed. -/
def Checked (s : TcpServer) : Step → Prop
  | .newConnetion _ _ _ _ => False
  | .poll l ready => s.Enabled (.poll l ready)
  | .dispatch l answers => s.Enabled (.dispatch l answers) ∧ s.Orderly (.dispatch l answers)
  | .doPendingFunctors l => s.Enabled (.doPendingFunctors l)
  | .functor l calls => s.Enabled (.functor l calls)
  | .user c call => s.Enabled (.user c call)

theorem Checked.admitted {s : TcpServer} {a : Step} (h : s.Checked a) : s.Admitted a := by
  cases a with
  | newConnetion c sockfd l calls => exact h.elim
  | poll l ready => exact ⟨h, trivial⟩
  | dispatch l answers => exact h
  | doPendingFunctors l => exact ⟨h, trivial⟩
  | functor l calls => exact ⟨h, trivial⟩
  | user c call => exact ⟨h, trivial⟩

instance (s : TcpServer) : (a : Step) → Decidable (s.Checked a)
  | .newConnetion _ _ _ _ => isFalse id
  | .poll _ _ => inferInstanceAs (Decidable (_ ∧ _ ∧ _))
  | .dispatch l answers => inferInstanceAs
      (Decidable ((s.loops l).active ≠ [] ∧ s.Orderly (.dispatch l answers)))
  | .doPendingFunctors _ => inferInstanceAs (Decidable (_ = _))
  | .functor _ _ => inferInstanceAs (Decidable (_ ≠ _))
  | .user _ _ => inferInstanceAs (Decidable (_ = _))

/-- The first two steps of a server: its base loop polls and accepts. -/
theorem accept_admitted (l : Nat) (calls : List UserCall) :
    Respects step Admitted new [.poll baseLoop [], .newConnetion 1 5 l calls] := by
  have hpoll : new.step (.poll baseLoop []) = .ok (new.setPhase baseLoop (.dispatching [])) := rfl
  refine ⟨⟨⟨rfl, List.nodup_nil, nofun⟩, trivial⟩, fun t ht => ⟨⟨?_, trivial⟩, fun _ _ => trivial⟩⟩
  cases hpoll.symm.trans ht
  refine ⟨rfl, ?_, fun c o hc => ?_⟩
  · rw [setPhase_poller]
    rfl
  · cases show none = some o from hc

/-- An accept followed by steps that are checked. -/
theorem admitted_of_checked {l : Nat} {calls : List UserCall} {steps : List Step}
    (h : resultHolds (fun s => Respects step Checked s steps)
      (run step new [.poll baseLoop [], .newConnetion 1 5 l calls]) = true) :
    Respects step Admitted new
      ([.poll baseLoop [], .newConnetion 1 5 l calls] ++ steps) := by
  refine (accept_admitted l calls).append fun m hm => ?_
  obtain ⟨t, ht, hchecked⟩ := resultHolds_iff.mp h
  cases hm.symm.trans ht
  exact hchecked.imp fun _ _ => Checked.admitted

/-- A connection of another loop comes up, hangs up and is removed by the base
loop; its own loop is about to destroy it. -/
def hangUpSteps : List Step :=
  [.poll 1 [], .doPendingFunctors 1, .functor 1 [], .poll 1 [(5, EPOLLHUP)],
    .dispatch 1 ⟨.error EWOULDBLOCK, [], .wrote 0⟩, .doPendingFunctors 1,
    .doPendingFunctors baseLoop, .functor baseLoop [], .poll 1 [], .doPendingFunctors 1]

theorem teardown_once_other_loop :
    ∃ s, run step new ([.poll baseLoop [], .newConnetion 1 5 1 []] ++ hangUpSteps) = .ok s ∧
      s.closeCallBacks 1 = 1 ∧ (s.loops 1).phase = .calling [.connectDestroyed 1] ∧
      ∃ o, s.conns 1 = some o ∧ o.conn.state = .kDisConnected ∧
        o.conn.channel.events = kNoneEvent := by
  have hadmitted : Respects step Admitted new
      ([.poll baseLoop [], .newConnetion 1 5 1 []] ++ hangUpSteps) :=
    admitted_of_checked (by decide +kernel)
  have hcheck : resultHolds (fun s => (s.loops 1).phase = .calling [.connectDestroyed 1])
      (run step new ([.poll baseLoop [], .newConnetion 1 5 1 []] ++ hangUpSteps)) = true := by
    decide +kernel
  obtain ⟨s, hs, hphase⟩ := resultHolds_iff.mp hcheck
  obtain ⟨o, hc, -, hone, hdown, hevents, -⟩ :=
    ((teardown_once hadmitted).2 s hs).2.2.1 1 1 [] hphase
  exact ⟨s, hs, hone, hphase, o, hc, hdown, hevents⟩

/-- The user closes a connection of the base loop. The peer hangs up before the
connection is destroyed: its fd is still registered when the loop polls again. -/
def lateHangUpSteps : List Step :=
  [.doPendingFunctors baseLoop, .functor baseLoop [], .poll baseLoop [(5, EPOLLHUP)]]

theorem teardown_twice_after_forceClose :
    run step new ([.poll baseLoop [], .newConnetion 1 5 baseLoop [.forceClose]] ++
        lateHangUpSteps ++ [.dispatch baseLoop ⟨.error EWOULDBLOCK, [], .wrote 0⟩]) =
        .error (.assertion .handleCloseState) ∧
      Respects step Enabled new ([.poll baseLoop [], .newConnetion 1 5 baseLoop [.forceClose]] ++
        lateHangUpSteps ++ [.dispatch baseLoop ⟨.error EWOULDBLOCK, [], .wrote 0⟩]) := by
  have hadmitted : Respects step Admitted new
      ([.poll baseLoop [], .newConnetion 1 5 baseLoop [.forceClose]] ++ lateHangUpSteps) :=
    admitted_of_checked (by decide +kernel)
  have hcheck : resultHolds (fun s => (s.loops baseLoop).active ≠ []) (run step new
      ([.poll baseLoop [], .newConnetion 1 5 baseLoop [.forceClose]] ++ lateHangUpSteps)) =
      true := by
    decide +kernel
  refine ⟨faultOf_eq_some.mp (by decide +kernel), ?_⟩
  refine (hadmitted.imp fun _ _ h => h.1).append fun m hm => ⟨?_, fun _ _ => trivial⟩
  obtain ⟨s, hs, hactive⟩ := resultHolds_iff.mp hcheck
  cases hm.symm.trans hs
  exact hactive

end TcpServer
end TAlib
