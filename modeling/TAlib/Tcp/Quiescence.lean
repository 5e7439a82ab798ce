import TAlib.Tcp.Teardown

/-!
Connections for which nothing is queued. On its way from accept to its end a
connection is always waited for by some functor of the base loop or of its own,
so when there is none it is either open in every respect or gone in every respect:
neither the set nor a poller keeps a connection that is closed, and none that is
open is missing there.
-/

namespace TAlib

open Foundation

namespace TcpServer

/-- Neither loop of the connection has a functor for it. -/
def Settled (s : TcpServer) (c : Nat) (o : Owned) : Prop :=
  ∀ f, f.subject = c → s.jobs baseLoop f = 0 ∧ s.jobs o.ioLoop f = 0

structure Open (s : TcpServer) (c : Nat) (o : Owned) : Prop where
  live : (s.inLoop o).isLive = true
  member : c ∈ s.connectionsSet
  notClosed : s.closeCallBacks c = 0
  watched : ∃ mask, (s.loops o.ioLoop).poller.channels o.conn.channel.fd = some c ∧
    (s.loops o.ioLoop).poller.interest o.conn.channel.fd = some mask

structure Gone (s : TcpServer) (c : Nat) (o : Owned) : Prop where
  down : o.conn.state = .kDisConnected
  removed : c ∉ s.connectionsSet
  closedOnce : s.closeCallBacks c = 1
  destroyed : o.destroyed = true
  unwatched : ∀ l fd, (s.loops l).poller.channels fd ≠ some c

variable {s : TcpServer} {c : Nat} {o : Owned}

/-- A stage that is left by a functor is not settled. -/
theorem At.next_none {stage : Stage} (hat : s.At c o stage) (hsettled : s.Settled c o) :
    stage.next c = none := by
  cases hnext : stage.next c with
  | none => rfl
  | some f =>
      have hsubject : f.subject = c := by
        cases stage <;> cases hnext <;> rfl
      have hforce : f ≠ .forceCloseInLoop c := by
        cases stage <;> cases hnext <;> exact nofun
      have hdue : stage.due f = 1 := if_pos (by rw [hsubject, hnext])
      have howed := hat.owed (f.home o.ioLoop) f hsubject hforce
      rw [if_pos rfl, hdue] at howed
      obtain ⟨hbase, hio⟩ := hsettled f hsubject
      cases f with
      | removeConnectionInLoop d => exact absurd (hbase.symm.trans howed) (by decide)
      | connectEstablished d => exact absurd (hio.symm.trans howed) (by decide)
      | forceCloseInLoop d => exact absurd (hio.symm.trans howed) (by decide)
      | connectDestroyed d => exact absurd (hio.symm.trans howed) (by decide)

theorem Sound.open_or_gone (hs : s.Sound) (hc : s.conns c = some o) (hsettled : s.Settled c o) :
    s.Open c o ∨ s.Gone c o := by
  obtain ⟨stage, hat⟩ := hs.staged c o hc
  have hnone := hat.next_none hsettled
  cases stage with
  | created | closed | removed => cases hnone
  | up =>
      obtain ⟨hlive, mask, hchannel, hinterest⟩ := hat.shows
      refine .inl ⟨hlive, hat.member.mpr rfl, hat.closes, mask, ?_, hinterest⟩
      exact hchannel.trans (congrArg some hat.address)
  | gone =>
      have hdestroyed := hat.destroyed.mpr rfl
      refine .inr ⟨hat.shows, fun h => Bool.false_ne_true (hat.member.mp h), hat.closes, hdestroyed,
        fun l fd hchannel => ?_⟩
      obtain ⟨o', hc', -, -, hkept⟩ := hs.registered l fd c hchannel
      cases hc.symm.trans hc'
      exact Bool.false_ne_true (hkept.symm.trans hdestroyed)

/-- In every state that the loops reach, whatever the order of their steps, a
connection for which no functor is queued is open or gone. -/
theorem settled_open_or_gone {steps : List Step} (h : Respects step Admitted new steps) :
    Always step (fun s => ∀ c o, s.conns c = some o → s.Settled c o → s.Open c o ∨ s.Gone c o)
      new steps := by
  refine always_of_respects (fun s hs => ?_)
    (fun _ _ t hs ha ht => (step_fine hs ha.1 ha.2).sound t ht) new_sound h
  intro c o hc hsettled
  exact hs.open_or_gone hc hsettled

theorem settled_of_jobs {l : Nat} (hl : o.ioLoop = l)
    (h : ∀ f ∈ [Functor.connectEstablished c, .forceCloseInLoop c, .removeConnectionInLoop c,
      .connectDestroyed c], s.jobs baseLoop f = 0 ∧ s.jobs l f = 0) : s.Settled c o := by
  subst hl
  intro f hf
  refine h f ?_
  cases f with
  | connectEstablished d | forceCloseInLoop d | removeConnectionInLoop d | connectDestroyed d =>
      cases hf
      simp [Functor.subject]

/-- A connection of another loop, from its accept to its end. -/
theorem settled_open_or_gone_hangUp :
    ∃ s o, run step new ([.poll baseLoop [], .newConnetion 1 5 1 []] ++
        (hangUpSteps ++ [.functor 1 []])) = .ok s ∧ s.conns 1 = some o ∧ s.Gone 1 o := by
  have hadmitted : Respects step Admitted new ([.poll baseLoop [], .newConnetion 1 5 1 []] ++
      (hangUpSteps ++ [.functor 1 []])) := admitted_of_checked (by decide +kernel)
  obtain ⟨s, hs, hioLoop, hremoved, hjobs⟩ := resultHolds_iff.mp (show resultHolds
    (fun s : TcpServer => (s.conns 1).map Owned.ioLoop = some 1 ∧ 1 ∉ s.connectionsSet ∧
      ∀ f ∈ [Functor.connectEstablished 1, .forceCloseInLoop 1, .removeConnectionInLoop 1,
        .connectDestroyed 1], s.jobs baseLoop f = 0 ∧ s.jobs 1 f = 0)
    (run step new ([.poll baseLoop [], .newConnetion 1 5 1 []] ++
      (hangUpSteps ++ [.functor 1 []]))) = true by decide +kernel)
  obtain ⟨o, hc, ho⟩ := Option.map_eq_some_iff.mp hioLoop
  refine ⟨s, o, hs, hc, ?_⟩
  cases (settled_open_or_gone hadmitted).last hs 1 o hc (settled_of_jobs ho hjobs) with
  | inl hopen => exact absurd hopen.member hremoved
  | inr hgone => exact hgone

end TcpServer
end TAlib
