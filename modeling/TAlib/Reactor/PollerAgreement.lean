import TAlib.Reactor.PollArray

/-!
Poll and Epoll under the same calls. Both map the registered channels alike, and
the kernel's set has the events of each of them, as the poll array has unless a
slot stays muted.
-/

namespace TAlib

open Foundation

/-- The kernel waits for these events on the fd. -/
def Epoll.Watches (p : Epoll) (fd : Nat) (mask : Events) : Prop :=
  p.interest fd = some mask ∧ mask ≠ 0

namespace PollerLoop

variable {γ : Type}

/-- Both pollers watch what the registered channels of their loop wait for, and
that is the same. -/
def Agree (s : PollerLoop Poll γ) (t : PollerLoop Epoll γ) : Prop :=
  ∀ fd mask, (s.poller.Watches fd mask ↔ t.poller.Watches fd mask) ∧
    (s.poller.Watches fd mask ↔ Wants s.poller.channels s.channel fd mask) ∧
    (t.poller.Watches fd mask ↔ Wants t.poller.channels t.channel fd mask)

/-- The two loops side by side. -/
structure Matched (n : Nat) (s : PollerLoop Poll γ) (t : PollerLoop Epoll γ) : Prop where
  seated : Seated n s
  maps : Mapped n s
  channel : ∀ k, t.channel k = { s.channel k with index := (t.channel k).index }
  sign : ∀ k < n, (s.channel k).index < 0 ↔ (t.channel k).index < 0
  channels : t.poller.channels = s.poller.channels
  interest : ∀ fd, t.poller.interest fd =
    (s.poller.channels fd).map fun a => (s.channel a).events
  size : t.poller.maxEventsSize = s.poller.pollfds.length

/-- Matched loops agree on what is watched. -/
theorem Matched.agree {n : Nat} {s : PollerLoop Poll γ} {t : PollerLoop Epoll γ}
    (h : Matched n s t) : s.Agree t := by
  intro fd mask
  have hpoll := h.seated.watches_iff h.maps fd mask
  have hwants : Wants s.poller.channels s.channel fd mask ↔
      Wants t.poller.channels t.channel fd mask := by
    have hevents (a) : (t.channel a).events = (s.channel a).events := by rw [h.channel a]
    simp only [Wants, h.channels, hevents]
  have hepoll : t.poller.Watches fd mask ↔ Wants t.poller.channels t.channel fd mask := by
    rw [← hwants]
    simp only [Epoll.Watches, h.interest, Wants, Option.map_eq_some_iff]
    constructor
    · rintro ⟨⟨a, ha, he⟩, hne⟩
      exact ⟨a, ha, he, hne⟩
    · rintro ⟨a, ha, he, hne⟩
      exact ⟨⟨a, ha, he⟩, hne⟩
  exact ⟨hpoll.trans (hwants.trans hepoll.symm), hpoll, hepoll⟩

end PollerLoop

namespace Epoll

variable {γ : Type} {ch : Channel γ} {p : Epoll}

theorem updateChannel_new (hneg : ch.index < 0) (habsent : p.channels ch.fd = none)
    (hfree : p.interest ch.fd = none) (hsize : p.maxEventsSize < intMax) :
    ∃ p', p.updateChannel ch = .ok ({ ch with index := (p.maxEventsSize + 1 : Nat) }, p') ∧
      p'.channels = Function.update p.channels ch.fd (some ch.address) ∧
      p'.interest = Function.update p.interest ch.fd (some ch.events) ∧
      p'.maxEventsSize = p.maxEventsSize + 1 := by
  have hadd : sizeAdd p.maxEventsSize 1 = p.maxEventsSize + 1 := by
    refine sizeAdd_of_lt ?_
    unfold intMax at hsize
    omega
  let q : Epoll := ⟨p.maxEventsSize + 1, p.eventsSize, p.eventsCapacity,
    Function.update p.channels ch.fd (some ch.address),
    Function.update p.interest ch.fd (some ch.events)⟩
  refine ⟨q.reserve, ?_, reserve_channels q, reserve_interest q, ?_⟩
  · simp only [updateChannel, if_pos hneg, require_of_true habsent, ok_bind, epollRegister, hfree,
      hadd, toInt_of_le hsize]
    rfl
  · unfold reserve
    split <;> rfl

theorem updateChannel_registered {mask : Events} (hindex : 0 ≤ ch.index)
    (hsame : p.channels ch.fd = some ch.address) (hinterest : p.interest ch.fd = some mask) :
    ∃ p', p.updateChannel ch = .ok (ch, p') ∧ p'.channels = p.channels ∧
      p'.interest = Function.update p.interest ch.fd (some ch.events) ∧
      p'.maxEventsSize = p.maxEventsSize := by
  have hpresent : p.channels ch.fd ≠ none := by
    rw [hsame]
    exact nofun
  refine ⟨(p.epollUpdate ch.fd ch.events).reserve, ?_, ?_, ?_, ?_⟩
  · simp only [updateChannel, if_neg (Int.not_lt.mpr hindex), require_of_true hpresent,
      require_of_true hsame, ok_bind]
    rfl
  · simp only [reserve_channels, epollUpdate, hinterest]
  · simp only [reserve_interest, epollUpdate, hinterest]
  · unfold reserve
    split <;> simp only [epollUpdate, hinterest]

theorem updateChannel_absent (hindex : 0 ≤ ch.index) (habsent : p.channels ch.fd = none) :
    p.updateChannel ch = .error (.assertion .updateChannelPresent) := by
  simp only [updateChannel, if_neg (Int.not_lt.mpr hindex)]
  rw [require_of_false fun h => h habsent]
  rfl

theorem removeChannel_absent (habsent : p.channels ch.fd = none) :
    p.removeChannel ch = .error (.assertion .removeChannelPresent) := by
  simp only [removeChannel]
  rw [require_of_false fun h => h habsent]
  rfl

theorem removeChannel_registered (hsame : p.channels ch.fd = some ch.address)
    (hnone : ch.isNoneEvent = true) :
    p.removeChannel ch = .ok { p with
      interest := Function.update p.interest ch.fd none
      channels := Function.update p.channels ch.fd none
      maxEventsSize := sizeSub p.maxEventsSize 1 } := by
  have hpresent : p.channels ch.fd ≠ none := by
    rw [hsame]
    exact nofun
  have herased : (if (p.epollDelete ch.fd).channels ch.fd = none then 0 else 1) = 1 :=
    if_neg hpresent
  simp only [removeChannel, require_of_true hpresent, require_of_true hsame, require_of_true hnone,
    require_of_true herased, ok_bind]
  rfl

end Epoll

namespace PollerLoop

variable {γ : Type} {n : Nat} {s : PollerLoop Poll γ} {t : PollerLoop Epoll γ} {k : Nat}

/-- The channel with new events, on its way to the poller. -/
def renewed (ch : Channel γ) (e : Events) : Channel γ :=
  { ch with events := e, addedToLoop := true }

theorem execPoll_eq {c : InterestCall} (h : c.op ≠ .remove) :
    s.execPoll c = (do
      let r ← s.poller.updateChannel
        (renewed (s.channel c.channel) (c.op.apply (s.channel c.channel).events))
      return s.store c.channel r) := by
  obtain ⟨k, op⟩ := c
  cases op with
  | remove => exact absurd rfl h
  | enableReading | disableReading | enableWriting | disableWriting | disableAll => rfl

theorem execEpoll_eq {c : InterestCall} (h : c.op ≠ .remove) :
    t.execEpoll c = (do
      let r ← t.poller.updateChannel
        (renewed (t.channel c.channel) (c.op.apply (t.channel c.channel).events))
      return t.store c.channel r) := by
  obtain ⟨k, op⟩ := c
  cases op with
  | remove => exact absurd rfl h
  | enableReading | disableReading | enableWriting | disableWriting | disableAll => rfl

/-- The channels of the second loop follow those of the first. -/
theorem channel_update (hch : ∀ j, t.channel j = { s.channel j with index := (t.channel j).index })
    {a b : Channel γ} (hab : b = { a with index := b.index }) (j : Nat) :
    Function.update t.channel k b j =
      { Function.update s.channel k a j with
        index := (Function.update t.channel k b j).index } := by
  by_cases hj : j = k
  · subst hj
    simp only [Function.update_self]
    exact hab
  · simp only [Function.update_of_ne hj]
    exact hch j

theorem sign_update (hsign : ∀ j < n, (s.channel j).index < 0 ↔ (t.channel j).index < 0)
    {a b : Channel γ} (hab : a.index < 0 ↔ b.index < 0) :
    ∀ j < n, (Function.update s.channel k a j).index < 0 ↔
      (Function.update t.channel k b j).index < 0 := by
  intro j hj
  by_cases hjk : j = k
  · subst hjk
    simp only [Function.update_self, hab]
  · simp only [Function.update_of_ne hjk]
    exact hsign j hj

/-- The registered events after the channel k, now registered, has changed. -/
theorem interest_update (hmaps : Mapped n s) (hk : k < n)
    (hinterest : ∀ fd, t.poller.interest fd =
      (s.poller.channels fd).map fun a => (s.channel a).events)
    {a : Channel γ} {e : Events} (he : a.events = e) {channels : Nat → Option Nat}
    (hchannels : channels = Function.update s.poller.channels (s.channel k).fd (some k))
    (fd : Nat) :
    Function.update t.poller.interest (s.channel k).fd (some e) fd =
      (channels fd).map fun j => (Function.update s.channel k a j).events := by
  subst hchannels he
  by_cases hfd : fd = (s.channel k).fd
  · subst hfd
    simp only [Function.update_self, Option.map_some]
  · simp only [Function.update_of_ne hfd, hinterest]
    cases hc : s.poller.channels fd with
    | none => rfl
    | some j =>
        have hjk : j ≠ k := by
          rintro rfl
          exact hfd (hmaps.mapped fd j hc).2.symm
        simp only [Option.map_some, Function.update_of_ne hjk]

theorem renewed_edits (hmaps : Mapped n s) (op : InterestOp) (index : Int) :
    Edits s k { renewed (s.channel k) (op.apply (s.channel k).events) with index := index } :=
  ⟨rfl, hmaps.address k, apply_small op (hmaps.small k)⟩

/-- A channel is registered with both pollers. -/
theorem Matched.register (h : Matched n s t) (hsize : n ≤ intMax) (hk : k < n) (op : InterestOp)
    (hneg : (s.channel k).index < 0) :
    ∃ s' t', (s.poller.updateChannel (renewed (s.channel k) (op.apply (s.channel k).events)) >>=
        fun r => .ok (s.store k r)) = .ok s' ∧
      (t.poller.updateChannel (renewed (t.channel k) (op.apply (t.channel k).events)) >>=
        fun r => .ok (t.store k r)) = .ok t' ∧ Matched n s' t' := by
  have hfree := h.maps.unused k hk hneg
  have hlen := h.seated.placed.length_lt hk fun hreg => nomatch hreg.symm.trans hfree
  have htch := h.channel k
  have htfd : (t.channel k).fd = (s.channel k).fd := by rw [htch]
  have hte : (t.channel k).events = (s.channel k).events := by rw [htch]
  have haddress := h.maps.address k
  have htaddress : (t.channel k).address = k := by rw [htch]; exact haddress
  obtain ⟨p', hp', hchannels, hinterest, hmax⟩ : ∃ p', t.poller.updateChannel
      (renewed (t.channel k) (op.apply (t.channel k).events)) = .ok (_, p') ∧ _ :=
    Epoll.updateChannel_new ((h.sign k hk).mp hneg) (by rw [h.channels, renewed, htfd]; exact hfree)
      (by rw [h.interest, renewed, htfd, hfree]; rfl) (by rw [h.size]; omega)
  have hpoll : s.poller.updateChannel (renewed (s.channel k) (op.apply (s.channel k).events)) =
      .ok _ := Poll.updateChannel_new hneg hfree (by omega)
  have hedits := renewed_edits h.maps op (k := k) (s.poller.pollfds.length : Nat)
  have hseat : Seat { renewed (s.channel k) (op.apply (s.channel k).events) with
      index := (s.poller.pollfds.length : Nat) }
      ⟨(s.channel k).fd, Poll.shortEvents (renewed (s.channel k) (op.apply (s.channel k).events)),
        0⟩ :=
    ⟨rfl, .inl rfl⟩
  rw [hp', hpoll, ok_bind, ok_bind]
  refine ⟨_, _, rfl, rfl, ?_, ?_, ?_, ?_, ?_, ?_, ?_⟩
  · have hseated := h.seated.register h.maps hk hfree hedits hseat rfl
    simp only [store, renewed, haddress] at hseated ⊢
    exact hseated
  · have hstored : Mapped n ⟨_, ⟨s.poller.pollfds ++ [⟨(s.channel k).fd, Poll.shortEvents
        (renewed (s.channel k) (op.apply (s.channel k).events)), 0⟩], _⟩⟩ :=
      h.maps.store hk hedits (fun fd a => entry_of_update) fun hlt => absurd hlt (by simp)
    simp only [store, renewed, haddress] at hstored ⊢
    exact hstored
  · refine channel_update h.channel ?_
    simp only [renewed, hte]
    rw [htch]
  · refine sign_update h.sign ?_
    constructor
    · intro hlt
      simp only at hlt
      omega
    · intro hlt
      simp only at hlt
      omega
  · simp only [store, hchannels, h.channels, renewed, htfd, htaddress, haddress]
  · intro fd
    have hevents : (renewed (t.channel k) (op.apply (t.channel k).events)).events =
        op.apply (s.channel k).events := by rw [renewed, hte]
    have htfd' : (renewed (t.channel k) (op.apply (t.channel k).events)).fd = (s.channel k).fd :=
      htfd
    have haddress' : (renewed (s.channel k) (op.apply (s.channel k).events)).address = k := haddress
    have hmap : Function.update s.poller.channels
        (renewed (s.channel k) (op.apply (s.channel k).events)).fd
        (some (renewed (s.channel k) (op.apply (s.channel k).events)).address) =
        Function.update s.poller.channels (s.channel k).fd (some k) := by rw [haddress']; rfl
    simp only [store, hinterest, hevents, htfd']
    refine interest_update h.maps hk h.interest ?_ hmap fd
    rfl
  · simp only [store, hmax, h.size, List.length_append, List.length_singleton]

theorem isNoneEvent_iff {ch : Channel γ} : ch.isNoneEvent = true ↔ ch.events = 0 :=
  decide_eq_true_iff

/-- A registered channel changes its interest; its slot is not muted when it is
given some. -/
theorem Matched.change (h : Matched n s t) (hsize : n ≤ intMax) (hk : k < n) (op : InterestOp)
    (hreg : s.Registered k) (hfollowed : ∀ pfd ∈ s.poller.pollfds[(s.channel k).index.toNat]?,
      op.apply (s.channel k).events ≠ 0 → pfd.fd ≠ -1) :
    ∃ s' t', (s.poller.updateChannel (renewed (s.channel k) (op.apply (s.channel k).events)) >>=
        fun r => .ok (s.store k r)) = .ok s' ∧
      (t.poller.updateChannel (renewed (t.channel k) (op.apply (t.channel k).events)) >>=
        fun r => .ok (t.store k r)) = .ok t' ∧ Matched n s' t' := by
  obtain ⟨i, pfd, hindex, hget, hseat⟩ := h.seated.seat k hk hreg
  have hlen := h.seated.placed.length_le
  have htch := h.channel k
  have htfd : (t.channel k).fd = (s.channel k).fd := by rw [htch]
  have hte : (t.channel k).events = (s.channel k).events := by rw [htch]
  have haddress := h.maps.address k
  have htaddress : (t.channel k).address = k := by rw [htch]; exact haddress
  have hpos : 0 ≤ (s.channel k).index := hindex ▸ Int.natCast_nonneg i
  have htindex : 0 ≤ (t.channel k).index := Int.not_lt.mp fun hneg =>
    absurd ((h.sign k hk).mpr hneg) (Int.not_lt.mpr hpos)
  rw [hindex, Int.toNat_natCast] at hfollowed
  have hmuted := hfollowed pfd hget
  -- the slot is muted exactly when the channel waits for nothing
  have hedits := renewed_edits h.maps op (k := k) (s.channel k).index
  have hnew : Seat (renewed (s.channel k) (op.apply (s.channel k).events))
      ⟨if (renewed (s.channel k) (op.apply (s.channel k).events)).isNoneEvent then -1 else pfd.fd,
        Poll.shortEvents (renewed (s.channel k) (op.apply (s.channel k).events)), 0⟩ := by
    refine ⟨rfl, ?_⟩
    split
    · rename_i hnone
      exact .inr ⟨rfl, isNoneEvent_iff.mp hnone⟩
    · rename_i hsome
      refine .inl ?_
      cases hseat.fd with
      | inl heq => exact heq
      | inr hmute => exact absurd hmute.1 (hmuted fun hz => hsome (isNoneEvent_iff.mpr hz))
  have hpoll : s.poller.updateChannel (renewed (s.channel k) (op.apply (s.channel k).events)) =
      .ok _ := Poll.updateChannel_registered hindex (hreg.trans (congrArg some haddress.symm)) hget
    (hseat.fd.imp_right And.left) (by omega)
  obtain ⟨p', hp', hchannels, hinterest, hmax⟩ : ∃ p', t.poller.updateChannel
      (renewed (t.channel k) (op.apply (t.channel k).events)) = .ok (_, p') ∧ _ :=
    Epoll.updateChannel_registered htindex
      (by rw [h.channels, renewed, htfd, htaddress]; exact hreg)
      (by
        rw [h.interest, renewed, htfd, show s.poller.channels (s.channel k).fd = some k from hreg]
        rfl)
  rw [hp', hpoll, ok_bind, ok_bind]
  refine ⟨_, _, rfl, rfl, ?_, ?_, ?_, ?_, ?_, ?_, ?_⟩
  · exact h.seated.change hk hreg hedits hindex rfl hnew
  · exact h.maps.store hk hedits (fun fd a ha => .inl ha) fun hlt =>
      absurd hlt (Int.not_lt.mpr hpos)
  · refine channel_update h.channel ?_
    simp only [renewed, hte]
    rw [htch]
  · exact sign_update h.sign (h.sign k hk)
  · simp only [store, hchannels, h.channels]
  · intro fd
    have hevents : (renewed (t.channel k) (op.apply (t.channel k).events)).events =
        op.apply (s.channel k).events := by rw [renewed, hte]
    have htfd' : (renewed (t.channel k) (op.apply (t.channel k).events)).fd = (s.channel k).fd :=
      htfd
    have hmap : s.poller.channels =
        Function.update s.poller.channels (s.channel k).fd (some k) := by
      rw [← show s.poller.channels (s.channel k).fd = some k from hreg, Function.update_eq_self]
    simp only [store, hinterest, hevents, htfd']
    refine interest_update h.maps hk h.interest ?_ hmap fd
    rfl
  · simp only [store, hmax, h.size, List.length_set]

theorem Matched.leave (h : Matched n s t) (hsize : n ≤ intMax) (hk : k < n)
    (hreg : s.Registered k) (hnone : (s.channel k).isNoneEvent = true)
    (hremovable : ∀ pfd ∈ s.poller.pollfds[(s.channel k).index.toNat]?, s.Removable k pfd) :
    ∃ s' t', s.execPoll ⟨k, .remove⟩ = .ok s' ∧ t.execEpoll ⟨k, .remove⟩ = .ok t' ∧
      Matched n s' t' := by
  obtain ⟨i, pfd, hindex, hget, hseat⟩ := h.seated.seat k hk hreg
  have hlen := h.seated.placed.length_le
  have hlt := (List.getElem?_eq_some_iff.mp hget).1
  have htch := h.channel k
  have htfd : (t.channel k).fd = (s.channel k).fd := by rw [htch]
  have hte : (t.channel k).events = (s.channel k).events := by rw [htch]
  have haddress := h.maps.address k
  have htaddress : (t.channel k).address = k := by rw [htch]; exact haddress
  have htnone : (t.channel k).isNoneEvent = true := isNoneEvent_iff.mpr
    (hte.trans (isNoneEvent_iff.mp hnone))
  rw [hindex, Int.toNat_natCast] at hremovable
  obtain ⟨hmuted, hplace⟩ := hremovable pfd hget
  obtain ⟨back, hback⟩ : ∃ back, s.poller.pollfds[s.poller.pollfds.length - 1]? = some back :=
    ⟨_, List.getElem?_eq_getElem (by omega)⟩
  have hplace' : (s.channel k).index = (s.poller.pollfds.length - 1 : Nat) ∨ 0 ≤ back.fd ∨
      s.LastFound := hplace.imp_right fun h => h.imp_left fun h =>
    h back (by rw [List.getLast?_eq_getElem?]; exact hback)
  obtain ⟨channel, hclose, hleaves, hchannel⟩ :=
    h.seated.closeGap_ok h.maps hsize hk hreg hindex hback hplace'
  have hpoll : s.execPoll ⟨k, .remove⟩ = .ok ⟨channel, ⟨(s.poller.pollfds.set i back).dropLast,
      Function.update s.poller.channels (s.channel k).fd none⟩⟩ := by
    rw [← hclose]
    simp only [execPoll, require_of_true hnone, ok_bind]
    exact Poll.removeChannel_registered hindex (hreg.trans (congrArg some haddress.symm)) hnone hget
      ⟨hmuted, hseat.events⟩ (hlen.trans hsize)
  have hsub : sizeSub t.poller.maxEventsSize 1 = s.poller.pollfds.length - 1 := by
    rw [h.size]
    unfold intMax at hsize
    exact sizeSub_of_le (by omega) (by omega)
  have hepoll : t.execEpoll ⟨k, .remove⟩ =
      .ok (t.store k ({ t.channel k with addedToLoop := false }, { t.poller with
        interest := Function.update t.poller.interest (t.channel k).fd none
        channels := Function.update t.poller.channels (t.channel k).fd none
        maxEventsSize := sizeSub t.poller.maxEventsSize 1 })) := by
    have hremove : t.poller.removeChannel { t.channel k with addedToLoop := false } = .ok _ :=
      Epoll.removeChannel_registered (by rw [h.channels, htfd, htaddress]; exact hreg) htnone
    simp only [execEpoll, Channel.remove, require_of_true htnone, ok_bind, hremove]
    rfl
  rw [htfd, hsub] at hepoll
  refine ⟨_, _, hpoll, hepoll, ?_⟩
  refine ⟨h.seated.leave h.maps hk hreg hindex hback hleaves, h.maps.leave hleaves, fun j => ?_,
    fun j hj => ?_, ?_, fun fd => ?_, ?_⟩
  · have hstored : Function.update t.channel k { t.channel k with addedToLoop := false } j =
        { cleared s k j with index := (t.channel j).index } := by
      by_cases hj : j = k
      · subst hj
        rw [cleared, Function.update_self, Function.update_self, htch]
      · rw [cleared, Function.update_of_ne hj, Function.update_of_ne hj]
        exact h.channel j
    simp only [store]
    rw [hstored, hchannel j]
  · have hstored : (Function.update t.channel k { t.channel k with addedToLoop := false } j).index =
        (t.channel j).index := by
      by_cases hjk : j = k
      · subst hjk
        rw [Function.update_self]
      · rw [Function.update_of_ne hjk]
    simp only [store, hstored]
    exact (hleaves.index j hj).trans (h.sign j hj)
  · simp only [store, h.channels]
  · simp only [store, hleaves.events]
    by_cases hfd : fd = (s.channel k).fd
    · subst hfd
      simp only [Function.update_self, Option.map_none]
    · simp only [Function.update_of_ne hfd, h.interest]
  · simp only [store, List.length_dropLast, List.length_set]

/-- The call is one that a channel's owner may make: a registered channel is
removed, once it waits for nothing, and a channel is not used after that. -/
def Admitted (s : PollerLoop Poll γ) (c : InterestCall) : Prop :=
  if c.op = .remove then s.Registered c.channel ∧ (s.channel c.channel).isNoneEvent = true
  else 0 ≤ (s.channel c.channel).index → s.Registered c.channel

instance (s : PollerLoop Poll γ) (c : InterestCall) : Decidable (s.Admitted c) := by
  unfold Admitted
  infer_instance

/-- An admitted call on both loops. -/
theorem exec_admitted (h : Matched n s t) (hsize : n ≤ intMax) (c : InterestCall)
    (hc : c.channel < n) (hadmitted : s.Admitted c) (hfollowed : s.Followed c) :
    ∃ s' t', s.execPoll c = .ok s' ∧ t.execEpoll c = .ok t' ∧ Matched n s' t' := by
  by_cases hop : c.op = .remove
  · obtain ⟨k, op⟩ := c
    subst hop
    obtain ⟨hreg, hnone⟩ := hadmitted
    exact h.leave hsize hc hreg hnone fun pfd hpfd => hfollowed hreg pfd hpfd hnone
  · rw [execPoll_eq hop, execEpoll_eq hop]
    by_cases hneg : (s.channel c.channel).index < 0
    · exact h.register hsize hc c.op hneg
    · rw [Admitted, if_neg hop] at hadmitted
      have hreg := hadmitted (Int.not_lt.mp hneg)
      refine h.change hsize hc c.op hreg fun pfd hpfd => ?_
      have hgiven := hfollowed hreg pfd hpfd
      cases hcop : c.op with
      | remove => exact absurd hcop hop
      | enableReading | disableReading | enableWriting | disableWriting | disableAll =>
          rw [hcop] at hgiven
          exact hgiven

/-- Any other call stops both loops with the same fault. -/
theorem exec_refused (h : Matched n s t) (c : InterestCall) (hc : c.channel < n)
    (hrefused : ¬ s.Admitted c) : ∃ f, s.execPoll c = .error f ∧ t.execEpoll c = .error f := by
  have htch := h.channel c.channel
  have htfd : (t.channel c.channel).fd = (s.channel c.channel).fd := by rw [htch]
  have hnone : (t.channel c.channel).isNoneEvent = (s.channel c.channel).isNoneEvent := by
    rw [htch]; rfl
  have habsent (hreg : ¬ s.Registered c.channel) :
      s.poller.channels (s.channel c.channel).fd = none := by
    by_contra hsome
    exact hreg ((h.maps.keyed.registered_iff hc).mpr hsome)
  have htabsent (hreg : ¬ s.Registered c.channel) :
      t.poller.channels (t.channel c.channel).fd = none := by
    rw [h.channels, htfd]
    exact habsent hreg
  by_cases hop : c.op = .remove
  · obtain ⟨k, op⟩ := c
    subst hop
    simp only at hnone habsent htabsent
    by_cases hwaits : (s.channel k).isNoneEvent = true
    · have hreg : ¬ s.Registered k := fun hreg => hrefused ⟨hreg, hwaits⟩
      refine ⟨.assertion .removeChannelPresent, ?_, ?_⟩
      · simp only [execPoll, require_of_true hwaits, ok_bind]
        exact Poll.removeChannel_absent (habsent hreg)
      · have hremove : t.poller.removeChannel { t.channel k with addedToLoop := false } =
            .error _ :=
          Epoll.removeChannel_absent (htabsent hreg)
        simp only [execEpoll, Channel.remove, require_of_true (hnone.trans hwaits), ok_bind,
          hremove]
        rfl
    · refine ⟨.assertion .removeNoneEvent, ?_, ?_⟩
      · simp only [execPoll]
        rw [require_of_false hwaits]
        rfl
      · simp only [execEpoll, Channel.remove]
        rw [require_of_false (hnone ▸ hwaits)]
        rfl
  · rw [Admitted, if_neg hop, Classical.not_imp] at hrefused
    obtain ⟨hpos, hreg⟩ := hrefused
    have htpos : 0 ≤ (t.channel c.channel).index := Int.not_lt.mp fun hneg =>
      absurd ((h.sign c.channel hc).mpr hneg) (Int.not_lt.mpr hpos)
    have hpoll : s.poller.updateChannel
        (renewed (s.channel c.channel) (c.op.apply (s.channel c.channel).events)) = .error _ :=
      Poll.updateChannel_absent hpos (habsent hreg)
    have hepoll : t.poller.updateChannel
        (renewed (t.channel c.channel) (c.op.apply (t.channel c.channel).events)) = .error _ :=
      Epoll.updateChannel_absent htpos (htabsent hreg)
    rw [execPoll_eq hop, execEpoll_eq hop, hpoll, hepoll]
    exact ⟨_, rfl, rfl⟩

/-- One call on both loops. -/
theorem exec_matched (h : Matched n s t) (hsize : n ≤ intMax) (c : InterestCall)
    (hc : c.channel < n) (hfollowed : s.Followed c) :
    Corresponds (Matched n) (s.execPoll c) (t.execEpoll c) := by
  by_cases hadmitted : s.Admitted c
  · obtain ⟨s', t', hs, ht, hmatched⟩ := exec_admitted h hsize c hc hadmitted hfollowed
    rw [hs, ht]
    exact hmatched
  · obtain ⟨f, hs, ht⟩ := exec_refused h c hc hadmitted
    rw [hs, ht]
    rfl

theorem new_matched {fds : Nat → Nat} (hfds : Set.InjOn fds { k | k < n }) :
    Matched n (new fds Poll.new : PollerLoop Poll γ) (new fds Epoll.new) := by
  have hnone (k) : ¬ (new fds Poll.new : PollerLoop Poll γ).Registered k := nofun
  have hsmall : kNoneEvent.toNat < 8 := by decide
  exact ⟨⟨fun k _ hreg => absurd hreg (hnone k), fun i hi => absurd hi (Nat.not_lt_zero i),
    fun k _ _ _ hreg => absurd hreg (hnone k)⟩, ⟨fun i hi j hj heq => hfds hi hj heq, fun _ => rfl,
    fun _ => hsmall, nofun, fun _ _ _ => rfl⟩, fun _ => rfl, fun _ _ => Iff.rfl, rfl, fun _ => rfl,
    rfl⟩

/-- Under the same calls the two loops watch the same in every state, as long as the
poll array follows the calls; a call that is not admitted stops both with the same
fault. -/
theorem pollers_agree {fds : Nat → Nat} (hfds : Set.InjOn fds { k | k < n })
    (hint : ∀ k < n, fds k < intMax) (calls : List InterestCall)
    (hcalls : ∀ c ∈ calls, c.channel < n)
    (hfollowed : Respects execPoll Followed (new fds Poll.new : PollerLoop Poll γ) calls) :
    Corresponds Agree (run execPoll (new fds Poll.new : PollerLoop Poll γ) calls)
        (run execEpoll (new fds Epoll.new) calls) ∧
      (Respects execPoll Admitted (new fds Poll.new : PollerLoop Poll γ) calls →
        ∃ s t, run execPoll (new fds Poll.new : PollerLoop Poll γ) calls = .ok s ∧
          run execEpoll (new fds Epoll.new) calls = .ok t ∧ s.Agree t) := by
  have hsize := channels_le hfds hint
  have hbelow : Respects execPoll (fun _ c => c.channel < n)
      (new fds Poll.new : PollerLoop Poll γ) calls :=
    respects_of_forall (fun c hc _ => hcalls c hc) _
  have hagree := Corresponds.imp (fun _ _ h => Matched.agree h)
    (run_corresponds (fun s t c h hpre => exec_matched h hsize c hpre.1 hpre.2)
      (new_matched hfds) (hbelow.and hfollowed))
  refine ⟨hagree, fun hadmitted => ?_⟩
  obtain ⟨s, t, hs, ht, hmatched⟩ := run_both_ok
    (fun s t c h hpre => exec_admitted h hsize c hpre.1 hpre.2.1 hpre.2.2)
    (new_matched hfds) (hbelow.and (hadmitted.and hfollowed))
  exact ⟨s, t, hs, ht, hmatched.agree⟩

/-- Two channels; the first is muted and removed while the second is watched. -/
theorem pollers_agree_removed :
    Corresponds Agree
        (run execPoll (new (fun k => k + 3) Poll.new : PollerLoop Poll Unit)
          [⟨0, .enableReading⟩, ⟨1, .enableWriting⟩, ⟨0, .disableAll⟩, ⟨0, .remove⟩])
        (run execEpoll (new (fun k => k + 3) Epoll.new)
          [⟨0, .enableReading⟩, ⟨1, .enableWriting⟩, ⟨0, .disableAll⟩, ⟨0, .remove⟩]) ∧
      ∃ s t, run execPoll (new (fun k => k + 3) Poll.new : PollerLoop Poll Unit)
          [⟨0, .enableReading⟩, ⟨1, .enableWriting⟩, ⟨0, .disableAll⟩, ⟨0, .remove⟩] = .ok s ∧
        run execEpoll (new (fun k => k + 3) Epoll.new)
          [⟨0, .enableReading⟩, ⟨1, .enableWriting⟩, ⟨0, .disableAll⟩, ⟨0, .remove⟩] = .ok t ∧
        s.Agree t :=
  (pollers_agree (n := 2) (fun _ _ _ _ h => Nat.add_right_cancel h) (by decide) _ (by decide)
    (by decide +kernel)).imp_right fun h => h (by decide +kernel)

/-- A channel that lost its interest gets it back, but not in the poll array. -/
theorem pollers_disagree :
    ∃ (s : PollerLoop Poll Unit) (t : PollerLoop Epoll Unit),
      run execPoll (new (fun k => k + 3) Poll.new)
        [⟨0, .enableReading⟩, ⟨0, .disableReading⟩, ⟨0, .enableReading⟩] = .ok s ∧
      run execEpoll (new (fun k => k + 3) Epoll.new)
        [⟨0, .enableReading⟩, ⟨0, .disableReading⟩, ⟨0, .enableReading⟩] = .ok t ∧
      t.poller.Watches 3 kReadEvent ∧ ¬ s.poller.Watches 3 kReadEvent ∧ ¬ s.Agree t := by
  have hnot : ¬ Poll.Watches (⟨[⟨-1, 3, 0⟩], Function.update (fun _ => none) 3 (some 0)⟩ : Poll) 3
      kReadEvent := by
    rintro ⟨pfd, hmem, hfd, -⟩
    cases List.mem_singleton.mp hmem
    cases hfd
  refine ⟨_, _, rfl, rfl, ⟨rfl, by decide⟩, hnot, fun hagree => ?_⟩
  exact hnot ((hagree 3 kReadEvent).1.mpr ⟨rfl, by decide⟩)

end PollerLoop

end TAlib
