import TAlib.Reactor.PollSlots

/-!
The indices of Poll under any sequence of calls on it. A channel comes with
whatever events it has when it calls. Which channels have been registered, and
which of these have had their slot muted, is recorded from the calls alone, and
the array is compared with that.
-/

namespace TAlib

open Foundation

/-- The process has been stopped by an assert. -/
def Fault.isAssertion : Fault → Bool
  | .assertion _ => true
  | _ => false

/-- A call with the channel at this address, whose m_events are `events`. -/
inductive PollCall where
  | updateChannel (channel : Nat) (events : Events)
  | removeChannel (channel : Nat) (events : Events)
  deriving DecidableEq, Repr

def PollCall.channel : PollCall → Nat
  | .updateChannel k _ => k
  | .removeChannel k _ => k

/-- `registered` are the channels that were registered and not removed since, and
`muted` the ones among them that were updated with no events since. -/
structure PollHistory (γ : Type) where
  loop : PollerLoop Poll γ
  registered : Finset Nat
  muted : Finset Nat

namespace PollHistory

open PollerLoop

variable {γ : Type}

def new (fds : Nat → Nat) : PollHistory γ := ⟨PollerLoop.new fds Poll.new, ∅, ∅⟩

/-- The channel with the events it has when it calls. -/
def caller (s : PollerLoop Poll γ) (k : Nat) (events : Events) : Channel γ :=
  { s.channel k with events := events }

/-- The loop in which it calls. -/
def called (s : PollerLoop Poll γ) (k : Nat) (events : Events) : PollerLoop Poll γ :=
  { s with channel := Function.update s.channel k (caller s k events) }

def exec (s : PollHistory γ) : PollCall → Except Fault (PollHistory γ)
  | .updateChannel k events => do
      let r ← s.loop.poller.updateChannel (caller s.loop k events)
      let muted := if (s.loop.channel k).index < 0 then s.muted.erase k
        else if events = 0 then insert k s.muted else s.muted
      return ⟨s.loop.store k r, insert k s.registered, muted⟩
  | .removeChannel k events => do
      let loop ← Poll.removeChannel (called s.loop k events) (caller s.loop k events)
      return ⟨loop, s.registered.erase k, s.muted⟩

/-- Every registered channel has its own slot, where its index says, with its fd or
the mark that it is muted, and there are no other slots. -/
structure Intact (s : PollHistory γ) : Prop where
  only : ∀ fd a, s.loop.poller.channels fd = some a ↔
    a ∈ s.registered ∧ (s.loop.channel a).fd = fd
  distinct : ∀ a ∈ s.registered, ∀ b ∈ s.registered,
    (s.loop.channel a).index = (s.loop.channel b).index → a = b
  cover : ∀ i : Int, (∃ a ∈ s.registered, (s.loop.channel a).index = i) ↔
    0 ≤ i ∧ i < s.loop.poller.pollfds.length
  own : ∀ a ∈ s.registered, ∃ pfd,
    s.loop.poller.pollfds[(s.loop.channel a).index.toNat]? = some pfd ∧
    pfd.fd = if a ∈ s.muted then -1 else ((s.loop.channel a).fd : Int)

/-- The index of the last slot. -/
def lastIndex (s : PollHistory γ) : Int := (s.loop.poller.pollfds.length - 1 : Nat)

/-- removeChannel gives the channel of the last slot the index of the one it
removes, and no other channel a new one. -/
def Moved (s : PollHistory γ) : PollCall → Prop
  | .updateChannel _ _ => True
  | .removeChannel k events => ∀ t, s.exec (.removeChannel k events) = .ok t →
      ∀ a ∈ s.registered, a ≠ k → (t.loop.channel a).index =
        if (s.loop.channel a).index = s.lastIndex then (s.loop.channel k).index
        else (s.loop.channel a).index

/-- The asserts of removeChannel let the call pass. -/
def Permitted (s : PollHistory γ) (k : Nat) (events : Events) : Prop :=
  s.loop.Registered k ∧ events = 0 ∧
    ∀ pfd ∈ s.loop.poller.pollfds[(s.loop.channel k).index.toNat]?, pfd.fd = -1 ∧ pfd.events = 0

/-- A channel is removed from the last slot, or the last slot is not muted, or it is
the slot of the channel with fd 0. -/
def LastSlotFound (s : PollHistory γ) : PollCall → Prop
  | .updateChannel _ _ => True
  | .removeChannel k events => s.Permitted k events →
      (s.loop.channel k).index = s.lastIndex ∨
        (∀ back ∈ s.loop.poller.pollfds.getLast?, 0 ≤ back.fd) ∨ s.loop.LastFound

instance (s : PollHistory γ) (c : PollCall) : Decidable (s.LastSlotFound c) := by
  unfold LastSlotFound Permitted
  cases c <;> infer_instance

/-- What a slot has to do with its channel. -/
def Own (muted : Finset Nat) (ch : Channel γ) (pfd : PollFd) : Prop :=
  pfd.fd = if ch.address ∈ muted then -1 else (ch.fd : Int)

theorem Own.fd {muted : Finset Nat} {ch : Channel γ} {pfd : PollFd} (h : Own muted ch pfd) :
    pfd.fd = ch.fd ∨ pfd.fd = -1 := by
  unfold Own at h
  split at h
  · exact .inr h
  · exact .inl h

/-- The loop as the history has it. -/
structure Sound (n : Nat) (s : PollHistory γ) : Prop where
  placed : Placed (Own s.muted) n s.loop
  keyed : Keyed n s.loop
  registered : ∀ a, a ∈ s.registered ↔ a < n ∧ s.loop.Registered a

variable {n : Nat} {s : PollHistory γ}

theorem sound_new {fds : Nat → Nat} (hfds : Set.InjOn fds { k | k < n }) :
    Sound n (new fds : PollHistory γ) := by
  have hnone (k) : ¬ (new fds : PollHistory γ).loop.Registered k := nofun
  exact ⟨⟨fun k _ hreg => absurd hreg (hnone k), fun i hi => absurd hi (Nat.not_lt_zero i),
    fun k _ _ _ hreg => absurd hreg (hnone k)⟩, ⟨fun i hi j hj heq => hfds hi hj heq, fun _ => rfl,
    nofun, fun _ _ _ => rfl⟩,
    fun a => ⟨fun ha => absurd ha (Finset.notMem_empty a), fun ha => absurd ha.2 (hnone a)⟩⟩

theorem Sound.intact (h : Sound n s) : s.Intact := by
  have hkept {a} (ha : a ∈ s.registered) := (h.registered a).mp ha
  refine ⟨fun fd a => ⟨fun ha => ?_, ?_⟩, fun a ha b hb heq => ?_, fun i => ⟨?_, fun hi => ?_⟩,
    fun a ha => ?_⟩
  · obtain ⟨hlt, hfd⟩ := h.keyed.mapped fd a ha
    refine ⟨(h.registered a).mpr ⟨hlt, ?_⟩, hfd⟩
    rw [Registered, hfd]
    exact ha
  · rintro ⟨ha, rfl⟩
    exact (hkept ha).2
  · exact h.placed.apart a (hkept ha).1 b (hkept hb).1 (hkept ha).2 (hkept hb).2 heq
  · rintro ⟨a, ha, rfl⟩
    obtain ⟨i, pfd, hi, hget, -⟩ := h.placed.seat a (hkept ha).1 (hkept ha).2
    have hlt := (List.getElem?_eq_some_iff.mp hget).1
    omega
  · obtain ⟨a, hlt, hreg, hindex⟩ := h.placed.taken i.toNat (by omega)
    exact ⟨a, (h.registered a).mpr ⟨hlt, hreg⟩, by omega⟩
  · obtain ⟨i, pfd, hi, hget, hown⟩ := h.placed.seat a (hkept ha).1 (hkept ha).2
    rw [Own, h.keyed.address] at hown
    exact ⟨pfd, by rwa [hi, Int.toNat_natCast], hown⟩

section Calls

variable {k : Nat} {events : Events}

theorem caller_recast (h : Keyed n s.loop) (k : Nat) (events : Events) :
    Recast s.loop k (caller s.loop k events) := ⟨rfl, h.address k⟩

/-- The slots of the other channels after the mark of one has changed. -/
theorem own_others (h : Keyed n s.loop) {muted : Finset Nat}
    (hmuted : ∀ j, j ≠ k → (j ∈ muted ↔ j ∈ s.muted)) (j : Nat) (hj : j ≠ k) (pfd : PollFd)
    (hown : Own s.muted (s.loop.channel j) pfd) : Own muted (s.loop.channel j) pfd := by
  rw [Own, h.address] at hown ⊢
  simp only [hmuted j hj]
  exact hown

/-- The record of the registered channels follows the map. -/
theorem Sound.registered_insert (h : Sound n s) (hk : k < n) {t : PollerLoop Poll γ}
    (hfd : ∀ j, (t.channel j).fd = (s.loop.channel j).fd)
    (hchannels : t.poller.channels =
      Function.update s.loop.poller.channels (s.loop.channel k).fd (some k)) (a : Nat) :
    a ∈ insert k s.registered ↔ a < n ∧ t.Registered a := by
  have hregs (ha : a < n) := h.keyed.registered_insert hk hfd hchannels ha
  rw [Finset.mem_insert, h.registered]
  refine ⟨fun ha => ?_, fun ha => ((hregs ha.1).mp ha.2).imp_right fun hr => ⟨ha.1, hr⟩⟩
  obtain rfl | ⟨hlt, hr⟩ := ha
  · exact ⟨hk, (hregs hk).mpr (.inl rfl)⟩
  · exact ⟨hlt, (hregs hlt).mpr (.inr hr)⟩

theorem Sound.registered_erase (h : Sound n s) (hk : k < n) {t : PollerLoop Poll γ}
    (hfd : ∀ j, (t.channel j).fd = (s.loop.channel j).fd)
    (hchannels : t.poller.channels =
      Function.update s.loop.poller.channels (s.loop.channel k).fd none) (a : Nat) :
    a ∈ s.registered.erase k ↔ a < n ∧ t.Registered a := by
  have hregs (ha : a < n) := h.keyed.registered_erase hk hfd hchannels ha
  rw [Finset.mem_erase, h.registered]
  refine ⟨fun ha => ⟨ha.2.1, (hregs ha.2.1).mpr ⟨ha.1, ha.2.2⟩⟩, fun ha => ?_⟩
  obtain ⟨hak, hr⟩ := (hregs ha.1).mp ha.2
  exact ⟨hak, ha.1, hr⟩

theorem exec_update {r : Channel γ × Poll}
    (h : s.loop.poller.updateChannel (caller s.loop k events) = .ok r) :
    s.exec (.updateChannel k events) = .ok ⟨s.loop.store k r, insert k s.registered,
      if (s.loop.channel k).index < 0 then s.muted.erase k
      else if events = 0 then insert k s.muted else s.muted⟩ := by
  simp only [exec, h, ok_bind]
  rfl

/-- A channel that had none gets the slot at the end. -/
theorem Sound.register (h : Sound n s) (hsize : n ≤ intMax) (hk : k < n) (events : Events)
    (hneg : (s.loop.channel k).index < 0) :
    ∃ t, s.exec (.updateChannel k events) = .ok t ∧ Sound n t := by
  have hfree := h.keyed.unused k hk hneg
  have haddress := h.keyed.address k
  have hlen := h.placed.length_lt hk fun hreg => nomatch hreg.symm.trans hfree
  let ch := { caller s.loop k events with index := (s.loop.poller.pollfds.length : Nat) }
  have hrecast : Recast s.loop k ch := ⟨rfl, haddress⟩
  have hmap : Function.update s.loop.poller.channels (caller s.loop k events).fd
      (some (caller s.loop k events).address) =
      Function.update s.loop.poller.channels (s.loop.channel k).fd (some k) := by
    rw [show (caller s.loop k events).address = k from haddress]
    rfl
  have hupdate := Poll.updateChannel_new (show (caller s.loop k events).index < 0 from hneg) hfree
    (by omega)
  rw [hmap] at hupdate
  have hexec := exec_update hupdate
  rw [if_pos hneg] at hexec
  refine ⟨_, hexec, ?_, ?_, fun a => ?_⟩
  · refine h.placed.register h.keyed hk hfree hrecast ?_ (own_others h.keyed fun j hj => ?_) rfl
    · rw [Own, if_neg]
      rw [show ch.address = k from haddress]
      exact Finset.notMem_erase k _
    · simp only [Finset.mem_erase, hj, ne_eq, not_false_eq_true, true_and]
  · exact h.keyed.store hk hrecast (fun fd a => entry_of_update) fun hlt =>
      absurd hlt (Int.not_lt.mpr (Int.natCast_nonneg _))
  · exact h.registered_insert hk (fd_update hrecast) rfl a

/-- The slot of a channel keeps its fd or is muted. -/
theorem Sound.change (h : Sound n s) (hsize : n ≤ intMax) (hk : k < n) (events : Events)
    (hreg : s.loop.Registered k) :
    ∃ t, s.exec (.updateChannel k events) = .ok t ∧ Sound n t := by
  obtain ⟨i, pfd, hindex, hget, hown⟩ := h.placed.seat k hk hreg
  have haddress := h.keyed.address k
  have hrecast := caller_recast h.keyed k events
  have hpos : ¬ (s.loop.channel k).index < 0 := by
    rw [hindex]
    exact Int.not_lt.mpr (Int.natCast_nonneg i)
  have hlen := h.placed.length_le
  have hexec := exec_update (Poll.updateChannel_registered
    (show (caller s.loop k events).index = (i : Nat) from hindex)
      (hreg.trans (congrArg some haddress.symm)) hget hown.fd (by omega))
  rw [if_neg hpos] at hexec
  have hkept (j) (hj : j ≠ k) :
      j ∈ (if events = 0 then insert k s.muted else s.muted) ↔ j ∈ s.muted := by
    split
    · rw [Finset.mem_insert]
      exact ⟨fun hmem => hmem.resolve_left hj, .inr⟩
    · exact Iff.rfl
  have hslot : (if (caller s.loop k events).isNoneEvent then -1 else pfd.fd) =
      if k ∈ (if events = 0 then insert k s.muted else s.muted) then -1
      else ((caller s.loop k events).fd : Int) := by
    have hnone : (caller s.loop k events).isNoneEvent = true ↔ events = 0 := decide_eq_true_iff
    rw [Own, haddress] at hown
    by_cases hevents : events = 0
    · rw [if_pos (hnone.mpr hevents), if_pos hevents, if_pos (Finset.mem_insert_self _ _)]
    · rw [if_neg fun hz => hevents (hnone.mp hz), if_neg hevents]
      exact hown
  refine ⟨_, hexec, ?_, ?_, fun a => ?_⟩
  · refine h.placed.change hk hreg hrecast hindex rfl ?_ (own_others h.keyed hkept)
    rw [Own, show (caller s.loop k events).address = k from haddress]
    exact hslot
  · exact h.keyed.store hk hrecast (fun fd a ha => .inl ha) fun hneg => absurd hneg hpos
  · change a ∈ insert k s.registered ↔ a < n ∧ s.loop.poller.channels
      (Function.update s.loop.channel k (caller s.loop k events) a).fd = some a
    rw [Finset.mem_insert, h.registered, fd_update hrecast]
    refine ⟨fun ha => ?_, .inr⟩
    rcases ha with rfl | ha
    · exact ⟨hk, hreg⟩
    · exact ha

/-- updateChannel is stopped by an assert or keeps the slots in order. -/
theorem Sound.update (h : Sound n s) (hsize : n ≤ intMax) (hk : k < n) (events : Events) :
    (∃ t, s.exec (.updateChannel k events) = .ok t ∧ Sound n t) ∨
      ∃ f, s.exec (.updateChannel k events) = .error f ∧ f.isAssertion = true := by
  by_cases hneg : (s.loop.channel k).index < 0
  · exact .inl (h.register hsize hk events hneg)
  · by_cases hreg : s.loop.Registered k
    · exact .inl (h.change hsize hk events hreg)
    · refine .inr ⟨.assertion .updateChannelPresent, ?_, rfl⟩
      have habsent : s.loop.poller.channels (s.loop.channel k).fd = none := by
        by_contra hsome
        exact hreg ((h.keyed.registered_iff hk).mpr hsome)
      have hupdate : s.loop.poller.updateChannel (caller s.loop k events) = .error _ :=
        Poll.updateChannel_absent (Int.not_lt.mp hneg) habsent
      simp only [exec, hupdate]
      rfl

theorem called_eq (s : PollerLoop Poll γ) (k : Nat) (events : Events) (j : Nat) :
    ∃ e, (called s k events).channel j = { s.channel j with events := e } := by
  by_cases hj : j = k
  · subst hj
    exact ⟨events, Function.update_self _ _ _⟩
  · exact ⟨(s.channel j).events, Function.update_of_ne hj _ _⟩

theorem called_fd (s : PollerLoop Poll γ) (k : Nat) (events : Events) (j : Nat) :
    ((called s k events).channel j).fd = (s.channel j).fd := by
  obtain ⟨e, hj⟩ := called_eq s k events j
  rw [hj]

theorem called_poller (s : PollerLoop Poll γ) (k : Nat) (events : Events) :
    (called s k events).poller = s.poller := rfl

theorem called_index (s : PollerLoop Poll γ) (k : Nat) (events : Events) (j : Nat) :
    ((called s k events).channel j).index = (s.channel j).index := by
  obtain ⟨e, hj⟩ := called_eq s k events j
  rw [hj]

theorem called_registered (s : PollerLoop Poll γ) (k : Nat) (events : Events) (j : Nat) :
    (called s k events).Registered j ↔ s.Registered j := by
  rw [Registered, called_fd]
  rfl

theorem called_lastFound (s : PollerLoop Poll γ) (k : Nat) (events : Events) :
    (called s k events).LastFound ↔ s.LastFound := by
  simp only [LastFound, called_index]
  rfl

theorem Sound.called_keyed (h : Sound n s) (hk : k < n) (events : Events) :
    Keyed n (called s.loop k events) :=
  h.keyed.store hk (caller_recast h.keyed k events) (fun _ _ ha => .inl ha)
    fun hneg => h.keyed.unused k hk hneg

theorem Sound.called_placed (h : Sound n s) (hk : k < n) (hreg : s.loop.Registered k)
    (events : Events) : Placed (Own s.muted) n (called s.loop k events) :=
  h.placed.recast hk hreg (caller_recast h.keyed k events) rfl fun _ hown => hown

/-- A permitted removal comes to closing the gap. -/
theorem Sound.exec_remove (h : Sound n s) (hsize : n ≤ intMax) (hk : k < n)
    (hpermitted : s.Permitted k events) :
    ∃ i : Nat, (s.loop.channel k).index = i ∧ i < s.loop.poller.pollfds.length ∧
      s.exec (.removeChannel k events) = (do
        let loop ← Poll.closeGap ⟨(called s.loop k events).channel, ⟨s.loop.poller.pollfds,
          Function.update s.loop.poller.channels (s.loop.channel k).fd none⟩⟩ i
        return ⟨loop, s.registered.erase k, s.muted⟩) := by
  obtain ⟨hreg, rfl, hslot⟩ := hpermitted
  obtain ⟨i, pfd, hindex, hget, -⟩ := h.placed.seat k hk hreg
  rw [hindex, Int.toNat_natCast] at hslot
  have hlen := h.placed.length_le
  have hremove := Poll.removeChannel_registered (s := called s.loop k 0)
    (show (caller s.loop k 0).index = (i : Nat) from hindex)
      (hreg.trans (congrArg some (h.keyed.address k).symm)) rfl hget (hslot pfd hget)
    (hlen.trans hsize)
  refine ⟨i, hindex, (List.getElem?_eq_some_iff.mp hget).1, ?_⟩
  simp only [exec, hremove]
  rfl

/-- A removal that finds the channel of the last slot. -/
theorem Sound.remove (h : Sound n s) (hsize : n ≤ intMax) (hk : k < n)
    (hpermitted : s.Permitted k events)
    (hfound : (s.loop.channel k).index = s.lastIndex ∨
      (∀ back ∈ s.loop.poller.pollfds.getLast?, 0 ≤ back.fd) ∨ s.loop.LastFound) :
    ∃ t, s.exec (.removeChannel k events) = .ok t ∧ Sound n t ∧
      ∀ a ∈ s.registered, a ≠ k → (t.loop.channel a).index =
        if (s.loop.channel a).index = s.lastIndex then (s.loop.channel k).index
        else (s.loop.channel a).index := by
  obtain ⟨i, hindex, hlt, hexec⟩ := h.exec_remove hsize hk hpermitted
  obtain ⟨back, hback⟩ : ∃ back,
      s.loop.poller.pollfds[s.loop.poller.pollfds.length - 1]? = some back :=
    ⟨_, List.getElem?_eq_getElem (by omega)⟩
  have hreg := hpermitted.1
  have hkeyed := h.called_keyed hk events
  have hplaced := h.called_placed hk hreg events
  have hregs := called_registered s.loop k events
  have hindex' := (called_index s.loop k events k).trans hindex
  have hplace : ((called s.loop k events).channel k).index = s.lastIndex ∨ 0 ≤ back.fd ∨
      (called s.loop k events).LastFound := by
    rw [called_index, called_lastFound]
    refine hfound.imp_right fun hlast => hlast.imp_left fun hall => hall back ?_
    rw [List.getLast?_eq_getElem?]
    exact hback
  obtain ⟨channel, hclose, hleaves, -⟩ := closeGap_ok hplaced hkeyed (fun _ _ hown => hown.fd) hsize
    hk ((hregs k).mpr hreg) hindex' hback hplace
  simp only [called_fd, called_poller] at hclose
  rw [hclose, ok_bind] at hexec
  refine ⟨_, hexec, ⟨?_, ?_, fun a => ?_⟩, fun a ha hak => ?_⟩
  · have hleft : Placed (Own s.muted) n _ :=
      hplaced.leave hkeyed hk ((hregs k).mpr hreg) hindex' hback
      hleaves fun j _ pfd hown => ?_
    · rw [called_fd] at hleft
      exact hleft
    · rw [Own, hleaves.fd, hleaves.address]
      exact hown
  · have hleft : Keyed n ⟨channel, ⟨(s.loop.poller.pollfds.set i back).dropLast, _⟩⟩ :=
      hkeyed.leave hleaves
    rw [called_fd] at hleft
    exact hleft
  · exact h.registered_erase hk (fun j => (hleaves.fd j).trans (called_fd s.loop k events j)) rfl a
  · obtain ⟨han, hra⟩ := (h.registered a).mp ha
    have hmoved := hleaves.moved a han hak ((hregs a).mpr hra)
    rw [called_index] at hmoved
    exact hmoved.trans (by rw [hindex]; rfl)

/-- A removal that looks for a muted last slot in vain: it writes through a null
pointer or gives the index to another channel than the one that has moved. -/
theorem Sound.remove_lost (h : Sound n s) (hsize : n ≤ intMax) (hk : k < n)
    (hpermitted : s.Permitted k events) (hplace : (s.loop.channel k).index ≠ s.lastIndex)
    {back : PollFd} (hback : s.loop.poller.pollfds.getLast? = some back) (hneg : back.fd < 0)
    (hlost : ¬ s.loop.LastFound) :
    s.exec (.removeChannel k events) = .error .nullPointer ∨
      ∃ t, s.exec (.removeChannel k events) = .ok t ∧ ¬ t.Intact := by
  obtain ⟨i, hindex, hlt, hexec⟩ := h.exec_remove hsize hk hpermitted
  have hlen := h.placed.length_le
  have hi : i ≠ s.loop.poller.pollfds.length - 1 := fun heq =>
    hplace (hindex.trans (congrArg Nat.cast heq))
  have hgetLast := hback
  rw [List.getLast?_eq_getElem?] at hback
  -- the channel that has the last slot
  obtain ⟨b, hb, hregb, hindexb⟩ := h.placed.taken (s.loop.poller.pollfds.length - 1) (by omega)
  have hbk : b ≠ k := by
    rintro rfl
    exact hi (Int.ofNat.inj (hindex.symm.trans hindexb))
  have hmark : back.fd = -1 := by
    obtain ⟨j, pfd, hj, hget, hown⟩ := h.placed.seat b hb hregb
    obtain rfl : s.loop.poller.pollfds.length - 1 = j := Int.ofNat.inj (hindexb.symm.trans hj)
    cases hback.symm.trans hget
    exact hown.fd.resolve_left fun heq => absurd hneg (by omega)
  have htoInt : toInt (s.loop.poller.pollfds.length - 1) ≠ (i : Int) := by
    rw [toInt_of_le (by omega)]
    exact fun heq => hi (Int.ofNat.inj heq.symm)
  have hend : (if back.fd < 0 then -back.fd - 1 else back.fd).toNat = 0 := by
    rw [hmark]
    rfl
  cases hzero : Function.update s.loop.poller.channels (s.loop.channel k).fd none 0 with
  | none =>
      refine .inl ?_
      rw [hexec]
      simp only [Poll.closeGap, if_neg htoInt, hgetLast, hend, hzero]
      rfl
  | some a =>
      simp only [Poll.closeGap, if_neg htoInt, hgetLast, hend, hzero, ok_bind] at hexec
      refine .inr ⟨_, hexec, fun hintact => ?_⟩
      have hold : s.loop.poller.channels 0 = some a := entry_of_erase hzero
      have hba : b ≠ a := by
        rintro rfl
        exact hlost ⟨b, hold, hindexb⟩
      -- it keeps an index past the array that is left
      have hmem : b ∈ s.registered.erase k :=
        Finset.mem_erase.mpr ⟨hbk, (h.registered b).mpr ⟨hb, hregb⟩⟩
      have hcover := (hintact.cover (s.loop.poller.pollfds.length - 1 : Nat)).mp ⟨b, hmem, ?_⟩
      · simp only [List.length_dropLast, List.length_set] at hcover
        omega
      · rw [← hindexb, ← called_index s.loop k events b]
        exact congrArg Channel.index (Function.update_of_ne hba _ _)

theorem exec_remove_error {f : Fault}
    (h : Poll.removeChannel (called s.loop k events) (caller s.loop k events) = .error f) :
    s.exec (.removeChannel k events) = .error f := by
  simp only [exec, h]
  rfl

/-- Any other removal is stopped by an assert. -/
theorem Sound.remove_refused (h : Sound n s) (hsize : n ≤ intMax) (hk : k < n)
    (hrefused : ¬ s.Permitted k events) :
    ∃ f, s.exec (.removeChannel k events) = .error f ∧ f.isAssertion = true := by
  have hnone : (caller s.loop k events).isNoneEvent = true ↔ events = 0 := decide_eq_true_iff
  by_cases hreg : s.loop.Registered k
  · obtain ⟨i, pfd, hindex, hget, -⟩ := h.placed.seat k hk hreg
    have hlen := h.placed.length_le
    have hsame := hreg.trans (congrArg some (h.keyed.address k).symm)
    by_cases hevents : events = 0
    · refine ⟨.assertion .pollRemoveFd, exec_remove_error ?_, rfl⟩
      refine Poll.removeChannel_unmuted hindex hsame (hnone.mpr hevents) hget ?_ (by
        rw [called_poller]
        omega)
      rintro ⟨hfd, hshort⟩
      refine hrefused ⟨hreg, hevents, fun p hp => ?_⟩
      rw [hindex, Int.toNat_natCast] at hp
      cases hget.symm.trans hp
      rw [hshort, hevents]
      exact ⟨hfd, rfl⟩
    · refine ⟨.assertion .removeChannelNoneEvent, exec_remove_error ?_, rfl⟩
      exact Poll.removeChannel_waiting hsame fun hz => hevents (hnone.mp hz)
  · refine ⟨.assertion .removeChannelPresent, exec_remove_error ?_, rfl⟩
    refine Poll.removeChannel_absent ?_
    by_contra hsome
    exact hreg ((h.keyed.registered_iff hk).mpr hsome)

/-- A call that finds the channel of the last slot, if it looks for it. -/
theorem Sound.found (h : Sound n s) (hsize : n ≤ intMax) {c : PollCall} (hc : c.channel < n)
    (hfound : s.LastSlotFound c) :
    (∃ t, s.exec c = .ok t ∧ Sound n t) ∨ ∃ f, s.exec c = .error f ∧ f.isAssertion = true := by
  cases c with
  | updateChannel k events => exact h.update hsize hc events
  | removeChannel k events =>
      by_cases hpermitted : s.Permitted k events
      · obtain ⟨t, ht, hsound, -⟩ := h.remove hsize hc hpermitted (hfound hpermitted)
        exact .inl ⟨t, ht, hsound⟩
      · exact .inr (h.remove_refused hsize hc hpermitted)

theorem Sound.moved (h : Sound n s) (hsize : n ≤ intMax) {c : PollCall} (hc : c.channel < n)
    (hfound : s.LastSlotFound c) : s.Moved c := by
  cases c with
  | updateChannel k events => trivial
  | removeChannel k events =>
      intro t ht
      by_cases hpermitted : s.Permitted k events
      · obtain ⟨t', ht', -, hmoved⟩ := h.remove hsize hc hpermitted (hfound hpermitted)
        cases ht.symm.trans ht'
        exact hmoved
      · obtain ⟨f, hf, -⟩ := h.remove_refused hsize hc hpermitted
        cases ht.symm.trans hf

theorem Sound.lost (h : Sound n s) (hsize : n ≤ intMax) {c : PollCall} (hc : c.channel < n)
    (hlost : ¬ s.LastSlotFound c) :
    (∃ f, s.exec c = .error f ∧ ¬ f.isAssertion = true) ∨ ∃ t, s.exec c = .ok t ∧ ¬ t.Intact := by
  cases c with
  | updateChannel k events => exact absurd trivial hlost
  | removeChannel k events =>
      simp only [LastSlotFound, Classical.not_imp, not_or, not_forall, Int.not_le] at hlost
      obtain ⟨hpermitted, hplace, ⟨back, hback, hneg⟩, hnot⟩ := hlost
      rcases h.remove_lost hsize hc hpermitted hplace hback hneg hnot with hfault | hbroken
      · exact .inl ⟨.nullPointer, hfault, Bool.false_ne_true⟩
      · exact .inr hbroken

end Calls

/-- Under any sequence of calls that only asserts may stop, every registered channel
has its slot, and a removal gives the moved channel its new index, exactly as long
as a muted last slot is removed itself or is the one of fd 0. -/
theorem indices_intact_iff {fds : Nat → Nat} (hfds : Set.InjOn fds { k | k < n })
    (hint : ∀ k < n, fds k < intMax) (calls : List PollCall) (hcalls : ∀ c ∈ calls, c.channel < n) :
    ((∀ f, run exec (new fds : PollHistory γ) calls = .error f → f.isAssertion = true) ∧
        Always exec Intact (new fds : PollHistory γ) calls) ∧
        Respects exec Moved (new fds : PollHistory γ) calls ↔
      Respects exec LastSlotFound (new fds : PollHistory γ) calls := by
  have hsize := channels_le hfds hint
  have hbelow : Respects exec (fun _ c => c.channel < n) (new fds : PollHistory γ) calls :=
    respects_of_forall (fun c hc _ => hcalls c hc) _
  have hsafe : ((∀ f, run exec (new fds : PollHistory γ) calls = .error f → f.isAssertion = true) ∧
      Always exec Intact (new fds : PollHistory γ) calls) ↔
        Respects exec LastSlotFound (new fds : PollHistory γ) calls :=
    safe_iff_respects_of_breaks (fun s => Sound.intact) (fun s c h hc hpre => h.found hsize hc hpre)
      (fun s c h hc hpre => h.lost hsize hc hpre) (sound_new hfds) hbelow
  refine ⟨fun h => hsafe.mp h.1, fun h => ⟨hsafe.mpr h, ?_⟩⟩
  refine (h.and hbelow).of_invariant (I := Sound n) (fun s c hs hc => hs.moved hsize hc.2 hc.1)
    (fun s c t hs hc ht => ?_) (sound_new hfds)
  rcases hs.found hsize hc.2 hc.1 with ⟨t', ht', hsound⟩ | ⟨f, hf, -⟩
  · cases ht.symm.trans ht'
    exact hsound
  · cases ht.symm.trans hf

/-- A muted channel is removed from the first slot while the last one is watched. -/
theorem indices_intact_iff_watched :
    ((∀ f, run exec (new (fun k => k + 3) : PollHistory Unit)
          [.updateChannel 0 kReadEvent, .updateChannel 1 kReadEvent, .updateChannel 0 0,
            .removeChannel 0 0] = .error f → f.isAssertion = true) ∧
        Always exec Intact (new (fun k => k + 3) : PollHistory Unit)
          [.updateChannel 0 kReadEvent, .updateChannel 1 kReadEvent, .updateChannel 0 0,
            .removeChannel 0 0]) ∧
      Respects exec Moved (new (fun k => k + 3) : PollHistory Unit)
        [.updateChannel 0 kReadEvent, .updateChannel 1 kReadEvent, .updateChannel 0 0,
          .removeChannel 0 0] :=
  (indices_intact_iff (n := 2) (fun _ _ _ _ h => Nat.add_right_cancel h) (by decide) _
    (by decide)).mpr (by decide +kernel)

/-- The last slot is muted too: removeChannel writes through the null pointer that it
has put into the map under fd 0, or, where a channel has this fd, renumbers that one
and leaves the moved channel an index past the end. -/
theorem indices_lost :
    run exec (new (fun k => k + 3) : PollHistory Unit)
        [.updateChannel 0 kReadEvent, .updateChannel 1 kReadEvent, .updateChannel 0 0,
          .updateChannel 1 0, .removeChannel 0 0] = .error .nullPointer ∧
      ∃ t : PollHistory Unit, run exec (new fun k => k)
        [.updateChannel 0 kReadEvent, .updateChannel 1 kReadEvent, .updateChannel 2 kReadEvent,
          .updateChannel 1 0, .updateChannel 2 0, .removeChannel 1 0] = .ok t ∧
        (t.loop.channel 0).index = 1 ∧ (t.loop.channel 2).index = 2 ∧ 2 ∈ t.registered ∧
        t.loop.poller.pollfds.length = 2 ∧ ¬ t.Intact := by
  refine ⟨rfl, _, rfl, rfl, rfl, by decide, rfl, fun hintact => ?_⟩
  have hcover := (hintact.cover 2).mp ⟨2, by decide, rfl⟩
  exact absurd hcover.2 (by decide)

end PollHistory
end TAlib
