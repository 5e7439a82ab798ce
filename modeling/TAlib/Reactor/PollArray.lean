import TAlib.Reactor.PollSlots

/-!
The poll array. It has one slot for each registered channel, where the index of
the channel points, and the slot waits for the channel's events or is muted. Poll
does not unmute a slot, does not remove a channel whose slot is not muted, and
loses track of the last slot when that is muted while another is removed.
-/

namespace TAlib

open Foundation

/-- The poll array waits for these events on the fd. -/
def Poll.Watches (p : Poll) (fd : Nat) (mask : Events) : Prop :=
  ∃ pfd ∈ p.pollfds, pfd.fd = fd ∧ pfd.events ≠ 0 ∧ pfd.events.setWidth 32 = mask

/-- A registered channel has this fd and waits for these events. -/
def Wants {γ : Type} (channels : Nat → Option Nat) (channel : Nat → Channel γ) (fd : Nat)
    (mask : Events) : Prop :=
  ∃ address, channels fd = some address ∧ (channel address).events = mask ∧ mask ≠ 0

namespace PollerLoop

variable {γ : Type}

/-- The slot of the channel is muted, and it is the last one, or the last one is
not muted or is found again. -/
def Removable (s : PollerLoop Poll γ) (k : Nat) (pfd : PollFd) : Prop :=
  pfd.fd = -1 ∧ ((s.channel k).index = (s.poller.pollfds.length - 1 : Nat) ∨
    (∀ back ∈ s.poller.pollfds.getLast?, 0 ≤ back.fd) ∨ s.LastFound)

/-- A registered channel is given interest only if its slot is not muted, and is
removed only if it is Removable. -/
def Followed (s : PollerLoop Poll γ) (c : InterestCall) : Prop :=
  s.Registered c.channel →
    ∀ pfd ∈ s.poller.pollfds[(s.channel c.channel).index.toNat]?,
      match c.op with
      | .remove => (s.channel c.channel).isNoneEvent = true → s.Removable c.channel pfd
      | op => op.apply (s.channel c.channel).events ≠ 0 → pfd.fd ≠ -1

instance (s : PollerLoop Poll γ) (c : InterestCall) : Decidable (s.Followed c) := by
  unfold Followed Removable
  cases c.op <;> infer_instance

/-- A slot as its channel has it, with its interest muted or not. -/
structure Seat (ch : Channel γ) (pfd : PollFd) : Prop where
  events : pfd.events = Poll.shortEvents ch
  fd : pfd.fd = ch.fd ∨ pfd.fd = -1 ∧ ch.events = 0

/-- Each registered channel has the slot at its index, and every slot is taken. -/
structure Seated (n : Nat) (s : PollerLoop Poll γ) : Prop where
  seat : ∀ k < n, s.Registered k →
    ∃ i pfd, (s.channel k).index = (i : Nat) ∧ s.poller.pollfds[i]? = some pfd ∧
      Seat (s.channel k) pfd
  taken : ∀ i < s.poller.pollfds.length, ∃ k < n, s.Registered k ∧ (s.channel k).index = (i : Nat)
  apart : ∀ k < n, ∀ k' < n, s.Registered k → s.Registered k' →
    (s.channel k).index = (s.channel k').index → k = k'

/-- The channels of a loop, by their addresses below n, as their poller maps them. -/
structure Mapped (n : Nat) (s : PollerLoop Poll γ) : Prop where
  distinct : ∀ i < n, ∀ j < n, (s.channel i).fd = (s.channel j).fd → i = j
  address : ∀ k, (s.channel k).address = k
  small : ∀ k, (s.channel k).events.toNat < 8
  mapped : ∀ fd a, s.poller.channels fd = some a → a < n ∧ (s.channel a).fd = fd
  unused : ∀ k < n, (s.channel k).index < 0 → s.poller.channels (s.channel k).fd = none

theorem setWidth_small {e : Events} (h : e.toNat < 8) : (e.setWidth 16).setWidth 32 = e := by
  apply BitVec.eq_of_toNat_eq
  simp only [BitVec.toNat_setWidth]
  omega

theorem setWidth_eq_zero {e : Events} (h : e.toNat < 8) : e.setWidth 16 = 0 ↔ e = 0 := by
  constructor
  · intro hz
    have := congrArg (BitVec.setWidth 32) hz
    rw [setWidth_small h] at this
    rw [this]
    rfl
  · rintro rfl
    rfl

theorem apply_small (op : InterestOp) {e : Events} (h : e.toNat < 8) : (op.apply e).toNat < 8 := by
  have hand (m : Events) : (e &&& m).toNat < 8 := by
    rw [BitVec.toNat_and]
    exact Nat.lt_of_le_of_lt Nat.and_le_left h
  cases op with
  | enableReading | enableWriting =>
      rw [InterestOp.apply, BitVec.toNat_or]
      exact Nat.or_lt_two_pow (n := 3) h (by decide)
  | disableReading | disableWriting => exact hand _
  | disableAll => exact (by decide : kNoneEvent.toNat < 8)
  | remove => exact h

section Slots

variable {n : Nat} {s : PollerLoop Poll γ}

theorem Seated.watches_iff (h : Seated n s) (hmaps : Mapped n s) (fd : Nat) (mask : Events) :
    s.poller.Watches fd mask ↔ Wants s.poller.channels s.channel fd mask := by
  constructor
  · rintro ⟨pfd, hmem, hfd, hevents, rfl⟩
    obtain ⟨i, hi⟩ := List.mem_iff_getElem?.mp hmem
    obtain ⟨k, hk, hreg, hindex⟩ := h.taken i (List.getElem?_eq_some_iff.mp hi).1
    obtain ⟨i', pfd', hindex', hi', hseat⟩ := h.seat k hk hreg
    obtain rfl : i = i' := Int.ofNat.inj (hindex.symm.trans hindex')
    cases hi.symm.trans hi'
    have hsame : pfd.fd = (s.channel k).fd := by
      cases hseat.fd with
      | inl heq => exact heq
      | inr hmuted => omega
    have heq : fd = (s.channel k).fd := by omega
    have hsmall := hmaps.small k
    rw [hseat.events, Poll.shortEvents, Ne, setWidth_eq_zero hsmall] at hevents
    refine ⟨k, heq ▸ hreg, ?_, ?_⟩
    · rw [hseat.events, Poll.shortEvents, setWidth_small hsmall]
    · rwa [hseat.events, Poll.shortEvents, setWidth_small hsmall]
  · rintro ⟨k, hk, rfl, hmask⟩
    obtain ⟨hlt, rfl⟩ := hmaps.mapped fd k hk
    obtain ⟨i, pfd, -, hi, hseat⟩ := h.seat k hlt hk
    have hsmall := hmaps.small k
    refine ⟨pfd, List.mem_of_getElem? hi, ?_, ?_, ?_⟩
    · cases hseat.fd with
      | inl heq => exact heq
      | inr hmuted => exact absurd hmuted.2 hmask
    · rw [hseat.events, Poll.shortEvents, Ne, setWidth_eq_zero hsmall]
      exact hmask
    · rw [hseat.events, Poll.shortEvents, setWidth_small hsmall]

theorem Mapped.keyed (h : Mapped n s) : Keyed n s := ⟨h.distinct, h.address, h.mapped, h.unused⟩

theorem Keyed.maps (h : Keyed n s) (hsmall : ∀ k, (s.channel k).events.toNat < 8) : Mapped n s :=
  ⟨h.distinct, h.address, hsmall, h.mapped, h.unused⟩

theorem Seated.placed (h : Seated n s) : Placed Seat n s := ⟨h.seat, h.taken, h.apart⟩

theorem Placed.seated (h : Placed Seat n s) : Seated n s := ⟨h.seat, h.taken, h.apart⟩

end Slots

section Updates

variable {n : Nat} {s : PollerLoop Poll γ} {k : Nat} {ch : Channel γ}

/-- The channel is changed in what the pollers do not map. -/
structure Edits (s : PollerLoop Poll γ) (k : Nat) (ch : Channel γ) : Prop where
  fd : ch.fd = (s.channel k).fd
  address : ch.address = k
  small : ch.events.toNat < 8

theorem Edits.recast (h : Edits s k ch) : Recast s k ch := ⟨h.fd, h.address⟩

theorem Mapped.store (h : Mapped n s) (hk : k < n) (hedits : Edits s k ch)
    {pollfds : List PollFd} {channels : Nat → Option Nat}
    (hchannels : ∀ fd a, channels fd = some a →
      s.poller.channels fd = some a ∨ fd = (s.channel k).fd ∧ a = k)
    (hindex : ch.index < 0 → channels (s.channel k).fd = none) :
    Mapped n ⟨Function.update s.channel k ch, ⟨pollfds, channels⟩⟩ := by
  refine (h.keyed.store hk hedits.recast hchannels hindex).maps fun j => ?_
  by_cases hj : j = k
  · subst hj
    simp only [Function.update_self]
    exact hedits.small
  · simp only [Function.update_of_ne hj]
    exact h.small j

/-- A slot for a channel that had none. -/
theorem Seated.register (h : Seated n s) (hmaps : Mapped n s) (hk : k < n)
    (hfree : s.poller.channels (s.channel k).fd = none) (hedits : Edits s k ch) {pfd : PollFd}
    (hseat : Seat ch pfd) (hindex : ch.index = (s.poller.pollfds.length : Nat)) :
    Seated n ⟨Function.update s.channel k ch, ⟨s.poller.pollfds ++ [pfd],
      Function.update s.poller.channels (s.channel k).fd (some k)⟩⟩ :=
  (h.placed.register hmaps.keyed hk hfree hedits.recast hseat (fun _ _ _ hp => hp) hindex).seated

/-- The slot of a registered channel changes with it. -/
theorem Seated.change (h : Seated n s) (hk : k < n) (hreg : s.Registered k)
    (hedits : Edits s k ch) {i : Nat} (hindex : (s.channel k).index = (i : Nat))
    (hsame : ch.index = (s.channel k).index) {pfd : PollFd} (hseat : Seat ch pfd) :
    Seated n ⟨Function.update s.channel k ch, { s.poller with
      pollfds := s.poller.pollfds.set i pfd }⟩ :=
  (h.placed.change hk hreg hedits.recast hindex hsame hseat fun _ _ _ hp => hp).seated

theorem Mapped.leave (h : Mapped n s) {i : Nat} {channel : Nat → Channel γ}
    (hleaves : Leaves s n k i channel) {pollfds : List PollFd} :
    Mapped n ⟨channel, ⟨pollfds,
      Function.update s.poller.channels (s.channel k).fd none⟩⟩ :=
  (h.keyed.leave hleaves).maps fun j => by
    simp only [hleaves.events]
    exact h.small j

theorem Seated.leave (h : Seated n s) (hmaps : Mapped n s) (hk : k < n) (hreg : s.Registered k)
    {i : Nat} (hindex : (s.channel k).index = (i : Nat)) {back : PollFd}
    (hback : s.poller.pollfds[s.poller.pollfds.length - 1]? = some back)
    {channel : Nat → Channel γ} (hleaves : Leaves s n k i channel) :
    Seated n ⟨channel, ⟨(s.poller.pollfds.set i back).dropLast,
      Function.update s.poller.channels (s.channel k).fd none⟩⟩ := by
  refine (h.placed.leave hmaps.keyed hk hreg hindex hback hleaves fun j _ p hp => ⟨?_, ?_⟩).seated
  · rw [hp.events, Poll.shortEvents, Poll.shortEvents, hleaves.events]
  · rw [hleaves.fd, hleaves.events]
    exact hp.fd

end Updates

end PollerLoop

namespace PollerLoop

variable {γ : Type}

section Removal

variable {n : Nat} {s : PollerLoop Poll γ} {k i : Nat} {back : PollFd}

/-- The channels after m_addedToLoop of the removed one has been cleared. -/
def cleared (s : PollerLoop Poll γ) (k : Nat) : Nat → Channel γ :=
  Function.update s.channel k { s.channel k with addedToLoop := false }

theorem cleared_eq (s : PollerLoop Poll γ) (k j : Nat) :
    ∃ added, cleared s k j = { s.channel j with addedToLoop := added } := by
  by_cases hj : j = k
  · subst hj
    exact ⟨false, by rw [cleared, Function.update_self]⟩
  · exact ⟨(s.channel j).addedToLoop, by rw [cleared, Function.update_of_ne hj]⟩

/-- The loop with m_addedToLoop of the removed channel cleared. -/
theorem cleared_edits (hmaps : Mapped n s) (k : Nat) :
    Edits s k { s.channel k with addedToLoop := false } :=
  ⟨rfl, hmaps.address k, hmaps.small k⟩

/-- The gap is closed, and the indices follow the slots. -/
theorem Seated.closeGap_ok (hseated : Seated n s) (hmaps : Mapped n s) (hsize : n ≤ intMax)
    (hk : k < n) (hreg : s.Registered k) (hindex : (s.channel k).index = (i : Nat))
    (hback : s.poller.pollfds[s.poller.pollfds.length - 1]? = some back)
    (hplace : (s.channel k).index = (s.poller.pollfds.length - 1 : Nat) ∨ 0 ≤ back.fd ∨
      s.LastFound) :
    ∃ channel, Poll.closeGap ⟨cleared s k, ⟨s.poller.pollfds,
        Function.update s.poller.channels (s.channel k).fd none⟩⟩ (i : Nat) =
      .ok ⟨channel, ⟨(s.poller.pollfds.set i back).dropLast,
        Function.update s.poller.channels (s.channel k).fd none⟩⟩ ∧
      Leaves s n k i channel ∧
      ∀ j, channel j = { cleared s k j with index := (channel j).index } := by
  have hcleared := cleared_edits hmaps k
  let s₁ : PollerLoop Poll γ := { s with channel := cleared s k }
  have hfd (j) : (s₁.channel j).fd = (s.channel j).fd := by
    obtain ⟨added, hj⟩ := cleared_eq s k j
    simp only [s₁, hj]
  have hidx (j) : (s₁.channel j).index = (s.channel j).index := by
    obtain ⟨added, hj⟩ := cleared_eq s k j
    simp only [s₁, hj]
  have hreg₁ (j) : s₁.Registered j ↔ s.Registered j := by rw [Registered, hfd]; rfl
  have hkeyed : Keyed n s₁ := hmaps.keyed.store hk hcleared.recast (fun _ _ ha => .inl ha)
    fun hneg => absurd (hindex ▸ hneg : (i : Int) < 0) (Int.not_lt.mpr (Int.natCast_nonneg i))
  have hplaced : Placed Seat n s₁ :=
    hseated.placed.recast hk hreg hcleared.recast rfl fun _ hseat => ⟨hseat.events, hseat.fd⟩
  have hplace₁ : (s₁.channel k).index = (s₁.poller.pollfds.length - 1 : Nat) ∨ 0 ≤ back.fd ∨
      s₁.LastFound := by
    refine (hidx k).symm ▸ hplace.imp_right fun h => h.imp_right ?_
    rintro ⟨a, ha, hlast⟩
    exact ⟨a, ha, (hidx a).trans hlast⟩
  obtain ⟨channel, hclose, hleaves, hchannel⟩ := PollerLoop.closeGap_ok hplaced hkeyed
    (fun ch pfd hp => hp.fd.imp_right And.left) hsize hk ((hreg₁ k).mpr hreg)
    ((hidx k).trans hindex) hback hplace₁
  rw [hfd k] at hclose
  refine ⟨channel, hclose, ⟨fun j => ?_, fun j => ?_, fun j => ?_, fun j hj hjk hr => ?_,
    fun j hj => ?_⟩, hchannel⟩
  · rw [hleaves.fd, hfd]
  · obtain ⟨added, hj⟩ := cleared_eq s k j
    rw [hleaves.address]
    simp only [s₁, hj]
  · obtain ⟨added, hj⟩ := cleared_eq s k j
    rw [hleaves.events]
    simp only [s₁, hj]
  · rw [hleaves.moved j hj hjk ((hreg₁ j).mpr hr), hidx]
  · rw [hleaves.index j hj, hidx]

end Removal

end PollerLoop

end TAlib
