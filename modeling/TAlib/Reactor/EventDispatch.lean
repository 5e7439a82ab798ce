import Mathlib.Data.Set.Card
import TAlib.Reactor.PollerAgreement

/-!
Epoll under a loop: the channels change their interest, and poll has the kernel
fill the event array and turns what it finds there into the active channels. The
array has as many elements as it was made with. What grows with the channels is
its capacity, and the number of events the kernel is allowed to write.
-/

namespace TAlib

open Foundation

/-- struct epoll_event. -/
structure EpollEvent where
  fd : Nat
  events : Events
  deriving DecidableEq, Repr

/-- `epollEvents` is what the elements of m_epollEvents hold. -/
structure EpollLoop (γ : Type) where
  loop : PollerLoop Epoll γ
  epollEvents : List EpollEvent
  activeChannels : List Nat

/-- The events that epoll_wait has reported, unless it failed. -/
inductive EpollCall where
  | interest (c : InterestCall)
  | poll (reported : Option (List EpollEvent))
  deriving DecidableEq, Repr

namespace EpollLoop

variable {γ : Type}

def new (fds : Nat → Nat) : EpollLoop γ :=
  ⟨PollerLoop.new fds Epoll.new, List.replicate kInitEpollEventsSize ⟨0, 0⟩, []⟩

/-- The loop over the elements from `it` on, with numEvents still to be found. -/
def fillActiveChannels (s : PollerLoop Epoll γ) (activeChannels : List Nat) :
    List EpollEvent → Nat → Except Fault (PollerLoop Epoll γ × List Nat)
  | [], _ => .ok (s, activeChannels)
  | _, 0 => .ok (s, activeChannels)
  | it :: rest, numEvents + 1 => do
      require (it.events ≠ 0) .fillEventsPositive
      match s.poller.channels it.fd with
      | none => .error (.assertion .fillChannelPresent)
      | some a => do
          require ((s.channel a).fd = it.fd) .fillChannelFd
          let channel := (s.channel a).setRevents it.events
          fillActiveChannels { s with channel := Function.update s.channel a channel }
            (activeChannels ++ [a]) rest numEvents

/-- poll, after the loop has cleared the active channels. epoll_wait writes to
data(), so what it writes past the last element is not in the vector, and past
the capacity it is not even in the vector's storage. -/
def poll (s : EpollLoop γ) (result : Option (List EpollEvent)) :
    Except Fault (EpollLoop γ) := do
  let size := s.epollEvents.length
  require (0 < size) .epollEventsPresent
  match result with
  | none => return { s with activeChannels := [] }
  | some reported =>
      if s.loop.poller.eventsCapacity < reported.length then .error .outOfBounds
      else do
        let epollEvents := reported.take size ++ s.epollEvents.drop reported.length
        let (loop, activeChannels) ← fillActiveChannels s.loop [] epollEvents reported.length
        return ⟨loop, epollEvents, activeChannels⟩

def exec (s : EpollLoop γ) : EpollCall → Except Fault (EpollLoop γ)
  | .interest c => do
      let loop ← s.loop.execEpoll c
      return { s with loop := loop }
  | .poll reported => s.poll reported

def Registered (s : EpollLoop γ) (k : Nat) : Prop :=
  s.loop.poller.channels (s.loop.channel k).fd = some k

/-- What epoll_wait promises: it reports at most maxevents fds, each of them
registered, once, and with some event. -/
def Reported (s : EpollLoop γ) : EpollCall → Prop
  | .poll (some reported) =>
      reported.length ≤ toInt s.loop.poller.maxEventsSize ∧ (reported.map EpollEvent.fd).Nodup ∧
        ∀ e ∈ reported, s.loop.poller.interest e.fd ≠ none ∧ e.events ≠ 0
  | _ => True

instance (s : EpollLoop γ) (c : EpollCall) : Decidable (s.Reported c) := by
  unfold Reported
  split <;> infer_instance

/-- epoll_wait is told to write as many events as there are channels, and the
array has an element for each. -/
def Fits (s : EpollLoop γ) : Prop :=
  Set.encard { k | s.Registered k } = s.loop.poller.maxEventsSize ∧
    s.loop.poller.maxEventsSize ≤ s.epollEvents.length

/-- The active channels are the ones that the kernel reported, with what it
reported for them. -/
def Dispatched (s : EpollLoop γ) : EpollCall → Prop
  | .poll (some reported) => ∃ t, s.poll (some reported) = .ok t ∧
      List.Forall₂ (fun e a => s.loop.poller.channels e.fd = some a ∧
        (t.loop.channel a).revents = e.events) reported t.activeChannels
  | _ => True

/-- The call does not register a channel that the array has no element for. -/
def Room (s : EpollLoop γ) : EpollCall → Prop
  | .interest c => c.op ≠ .remove → (s.loop.channel c.channel).index < 0 →
      s.loop.poller.channels (s.loop.channel c.channel).fd = none →
        Set.encard { k | s.Registered k } < kInitEpollEventsSize
  | .poll _ => True

section Filling

/-- The kernel's report is looked up in m_channels, one event after the other. -/
theorem fillActiveChannels_reported {s : PollerLoop Epoll γ}
    (hmapped : ∀ fd a, s.poller.channels fd = some a → (s.channel a).fd = fd)
    {reported : List EpollEvent} (hnodup : (reported.map EpollEvent.fd).Nodup)
    (hreported : ∀ e ∈ reported, s.poller.channels e.fd ≠ none ∧ e.events ≠ 0)
    (active : List Nat) (rest : List EpollEvent) :
    ∃ t as, fillActiveChannels s active (reported ++ rest) reported.length = .ok (t, active ++ as) ∧
      List.Forall₂ (fun e a => s.poller.channels e.fd = some a ∧
        (t.channel a).revents = e.events) reported as ∧
      (∀ a, (∀ e ∈ reported, s.poller.channels e.fd ≠ some a) → t.channel a = s.channel a) := by
  induction reported generalizing s active with
  | nil =>
      refine ⟨s, [], ?_, .nil, fun _ _ => rfl⟩
      rw [List.append_nil]
      cases rest with
      | nil => rfl
      | cons e es => rfl
  | cons e es ih =>
      obtain ⟨hpresent, hevents⟩ := hreported e List.mem_cons_self
      obtain ⟨a, ha⟩ := Option.ne_none_iff_exists'.mp hpresent
      obtain ⟨hnot, hnodup⟩ := List.nodup_cons.mp hnodup
      let m : PollerLoop Epoll γ := { s with
        channel := Function.update s.channel a ((s.channel a).setRevents e.events) }
      have hfd (b) : (m.channel b).fd = (s.channel b).fd := by
        by_cases hb : b = a
        · subst hb
          simp only [m, Function.update_self]
          rfl
        · simp only [m, Function.update_of_ne hb]
      obtain ⟨t, as, hfill, hall, hframe⟩ := ih (s := m)
        (fun fd b hb => (hfd b).trans (hmapped fd b hb)) hnodup
        (fun e' he' => hreported e' (List.mem_cons_of_mem _ he')) (active ++ [a])
      -- no later event is for the same channel
      have hlater : ∀ e' ∈ es, s.poller.channels e'.fd ≠ some a := by
        intro e' he' ha'
        refine hnot (List.mem_map.mpr ⟨e', he', ?_⟩)
        rw [← hmapped _ _ ha', hmapped _ _ ha]
      refine ⟨t, a :: as, ?_, .cons ⟨ha, ?_⟩ hall, fun b hb => ?_⟩
      · simp only [List.cons_append, List.length_cons, fillActiveChannels, require_of_true hevents,
          ha, require_of_true (hmapped _ _ ha), ok_bind]
        rw [hfill, List.append_assoc]
        rfl
      · rw [hframe a hlater]
        simp only [m, Function.update_self]
        rfl
      · have hba : b ≠ a := by
          rintro rfl
          exact hb e List.mem_cons_self ha
        rw [hframe b fun e' he' => hb e' (List.mem_cons_of_mem _ he')]
        simp only [m, Function.update_of_ne hba]

/-- Whatever the elements hold, only the revents of channels change. -/
theorem fillActiveChannels_ok {events : List EpollEvent} {numEvents : Nat}
    {s t : PollerLoop Epoll γ} {active active' : List Nat}
    (h : fillActiveChannels s active events numEvents = .ok (t, active')) :
    t.poller = s.poller ∧ ∀ k, ∃ revents, t.channel k = (s.channel k).setRevents revents := by
  induction events generalizing s active numEvents with
  | nil =>
      cases h
      exact ⟨rfl, fun k => ⟨(t.channel k).revents, rfl⟩⟩
  | cons e es ih =>
      cases numEvents with
      | zero =>
          cases h
          exact ⟨rfl, fun k => ⟨(t.channel k).revents, rfl⟩⟩
      | succ numEvents =>
          simp only [fillActiveChannels, bind_eq_ok, require_eq_ok] at h
          obtain ⟨-, -, h⟩ := h
          split at h
          · cases h
          · rename_i a ha
            simp only [bind_eq_ok, require_eq_ok] at h
            obtain ⟨-, -, h⟩ := h
            obtain ⟨hpoller, hchannel⟩ := ih h
            refine ⟨hpoller, fun k => ?_⟩
            obtain ⟨revents, hk⟩ := hchannel k
            by_cases hka : k = a
            · subst hka
              simp only [Function.update_self] at hk
              exact ⟨revents, hk⟩
            · simp only [Function.update_of_ne hka] at hk
              exact ⟨revents, hk⟩

end Filling

/-- The maps of the poller follow its channels, and there are no more of these
than the array has elements. -/
structure Sound (s : EpollLoop γ) : Prop where
  address : ∀ k, (s.loop.channel k).address = k
  mapped : ∀ fd a, s.loop.poller.channels fd = some a → (s.loop.channel a).fd = fd
  interest : ∀ fd, s.loop.poller.interest fd = none ↔ s.loop.poller.channels fd = none
  count : Set.encard { k | s.Registered k } = s.loop.poller.maxEventsSize
  within : s.loop.poller.maxEventsSize ≤ kInitEpollEventsSize
  elements : s.epollEvents.length = kInitEpollEventsSize
  capacity : kInitEpollEventsSize ≤ s.loop.poller.eventsCapacity

/-- What a channel's operation can have done to the poller when it returned. -/
inductive Turned (s t : PollerLoop Epoll γ) (c : InterestCall) : Prop where
  | registered (hop : c.op ≠ .remove) (hneg : (s.channel c.channel).index < 0)
      (habsent : s.poller.channels (s.channel c.channel).fd = none)
      (hchannels : t.poller.channels = Function.update s.poller.channels (s.channel c.channel).fd
        (some c.channel))
      (hinterest : ∀ fd, t.poller.interest fd = none ↔
        fd ≠ (s.channel c.channel).fd ∧ s.poller.interest fd = none)
      (hsize : t.poller.maxEventsSize = sizeAdd s.poller.maxEventsSize 1)
  | updated (hchannels : t.poller.channels = s.poller.channels)
      (hinterest : ∀ fd, t.poller.interest fd = none ↔ s.poller.interest fd = none)
      (hsize : t.poller.maxEventsSize = s.poller.maxEventsSize)
  | removed (hsame : s.poller.channels (s.channel c.channel).fd = some c.channel)
      (hchannels : t.poller.channels = Function.update s.poller.channels
        (s.channel c.channel).fd none)
      (hinterest : t.poller.interest = Function.update s.poller.interest
        (s.channel c.channel).fd none)
      (hsize : t.poller.maxEventsSize = sizeSub s.poller.maxEventsSize 1)

section Interest

variable {s t : PollerLoop Epoll γ} {c : InterestCall} {k : Nat}

theorem reserve_capacity (p : Epoll) : p.eventsCapacity ≤ p.reserve.eventsCapacity := by
  unfold Epoll.reserve
  split
  · exact Nat.le_max_left _ _
  · exact Nat.le_refl _

theorem reserve_maxEventsSize (p : Epoll) : p.reserve.maxEventsSize = p.maxEventsSize := by
  unfold Epoll.reserve
  split <;> rfl

/-- Registering with the kernel, whether it refuses or not. -/
theorem epollRegister_interest (p : Epoll) (fd : Nat) (ev : Events) (f : Nat) :
    (p.epollRegister fd ev).interest f = none ↔ f ≠ fd ∧ p.interest f = none := by
  unfold Epoll.epollRegister
  split
  · rename_i m hm
    refine ⟨fun h => ⟨?_, h⟩, And.right⟩
    rintro rfl
    cases hm.symm.trans h
  · by_cases hf : f = fd
    · subst hf
      simp
    · simp only [Function.update_of_ne hf, ne_eq, hf, not_false_eq_true, true_and]

theorem epollRegister_rest (p : Epoll) (fd : Nat) (ev : Events) :
    (p.epollRegister fd ev).channels = p.channels ∧
      (p.epollRegister fd ev).maxEventsSize = p.maxEventsSize ∧
      (p.epollRegister fd ev).eventsCapacity = p.eventsCapacity := by
  unfold Epoll.epollRegister
  split <;> exact ⟨rfl, rfl, rfl⟩

theorem epollUpdate_interest (p : Epoll) (fd : Nat) (ev : Events) (f : Nat) :
    (p.epollUpdate fd ev).interest f = none ↔ p.interest f = none := by
  unfold Epoll.epollUpdate
  split
  · rename_i m hm
    by_cases hf : f = fd
    · subst hf
      simp [hm]
    · simp only [Function.update_of_ne hf]
  · exact Iff.rfl

theorem epollUpdate_rest (p : Epoll) (fd : Nat) (ev : Events) :
    (p.epollUpdate fd ev).channels = p.channels ∧
      (p.epollUpdate fd ev).maxEventsSize = p.maxEventsSize ∧
      (p.epollUpdate fd ev).eventsCapacity = p.eventsCapacity := by
  unfold Epoll.epollUpdate
  split <;> exact ⟨rfl, rfl, rfl⟩

/-- The channels of a loop as they were, but for what a poller does not look up. -/
def SameFds (s t : PollerLoop Epoll γ) : Prop :=
  ∀ j, (t.channel j).fd = (s.channel j).fd ∧ (t.channel j).address = (s.channel j).address

theorem sameFds_store {ch : Channel γ} {p : Epoll} (hfd : ch.fd = (s.channel k).fd)
    (haddress : ch.address = (s.channel k).address) : SameFds s (s.store k (ch, p)) := by
  intro j
  by_cases hj : j = k
  · subst hj
    simp only [PollerLoop.store, Function.update_self]
    exact ⟨hfd, haddress⟩
  · simp only [PollerLoop.store, Function.update_of_ne hj, and_self]

theorem updateChannel_turned (hop : c.op ≠ .remove) {ch : Channel γ}
    (hch : ch = PollerLoop.renewed (s.channel c.channel) ch.events)
    (haddress : (s.channel c.channel).address = c.channel) {ch' : Channel γ} {p : Epoll}
    (h : s.poller.updateChannel ch = .ok (ch', p)) :
    Turned s (s.store c.channel (ch', p)) c ∧ SameFds s (s.store c.channel (ch', p)) ∧
      s.poller.eventsCapacity ≤ p.eventsCapacity := by
  have hfd : ch.fd = (s.channel c.channel).fd := by rw [hch]; rfl
  have haddr : ch.address = c.channel := by rw [hch]; exact haddress
  have hindex : ch.index = (s.channel c.channel).index := by rw [hch]; rfl
  simp only [Epoll.updateChannel] at h
  split at h
  · rename_i hneg
    simp only [bind_eq_ok, require_eq_ok] at h
    obtain ⟨-, habsent, h⟩ := h
    cases h
    obtain ⟨hchannels, hsize, hcapacity⟩ := epollRegister_rest s.poller ch.fd ch.events
    refine ⟨.registered hop (hindex ▸ hneg) (hfd ▸ habsent) ?_ (fun fd => ?_) ?_, sameFds_store hfd
      (haddr.trans haddress.symm), ?_⟩
    · rw [← hfd]
      simp only [PollerLoop.store, Epoll.reserve_channels, hchannels, haddr]
    · simp only [PollerLoop.store, Epoll.reserve_interest, epollRegister_interest, hfd]
    · simp only [PollerLoop.store, reserve_maxEventsSize, hsize]
    · refine Nat.le_trans ?_ (reserve_capacity _)
      simp only [hcapacity, Nat.le_refl]
  · simp only [bind_eq_ok, require_eq_ok] at h
    obtain ⟨-, -, -, -, h⟩ := h
    cases h
    obtain ⟨hchannels, hsize, hcapacity⟩ := epollUpdate_rest s.poller ch.fd ch.events
    refine ⟨.updated ?_ (fun fd => ?_) ?_, sameFds_store hfd (haddr.trans haddress.symm), ?_⟩
    · simp only [PollerLoop.store, Epoll.reserve_channels, hchannels]
    · simp only [PollerLoop.store, Epoll.reserve_interest, epollUpdate_interest]
    · simp only [PollerLoop.store, reserve_maxEventsSize, hsize]
    · refine Nat.le_trans ?_ (reserve_capacity _)
      simp only [hcapacity, Nat.le_refl]

theorem execEpoll_turned (haddress : ∀ k, (s.channel k).address = k) (h : s.execEpoll c = .ok t) :
    Turned s t c ∧ SameFds s t ∧ s.poller.eventsCapacity ≤ t.poller.eventsCapacity := by
  by_cases hop : c.op = .remove
  · obtain ⟨k, op⟩ := c
    subst hop
    obtain ⟨r, hr, ht⟩ := bind_eq_ok.mp h
    obtain ⟨_, hnone, hr⟩ := bind_eq_ok.mp hr
    obtain ⟨p, hp, hr⟩ := bind_eq_ok.mp hr
    cases hr
    cases ht
    have hsame : s.poller.channels (s.channel k).fd = some k := by
      obtain ⟨_, -, hp⟩ := bind_eq_ok.mp hp
      obtain ⟨_, hsame, -⟩ := bind_eq_ok.mp hp
      rw [require_eq_ok, haddress k] at hsame
      exact hsame
    have hp' := Epoll.removeChannel_registered
      (show s.poller.channels { s.channel k with addedToLoop := false }.fd =
        some { s.channel k with addedToLoop := false }.address from
          hsame.trans (by rw [haddress k]))
      (require_eq_ok.mp hnone)
    have heq := Except.ok.inj (hp.symm.trans hp')
    refine ⟨.removed hsame ?_ ?_ ?_, sameFds_store rfl rfl, ?_⟩
    · simp only [PollerLoop.store, heq]
    · simp only [PollerLoop.store, heq]
    · simp only [PollerLoop.store, heq]
    · simp only [PollerLoop.store, heq, Nat.le_refl]
  · rw [PollerLoop.execEpoll_eq hop, bind_eq_ok] at h
    obtain ⟨⟨ch', p⟩, hp, h⟩ := h
    cases h
    exact updateChannel_turned hop rfl (haddress _) hp

end Interest

section Soundness

variable {s t : EpollLoop γ}

theorem sound_new (fds : Nat → Nat) : Sound (new fds : EpollLoop γ) := by
  refine ⟨fun _ => rfl, nofun, fun _ => ⟨fun _ => rfl, fun _ => rfl⟩, ?_, Nat.zero_le _,
    List.length_replicate, Nat.le_refl _⟩
  have hempty : { k | (new fds : EpollLoop γ).Registered k } = ∅ :=
    Set.eq_empty_of_forall_notMem fun k hk => nomatch hk
  rw [hempty, Set.encard_empty]
  rfl

/-- Whether a channel is registered depends on the fds and on the map only. -/
theorem registered_of_sameFds (h : SameFds s.loop t.loop) (k : Nat) :
    t.Registered k ↔ t.loop.poller.channels (s.loop.channel k).fd = some k := by
  rw [Registered, (h k).1]

/-- Changing one entry of m_channels leaves every entry with its fd. -/
theorem mapped_update (hfds : SameFds s.loop t.loop)
    (hmapped : ∀ fd a, s.loop.poller.channels fd = some a → (s.loop.channel a).fd = fd)
    {fd : Nat} {entry : Option Nat}
    (hchannels : t.loop.poller.channels = Function.update s.loop.poller.channels fd entry)
    (hentry : ∀ a ∈ entry, (s.loop.channel a).fd = fd) (fd' a : Nat)
    (ha : t.loop.poller.channels fd' = some a) : (t.loop.channel a).fd = fd' := by
  rw [(hfds a).1]
  rw [hchannels] at ha
  by_cases hfd : fd' = fd
  · rw [hfd, Function.update_self] at ha
    exact (hentry a ha).trans hfd.symm
  · rw [Function.update_of_ne hfd] at ha
    exact hmapped fd' a ha

theorem registered_insert (hfds : SameFds s.loop t.loop) {k : Nat}
    (habsent : s.loop.poller.channels (s.loop.channel k).fd = none)
    (hchannels : t.loop.poller.channels =
      Function.update s.loop.poller.channels (s.loop.channel k).fd (some k)) :
    { j | t.Registered j } = insert k { j | s.Registered j } := by
  ext j
  simp only [Set.mem_ofPred_eq, Set.mem_insert_iff, registered_of_sameFds hfds, hchannels]
  by_cases hfd : (s.loop.channel j).fd = (s.loop.channel k).fd
  · have hnot : ¬ s.Registered j := by
      rw [Registered, hfd, habsent]
      exact nofun
    rw [hfd, Function.update_self, Option.some.injEq]
    exact ⟨fun heq => .inl heq.symm, fun hj => (hj.resolve_right hnot).symm⟩
  · rw [Function.update_of_ne hfd]
    refine ⟨.inr, fun hj => hj.resolve_left ?_⟩
    rintro rfl
    exact hfd rfl

theorem registered_erase (hfds : SameFds s.loop t.loop) {k : Nat} (hsame : s.Registered k)
    (hchannels : t.loop.poller.channels =
      Function.update s.loop.poller.channels (s.loop.channel k).fd none) :
    { j | t.Registered j } = { j | s.Registered j } \ {k} := by
  ext j
  simp only [Set.mem_ofPred_eq, Set.mem_sdiff, Set.mem_singleton_iff, registered_of_sameFds hfds,
    hchannels]
  by_cases hfd : (s.loop.channel j).fd = (s.loop.channel k).fd
  · rw [hfd, Function.update_self]
    refine ⟨nofun, fun hj => absurd ?_ hj.2⟩
    exact Option.some.inj (hj.1.symm.trans (hfd ▸ hsame))
  · rw [Function.update_of_ne hfd]
    exact ⟨fun hj => ⟨hj, fun heq => hfd (heq ▸ rfl)⟩, And.left⟩

/-- With a registered channel the count is not zero. -/
theorem Sound.size_pos (h : Sound s) {k : Nat} (hreg : s.Registered k) :
    0 < s.loop.poller.maxEventsSize := by
  refine Nat.pos_of_ne_zero fun hzero => ?_
  have hcount := h.count
  rw [hzero, Nat.cast_zero, Set.encard_eq_zero] at hcount
  exact absurd (hcount ▸ hreg : k ∈ (∅ : Set Nat)) (Set.notMem_empty k)

/-- A call of a channel that the array has room for. -/
theorem Sound.interest_step (h : Sound s) {c : InterestCall} {loop : PollerLoop Epoll γ}
    (hroom : s.Room (.interest c)) (hexec : s.loop.execEpoll c = .ok loop) :
    Sound { s with loop := loop } := by
  obtain ⟨hturned, hfds, hcapacity⟩ := execEpoll_turned h.address hexec
  have haddress (k) : (loop.channel k).address = k := (hfds k).2.trans (h.address k)
  have hbound := h.within
  have hcap := h.capacity.trans hcapacity
  cases hturned with
  | registered hop hneg habsent hchannels hinterest hsize =>
      have hlt := hroom hop hneg habsent
      rw [h.count, Nat.cast_lt] at hlt
      have hadd : loop.poller.maxEventsSize = s.loop.poller.maxEventsSize + 1 :=
        hsize.trans (sizeAdd_of_lt (by unfold kInitEpollEventsSize at hlt; omega))
      have hmapped := mapped_update (t := { s with loop := loop }) hfds h.mapped
        hchannels (fun a ha => Option.some.inj ha ▸ rfl)
      refine ⟨haddress, hmapped, fun fd => ?_, ?_, ?_, h.elements, hcap⟩
      · rw [hinterest, h.interest, hchannels]
        by_cases hfd : fd = (s.loop.channel c.channel).fd
        · simp [hfd]
        · simp only [ne_eq, hfd, not_false_eq_true, true_and, Function.update_of_ne hfd]
      · rw [registered_insert (t := { s with loop := loop }) hfds habsent hchannels,
          Set.encard_insert_of_notMem, h.count, hadd]
        · rfl
        · exact fun hk => nomatch habsent.symm.trans hk
      · rw [hadd]
        exact hlt
  | updated hchannels hinterest hsize =>
      refine ⟨haddress, fun fd a ha => (hfds a).1.trans (h.mapped fd a ?_), fun fd => ?_, ?_, ?_,
        h.elements, hcap⟩
      · rwa [hchannels] at ha
      · rw [hinterest, h.interest, hchannels]
      · simp only [registered_of_sameFds (t := { s with loop := loop }) hfds, hchannels, hsize]
        exact h.count
      · rw [hsize]
        exact hbound
  | removed hsame hchannels hinterest hsize =>
      have hmem : c.channel ∈ { k | s.Registered k } := hsame
      have hsub : loop.poller.maxEventsSize = s.loop.poller.maxEventsSize - 1 :=
        hsize.trans (sizeSub_of_le (h.size_pos hsame)
          (by unfold kInitEpollEventsSize at hbound; omega))
      have hmapped := mapped_update (t := { s with loop := loop }) hfds h.mapped
        hchannels (fun _ ha => absurd ha (Option.not_mem_none _))
      refine ⟨haddress, hmapped, fun fd => ?_, ?_, ?_, h.elements, hcap⟩
      · rw [hinterest, hchannels]
        by_cases hfd : fd = (s.loop.channel c.channel).fd
        · simp [hfd]
        · simp only [Function.update_of_ne hfd, h.interest]
      · rw [registered_erase (t := { s with loop := loop }) hfds hsame hchannels,
          Set.encard_sdiff_singleton_of_mem hmem, h.count, hsub]
        rfl
      · rw [hsub]
        omega

/-- Whatever epoll_wait has written. -/
theorem Sound.poll_step (h : Sound s) {result : Option (List EpollEvent)}
    (hpoll : s.poll result = .ok t) : Sound t := by
  simp only [poll, bind_eq_ok, require_eq_ok] at hpoll
  obtain ⟨_, -, hpoll⟩ := hpoll
  cases result with
  | none =>
      cases hpoll
      exact ⟨h.address, h.mapped, h.interest, h.count, h.within, h.elements, h.capacity⟩
  | some reported =>
      simp only at hpoll
      split at hpoll
      · cases hpoll
      · obtain ⟨⟨loop, active⟩, hfill, ht⟩ := bind_eq_ok.mp hpoll
        cases ht
        obtain ⟨hpoller, hchannel⟩ := fillActiveChannels_ok hfill
        have hfds : SameFds s.loop loop := by
          intro k
          obtain ⟨revents, hk⟩ := hchannel k
          rw [hk]
          exact ⟨rfl, rfl⟩
        refine ⟨fun k => (hfds k).2.trans (h.address k), fun fd a ha => ?_, ?_, ?_, ?_, ?_, ?_⟩
        · rw [hpoller] at ha
          exact (hfds a).1.trans (h.mapped fd a ha)
        · simp only [hpoller, h.interest, implies_true]
        · simp only [registered_of_sameFds (s := s) (t := ⟨loop, _, active⟩) hfds, hpoller]
          exact h.count
        · rw [hpoller]
          exact h.within
        · have helements := h.elements
          simp only [List.length_append, List.length_take, List.length_drop]
          omega
        · rw [hpoller]
          exact h.capacity

theorem Sound.step (h : Sound s) {c : EpollCall} (hroom : s.Room c) (hexec : s.exec c = .ok t) :
    Sound t := by
  cases c with
  | interest c =>
      obtain ⟨loop, hloop, ht⟩ := bind_eq_ok.mp hexec
      cases ht
      exact h.interest_step hroom hloop
  | poll result => exact h.poll_step hexec

theorem Sound.fits (h : Sound s) : s.Fits := by
  refine ⟨h.count, ?_⟩
  rw [h.elements]
  exact h.within

/-- The report fits the array, and all of it is found there. -/
theorem Sound.dispatched (h : Sound s) {c : EpollCall} (hreported : s.Reported c) :
    s.Dispatched c := by
  cases c with
  | interest c => trivial
  | poll result =>
      cases result with
      | none => trivial
      | some reported =>
          obtain ⟨hlength, hnodup, hevents⟩ := hreported
          have hwithin := h.within
          have hcapacity := h.capacity
          have helements := h.elements
          rw [toInt_of_le (Nat.le_trans hwithin (by decide))] at hlength
          have hpresent : ∀ e ∈ reported, s.loop.poller.channels e.fd ≠ none ∧ e.events ≠ 0 :=
            fun e he => ⟨fun hnone => (hevents e he).1 ((h.interest _).mpr hnone), (hevents e he).2⟩
          obtain ⟨loop, active, hfill, hall, -⟩ := fillActiveChannels_reported h.mapped hnodup
            hpresent [] (s.epollEvents.drop reported.length)
          have hsize : 0 < s.epollEvents.length := by
            rw [helements]
            decide
          refine ⟨⟨loop, reported ++ s.epollEvents.drop reported.length, active⟩, ?_, hall⟩
          simp only [poll, require_of_true hsize, ok_bind]
          rw [if_neg (by omega), List.take_of_length_le (by omega), hfill, ok_bind]
          rfl

/-- The call that registers one channel too many returns. -/
theorem Sound.crowd (h : Sound s) {c : EpollCall} (hroom : ¬ s.Room c) :
    ∃ t, s.exec c = .ok t ∧ ¬ t.Fits := by
  cases c with
  | poll result => exact absurd trivial hroom
  | interest c =>
      simp only [Room, Classical.not_imp] at hroom
      obtain ⟨hop, hneg, habsent, hfull⟩ := hroom
      rw [h.count, Nat.cast_lt] at hfull
      have hwithin := h.within
      have hintMax : s.loop.poller.maxEventsSize < intMax :=
        Nat.lt_of_le_of_lt hwithin (by decide)
      let ch := PollerLoop.renewed (s.loop.channel c.channel)
        (c.op.apply (s.loop.channel c.channel).events)
      obtain ⟨p, hp, -, -, hsize⟩ := Epoll.updateChannel_new (show ch.index < 0 from hneg) habsent
        ((h.interest _).mpr habsent) hintMax
      have hexec := PollerLoop.execEpoll_eq (t := s.loop) hop
      rw [hp, ok_bind] at hexec
      refine ⟨_, by rw [exec, hexec]; rfl, fun hfits => ?_⟩
      have hle := hfits.2
      simp only [PollerLoop.store, hsize, h.elements] at hle
      omega

end Soundness

/-- As long as no channel is registered beyond the elements that the event array
was made with, and no longer, there is an element for each event the kernel may
write, and every reported event reaches its channel. -/
theorem events_dispatched_iff (fds : Nat → Nat) (calls : List EpollCall)
    (hreported : Respects exec Reported (new fds : EpollLoop γ) calls) :
    Always exec Fits (new fds : EpollLoop γ) calls ∧
        Respects exec Dispatched (new fds : EpollLoop γ) calls ↔
      Respects exec Room (new fds : EpollLoop γ) calls := by
  have hfits : Always exec Fits (new fds : EpollLoop γ) calls ↔
      Respects exec Room (new fds : EpollLoop γ) calls :=
    always_iff_respects_of_breaks (fun s => Sound.fits) (fun s a t h => h.step)
      (fun s a h => h.crowd) (sound_new fds) calls
  refine ⟨fun h => hfits.mp h.1, fun h => ⟨hfits.mpr h, ?_⟩⟩
  exact (h.and hreported).of_invariant (I := Sound) (fun s a hs ha => hs.dispatched ha.2)
    (fun s a t hs ha => hs.step ha.1) (sound_new fds)

/-- Two channels are watched, and both are ready, the second one reported first. -/
def bothReady : List EpollCall :=
  [.interest ⟨0, .enableReading⟩, .interest ⟨1, .enableReading⟩,
    .poll (some [⟨4, EPOLLIN⟩, ⟨3, EPOLLIN⟩])]

theorem events_dispatched_iff_two :
    Always exec Fits (new (fun k => k + 3) : EpollLoop Unit) bothReady ∧
      Respects exec Dispatched (new (fun k => k + 3) : EpollLoop Unit) bothReady := by
  refine (events_dispatched_iff (fun k => k + 3) _ (by decide +kernel)).mpr ?_
  have hroom : EpollLoop.Room (new (fun k => k + 3) : EpollLoop Unit)
      (.interest ⟨0, .enableReading⟩) := fun _ _ _ => by
    rw [(sound_new _).count]
    exact Nat.cast_lt.mpr (by decide)
  refine ⟨hroom, fun t ht => ⟨fun _ _ _ => ?_, fun _ _ => ⟨trivial, fun _ _ => trivial⟩⟩⟩
  rw [((sound_new _).step hroom ht).count]
  cases ht
  exact Nat.cast_lt.mpr (by decide)

section Crowd

/-- Channels that start to be watched one after the other. -/
def registrations (m : Nat) : List EpollCall :=
  (List.range m).map fun k => .interest ⟨k, .enableReading⟩

/-- The first m channels are watched, and no other. -/
structure Watched (s : EpollLoop γ) (fds : Nat → Nat) (m : Nat) : Prop where
  fd : ∀ k, (s.loop.channel k).fd = fds k
  index : ∀ k, m ≤ k → (s.loop.channel k).index < 0
  channels : ∀ k, m ≤ k → s.loop.poller.channels (fds k) = none
  interest : ∀ k, m ≤ k → s.loop.poller.interest (fds k) = none
  size : s.loop.poller.maxEventsSize = m
  elements : s.epollEvents.length = kInitEpollEventsSize

theorem run_registrations {fds : Nat → Nat} (hfds : Function.Injective fds) {m : Nat}
    (hm : m ≤ intMax) : ∃ s : EpollLoop γ, run exec (new fds) (registrations m) = .ok s ∧
      s.Watched fds m := by
  induction m with
  | zero =>
      exact ⟨new fds, rfl, fun _ => rfl, fun _ _ => (by decide : (-1 : Int) < 0), fun _ _ => rfl,
      fun _ _ => rfl, rfl, List.length_replicate⟩
  | succ m ih =>
      obtain ⟨s, hrun, hs⟩ := ih (Nat.le_of_succ_le hm)
      let ch := PollerLoop.renewed (s.loop.channel m)
        (InterestOp.enableReading.apply (s.loop.channel m).events)
      have hfd : ch.fd = fds m := hs.fd m
      obtain ⟨p, hp, hchannels, hinterest, hsize⟩ := Epoll.updateChannel_new
        (show ch.index < 0 from hs.index m (Nat.le_refl m)) (hfd ▸ hs.channels m (Nat.le_refl m))
        (hfd ▸ hs.interest m (Nat.le_refl m)) (by rw [hs.size]; omega)
      have hexec := PollerLoop.execEpoll_eq (t := s.loop) (c := ⟨m, .enableReading⟩) nofun
      rw [hp, ok_bind] at hexec
      have hne (k) (hk : m + 1 ≤ k) : fds k ≠ fds m := fun heq => by
        have := hfds heq
        omega
      refine ⟨{ s with loop := s.loop.store m ({ ch with
        index := (s.loop.poller.maxEventsSize + 1 : Nat) }, p) }, ?_, fun k => ?_, fun k hk => ?_,
        fun k hk => ?_, fun k hk => ?_, ?_, hs.elements⟩
      · rw [registrations, List.range_succ, List.map_append, ← registrations,
          run_append_of_ok hrun, List.map_singleton, run, exec, hexec]
        rfl
      · by_cases hk : k = m
        · subst hk
          simp only [PollerLoop.store, Function.update_self]
          exact hfd
        · simp only [PollerLoop.store, Function.update_of_ne hk]
          exact hs.fd k
      · simp only [PollerLoop.store, Function.update_of_ne (Nat.ne_of_gt hk)]
        exact hs.index k (Nat.le_of_succ_le hk)
      · simp only [PollerLoop.store, hchannels, hfd, Function.update_of_ne (hne k hk)]
        exact hs.channels k (Nat.le_of_succ_le hk)
      · simp only [PollerLoop.store, hinterest, hfd, Function.update_of_ne (hne k hk)]
        exact hs.interest k (Nat.le_of_succ_le hk)
      · simp only [PollerLoop.store, hsize, hs.size]

/-- With one channel more than the array has elements, epoll_wait is told to write
past the last one. -/
theorem events_past_the_array : ∃ s : EpollLoop Unit,
    run exec (new (fun k => k + 3)) (registrations (kInitEpollEventsSize + 1)) = .ok s ∧
      s.epollEvents.length < s.loop.poller.maxEventsSize ∧ ¬ s.Fits := by
  have hinj : Function.Injective fun k => k + 3 := fun _ _ h => Nat.add_right_cancel h
  obtain ⟨s, hrun, hs⟩ :=
    run_registrations (γ := Unit) hinj (m := kInitEpollEventsSize + 1) (by decide)
  have hlt : s.epollEvents.length < s.loop.poller.maxEventsSize := by
    rw [hs.elements, hs.size]
    exact Nat.lt_succ_self _
  exact ⟨s, hrun, hlt, fun hfits => absurd hfits.2 (Nat.not_le.mpr hlt)⟩

end Crowd

end EpollLoop
end TAlib
