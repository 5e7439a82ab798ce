import Mathlib.Data.Finset.Card
import Mathlib.Data.Set.Function
import TAlib.Foundation.Runs
import TAlib.Reactor.Poll

/-!
The slots of the poll array. Each registered channel has one, at its index, and
every slot is taken. What a slot and its channel have to do with each other is a
parameter here: a channel enters with a slot at the end, changes its own slot, and
leaves its slot to the channel that has the last one.
-/

namespace TAlib

open Foundation

namespace PollerLoop

variable {γ : Type}

def Registered (s : PollerLoop Poll γ) (k : Nat) : Prop :=
  s.poller.channels (s.channel k).fd = some k

instance (s : PollerLoop Poll γ) (k : Nat) : Decidable (s.Registered k) :=
  inferInstanceAs (Decidable (_ = _))

/-- The muted slot at the end of the array is the one of the channel with fd 0,
which is where removeChannel looks for it. -/
def LastFound (s : PollerLoop Poll γ) : Prop :=
  ∃ a ∈ s.poller.channels 0, (s.channel a).index = (s.poller.pollfds.length - 1 : Nat)

instance (s : PollerLoop Poll γ) : Decidable s.LastFound := by
  unfold LastFound
  infer_instance

/-- The channels of a loop, by their addresses below n, as their poller maps them. -/
structure Keyed (n : Nat) (s : PollerLoop Poll γ) : Prop where
  distinct : ∀ i < n, ∀ j < n, (s.channel i).fd = (s.channel j).fd → i = j
  address : ∀ k, (s.channel k).address = k
  mapped : ∀ fd a, s.poller.channels fd = some a → a < n ∧ (s.channel a).fd = fd
  unused : ∀ k < n, (s.channel k).index < 0 → s.poller.channels (s.channel k).fd = none

/-- Each registered channel has the slot at its index, which is related to it, and
every slot is taken. -/
structure Placed (R : Channel γ → PollFd → Prop) (n : Nat) (s : PollerLoop Poll γ) : Prop where
  seat : ∀ k < n, s.Registered k →
    ∃ i pfd, (s.channel k).index = (i : Nat) ∧ s.poller.pollfds[i]? = some pfd ∧
      R (s.channel k) pfd
  taken : ∀ i < s.poller.pollfds.length, ∃ k < n, s.Registered k ∧ (s.channel k).index = (i : Nat)
  apart : ∀ k < n, ∀ k' < n, s.Registered k → s.Registered k' →
    (s.channel k).index = (s.channel k').index → k = k'

/-- A channel that is the one at k for what the poller maps. -/
structure Recast (s : PollerLoop Poll γ) (k : Nat) (ch : Channel γ) : Prop where
  fd : ch.fd = (s.channel k).fd
  address : ch.address = k

section Slots

variable {R : Channel γ → PollFd → Prop} {n : Nat} {s : PollerLoop Poll γ}

/-- There are no more slots than registered channels. -/
theorem Placed.length_le_card (h : Placed R n s) (channels : Finset Nat)
    (hchannels : ∀ k < n, s.Registered k → k ∈ channels) :
    s.poller.pollfds.length ≤ channels.card := by
  classical
  choose! f hf using h.taken
  have hinj : Set.InjOn f (Finset.range s.poller.pollfds.length) := by
    intro i hi j hj hij
    have hi' := (hf i (Finset.mem_range.mp hi)).2.2
    have hj' := (hf j (Finset.mem_range.mp hj)).2.2
    rw [hij] at hi'
    exact Int.ofNat.inj (hi'.symm.trans hj')
  have hkeyed : Set.MapsTo f (Finset.range s.poller.pollfds.length) channels := by
    intro i hi
    obtain ⟨hlt, hreg, -⟩ := hf i (Finset.mem_range.mp hi)
    exact hchannels _ hlt hreg
  have hcard := Finset.card_le_card_of_injOn f hkeyed hinj
  rwa [Finset.card_range] at hcard

theorem Placed.length_le (h : Placed R n s) : s.poller.pollfds.length ≤ n := by
  have hcard := h.length_le_card (Finset.range n) fun k hk _ => Finset.mem_range.mpr hk
  rwa [Finset.card_range] at hcard

/-- A channel without a slot leaves room for one. -/
theorem Placed.length_lt (h : Placed R n s) {k : Nat} (hk : k < n) (hfree : ¬ s.Registered k) :
    s.poller.pollfds.length < n := by
  have hcard := h.length_le_card ((Finset.range n).erase k) fun j hj hreg =>
    Finset.mem_erase.mpr ⟨fun heq => hfree (heq ▸ hreg), Finset.mem_range.mpr hj⟩
  rw [Finset.card_erase_of_mem (Finset.mem_range.mpr hk), Finset.card_range] at hcard
  omega

/-- What maps an fd to some channel maps it to the one that has it. -/
theorem Keyed.registered_iff (h : Keyed n s) {k : Nat} (hk : k < n) :
    s.Registered k ↔ s.poller.channels (s.channel k).fd ≠ none := by
  constructor
  · exact fun hreg hnone => nomatch hreg.symm.trans hnone
  · intro hsome
    obtain ⟨a, ha⟩ := Option.ne_none_iff_exists'.mp hsome
    obtain ⟨hlt, hfd⟩ := h.mapped _ a ha
    obtain rfl := h.distinct a hlt k hk hfd
    exact ha

end Slots

/-- Distinct fds, each an int below the largest one, are no more than that. -/
theorem channels_le {n : Nat} {fds : Nat → Nat} (hfds : Set.InjOn fds { k | k < n })
    (hint : ∀ k < n, fds k < intMax) : n ≤ intMax := by
  have hmaps : Set.MapsTo fds (Finset.range n) (Finset.range intMax) := fun k hk =>
    Finset.mem_coe.mpr (Finset.mem_range.mpr (hint k (Finset.mem_range.mp hk)))
  have hinj : Set.InjOn fds (Finset.range n) := fun i hi j hj heq =>
    hfds (Finset.mem_range.mp hi) (Finset.mem_range.mp hj) heq
  have hcard := Finset.card_le_card_of_injOn fds hmaps hinj
  rwa [Finset.card_range, Finset.card_range] at hcard

section Updates

variable {R R' : Channel γ → PollFd → Prop} {n : Nat} {s : PollerLoop Poll γ} {k : Nat}
  {ch : Channel γ}

/-- The channels after one of them, with its fd as before, has been stored. -/
theorem fd_update (hrecast : Recast s k ch) (j : Nat) :
    (Function.update s.channel k ch j).fd = (s.channel j).fd := by
  by_cases hj : j = k
  · subst hj
    rw [Function.update_self, hrecast.fd]
  · rw [Function.update_of_ne hj]

/-- What a map with one new entry gives. -/
theorem entry_of_update {channels : Nat → Option Nat} {fd fd' a : Nat}
    (h : Function.update channels fd (some k) fd' = some a) :
    channels fd' = some a ∨ fd' = fd ∧ a = k := by
  by_cases hfd : fd' = fd
  · rw [hfd, Function.update_self] at h
    exact .inr ⟨hfd, (Option.some.inj h).symm⟩
  · rw [Function.update_of_ne hfd] at h
    exact .inl h

theorem entry_of_erase {channels : Nat → Option Nat} {fd fd' a : Nat}
    (h : Function.update channels fd none fd' = some a) : channels fd' = some a := by
  by_cases hfd : fd' = fd
  · rw [hfd, Function.update_self] at h
    cases h
  · rwa [Function.update_of_ne hfd] at h

/-- One channel more is registered when the map has got an entry for it. -/
theorem Keyed.registered_insert (h : Keyed n s) (hk : k < n) {t : PollerLoop Poll γ}
    (hfd : ∀ j, (t.channel j).fd = (s.channel j).fd)
    (hchannels : t.poller.channels =
      Function.update s.poller.channels (s.channel k).fd (some k)) {j : Nat} (hj : j < n) :
    t.Registered j ↔ j = k ∨ s.Registered j := by
  rw [Registered, hfd, hchannels]
  by_cases hjk : j = k
  · subst hjk
    rw [Function.update_self]
    exact iff_of_true rfl (.inl rfl)
  · rw [Function.update_of_ne fun heq => hjk (h.distinct j hj k hk heq)]
    exact ⟨.inr, fun hr => hr.resolve_left hjk⟩

theorem Keyed.registered_erase (h : Keyed n s) (hk : k < n) {t : PollerLoop Poll γ}
    (hfd : ∀ j, (t.channel j).fd = (s.channel j).fd)
    (hchannels : t.poller.channels = Function.update s.poller.channels (s.channel k).fd none)
    {j : Nat} (hj : j < n) : t.Registered j ↔ j ≠ k ∧ s.Registered j := by
  rw [Registered, hfd, hchannels]
  by_cases hjk : j = k
  · subst hjk
    rw [Function.update_self]
    exact iff_of_false nofun fun hr => hr.1 rfl
  · rw [Function.update_of_ne fun heq => hjk (h.distinct j hj k hk heq)]
    exact ⟨fun hr => ⟨hjk, hr⟩, And.right⟩

theorem Keyed.store (h : Keyed n s) (hk : k < n) (hrecast : Recast s k ch)
    {pollfds : List PollFd} {channels : Nat → Option Nat}
    (hchannels : ∀ fd a, channels fd = some a →
      s.poller.channels fd = some a ∨ fd = (s.channel k).fd ∧ a = k)
    (hindex : ch.index < 0 → channels (s.channel k).fd = none) :
    Keyed n ⟨Function.update s.channel k ch, ⟨pollfds, channels⟩⟩ := by
  have hfd := fd_update hrecast
  refine ⟨fun i hi j hj hij => ?_, fun j => ?_, fun fd a ha => ?_, fun j hj hneg => ?_⟩
  · simp only [hfd] at hij
    exact h.distinct i hi j hj hij
  · by_cases hj : j = k
    · subst hj
      simp only [Function.update_self, hrecast.address]
    · simp only [Function.update_of_ne hj, h.address]
  · simp only [hfd]
    rcases hchannels fd a ha with hold | ⟨rfl, rfl⟩
    · exact h.mapped fd a hold
    · exact ⟨hk, rfl⟩
  · simp only [hfd]
    by_cases hjk : j = k
    · subst hjk
      simp only [Function.update_self] at hneg
      exact hindex hneg
    · simp only [Function.update_of_ne hjk] at hneg
      have hnone := h.unused j hj hneg
      cases hc : channels (s.channel j).fd with
      | none => rfl
      | some a =>
          rcases hchannels _ a hc with hold | ⟨heq, -⟩
          · cases hnone.symm.trans hold
          · exact absurd (h.distinct j hj k hk heq) hjk

/-- A slot for a channel that had none. -/
theorem Placed.register (h : Placed R n s) (hkeyed : Keyed n s) (hk : k < n)
    (hfree : s.poller.channels (s.channel k).fd = none) (hrecast : Recast s k ch) {pfd : PollFd}
    (hseat : R' ch pfd) (hothers : ∀ j, j ≠ k → ∀ p, R (s.channel j) p → R' (s.channel j) p)
    (hindex : ch.index = (s.poller.pollfds.length : Nat)) :
    Placed R' n ⟨Function.update s.channel k ch, ⟨s.poller.pollfds ++ [pfd],
      Function.update s.poller.channels (s.channel k).fd (some k)⟩⟩ := by
  have hregs (j) (hj : j < n) : Registered
    ⟨Function.update s.channel k ch, ⟨s.poller.pollfds ++ [pfd],
      Function.update s.poller.channels (s.channel k).fd (some k)⟩⟩ j ↔ j = k ∨ s.Registered j :=
    hkeyed.registered_insert hk (fd_update hrecast) rfl hj
  have hreg (j) (hj : j < n) (hjk : j ≠ k) (hr : Registered _ j) : s.Registered j :=
    ((hregs j hj).mp hr).resolve_left hjk
  have hlt (j) (hj : j < n) (hr : s.Registered j) :
      (s.channel j).index < (s.poller.pollfds.length : Nat) := by
    obtain ⟨i, pfd', hi, hget, -⟩ := h.seat j hj hr
    have := (List.getElem?_eq_some_iff.mp hget).1
    omega
  refine ⟨fun j hj hr => ?_, fun i hi => ?_, fun j hj j' hj' hr hr' heq => ?_⟩
  · by_cases hjk : j = k
    · subst hjk
      simp only [Function.update_self]
      exact ⟨_, pfd, hindex, by simp, hseat⟩
    · simp only [Function.update_of_ne hjk]
      obtain ⟨i, pfd', hi, hget, hseat'⟩ := h.seat j hj (hreg j hj hjk hr)
      have hlen := (List.getElem?_eq_some_iff.mp hget).1
      exact ⟨i, pfd', hi, by rwa [List.getElem?_append_left hlen], hothers j hjk _ hseat'⟩
  · simp only [List.length_append, List.length_singleton] at hi
    by_cases hlast : i = s.poller.pollfds.length
    · refine ⟨k, hk, (hregs k hk).mpr (.inl rfl), ?_⟩
      simp only [Function.update_self, hindex, hlast]
    · obtain ⟨j, hj, hr, hji⟩ := h.taken i (by omega)
      have hjk : j ≠ k := by
        rintro rfl
        cases hfree.symm.trans hr
      refine ⟨j, hj, (hregs j hj).mpr (.inr hr), ?_⟩
      simp only [Function.update_of_ne hjk, hji]
  · by_cases hjk : j = k
    · by_cases hjk' : j' = k
      · exact hjk.trans hjk'.symm
      · have := hlt j' hj' (hreg j' hj' hjk' hr')
        simp only [hjk, Function.update_self, Function.update_of_ne hjk', hindex] at heq
        omega
    · by_cases hjk' : j' = k
      · have := hlt j hj (hreg j hj hjk hr)
        simp only [hjk', Function.update_self, Function.update_of_ne hjk, hindex] at heq
        omega
      · simp only [Function.update_of_ne hjk, Function.update_of_ne hjk'] at heq
        exact h.apart j hj j' hj' (hreg j hj hjk hr) (hreg j' hj' hjk' hr') heq

/-- The slot of a registered channel changes with it. -/
theorem Placed.change (h : Placed R n s) (hk : k < n) (hreg : s.Registered k)
    (hrecast : Recast s k ch) {i : Nat} (hindex : (s.channel k).index = (i : Nat))
    (hsame : ch.index = (s.channel k).index) {pfd : PollFd} (hseat : R' ch pfd)
    (hothers : ∀ j, j ≠ k → ∀ p, R (s.channel j) p → R' (s.channel j) p) :
    Placed R' n ⟨Function.update s.channel k ch, { s.poller with
      pollfds := s.poller.pollfds.set i pfd }⟩ := by
  have hfd := fd_update hrecast
  have hidx (j) : (Function.update s.channel k ch j).index = (s.channel j).index := by
    by_cases hj : j = k
    · subst hj
      rw [Function.update_self, hsame]
    · rw [Function.update_of_ne hj]
  have hregs (j) : Registered ⟨Function.update s.channel k ch, { s.poller with
      pollfds := s.poller.pollfds.set i pfd }⟩ j ↔ s.Registered j := by
    simp only [Registered, hfd]
  have hlt : i < s.poller.pollfds.length := by
    obtain ⟨i', pfd', hi', hget, -⟩ := h.seat k hk hreg
    obtain rfl : i = i' := Int.ofNat.inj (hindex.symm.trans hi')
    exact (List.getElem?_eq_some_iff.mp hget).1
  refine ⟨fun j hj hr => ?_, fun i' hi' => ?_, fun j hj j' hj' hr hr' heq => ?_⟩
  · rw [hregs] at hr
    by_cases hjk : j = k
    · subst hjk
      simp only [Function.update_self]
      exact ⟨i, pfd, hsame.trans hindex, List.getElem?_set_self hlt, hseat⟩
    · obtain ⟨i', pfd', hi', hget, hseat'⟩ := h.seat j hj hr
      have hne : i ≠ i' := by
        rintro rfl
        exact hjk (h.apart j hj k hk hr hreg (hi'.trans hindex.symm))
      simp only [Function.update_of_ne hjk]
      exact ⟨i', pfd', hi', by rwa [List.getElem?_set_ne hne], hothers j hjk _ hseat'⟩
  · simp only [List.length_set] at hi'
    obtain ⟨j, hj, hr, hji⟩ := h.taken i' hi'
    exact ⟨j, hj, (hregs j).mpr hr, (hidx j).trans hji⟩
  · rw [hregs] at hr hr'
    simp only [hidx] at heq
    exact h.apart j hj j' hj' hr hr' heq

/-- A registered channel changes, but keeps its slot as it is. -/
theorem Placed.recast (h : Placed R n s) (hk : k < n) (hreg : s.Registered k)
    (hrecast : Recast s k ch) (hsame : ch.index = (s.channel k).index)
    (hseat : ∀ pfd, R (s.channel k) pfd → R ch pfd) :
    Placed R n { s with channel := Function.update s.channel k ch } := by
  obtain ⟨i, pfd, hindex, hget, hpfd⟩ := h.seat k hk hreg
  have hset : s.poller.pollfds.set i pfd = s.poller.pollfds := by
    obtain ⟨hlt, rfl⟩ := List.getElem?_eq_some_iff.mp hget
    exact List.set_getElem_self hlt
  have hchange : Placed R n _ := h.change hk hreg hrecast hindex hsame (hseat pfd hpfd)
    fun _ _ _ hp => hp
  rwa [hset] at hchange

/-- The channel k leaves; the one in the last slot takes over its place. -/
structure Leaves (s : PollerLoop Poll γ) (n k i : Nat) (channel : Nat → Channel γ) : Prop where
  fd : ∀ j, (channel j).fd = (s.channel j).fd
  address : ∀ j, (channel j).address = (s.channel j).address
  events : ∀ j, (channel j).events = (s.channel j).events
  moved : ∀ j < n, j ≠ k → s.Registered j → (channel j).index =
    if (s.channel j).index = (s.poller.pollfds.length - 1 : Nat) then (i : Int)
    else (s.channel j).index
  index : ∀ j < n, (channel j).index < 0 ↔ (s.channel j).index < 0

theorem Keyed.leave (h : Keyed n s) {i : Nat} {channel : Nat → Channel γ}
    (hleaves : Leaves s n k i channel) {pollfds : List PollFd} :
    Keyed n ⟨channel, ⟨pollfds,
      Function.update s.poller.channels (s.channel k).fd none⟩⟩ := by
  refine ⟨fun i hi j hj hij => ?_, fun j => ?_, fun fd a ha => ?_, fun j hj hneg => ?_⟩
  · simp only [hleaves.fd] at hij
    exact h.distinct i hi j hj hij
  · simp only [hleaves.address, h.address]
  · simp only [hleaves.fd]
    exact h.mapped fd a (entry_of_erase ha)
  · have hnone := h.unused j hj ((hleaves.index j hj).mp hneg)
    simp only [hleaves.fd]
    cases hc : Function.update s.poller.channels (s.channel k).fd none (s.channel j).fd with
    | none => rfl
    | some a => cases hnone.symm.trans (entry_of_erase hc)

theorem Placed.leave (h : Placed R n s) (hkeyed : Keyed n s) (hk : k < n) (hreg : s.Registered k)
    {i : Nat} (hindex : (s.channel k).index = (i : Nat)) {back : PollFd}
    (hback : s.poller.pollfds[s.poller.pollfds.length - 1]? = some back)
    {channel : Nat → Channel γ} (hleaves : Leaves s n k i channel)
    (hothers : ∀ j, j ≠ k → ∀ p, R (s.channel j) p → R' (channel j) p) :
    Placed R' n ⟨channel, ⟨(s.poller.pollfds.set i back).dropLast,
      Function.update s.poller.channels (s.channel k).fd none⟩⟩ := by
  have hregs (j) (hj : j < n) : Registered ⟨channel, ⟨(s.poller.pollfds.set i back).dropLast,
      Function.update s.poller.channels (s.channel k).fd none⟩⟩ j ↔ j ≠ k ∧ s.Registered j :=
    hkeyed.registered_erase hk hleaves.fd rfl hj
  have hlt : i < s.poller.pollfds.length := by
    obtain ⟨i', pfd', hi', hget, -⟩ := h.seat k hk hreg
    obtain rfl : i = i' := Int.ofNat.inj (hindex.symm.trans hi')
    exact (List.getElem?_eq_some_iff.mp hget).1
  -- another channel's slot is another one
  have hother (j) (hj : j < n) (hjk : j ≠ k) (hr : s.Registered j) :
      (s.channel j).index ≠ (i : Nat) := fun heq =>
    hjk (h.apart j hj k hk hr hreg (heq.trans hindex.symm))
  refine ⟨fun j hj hr => ?_, fun i' hi' => ?_, fun j hj j' hj' hr hr' heq => ?_⟩
  · obtain ⟨hjk, hr⟩ := (hregs j hj).mp hr
    obtain ⟨i', pfd, hi', hget, hseat⟩ := h.seat j hj hr
    have hseat' := hothers j hjk pfd hseat
    have hmoved := hleaves.moved j hj hjk hr
    have hne := hother j hj hjk hr
    have hlen := (List.getElem?_eq_some_iff.mp hget).1
    by_cases hlast : i' = s.poller.pollfds.length - 1
    · rw [if_pos (hi'.trans (congrArg Nat.cast hlast))] at hmoved
      refine ⟨i, pfd, hmoved, ?_, hseat'⟩
      subst hlast
      cases hback.symm.trans hget
      rw [List.getElem?_dropLast, List.length_set, if_pos (by omega), List.getElem?_set_self hlt]
    · rw [if_neg (by omega)] at hmoved
      refine ⟨i', pfd, hmoved.trans hi', ?_, hseat'⟩
      rw [List.getElem?_dropLast, List.length_set, if_pos (by omega),
        List.getElem?_set_ne (by omega), hget]
  · simp only [List.length_dropLast, List.length_set] at hi'
    by_cases hii : i' = i
    · obtain ⟨j, hj, hr, hji⟩ := h.taken (s.poller.pollfds.length - 1) (by omega)
      have hjk : j ≠ k := by
        rintro rfl
        omega
      refine ⟨j, hj, (hregs j hj).mpr ⟨hjk, hr⟩, ?_⟩
      have hmoved := hleaves.moved j hj hjk hr
      rw [if_pos hji] at hmoved
      exact hmoved.trans (congrArg Nat.cast hii.symm)
    · obtain ⟨j, hj, hr, hji⟩ := h.taken i' (by omega)
      have hjk : j ≠ k := by
        rintro rfl
        omega
      refine ⟨j, hj, (hregs j hj).mpr ⟨hjk, hr⟩, ?_⟩
      have hmoved := hleaves.moved j hj hjk hr
      rw [if_neg (by omega)] at hmoved
      exact hmoved.trans hji
  · obtain ⟨hjk, hr⟩ := (hregs j hj).mp hr
    obtain ⟨hjk', hr'⟩ := (hregs j' hj').mp hr'
    have hne := hother j hj hjk hr
    have hne' := hother j' hj' hjk' hr'
    simp only [hleaves.moved j hj hjk hr, hleaves.moved j' hj' hjk' hr'] at heq
    refine h.apart j hj j' hj' hr hr' ?_
    split at heq
    · split at heq
      · omega
      · exact absurd heq.symm hne'
    · split at heq
      · exact absurd heq hne
      · exact heq

end Updates

end PollerLoop

namespace Poll

variable {γ : Type} {ch : Channel γ} {p : Poll}

theorem updateChannel_new (hneg : ch.index < 0) (habsent : p.channels ch.fd = none)
    (hlen : p.pollfds.length < intMax) :
    p.updateChannel ch = .ok ({ ch with index := (p.pollfds.length : Nat) },
      ⟨p.pollfds ++ [⟨ch.fd, shortEvents ch, 0⟩],
        Function.update p.channels ch.fd (some ch.address)⟩) := by
  have hidx (pfd : PollFd) : toInt (p.pollfds ++ [pfd]).length - 1 = (p.pollfds.length : Nat) := by
    rw [List.length_append, List.length_singleton, toInt_of_le hlen]
    omega
  simp only [updateChannel, if_pos hneg, require_of_true habsent, ok_bind, hidx]
  rfl

theorem updateChannel_registered {i : Nat} {pfd : PollFd} (hindex : ch.index = (i : Nat))
    (hsame : p.channels ch.fd = some ch.address) (hget : p.pollfds[i]? = some pfd)
    (hfd : pfd.fd = ch.fd ∨ pfd.fd = -1) (hlen : p.pollfds.length ≤ intMax) :
    p.updateChannel ch = .ok (ch, { p with
      pollfds := p.pollfds.set i ⟨if ch.isNoneEvent then -1 else pfd.fd, shortEvents ch, 0⟩ }) := by
  have hlt := (List.getElem?_eq_some_iff.mp hget).1
  have hpresent : p.channels ch.fd ≠ none := by
    rw [hsame]
    exact nofun
  have hrange : 0 ≤ ch.index ∧ ch.index < toInt p.pollfds.length := by
    rw [toInt_of_le hlen, hindex]
    omega
  have hnat : ch.index.toNat = i := by rw [hindex, Int.toNat_natCast]
  simp only [updateChannel, if_neg (Int.not_lt.mpr hrange.1), require_of_true hpresent,
    require_of_true hsame, require_of_true hrange, require_of_true hfd, ok_bind, hnat, hget]
  split
  · rfl
  · rfl

theorem updateChannel_absent (hindex : 0 ≤ ch.index) (habsent : p.channels ch.fd = none) :
    p.updateChannel ch = .error (.assertion .updateChannelPresent) := by
  simp only [updateChannel, if_neg (Int.not_lt.mpr hindex)]
  rw [require_of_false fun h => h habsent]
  rfl

theorem removeChannel_absent {s : PollerLoop Poll γ} (habsent : s.poller.channels ch.fd = none) :
    removeChannel s ch = .error (.assertion .removeChannelPresent) := by
  simp only [removeChannel]
  rw [require_of_false fun h => h habsent]
  rfl

theorem removeChannel_waiting {s : PollerLoop Poll γ}
    (hsame : s.poller.channels ch.fd = some ch.address) (hwaits : ch.isNoneEvent ≠ true) :
    removeChannel s ch = .error (.assertion .removeChannelNoneEvent) := by
  have hpresent : s.poller.channels ch.fd ≠ none := by
    rw [hsame]
    exact nofun
  simp only [removeChannel, require_of_true hpresent, require_of_true hsame, ok_bind]
  rw [require_of_false hwaits]
  rfl

theorem removeChannel_unmuted {s : PollerLoop Poll γ} {i : Nat} {pfd : PollFd}
    (hindex : ch.index = (i : Nat)) (hsame : s.poller.channels ch.fd = some ch.address)
    (hnone : ch.isNoneEvent = true) (hget : s.poller.pollfds[i]? = some pfd)
    (hpfd : ¬ (pfd.fd = -1 ∧ pfd.events = shortEvents ch))
    (hlen : s.poller.pollfds.length ≤ intMax) :
    removeChannel s ch = .error (.assertion .pollRemoveFd) := by
  have hlt := (List.getElem?_eq_some_iff.mp hget).1
  have hpresent : s.poller.channels ch.fd ≠ none := by
    rw [hsame]
    exact nofun
  have hrange : 0 ≤ (i : Int) ∧ (i : Int) < toInt s.poller.pollfds.length := by
    rw [toInt_of_le hlen]
    omega
  have hstop := require_of_false hpfd .pollRemoveFd
  simp only [removeChannel, hindex, require_of_true hpresent, require_of_true hsame,
    require_of_true hnone, require_of_true hrange, ok_bind, Int.toNat_natCast, hget, hstop]
  rfl

theorem removeChannel_registered {s : PollerLoop Poll γ} {i : Nat} {pfd : PollFd}
    (hindex : ch.index = (i : Nat)) (hsame : s.poller.channels ch.fd = some ch.address)
    (hnone : ch.isNoneEvent = true) (hget : s.poller.pollfds[i]? = some pfd)
    (hpfd : pfd.fd = -1 ∧ pfd.events = shortEvents ch)
    (hlen : s.poller.pollfds.length ≤ intMax) :
    removeChannel s ch = closeGap { s with poller := { s.poller with
      channels := Function.update s.poller.channels ch.fd none } } i := by
  have hlt := (List.getElem?_eq_some_iff.mp hget).1
  have hpresent : s.poller.channels ch.fd ≠ none := by
    rw [hsame]
    exact nofun
  have hrange : 0 ≤ (i : Int) ∧ (i : Int) < toInt s.poller.pollfds.length := by
    rw [toInt_of_le hlen]
    omega
  have herased : (if s.poller.channels ch.fd = none then 0 else 1) = 1 := if_neg hpresent
  simp only [removeChannel, hindex, require_of_true hpresent, require_of_true hsame,
    require_of_true hnone, require_of_true hrange, require_of_true hpfd, require_of_true herased,
    ok_bind, Int.toNat_natCast, hget]

end Poll

namespace PollerLoop

variable {γ : Type}

section Removal

variable {R : Channel γ → PollFd → Prop} {n : Nat} {s : PollerLoop Poll γ} {k i : Nat}
  {back : PollFd}

/-- The removed channel had the last slot. -/
theorem leaves_last (hplaced : Placed R n s) (hk : k < n) (hreg : s.Registered k)
    (hlast : (s.channel k).index = (s.poller.pollfds.length - 1 : Nat)) :
    Leaves s n k i s.channel := by
  refine ⟨fun _ => rfl, fun _ => rfl, fun _ => rfl, fun j hj hjk hr => ?_, fun _ _ => Iff.rfl⟩
  rw [if_neg]
  exact fun heq => hjk (hplaced.apart j hj k hk hr hreg (heq.trans hlast.symm))

/-- The channel of the last slot gets the index of the removed one. -/
theorem leaves_moved (hplaced : Placed R n s) {a : Nat} (ha : a < n) (hreg : s.Registered a)
    (hlast : (s.channel a).index = (s.poller.pollfds.length - 1 : Nat)) :
    Leaves s n k i (Function.update s.channel a { s.channel a with index := (i : Nat) }) := by
  have hstored (j) : ∃ index, Function.update s.channel a
      { s.channel a with index := (i : Nat) } j = { s.channel j with index := index } := by
    by_cases hja : j = a
    · subst hja
      exact ⟨(i : Nat), Function.update_self _ _ _⟩
    · exact ⟨(s.channel j).index, Function.update_of_ne hja _ _⟩
  refine ⟨fun j => ?_, fun j => ?_, fun j => ?_, fun j hj hjk hr => ?_, fun j _ => ?_⟩
  · obtain ⟨index, hj⟩ := hstored j
    rw [hj]
  · obtain ⟨index, hj⟩ := hstored j
    rw [hj]
  · obtain ⟨index, hj⟩ := hstored j
    rw [hj]
  · by_cases hja : j = a
    · subst hja
      rw [Function.update_self, if_pos hlast]
    · rw [Function.update_of_ne hja, if_neg]
      exact fun heq => hja (hplaced.apart j hj a ha hr hreg (heq.trans hlast.symm))
  · by_cases hja : j = a
    · subst hja
      rw [Function.update_self, hlast]
      exact iff_of_false (Int.not_lt.mpr (Int.natCast_nonneg _))
        (Int.not_lt.mpr (Int.natCast_nonneg _))
    · rw [Function.update_of_ne hja]

/-- The entry at the end of the array leads to the channel that has it. -/
theorem channelAtEnd_eq (hplaced : Placed R n s) (hkeyed : Keyed n s)
    (hback : s.poller.pollfds[s.poller.pollfds.length - 1]? = some back)
    {a : Nat} (ha : a < n) (hreg : s.Registered a)
    (hlast : (s.channel a).index = (s.poller.pollfds.length - 1 : Nat))
    (hR : ∀ ch pfd, R ch pfd → pfd.fd = ch.fd ∨ pfd.fd = -1)
    (hfound : 0 ≤ back.fd ∨ s.LastFound) :
    (if back.fd < 0 then -back.fd - 1 else back.fd).toNat = (s.channel a).fd := by
  obtain ⟨i', pfd, hi', hget, hseat⟩ := hplaced.seat a ha hreg
  obtain rfl : s.poller.pollfds.length - 1 = i' := Int.ofNat.inj (hlast.symm.trans hi')
  cases hback.symm.trans hget
  have hown := hR _ _ hseat
  rcases hfound with hpos | ⟨a', ha', hindex⟩
  · cases hown with
    | inl heq =>
        rw [if_neg (Int.not_lt.mpr hpos), heq]
        rfl
    | inr hmuted => omega
  · obtain ⟨hlt, hfd⟩ := hkeyed.mapped 0 a' ha'
    have hreg' : s.Registered a' := by
      rw [Registered, hfd]
      exact ha'
    obtain rfl := hplaced.apart a' hlt a ha hreg' hreg (hindex.trans hlast.symm)
    rw [hfd]
    cases hown with
    | inl heq =>
        rw [heq, hfd]
        rfl
    | inr hmuted =>
        rw [hmuted]
        rfl

theorem set_last_dropLast {l : List PollFd} {x : PollFd} (h : i = l.length - 1) :
    (l.set i x).dropLast = l.dropLast := by
  subst h
  refine List.ext_getElem? fun j => ?_
  simp only [List.getElem?_dropLast, List.length_set]
  split
  · rw [List.getElem?_set_ne (by omega)]
  · rfl

/-- The gap is closed, and the indices follow the slots. -/
theorem closeGap_ok (hplaced : Placed R n s) (hkeyed : Keyed n s)
    (hR : ∀ ch pfd, R ch pfd → pfd.fd = ch.fd ∨ pfd.fd = -1) (hsize : n ≤ intMax) (hk : k < n)
    (hreg : s.Registered k) (hindex : (s.channel k).index = (i : Nat))
    (hback : s.poller.pollfds[s.poller.pollfds.length - 1]? = some back)
    (hplace : (s.channel k).index = (s.poller.pollfds.length - 1 : Nat) ∨ 0 ≤ back.fd ∨
      s.LastFound) :
    ∃ channel, Poll.closeGap ⟨s.channel, ⟨s.poller.pollfds,
        Function.update s.poller.channels (s.channel k).fd none⟩⟩ (i : Nat) =
      .ok ⟨channel, ⟨(s.poller.pollfds.set i back).dropLast,
        Function.update s.poller.channels (s.channel k).fd none⟩⟩ ∧
      Leaves s n k i channel ∧
      ∀ j, channel j = { s.channel j with index := (channel j).index } := by
  have hlen := hplaced.length_le
  have htoInt : toInt (s.poller.pollfds.length - 1) = (s.poller.pollfds.length - 1 : Nat) :=
    toInt_of_le (by omega)
  simp only [Poll.closeGap, htoInt]
  by_cases hlast : i = s.poller.pollfds.length - 1
  · rw [if_pos (congrArg Nat.cast hlast.symm)]
    refine ⟨s.channel, ?_, ?_, fun _ => rfl⟩
    · rw [set_last_dropLast hlast]
    · exact leaves_last hplaced hk hreg (hindex.trans (congrArg Nat.cast hlast))
  · rw [if_neg fun heq => hlast (Int.ofNat.inj heq.symm)]
    have hlt := (List.getElem?_eq_some_iff.mp hback).1
    obtain ⟨a, ha, hra, hia⟩ := hplaced.taken _ hlt
    have hak : a ≠ k := by
      rintro rfl
      exact hlast (Int.ofNat.inj (hindex.symm.trans hia))
    have hfd : (s.channel a).fd ≠ (s.channel k).fd := fun heq => hak (hkeyed.distinct a ha k hk heq)
    have hfound := hplace.resolve_left fun heq => hlast (Int.ofNat.inj (hindex.symm.trans heq))
    have hlookup : Function.update s.poller.channels (s.channel k).fd none (s.channel a).fd =
        some a := by
      rw [Function.update_of_ne hfd]
      exact hra
    have hgetLast : s.poller.pollfds.getLast? = some back := by
      rw [List.getLast?_eq_getElem?, hback]
    simp only [hgetLast, channelAtEnd_eq hplaced hkeyed hback ha hra hia hR hfound, hlookup]
    refine ⟨_, rfl, leaves_moved hplaced ha hra hia, fun j => ?_⟩
    by_cases hja : j = a
    · subst hja
      rw [Function.update_self]
    · rw [Function.update_of_ne hja]

end Removal

end PollerLoop

end TAlib
