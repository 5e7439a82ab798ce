import TAlib.Reactor.EventDispatch

/-!
poll and fillActiveChannels of src/Reactor/Poll.cpp, and what they hand to the loop
beside what Epoll hands to it. The kernel tells both of the same files. An error or a
hangup it reports whether or not it is asked for, but not of a slot that is muted: so
the two pollers differ exactly when that happens to a channel that has lost its
interest.
-/

namespace TAlib

open Foundation

/-- What is reported without being asked for. -/
def kUnasked : Events := EPOLLERR ||| EPOLLHUP

/-- What the kernel reports of a file on which all of this is the case. -/
def reportFor (ready mask : Events) : Events := ready &&& (mask ||| kUnasked)

namespace Poll

/-- A slot after poll(2), which writes revents. -/
def polled (ready : Nat → Events) (pfd : PollFd) : PollFd :=
  { pfd with
    revents := if pfd.fd < 0 then 0
      else (ready pfd.fd.toNat).setWidth 16 &&& (pfd.events ||| kUnasked.setWidth 16) }

variable {γ : Type}

/-- The loop over the slots from `pfd` on, with numEvents still to be found. -/
def fillActiveChannels (s : PollerLoop Poll γ) (activeChannels : List Nat) :
    List PollFd → Nat → Except Fault (PollerLoop Poll γ × List Nat)
  | [], _ => .ok (s, activeChannels)
  | _ :: _, 0 => .ok (s, activeChannels)
  | pfd :: rest, numEvents + 1 =>
      if 0 < pfd.revents.toInt then
        match (if pfd.fd < 0 then none else s.poller.channels pfd.fd.toNat) with
        | none => .error (.assertion .fillChannelPresent)
        | some a => do
            require ((s.channel a).fd = pfd.fd) .fillChannelFd
            let channel := (s.channel a).setRevents (pfd.revents.signExtend 32)
            fillActiveChannels { s with channel := Function.update s.channel a channel }
              (activeChannels ++ [a]) rest numEvents
      else fillActiveChannels s activeChannels rest (numEvents + 1)

end Poll

/-- A loop with the poll array. -/
structure PollLoop (γ : Type) where
  loop : PollerLoop Poll γ
  activeChannels : List Nat

namespace PollLoop

variable {γ : Type}

def new (fds : Nat → Nat) : PollLoop γ := ⟨PollerLoop.new fds Poll.new, []⟩

/-- poll, after the loop has cleared the active channels; without a state of the
files, poll(2) has failed. -/
def poll (s : PollLoop γ) : Option (Nat → Events) → Except Fault (PollLoop γ)
  | none => .ok { s with activeChannels := [] }
  | some ready => do
      let pollfds := s.loop.poller.pollfds.map (Poll.polled ready)
      let loop := { s.loop with poller := { s.loop.poller with pollfds := pollfds } }
      let numEvents := pollfds.countP (·.revents ≠ 0)
      let (loop, activeChannels) ← Poll.fillActiveChannels loop [] pollfds numEvents
      return ⟨loop, activeChannels⟩

end PollLoop

section Reports

variable {e ready : Events}

theorem setWidth_setWidth_of_lt (h : e.toNat < 2 ^ 16) : (e.setWidth 16).setWidth 32 = e := by
  apply BitVec.eq_of_toNat_eq
  simp only [BitVec.toNat_setWidth]
  omega

theorem reportFor_lt (h : e.toNat < 8) : (reportFor ready e).toNat < 32 := by
  rw [reportFor, BitVec.toNat_and, BitVec.toNat_or]
  refine Nat.lt_of_le_of_lt Nat.and_le_right (Nat.or_lt_two_pow (n := 5) ?_ (by decide))
  omega

/-- A slot that is not muted is told what epoll is told of its channel. -/
theorem polled_revents {pfd : PollFd} {files : Nat → Events}
    (hevents : pfd.events = e.setWidth 16) (hfd : 0 ≤ pfd.fd) :
    (Poll.polled files pfd).revents = (reportFor (files pfd.fd.toNat) e).setWidth 16 := by
  rw [Poll.polled, if_neg (Int.not_lt.mpr hfd), hevents, reportFor, BitVec.setWidth_and,
    BitVec.setWidth_or]

theorem polled_muted {pfd : PollFd} {files : Nat → Events} (hfd : pfd.fd < 0) :
    (Poll.polled files pfd).revents = 0 := if_pos hfd

/-- revents is a short, and as one it is positive. -/
theorem report_positive (h : e.toNat < 32) :
    (0 < (e.setWidth 16).toInt ↔ e ≠ 0) ∧ (e.setWidth 16 ≠ 0 ↔ e ≠ 0) ∧
      (e.setWidth 16).signExtend 32 = e := by
  have hnat : (e.setWidth 16).toNat = e.toNat := by
    rw [BitVec.toNat_setWidth]
    omega
  have hmsb : (e.setWidth 16).msb = false := by
    rw [BitVec.msb_eq_false_iff_two_mul_lt, hnat]
    omega
  have hzero : e ≠ 0 ↔ 0 < e.toNat := by
    rw [Nat.pos_iff_ne_zero, Ne, Ne, ← BitVec.toNat_inj]
    rfl
  refine ⟨?_, ?_, ?_⟩
  · rw [BitVec.toInt_eq_toNat_of_msb hmsb, hnat, hzero]
    omega
  · rw [Ne, ← BitVec.toNat_inj, hnat, hzero, Nat.pos_iff_ne_zero]
    rfl
  · rw [BitVec.signExtend_eq_setWidth_of_msb_false hmsb, setWidth_setWidth_of_lt (by omega)]

end Reports

namespace PollLoop

variable {γ : Type}

section Filling

theorem forall₂_mem_right {α β : Type} {R : α → β → Prop} {l : List α} {l' : List β}
    (h : List.Forall₂ R l l') {b : β} (hb : b ∈ l') : ∃ a ∈ l, R a b := by
  induction h with
  | nil => cases hb
  | cons hab _ ih =>
      cases hb with
      | head => exact ⟨_, List.mem_cons_self, hab⟩
      | tail _ hb =>
          obtain ⟨a, ha, hR⟩ := ih hb
          exact ⟨a, List.mem_cons_of_mem _ ha, hR⟩

theorem forall₂_mem_left {α β : Type} {R : α → β → Prop} {l : List α} {l' : List β}
    (h : List.Forall₂ R l l') {a : α} (ha : a ∈ l) : ∃ b ∈ l', R a b :=
  forall₂_mem_right h.flip ha

/-- What is related to different things is different. -/
theorem forall₂_nodup {α β : Type} {R : α → β → Prop} {S : α → α → Prop}
    (hRS : ∀ a a' b, S a a' → R a b → ¬ R a' b) {l : List α} {l' : List β}
    (h : List.Forall₂ R l l') (hl : l.Pairwise S) : l'.Nodup := by
  induction h with
  | nil => exact .nil
  | cons hab htail ih =>
      obtain ⟨hhead, hl⟩ := List.pairwise_cons.mp hl
      refine List.nodup_cons.mpr ⟨fun hmem => ?_, ih hl⟩
      obtain ⟨a', ha', hR⟩ := forall₂_mem_right htail hmem
      exact hRS _ _ _ (hhead a' ha') hab hR

/-- The slots with a report are looked up in m_channels, one after the other; the
count of them is there only to stop early. -/
theorem fillActiveChannels_ok {s : PollerLoop Poll γ}
    (hmapped : ∀ fd a, s.poller.channels fd = some a → (s.channel a).fd = fd)
    {pfds : List PollFd}
    (hdistinct : pfds.Pairwise fun p q => p.revents ≠ 0 → q.revents ≠ 0 → p.fd ≠ q.fd)
    (hreported : ∀ p ∈ pfds, p.revents ≠ 0 → 0 < p.revents.toInt ∧ 0 ≤ p.fd ∧
      s.poller.channels p.fd.toNat ≠ none) (active : List Nat) :
    ∃ t as, Poll.fillActiveChannels s active pfds (pfds.countP (·.revents ≠ 0)) =
        .ok (t, active ++ as) ∧
      t.poller = s.poller ∧
      List.Forall₂ (fun p a => s.poller.channels p.fd.toNat = some a ∧
        (t.channel a).revents = p.revents.signExtend 32) (pfds.filter (·.revents ≠ 0)) as ∧
      (∀ a, ∃ revents, t.channel a = (s.channel a).setRevents revents) ∧
      (∀ a, a ∉ as → t.channel a = s.channel a) := by
  induction pfds generalizing s active with
  | nil =>
      refine ⟨s, [], ?_, rfl, .nil, fun a => ⟨(s.channel a).revents, rfl⟩, fun _ _ => rfl⟩
      rw [List.append_nil]
      rfl
  | cons p ps ih =>
      obtain ⟨hothers, hdistinct⟩ := List.pairwise_cons.mp hdistinct
      have hlater : ∀ q ∈ ps, q.revents ≠ 0 → 0 < q.revents.toInt ∧ 0 ≤ q.fd ∧
          s.poller.channels q.fd.toNat ≠ none :=
        fun q hq => hreported q (List.mem_cons_of_mem _ hq)
      by_cases hp : p.revents = 0
      · -- the slot is passed over, whether or not the loop goes on
        have hcount : (p :: ps).countP (fun q => decide (q.revents ≠ 0)) =
            ps.countP (fun q => decide (q.revents ≠ 0)) :=
          List.countP_cons_of_neg (by simpa using hp)
        have hfilter : (p :: ps).filter (fun q => decide (q.revents ≠ 0)) =
            ps.filter (fun q => decide (q.revents ≠ 0)) :=
          List.filter_cons_of_neg (by simpa using hp)
        obtain ⟨t, as, hfill, hrest⟩ := ih hmapped hdistinct hlater active
        refine ⟨t, as, ?_, hfilter ▸ hrest⟩
        rw [hcount, ← hfill]
        have hzero : ¬ 0 < p.revents.toInt := by
          rw [hp]
          decide
        cases ps.countP (fun q => decide (q.revents ≠ 0)) with
        | zero =>
            cases ps with
            | nil => rfl
            | cons q qs => rfl
        | succ n => simp only [Poll.fillActiveChannels, if_neg hzero]
      · obtain ⟨hpos, hfd, hpresent⟩ := hreported p List.mem_cons_self hp
        obtain ⟨a, ha⟩ := Option.ne_none_iff_exists'.mp hpresent
        have hcount : (p :: ps).countP (fun q => decide (q.revents ≠ 0)) =
            ps.countP (fun q => decide (q.revents ≠ 0)) + 1 :=
          List.countP_cons_of_pos (by simpa using hp)
        have hfilter : (p :: ps).filter (fun q => decide (q.revents ≠ 0)) =
            p :: ps.filter (fun q => decide (q.revents ≠ 0)) :=
          List.filter_cons_of_pos (by simpa using hp)
        let m : PollerLoop Poll γ := { s with
          channel := Function.update s.channel a
            ((s.channel a).setRevents (p.revents.signExtend 32)) }
        have hself : m.channel a = (s.channel a).setRevents (p.revents.signExtend 32) :=
          Function.update_self _ _ _
        have hne {b : Nat} (hb : b ≠ a) : m.channel b = s.channel b := Function.update_of_ne hb _ _
        have hfds (b : Nat) : (m.channel b).fd = (s.channel b).fd := by
          by_cases hb : b = a
          · rw [hb, hself]
            rfl
          · rw [hne hb]
        obtain ⟨t, as, hfill, hpoller, hall, hrevents, hframe⟩ := ih (s := m)
          (fun fd b hb => (hfds b).trans (hmapped fd b hb)) hdistinct hlater (active ++ [a])
        -- no later slot is for the same channel
        have hnot : a ∉ as := by
          intro hmem
          obtain ⟨q, hq, hqa, -⟩ := forall₂_mem_right hall hmem
          have hmem' := List.mem_filter.mp hq
          have hq0 : q.revents ≠ 0 := of_decide_eq_true hmem'.2
          have hqfd := (hlater q hmem'.1 hq0).2.1
          have hsame : q.fd.toNat = p.fd.toNat := by
            rw [← hmapped _ a hqa, ← hmapped _ a ha]
          exact hothers q hmem'.1 hp hq0 (by omega)
        refine ⟨t, a :: as, ?_, hpoller, ?_, fun b => ?_, fun b hb => ?_⟩
        · have hsame : ((s.channel a).fd : Int) = p.fd := by
            rw [hmapped _ a ha]
            omega
          rw [hcount]
          simp only [Poll.fillActiveChannels, if_pos hpos, if_neg (Int.not_lt.mpr hfd), ha,
            require_of_true hsame, ok_bind]
          rw [hfill, List.append_assoc]
          rfl
        · rw [hfilter]
          refine .cons ⟨ha, ?_⟩ hall
          rw [hframe a hnot, hself]
          rfl
        · obtain ⟨revents, hb⟩ := hrevents b
          refine ⟨revents, ?_⟩
          by_cases hba : b = a
          · rw [hb, hba, hself]
            rfl
          · rw [hb, hne hba]
        · rw [List.mem_cons, not_or] at hb
          rw [hframe b hb.2, hne hb.1]

end Filling

section Slots

variable {n : Nat} {s : PollerLoop Poll γ} {ready : Nat → Events}

/-- The channel of a slot that is not muted. -/
theorem slot_owner (hs : s.Seated n) {i : Nat} {pfd : PollFd}
    (hi : s.poller.pollfds[i]? = some pfd) (hfd : 0 ≤ pfd.fd) :
    ∃ k < n, s.Registered k ∧ (s.channel k).index = (i : Nat) ∧ pfd.fd = (s.channel k).fd ∧
      pfd.events = Poll.shortEvents (s.channel k) := by
  obtain ⟨k, hk, hreg, hindex⟩ := hs.taken i (List.getElem?_eq_some_iff.mp hi).1
  obtain ⟨i', pfd', hindex', hi', hseat⟩ := hs.seat k hk hreg
  obtain rfl : i = i' := Int.ofNat.inj (hindex.symm.trans hindex')
  cases hi.symm.trans hi'
  refine ⟨k, hk, hreg, hindex, ?_, hseat.events⟩
  cases hseat.fd with
  | inl hsame => exact hsame
  | inr hmuted => omega

/-- The slot of the channel is not muted, and there is something to report. -/
def Told (s : PollerLoop Poll γ) (ready : Nat → Events) (k : Nat) : Prop :=
  s.Registered k ∧ (∀ pfd ∈ s.poller.pollfds[(s.channel k).index.toNat]?, pfd.fd ≠ -1) ∧
    reportFor (ready (s.channel k).fd) (s.channel k).events ≠ 0

theorem reported_slot (hs : s.Seated n) {i : Nat} {pfd : PollFd}
    (hi : s.poller.pollfds[i]? = some pfd) (hreport : (Poll.polled ready pfd).revents ≠ 0) :
    0 ≤ pfd.fd ∧ ∃ k < n, s.Registered k ∧ (s.channel k).index = (i : Nat) ∧
      pfd.fd = (s.channel k).fd ∧ (Poll.polled ready pfd).revents =
        (reportFor (ready (s.channel k).fd) (s.channel k).events).setWidth 16 := by
  have hfd : 0 ≤ pfd.fd := by
    by_contra hneg
    exact hreport (polled_muted (Int.not_le.mp hneg))
  obtain ⟨k, hk, hreg, hindex, hsame, hevents⟩ := slot_owner hs hi hfd
  refine ⟨hfd, k, hk, hreg, hindex, hsame, ?_⟩
  have hnat : pfd.fd.toNat = (s.channel k).fd := by omega
  rw [polled_revents hevents hfd, hnat]

/-- What poll makes active: the channels that the kernel tells of, each once. -/
theorem poll_ok (hs : s.Seated n) (hmaps : s.Mapped n) (active : List Nat) (ready : Nat → Events) :
    ∃ t as, poll ⟨s, active⟩ (some ready) = .ok ⟨t, as⟩ ∧
      t.poller = { s.poller with pollfds := s.poller.pollfds.map (Poll.polled ready) } ∧
      as.Nodup ∧ (∀ k, k ∈ as ↔ Told s ready k) ∧
      (∀ k ∈ as, (t.channel k).revents = reportFor (ready (s.channel k).fd) (s.channel k).events) ∧
      (∀ k, ∃ revents, t.channel k = (s.channel k).setRevents revents) ∧
      (∀ k, k ∉ as → t.channel k = s.channel k) := by
  let m : PollerLoop Poll γ := { s with
    poller := { s.poller with pollfds := s.poller.pollfds.map (Poll.polled ready) } }
  have hmapped : ∀ fd a, m.poller.channels fd = some a → (m.channel a).fd = fd :=
    fun fd a ha => (hmaps.mapped fd a ha).2
  have hslot {p : PollFd} (hp : p ∈ m.poller.pollfds) (hreport : p.revents ≠ 0) :
      0 ≤ p.fd ∧ ∃ k < n, ∃ i : Nat, s.Registered k ∧ (s.channel k).index = i ∧
        s.poller.pollfds[i]?.map PollFd.fd = some p.fd ∧ p.fd = (s.channel k).fd ∧
        p.revents = (reportFor (ready (s.channel k).fd) (s.channel k).events).setWidth 16 := by
    obtain ⟨pfd, hpfd, rfl⟩ := List.mem_map.mp hp
    obtain ⟨i, hi⟩ := List.mem_iff_getElem?.mp hpfd
    obtain ⟨hfd, k, hk, hreg, hindex, hsame, hrevents⟩ := reported_slot hs hi hreport
    refine ⟨hfd, k, hk, i, hreg, hindex, ?_, hsame, hrevents⟩
    rw [hi]
    rfl
  have hdistinct : m.poller.pollfds.Pairwise fun p q => p.revents ≠ 0 → q.revents ≠ 0 →
      p.fd ≠ q.fd := by
    refine List.pairwise_map.mpr (List.pairwise_iff_getElem.mpr fun i j hi hj hlt => ?_)
    intro hp hq heq
    obtain ⟨-, k, hk, hreg, hindex, hsame, -⟩ :=
      reported_slot hs (List.getElem?_eq_getElem hi) hp
    obtain ⟨-, k', hk', hreg', hindex', hsame', -⟩ :=
      reported_slot hs (List.getElem?_eq_getElem hj) hq
    have hfds : (s.channel k).fd = (s.channel k').fd := by
      change s.poller.pollfds[i].fd = s.poller.pollfds[j].fd at heq
      omega
    obtain rfl := hmaps.distinct k hk k' hk' hfds
    have := hindex.symm.trans hindex'
    omega
  have hreported : ∀ p ∈ m.poller.pollfds, p.revents ≠ 0 → 0 < p.revents.toInt ∧ 0 ≤ p.fd ∧
      m.poller.channels p.fd.toNat ≠ none := by
    intro p hp hreport
    obtain ⟨hfd, k, -, i, hreg, -, -, hsame, hrevents⟩ := hslot hp hreport
    have hlt : (reportFor (ready (s.channel k).fd) (s.channel k).events).toNat < 32 :=
      reportFor_lt (hmaps.small k)
    obtain ⟨hpos, hne, -⟩ := report_positive hlt
    refine ⟨?_, hfd, ?_⟩
    · rw [hrevents] at hreport ⊢
      exact hpos.mpr (hne.mp hreport)
    · have hnat : p.fd.toNat = (s.channel k).fd := by omega
      change s.poller.channels p.fd.toNat ≠ none
      rw [hnat, hreg]
      exact Option.some_ne_none k
  obtain ⟨t, as, hfill, hpoller, hall, hrevents, hframe⟩ :=
    fillActiveChannels_ok hmapped hdistinct hreported []
  rw [List.nil_append] at hfill
  have howner {p : PollFd} {a : Nat} (hp : p ∈ m.poller.pollfds) (hreport : p.revents ≠ 0)
      (ha : s.poller.channels p.fd.toNat = some a) : Told s ready a ∧
        p.revents.signExtend 32 = reportFor (ready (s.channel a).fd) (s.channel a).events := by
    obtain ⟨hfd, k, -, i, hreg, hindex, hi, hsame, hrevents⟩ := hslot hp hreport
    have hnat : p.fd.toNat = (s.channel k).fd := by omega
    rw [hnat, hreg] at ha
    obtain rfl : k = a := Option.some.inj ha
    have hlt : (reportFor (ready (s.channel k).fd) (s.channel k).events).toNat < 32 :=
      reportFor_lt (hmaps.small k)
    obtain ⟨-, hne, hextend⟩ := report_positive hlt
    rw [hrevents] at hreport ⊢
    refine ⟨⟨hreg, fun pfd hpfd hmuted => ?_, hne.mp hreport⟩, hextend⟩
    rw [hindex, Int.toNat_natCast] at hpfd
    rw [Option.mem_def.mp hpfd] at hi
    have hsame' : pfd.fd = p.fd := Option.some.inj hi
    omega
  refine ⟨t, as, ?_, hpoller, ?_, ?_, fun k hk => ?_, hrevents, hframe⟩
  · simp only [poll, m] at hfill ⊢
    rw [hfill]
    rfl
  · have hpairs : (m.poller.pollfds.filter (·.revents ≠ 0)).Pairwise fun p q =>
        p.fd.toNat ≠ q.fd.toNat := by
      refine List.Pairwise.imp_of_mem (fun hp hq hne => ?_) (hdistinct.filter _)
      have hp' := List.mem_filter.mp hp
      have hq' := List.mem_filter.mp hq
      have hpos := (hslot hp'.1 (of_decide_eq_true hp'.2)).1
      have hpos' := (hslot hq'.1 (of_decide_eq_true hq'.2)).1
      have hfds := hne (of_decide_eq_true hp'.2) (of_decide_eq_true hq'.2)
      omega
    refine forall₂_nodup (fun p q a hne hp hq => hne ?_) hall hpairs
    rw [← hmapped _ a hp.1, ← hmapped _ a hq.1]
  · intro k
    constructor
    · intro hk
      obtain ⟨p, hp, ha, -⟩ := forall₂_mem_right hall hk
      have hp' := List.mem_filter.mp hp
      exact (howner hp'.1 (of_decide_eq_true hp'.2) ha).1
    · intro hk
      obtain ⟨hreg, hunmuted, hreport⟩ := hk
      obtain ⟨hlt, -⟩ := hmaps.mapped _ k hreg
      obtain ⟨i, pfd, hindex, hi, hseat⟩ := hs.seat k hlt hreg
      rw [hindex, Int.toNat_natCast, hi] at hunmuted
      have hsame : pfd.fd = (s.channel k).fd := by
        cases hseat.fd with
        | inl hsame => exact hsame
        | inr hmuted => exact absurd hmuted.1 (hunmuted pfd rfl)
      have hnat : pfd.fd.toNat = (s.channel k).fd := by omega
      have hrevents : (Poll.polled ready pfd).revents ≠ 0 := by
        rw [polled_revents hseat.events (by omega), hnat]
        exact (report_positive (reportFor_lt (hmaps.small k))).2.1.mpr hreport
      have hmem : Poll.polled ready pfd ∈ m.poller.pollfds.filter (·.revents ≠ 0) :=
        List.mem_filter.mpr ⟨List.mem_map_of_mem (List.mem_of_getElem? hi), decide_eq_true hrevents⟩
      obtain ⟨a, ha, hch, -⟩ := forall₂_mem_left hall hmem
      have hfound : s.poller.channels pfd.fd.toNat = some a := hch
      rw [hnat, hreg] at hfound
      exact Option.some.inj hfound ▸ ha
  · obtain ⟨p, hp, ha, hp32⟩ := forall₂_mem_right hall hk
    have hp' := List.mem_filter.mp hp
    rw [hp32]
    exact (howner hp'.1 (of_decide_eq_true hp'.2) ha).2

end Slots

end PollLoop

namespace EpollLoop

variable {γ : Type} {t : EpollLoop γ}

/-- poll on a report that is kept: nothing but revents changes. -/
theorem poll_reported (h : t.Sound) {reported : List EpollEvent}
    (hreported : t.Reported (.poll (some reported))) :
    ∃ t', t.poll (some reported) = .ok t' ∧ t'.loop.poller = t.loop.poller ∧
      t'.activeChannels.Nodup ∧
      List.Forall₂ (fun e a => t.loop.poller.channels e.fd = some a ∧
        (t'.loop.channel a).revents = e.events) reported t'.activeChannels ∧
      (∀ k, ∃ revents, t'.loop.channel k = (t.loop.channel k).setRevents revents) ∧
      (∀ k, k ∉ t'.activeChannels → t'.loop.channel k = t.loop.channel k) := by
  obtain ⟨hlength, hnodup, hevents⟩ := hreported
  have hwithin := h.within
  have hcapacity := h.capacity
  have helements := h.elements
  rw [toInt_of_le (Nat.le_trans hwithin (by decide))] at hlength
  have hpresent : ∀ e ∈ reported, t.loop.poller.channels e.fd ≠ none ∧ e.events ≠ 0 :=
    fun e he => ⟨fun hnone => (hevents e he).1 ((h.interest _).mpr hnone), (hevents e he).2⟩
  obtain ⟨loop, as, hfill, hall, hframe⟩ := fillActiveChannels_reported h.mapped hnodup
    hpresent [] (t.epollEvents.drop reported.length)
  obtain ⟨hpoller, hrevents⟩ := fillActiveChannels_ok hfill
  have hsize : 0 < t.epollEvents.length := by
    rw [helements]
    decide
  refine ⟨⟨loop, reported ++ t.epollEvents.drop reported.length, as⟩, ?_, hpoller, ?_, hall,
    hrevents, fun k hk => hframe k fun e he ha => ?_⟩
  · simp only [poll, require_of_true hsize, ok_bind]
    rw [if_neg (by omega), List.take_of_length_le (by omega), hfill, ok_bind]
    rfl
  · refine PollLoop.forall₂_nodup (fun e e' a hne he he' => hne ?_) hall
      (List.pairwise_map.mp hnodup)
    rw [← h.mapped _ a he.1, ← h.mapped _ a he'.1]
  · obtain ⟨a, hmem, ha', -⟩ := PollLoop.forall₂_mem_left hall he
    rw [ha] at ha'
    exact hk (Option.some.inj ha' ▸ hmem)

end EpollLoop

/-- The same channels with the one poller and with the other. -/
structure Pollers (γ : Type) where
  poll : PollLoop γ
  epoll : EpollLoop γ

/-- The channels change their interest, or both loops poll: `ready` is what is the case
on the files, and `reported` what epoll_wait has written about it. -/
inductive PollersTurn where
  | interest (c : InterestCall)
  | poll (ready : Nat → Events) (reported : List EpollEvent)

namespace Pollers

variable {γ : Type} {n : Nat} {s t : Pollers γ}

def new (fds : Nat → Nat) : Pollers γ := ⟨.new fds, .new fds⟩

def exec (s : Pollers γ) : PollersTurn → Except Fault (Pollers γ)
  | .interest c => do
      let loop ← s.poll.loop.execPoll c
      let epoll ← s.epoll.exec (.interest c)
      return ⟨{ s.poll with loop := loop }, epoll⟩
  | .poll ready reported => do
      let poll ← s.poll.poll (some ready)
      let epoll ← s.epoll.poll (some reported)
      return ⟨poll, epoll⟩

/-- epoll_wait keeps its promise, and tells of every registered file on which something
is the case that is asked for or need not be. -/
structure Tells (t : EpollLoop γ) (ready : Nat → Events) (reported : List EpollEvent) : Prop where
  promised : t.Reported (.poll (some reported))
  exact : ∀ e, e ∈ reported ↔ ∃ mask, t.loop.poller.interest e.fd = some mask ∧
    e.events = reportFor (ready e.fd) mask ∧ e.events ≠ 0

/-- The calls are on the n channels, the poll array follows them, and the kernel tells
epoll what it tells poll. -/
def Driven (n : Nat) (s : Pollers γ) : PollersTurn → Prop
  | .interest c => c.channel < n ∧ s.poll.loop.Followed c
  | .poll ready reported => Tells s.epoll ready reported

/-- Both polls return, and make the same channels active, each once and with the same
events. -/
def Alike (s : Pollers γ) : PollersTurn → Prop
  | .interest _ => True
  | .poll ready reported => ∃ p q, s.poll.poll (some ready) = .ok p ∧
      s.epoll.poll (some reported) = .ok q ∧ p.activeChannels.Nodup ∧
      p.activeChannels.Perm q.activeChannels ∧
      ∀ k ∈ p.activeChannels, (p.loop.channel k).revents = (q.loop.channel k).revents

/-- No channel whose slot is muted is in error or hung up. -/
def Quiet (s : Pollers γ) : PollersTurn → Prop
  | .interest _ => True
  | .poll ready _ => ∀ k, s.poll.loop.Registered k →
      ∀ pfd ∈ s.poll.loop.poller.pollfds[(s.poll.loop.channel k).index.toNat]?,
        pfd.fd = -1 → reportFor (ready (s.poll.loop.channel k).fd) kNoneEvent = 0

/-- The loops side by side, and the event array of the second. -/
structure Beside (n : Nat) (s : Pollers γ) : Prop where
  matched : s.poll.loop.Matched n s.epoll.loop
  sound : s.epoll.Sound

theorem new_beside {fds : Nat → Nat} (hfds : Set.InjOn fds { k | k < n }) :
    Beside n (new fds : Pollers γ) :=
  ⟨PollerLoop.new_matched hfds, EpollLoop.sound_new fds⟩

/-- With no more channels than the event array has elements there is room for each. -/
theorem Beside.room (h : Beside n s) (hroom : n ≤ kInitEpollEventsSize) {c : InterestCall}
    (hc : c.channel < n) : s.epoll.Room (.interest c) := by
  intro _ _ habsent
  have hsub : { k | s.epoll.Registered k } ⊆ ((Finset.range n).erase c.channel : Set Nat) := by
    intro k hk
    have hreg : s.epoll.loop.poller.channels (s.epoll.loop.channel k).fd = some k := hk
    have hlt : k < n := by
      rw [h.matched.channels] at hreg
      exact (h.matched.maps.mapped _ k hreg).1
    refine Finset.mem_coe.mpr (Finset.mem_erase.mpr ⟨?_, Finset.mem_range.mpr hlt⟩)
    rintro rfl
    exact nomatch habsent.symm.trans hreg
  have hcount : Set.encard { k | s.epoll.Registered k } ≤ ((n - 1 : Nat) : ℕ∞) := by
    refine (Set.encard_le_encard hsub).trans (le_of_eq ?_)
    rw [Set.encard_coe_eq_coe_finsetCard, Finset.card_erase_of_mem (Finset.mem_range.mpr hc),
      Finset.card_range]
  exact hcount.trans_lt (Nat.cast_lt.mpr (by omega))

/-- What the two polls make active, and what they change. -/
structure Polled (s : Pollers γ) (ready : Nat → Events) (p : PollLoop γ) (q : EpollLoop γ) :
    Prop where
  poll : p.loop.poller = { s.poll.loop.poller with
    pollfds := s.poll.loop.poller.pollfds.map (Poll.polled ready) }
  epoll : q.loop.poller = s.epoll.loop.poller
  once : p.activeChannels.Nodup ∧ q.activeChannels.Nodup
  told : ∀ k, k ∈ p.activeChannels ↔ PollLoop.Told s.poll.loop ready k
  registered : ∀ k, k ∈ q.activeChannels ↔ s.poll.loop.Registered k ∧
    reportFor (ready (s.poll.loop.channel k).fd) (s.poll.loop.channel k).events ≠ 0
  pollRevents : ∀ k ∈ p.activeChannels, (p.loop.channel k).revents =
    reportFor (ready (s.poll.loop.channel k).fd) (s.poll.loop.channel k).events
  epollRevents : ∀ k ∈ q.activeChannels, (q.loop.channel k).revents =
    reportFor (ready (s.poll.loop.channel k).fd) (s.poll.loop.channel k).events
  pollOnly : ∀ k, ∃ revents, p.loop.channel k = (s.poll.loop.channel k).setRevents revents
  epollOnly : ∀ k, ∃ revents, q.loop.channel k = (s.epoll.loop.channel k).setRevents revents
  pollFrame : ∀ k, k ∉ p.activeChannels → p.loop.channel k = s.poll.loop.channel k
  epollFrame : ∀ k, k ∉ q.activeChannels → q.loop.channel k = s.epoll.loop.channel k

theorem Beside.polls (h : Beside n s) {ready : Nat → Events} {reported : List EpollEvent}
    (htells : Tells s.epoll ready reported) :
    ∃ p q, s.poll.poll (some ready) = .ok p ∧ s.epoll.poll (some reported) = .ok q ∧
      s.Polled ready p q := by
  obtain ⟨loop, as, hpoll, hpoller, honce, htold, hrevents, honly, hframe⟩ :=
    PollLoop.poll_ok h.matched.seated h.matched.maps s.poll.activeChannels ready
  obtain ⟨q, hepoll, hpoller', honce', hall, honly', hframe'⟩ :=
    EpollLoop.poll_reported h.sound htells.promised
  have hchannels := h.matched.channels
  have hown {fd k : Nat} (hk : s.epoll.loop.poller.channels fd = some k) :
      s.poll.loop.Registered k ∧ (s.poll.loop.channel k).fd = fd ∧
        s.epoll.loop.poller.interest fd = some (s.poll.loop.channel k).events := by
    rw [hchannels] at hk
    obtain ⟨-, hfd⟩ := h.matched.maps.mapped fd k hk
    refine ⟨?_, hfd, ?_⟩
    · rw [PollerLoop.Registered, hfd]
      exact hk
    · rw [h.matched.interest, hk]
      rfl
  refine ⟨⟨loop, as⟩, q, hpoll, hepoll, hpoller, hpoller', ⟨honce, honce'⟩, htold, fun k => ?_,
    hrevents, fun k hk => ?_, honly, honly', hframe, hframe'⟩
  · constructor
    · intro hk
      obtain ⟨e, he, hch, -⟩ := PollLoop.forall₂_mem_right hall hk
      obtain ⟨hreg, hfd, hinterest⟩ := hown hch
      obtain ⟨mask, hmask, hevents, hne⟩ := (htells.exact e).mp he
      rw [hinterest] at hmask
      cases hmask
      rw [hfd]
      exact ⟨hreg, hevents ▸ hne⟩
    · intro hk
      obtain ⟨hreg, hne⟩ := hk
      have hch : s.epoll.loop.poller.channels (s.poll.loop.channel k).fd = some k := by
        rw [hchannels]
        exact hreg
      have he : ⟨(s.poll.loop.channel k).fd, reportFor (ready (s.poll.loop.channel k).fd)
          (s.poll.loop.channel k).events⟩ ∈ reported :=
        (htells.exact _).mpr ⟨_, (hown hch).2.2, rfl, hne⟩
      obtain ⟨a, ha, hch', -⟩ := PollLoop.forall₂_mem_left hall he
      rw [hch] at hch'
      exact Option.some.inj hch' ▸ ha
  · obtain ⟨e, he, hch, hevents⟩ := PollLoop.forall₂_mem_right hall hk
    obtain ⟨-, hfd, hinterest⟩ := hown hch
    obtain ⟨mask, hmask, hreport, -⟩ := (htells.exact e).mp he
    rw [hinterest] at hmask
    cases hmask
    rw [hevents, hreport, hfd]

/-- The slot of a registered channel is muted only while the channel waits for
nothing. -/
theorem Beside.muted (h : Beside n s) {k : Nat} (hreg : s.poll.loop.Registered k) {pfd : PollFd}
    (hpfd : pfd ∈ s.poll.loop.poller.pollfds[(s.poll.loop.channel k).index.toNat]?)
    (hfd : pfd.fd = -1) : (s.poll.loop.channel k).events = kNoneEvent := by
  obtain ⟨hk, -⟩ := h.matched.maps.mapped _ k hreg
  obtain ⟨i, pfd', hindex, hi, hseat⟩ := h.matched.seated.seat k hk hreg
  rw [hindex, Int.toNat_natCast, hi] at hpfd
  cases Option.mem_some_iff.mp hpfd
  cases hseat.fd with
  | inl hsame => omega
  | inr hmuted => exact hmuted.2

theorem Beside.alike_iff (h : Beside n s) {e : PollersTurn} (hdriven : s.Driven n e) :
    s.Alike e ↔ s.Quiet e := by
  cases e with
  | interest c => exact Iff.rfl
  | poll ready reported =>
      obtain ⟨p, q, hp, hq, hpolled⟩ := h.polls hdriven
      constructor
      · intro halike k hreg pfd hpfd hfd
        obtain ⟨p', q', hp', hq', -, hperm, -⟩ := halike
        cases hp.symm.trans hp'
        cases hq.symm.trans hq'
        by_contra hne
        rw [← h.muted hreg hpfd hfd] at hne
        have hk := hperm.mem_iff.mpr ((hpolled.registered k).mpr ⟨hreg, hne⟩)
        exact ((hpolled.told k).mp hk).2.1 pfd hpfd hfd
      · intro hquiet
        have hsame (k : Nat) : k ∈ p.activeChannels ↔ k ∈ q.activeChannels := by
          rw [hpolled.told, hpolled.registered]
          constructor
          · exact fun htold => ⟨htold.1, htold.2.2⟩
          · intro hk
            refine ⟨hk.1, fun pfd hpfd hfd => hk.2 ?_, hk.2⟩
            rw [h.muted hk.1 hpfd hfd]
            exact hquiet k hk.1 pfd hpfd hfd
        refine ⟨p, q, hp, hq, hpolled.once.1, ?_, fun k hk => ?_⟩
        · exact (List.perm_ext_iff_of_nodup hpolled.once.1 hpolled.once.2).mpr hsame
        · rw [hpolled.pollRevents k hk, hpolled.epollRevents k ((hsame k).mp hk)]

/-- A quiet poll leaves the loops side by side. -/
theorem Beside.polled (h : Beside n s) {ready : Nat → Events} {p : PollLoop γ} {q : EpollLoop γ}
    (hpolled : s.Polled ready p q) (hsame : ∀ k, k ∈ p.activeChannels ↔ k ∈ q.activeChannels) :
    p.loop.Matched n q.loop := by
  have hmatched := h.matched
  have hkeeps (k : Nat) : (p.loop.channel k).fd = (s.poll.loop.channel k).fd ∧
      (p.loop.channel k).address = (s.poll.loop.channel k).address ∧
      (p.loop.channel k).events = (s.poll.loop.channel k).events ∧
      (p.loop.channel k).index = (s.poll.loop.channel k).index := by
    obtain ⟨revents, hk⟩ := hpolled.pollOnly k
    rw [hk]
    exact ⟨rfl, rfl, rfl, rfl⟩
  have hindex (k : Nat) : (q.loop.channel k).index = (s.epoll.loop.channel k).index := by
    obtain ⟨revents, hk⟩ := hpolled.epollOnly k
    rw [hk]
    rfl
  have hchannels : p.loop.poller.channels = s.poll.loop.poller.channels := by rw [hpolled.poll]
  have hslots : p.loop.poller.pollfds = s.poll.loop.poller.pollfds.map (Poll.polled ready) := by
    rw [hpolled.poll]
  have hreg (k : Nat) : p.loop.Registered k ↔ s.poll.loop.Registered k := by
    rw [PollerLoop.Registered, PollerLoop.Registered, hchannels, (hkeeps k).1]
  have hmaps := hmatched.maps
  refine ⟨⟨fun k hk hr => ?_, fun i hi => ?_, fun k hk k' hk' hr hr' heq => ?_⟩,
    ⟨fun i hi j hj heq => ?_, fun k => ?_, fun k => ?_, fun fd a ha => ?_, fun k hk hneg => ?_⟩,
    fun k => ?_, fun k hk => ?_, ?_, fun fd => ?_, ?_⟩
  · obtain ⟨i, pfd, hi, hpfd, hseat⟩ := hmatched.seated.seat k hk ((hreg k).mp hr)
    obtain ⟨hfd, -, hevents, hidx⟩ := hkeeps k
    refine ⟨i, Poll.polled ready pfd, hidx.trans hi, ?_, ?_, ?_⟩
    · rw [hslots, List.getElem?_map, hpfd]
      rfl
    · rw [Poll.shortEvents, hevents]
      exact hseat.events
    · rw [hfd, hevents]
      exact hseat.fd
  · rw [hslots, List.length_map] at hi
    obtain ⟨k, hk, hr, hidx⟩ := hmatched.seated.taken i hi
    exact ⟨k, hk, (hreg k).mpr hr, (hkeeps k).2.2.2.trans hidx⟩
  · rw [(hkeeps k).2.2.2, (hkeeps k').2.2.2] at heq
    exact hmatched.seated.apart k hk k' hk' ((hreg k).mp hr) ((hreg k').mp hr') heq
  · rw [(hkeeps i).1, (hkeeps j).1] at heq
    exact hmaps.distinct i hi j hj heq
  · exact (hkeeps k).2.1.trans (hmaps.address k)
  · rw [(hkeeps k).2.2.1]
    exact hmaps.small k
  · rw [hchannels] at ha
    rw [(hkeeps a).1]
    exact hmaps.mapped fd a ha
  · rw [(hkeeps k).2.2.2] at hneg
    rw [hchannels, (hkeeps k).1]
    exact hmaps.unused k hk hneg
  · have hold := hmatched.channel k
    by_cases hk : k ∈ p.activeChannels
    · have hrevents := (hpolled.pollRevents k hk).trans
        (hpolled.epollRevents k ((hsame k).mp hk)).symm
      obtain ⟨revents, hp⟩ := hpolled.pollOnly k
      obtain ⟨revents', hq⟩ := hpolled.epollOnly k
      rw [hp, hq] at hrevents ⊢
      have hsame' : revents = revents' := hrevents
      rw [hsame', hold]
      rfl
    · rw [hpolled.pollFrame k hk, hpolled.epollFrame k fun hq => hk ((hsame k).mpr hq)]
      exact hold
  · rw [(hkeeps k).2.2.2, hindex]
    exact hmatched.sign k hk
  · rw [hpolled.epoll, hchannels]
    exact hmatched.channels
  · rw [hpolled.epoll, hchannels, hmatched.interest]
    cases s.poll.loop.poller.channels fd with
    | none => rfl
    | some a => exact congrArg some (hkeeps a).2.2.1.symm
  · rw [hpolled.epoll, hslots, List.length_map]
    exact hmatched.size

/-- A turn that is quiet leaves the loops side by side. -/
theorem Beside.step (h : Beside n s) (hroom : n ≤ kInitEpollEventsSize) {e : PollersTurn}
    (hdriven : s.Driven n e) (hquiet : s.Quiet e) (hok : s.exec e = .ok t) : Beside n t := by
  have halike := (h.alike_iff hdriven).mpr hquiet
  cases e with
  | interest c =>
      simp only [exec, EpollLoop.exec, bind_eq_ok] at hok
      obtain ⟨loop, hloop, epoll, ⟨eloop, heloop, hepoll⟩, hok⟩ := hok
      cases hepoll
      cases hok
      have hint : n ≤ intMax := hroom.trans (by decide)
      have hstep := PollerLoop.exec_matched h.matched hint c hdriven.1 hdriven.2
      rw [hloop, heloop] at hstep
      exact ⟨hstep, h.sound.interest_step (h.room hroom hdriven.1) heloop⟩
  | poll ready reported =>
      obtain ⟨p, q, hp, hq, hpolled⟩ := h.polls hdriven
      obtain ⟨p', q', hp', hq', -, hperm, -⟩ := halike
      cases hp.symm.trans hp'
      cases hq.symm.trans hq'
      simp only [exec, hp, hq, ok_bind] at hok
      cases hok
      exact ⟨h.polled hpolled fun k => hperm.mem_iff, h.sound.poll_step hq⟩

/-- Under the same calls, and told the same by the kernel, the two loops dispatch the
same events to the same channels in every round, exactly if no round finds an error or
a hangup on a channel that has lost its interest: Epoll makes that channel active, and
Poll has muted its slot. -/
theorem dispatch_alike_iff {fds : Nat → Nat} (hfds : Set.InjOn fds { k | k < n })
    (hroom : n ≤ kInitEpollEventsSize) (turns : List PollersTurn)
    (hdriven : Respects exec (Driven n) (new fds : Pollers γ) turns) :
    Respects exec Alike (new fds : Pollers γ) turns ↔
      Respects exec Quiet (new fds : Pollers γ) turns := by
  constructor
  · intro halike
    refine (hdriven.and halike).of_invariant (I := Beside n) ?_ ?_ (new_beside hfds)
    · exact fun s e h hpre => (h.alike_iff hpre.1).mp hpre.2
    · exact fun s e t h hpre hok => h.step hroom hpre.1 ((h.alike_iff hpre.1).mp hpre.2) hok
  · intro hquiet
    refine (hdriven.and hquiet).of_invariant (I := Beside n) ?_ ?_ (new_beside hfds)
    · exact fun s e h hpre => (h.alike_iff hpre.1).mpr hpre.2
    · exact fun s e t h hpre hok => h.step hroom hpre.1 hpre.2 hok

/-- One file is watched, and the kernel has something to tell of it. -/
theorem tells_one {s : EpollLoop γ} {ready : Nat → Events} {told : EpollEvent} (mask : Events)
    (hinterest : s.loop.poller.interest = Function.update (fun _ => none) told.fd (some mask))
    (hevents : told.events = reportFor (ready told.fd) mask)
    (hpromised : s.Reported (.poll (some [told]))) : Tells s ready [told] := by
  refine ⟨hpromised, fun e => ?_⟩
  rw [List.mem_singleton, hinterest, Function.update_apply]
  constructor
  · intro he
    rw [he]
    exact ⟨mask, if_pos rfl, hevents, (hpromised.2.2 told List.mem_cons_self).2⟩
  · intro he
    obtain ⟨mask', hmask, hreport, -⟩ := he
    by_cases hfd : e.fd = told.fd
    · rw [if_pos hfd] at hmask
      cases hmask
      rw [hfd, ← hevents] at hreport
      exact EpollEvent.mk.injEq .. ▸ ⟨hfd, hreport⟩
    · rw [if_neg hfd] at hmask
      cases hmask

/-- A channel that is read gets its input from either loop. When its peer hangs up
after it has ceased to be read, only Epoll tells of it. -/
theorem dispatch_alike_iff_one :
    Respects exec Alike (new fun k => k + 3 : Pollers Unit)
        [.interest ⟨0, .enableReading⟩, .poll (fun _ => EPOLLIN) [⟨3, EPOLLIN⟩]] ∧
      ¬ Respects exec Alike (new fun k => k + 3 : Pollers Unit)
        [.interest ⟨0, .enableReading⟩, .interest ⟨0, .disableReading⟩,
          .poll (fun _ => EPOLLHUP) [⟨3, EPOLLHUP⟩]] := by
  have hfds : Set.InjOn (fun k => k + 3) { k | k < 1 } := fun _ _ _ _ h => Nat.add_right_cancel h
  constructor
  · refine (dispatch_alike_iff hfds (by decide) _ ?_).mpr ?_
    · refine ⟨⟨by decide, by decide⟩, fun t ht => ⟨?_, fun _ _ => trivial⟩⟩
      cases ht
      exact tells_one kReadEvent rfl (by decide) (by decide +kernel)
    · refine ⟨trivial, fun t ht => ⟨fun k hreg pfd hpfd hfd => ?_, fun _ _ => trivial⟩⟩
      cases ht
      have hk : k = 0 := by
        have hreg' : Function.update (fun _ => none) 3 (some 0) _ = some k := hreg
        rw [Function.update_apply] at hreg'
        split at hreg'
        · cases hreg'
          rfl
        · cases hreg'
      subst hk
      cases hpfd
      cases hfd
  · intro halike
    have hquiet := (dispatch_alike_iff (n := 1) hfds (by decide) _ ?_).mp halike
    · have := ((hquiet.2 _ rfl).2 _ rfl).1 0 rfl _ rfl rfl
      exact absurd this (by decide)
    · refine ⟨⟨by decide, by decide⟩, fun t ht => ⟨?_, fun t' ht' => ⟨?_, fun _ _ => trivial⟩⟩⟩
      · cases ht
        exact ⟨by decide, by decide +kernel⟩
      · cases ht
        cases ht'
        refine tells_one kNoneEvent ?_ (by decide) (by decide +kernel)
        exact Function.update_idem ..

end Pollers

end TAlib
