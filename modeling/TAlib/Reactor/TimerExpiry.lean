import TAlib.Reactor.TimerSets

/-!
The two ends of handleRead. Its start cuts the expired timers out of both sets,
which makes them loose; its end puts the repeating ones back, unless they were
cancelled meanwhile, and deletes the others.
-/

namespace TAlib

open Foundation

namespace TimerQueue

variable {q : TimerQueue} {loose : List Nat}

def addresses (entries : List Entry) : List Nat := entries.map fun e => (ofLex e).2

theorem mem_addresses {e : Entry} {entries : List Entry} (h : e ∈ entries) :
    (ofLex e).2 ∈ addresses entries := List.mem_map_of_mem h

/-- The entries of one timer are equal. -/
theorem Sound.entry_unique (h : q.Sound loose) {e e' : Entry} (he : e ∈ q.timers)
    (he' : e' ∈ q.timers) (heq : (ofLex e).2 = (ofLex e').2) : e = e' := by
  obtain ⟨t, ht, hexp⟩ := h.entry e he
  obtain ⟨t', ht', hexp'⟩ := h.entry e' he'
  rw [heq] at ht
  cases ht.symm.trans ht'
  exact congrArg toLex (Prod.ext (hexp.symm.trans hexp') heq)

section Start

/-- The entries in front of the sentry of getExpired. -/
def due (q : TimerQueue) (now : TimeStamp) : List Entry := q.timers.below (toLex (now, uintptrMax))

theorem Sound.address_lt (h : q.Sound loose) {e : Entry} (he : e ∈ q.timers) :
    (ofLex e).2 < uintptrMax := by
  obtain ⟨t, ht, -⟩ := h.entry e he
  exact h.address _ (by rw [ht]; nofun)

/-- The sentry is behind every timer of the same time. -/
theorem Sound.lt_sentry (h : q.Sound loose) {e : Entry} (he : e ∈ q.timers) (now : TimeStamp) :
    e < toLex (now, uintptrMax) ↔ (ofLex e).1 ≤ now := by
  rw [show e = toLex (ofLex e) from rfl, Prod.Lex.toLex_lt_toLex]
  constructor
  · rintro (hlt | ⟨heq, -⟩)
    · exact le_of_lt hlt
    · exact le_of_eq heq
  · intro hle
    exact (lt_or_eq_of_le hle).imp_right fun heq => ⟨heq, h.address_lt he⟩

theorem Sound.mem_due (h : q.Sound loose) {now : TimeStamp} {e : Entry} :
    e ∈ q.due now ↔ e ∈ q.timers ∧ (ofLex e).1 ≤ now := by
  rw [due, OrderedSet.mem_below]
  exact and_congr_right fun he => h.lt_sentry he now

theorem Sound.addresses_nodup (h : q.Sound loose) (now : TimeStamp) :
    (addresses (q.due now)).Nodup := by
  refine List.Nodup.map_on (fun e he e' he' heq => ?_)
    ((q.timers.below_increasing _).imp ne_of_lt)
  exact h.entry_unique (h.mem_due.mp he).1 (h.mem_due.mp he').1 heq

theorem eraseActive_ok {entries : List Entry} (hentries : ∀ e ∈ entries, ∃ t,
      q.heap (ofLex e).2 = some t ∧ toLex ((ofLex e).2, t.sequence) ∈ q.activeTimers)
    (hnodup : (addresses entries).Nodup)
    (hids : ∀ id ∈ q.activeTimers, ∃ t, q.heap (ofLex id).1 = some t ∧
      t.sequence = (ofLex id).2) :
    ∃ active, q.eraseActive entries = .ok { q with activeTimers := active } ∧
      ∀ id, id ∈ active ↔ id ∈ q.activeTimers ∧ (ofLex id).1 ∉ addresses entries := by
  induction entries generalizing q with
  | nil => exact ⟨q.activeTimers, rfl, fun id => ⟨fun h => ⟨h, nofun⟩, fun h => h.1⟩⟩
  | cons e entries ih =>
      obtain ⟨hp, hnodup⟩ : (ofLex e).2 ∉ addresses entries ∧ (addresses entries).Nodup :=
        List.nodup_cons.mp hnodup
      obtain ⟨t, ht, hmem⟩ := hentries e List.mem_cons_self
      have hid (id : ActiveTimer) : id ∈ q.activeTimers.erase (toLex ((ofLex e).2, t.sequence)) ↔
          id ∈ q.activeTimers ∧ (ofLex id).1 ≠ (ofLex e).2 := by
        rw [OrderedSet.mem_erase, and_comm]
        refine and_congr_right fun hid => not_congr ⟨fun heq => by rw [heq]; rfl, fun heq => ?_⟩
        obtain ⟨t', ht', hseq⟩ := hids id hid
        rw [heq] at ht'
        cases ht.symm.trans ht'
        exact congrArg toLex (Prod.ext heq hseq.symm)
      obtain ⟨active, herase, hactive⟩ := ih
        (q := { q with activeTimers := q.activeTimers.erase (toLex ((ofLex e).2, t.sequence)) })
        (fun e' he' => by
          obtain ⟨t', ht', hmem'⟩ := hentries e' (List.mem_cons_of_mem _ he')
          refine ⟨t', ht', (hid _).mpr ⟨hmem', fun heq : (ofLex e').2 = (ofLex e).2 => ?_⟩⟩
          exact hp (heq ▸ mem_addresses he'))
        hnodup fun id hmem => hids id ((hid id).mp hmem).1
      have hone : (if toLex ((ofLex e).2, t.sequence) ∈ q.activeTimers then 1 else 0) = 1 :=
        if_pos hmem
      refine ⟨active, ?_, fun id => ?_⟩
      · simp only [eraseActive, deref_ok ht, hone, ok_bind]
        rw [require_of_true trivial]
        exact herase
      · rw [hactive id, hid id, and_assoc]
        simp only [addresses, List.map_cons, List.mem_cons, not_or]

/-- Timers taken out of both sets are loose. -/
theorem Sound.take_out {q' : TimerQueue} (h : q.Sound []) (hheap : q'.heap = q.heap)
    (hcreated : q'.numCreated = q.numCreated) (hloose : ∀ p ∈ loose, q.heap p ≠ none)
    (hnodup : loose.Nodup)
    (htimers : ∀ e, e ∈ q'.timers ↔ e ∈ q.timers ∧ (ofLex e).2 ∉ loose)
    (hactive : ∀ id, id ∈ q'.activeTimers ↔ id ∈ q.activeTimers ∧ (ofLex id).1 ∉ loose) :
    q'.Sound loose := by
  refine ⟨fun e he => ?_, fun id => ?_, fun p t ht => ?_, ?_, hnodup, ?_, ?_, ?_, ?_⟩
  · rw [hheap]
    exact h.entry e ((htimers e).mp he).1
  · rw [hactive, h.active, hheap]
    constructor
    · rintro ⟨⟨t, ht, hseq, hmem⟩, hnot⟩
      exact ⟨t, ht, hseq, (htimers _).mpr ⟨hmem, hnot⟩⟩
    · rintro ⟨t, ht, hseq, hmem⟩
      obtain ⟨hmem, hnot⟩ := (htimers _).mp hmem
      exact ⟨⟨t, ht, hseq, hmem⟩, hnot⟩
  · rw [hheap] at ht
    rw [htimers]
    exact and_iff_right ((h.owned p t ht).mpr nofun)
  · rw [hheap]
    exact hloose
  · rw [hheap]
    exact h.address
  · rw [hcreated]
    exact h.created
  · rw [hheap, hcreated]
    exact h.sequence
  · rw [hheap]
    exact h.unique

/-- What the start of handleRead leaves. -/
structure Started (q q' : TimerQueue) (now : TimeStamp) : Prop where
  sound : q'.Sound (addresses (q.due now))
  heap : q'.heap = q.heap
  timers : ∀ e, e ∈ q'.timers ↔ e ∈ q.timers ∧ now < (ofLex e).1
  numCreated : q'.numCreated = q.numCreated
  calling : q'.callingExpiredTimers = true
  canceling : q'.cancelingTimers = .empty

theorem startHandling_ok (h : q.Sound []) (now : TimeStamp) :
    ∃ q', q.startHandling now = .ok (q.due now, q') ∧ Started q q' now := by
  have hdrop (e : Entry) : e ∈ q.timers.dropBelow (toLex (now, uintptrMax)) ↔
      e ∈ q.timers ∧ now < (ofLex e).1 := by
    rw [OrderedSet.mem_dropBelow]
    refine and_congr_right fun he => ?_
    rw [← not_lt, h.lt_sentry he, not_le]
  have hout (e : Entry) (he : e ∈ q.timers) :
      (ofLex e).2 ∉ addresses (q.due now) ↔ now < (ofLex e).1 := by
    rw [← not_le]
    refine not_congr ⟨fun hmem => ?_, fun hle => mem_addresses (h.mem_due.mpr ⟨he, hle⟩)⟩
    obtain ⟨e', he', heq⟩ := List.mem_map.mp hmem
    obtain ⟨hmem', hle⟩ := h.mem_due.mp he'
    exact h.entry_unique hmem' he heq ▸ hle
  have hbound : ∀ e ∈ (q.timers.dropBelow (toLex (now, uintptrMax))).first, now < (ofLex e).1 :=
    fun e he => ((hdrop e).mp (OrderedSet.first_eq_some he).1).2
  obtain ⟨active, herase, hactive⟩ := eraseActive_ok
    (q := { q with
      timerfd := q.timerfd.readTimerfd
      timers := q.timers.dropBelow (toLex (now, uintptrMax)) })
    (fun e he => by
      have hmem := (h.mem_due.mp he).1
      obtain ⟨t, ht, hexp⟩ := h.entry e hmem
      refine ⟨t, ht, (h.active _).mpr ⟨t, ht, rfl, ?_⟩⟩
      rw [hexp]
      exact hmem)
    (h.addresses_nodup now) fun id hid => by
      obtain ⟨t, ht, hseq, -⟩ := (h.active id).mp hid
      exact ⟨t, ht, hseq⟩
  have hsound : Sound { q with
      timerfd := q.timerfd.readTimerfd
      timers := q.timers.dropBelow (toLex (now, uintptrMax))
      activeTimers := active } (addresses (q.due now)) := by
    refine h.take_out rfl rfl (fun p hp => ?_) (h.addresses_nodup now)
      (fun e => (hdrop e).trans (and_congr_right fun he => (hout e he).symm)) hactive
    obtain ⟨e, he, rfl⟩ := List.mem_map.mp hp
    obtain ⟨t, ht, -⟩ := h.entry e (h.mem_due.mp he).1
    rw [ht]
    nofun
  refine ⟨{ q with
      timerfd := q.timerfd.readTimerfd
      timers := q.timers.dropBelow (toLex (now, uintptrMax))
      activeTimers := active
      callingExpiredTimers := true
      cancelingTimers := .empty }, ?_,
    ⟨hsound.of_same rfl rfl rfl rfl, rfl, hdrop, rfl, rfl, rfl⟩⟩
  have hsizes := hsound.sizes
  have hdue : q.timers.below (toLex (now, uintptrMax)) = q.due now := rfl
  simp only [startHandling, getExpired, require_of_true hbound, ok_bind, hdue, herase]
  rw [require_of_true hsizes]
  rfl

end Start

section Finish

/-- A timer that reset puts back. -/
def Kept (q : TimerQueue) (p : Nat) (t : Timer) : Prop :=
  t.repeats = true ∧ toLex (p, t.sequence) ∉ q.cancelingTimers

/-- The timers that reset puts back have a next time. -/
def Restartable (q : TimerQueue) (now : TimeStamp) (entries : List Entry) : Prop :=
  ∀ e ∈ entries, ∀ t, q.heap (ofLex e).2 = some t → q.Kept (ofLex e).2 t →
    TimeStamp.Adds now t.interval

/-- What the for loop of reset leaves. -/
structure Restarted (q q' : TimerQueue) (now : TimeStamp) (entries : List Entry) : Prop where
  sound : q'.Sound []
  others : ∀ p, p ∉ addresses entries → q'.heap p = q.heap p
  kept : ∀ p ∈ addresses entries, ∀ t, q.heap p = some t → q.Kept p t →
    q'.heap p = some { t with expiration := now + t.interval.microSeconds }
  deleted : ∀ p ∈ addresses entries, ∀ t, q.heap p = some t → ¬ q.Kept p t → q'.heap p = none
  numCreated : q'.numCreated = q.numCreated
  calling : q'.callingExpiredTimers = q.callingExpiredTimers
  canceling : q'.cancelingTimers = q.cancelingTimers
  timerfd : q'.timerfd = q.timerfd

theorem Restartable.congr {q' : TimerQueue} {now : TimeStamp} {entries : List Entry}
    (hheap : ∀ p ∈ addresses entries, q'.heap p = q.heap p)
    (hcanceling : q'.cancelingTimers = q.cancelingTimers) :
    Restartable q' now entries ↔ Restartable q now entries := by
  refine forall₂_congr fun e he => ?_
  simp only [hheap _ (mem_addresses he), Kept, hcanceling]

/-- Puts one step of the loop in front. -/
theorem Restarted.cons {q₁ q' : TimerQueue} {now : TimeStamp} {e : Entry} {entries : List Entry}
    {t : Timer} (h : Restarted q₁ q' now entries) (hp : (ofLex e).2 ∉ addresses entries)
    (ht : q.heap (ofLex e).2 = some t) (hothers : ∀ p, p ≠ (ofLex e).2 → q₁.heap p = q.heap p)
    (hkept : q.Kept (ofLex e).2 t →
      q₁.heap (ofLex e).2 = some { t with expiration := now + t.interval.microSeconds })
    (hdeleted : ¬ q.Kept (ofLex e).2 t → q₁.heap (ofLex e).2 = none)
    (hcreated : q₁.numCreated = q.numCreated)
    (hcalling : q₁.callingExpiredTimers = q.callingExpiredTimers)
    (hcanceling : q₁.cancelingTimers = q.cancelingTimers) (htimerfd : q₁.timerfd = q.timerfd) :
    Restarted q q' now (e :: entries) := by
  have hsplit (p : Nat) (hmem : p ∈ addresses (e :: entries)) :
      p = (ofLex e).2 ∨ p ≠ (ofLex e).2 ∧ p ∈ addresses entries := by
    by_cases heq : p = (ofLex e).2
    · exact .inl heq
    · exact .inr ⟨heq, (List.mem_cons.mp hmem).resolve_left heq⟩
  have hsame {p : Nat} {t' : Timer} : q₁.Kept p t' ↔ q.Kept p t' := by rw [Kept, Kept, hcanceling]
  refine ⟨h.sound, fun p hnot => ?_, fun p hmem t' ht' hk => ?_, fun p hmem t' ht' hk => ?_,
    h.numCreated.trans hcreated, h.calling.trans hcalling, h.canceling.trans hcanceling,
    h.timerfd.trans htimerfd⟩
  · have hnot' : p ≠ (ofLex e).2 ∧ p ∉ addresses entries := by
      simpa only [addresses, List.map_cons, List.mem_cons, not_or] using hnot
    exact (h.others p hnot'.2).trans (hothers p hnot'.1)
  · rcases hsplit p hmem with rfl | ⟨hne, hmem⟩
    · cases ht.symm.trans ht'
      exact (h.others _ hp).trans (hkept hk)
    · exact h.kept p hmem t' ((hothers p hne).trans ht') (hsame.mpr hk)
  · rcases hsplit p hmem with rfl | ⟨hne, hmem⟩
    · cases ht.symm.trans ht'
      exact (h.others _ hp).trans (hdeleted hk)
    · exact h.deleted p hmem t' ((hothers p hne).trans ht') (mt hsame.mp hk)

theorem restartEach_cases (now : TimeStamp) {entries : List Entry}
    (h : q.Sound (addresses entries)) :
    (Restartable q now entries ∧
      ∃ q', q.restartEach now entries = .ok q' ∧ Restarted q q' now entries) ∨
    (¬ Restartable q now entries ∧ q.restartEach now entries = .error .overflow) := by
  induction entries generalizing q with
  | nil =>
      exact .inl ⟨nofun, q, rfl, ⟨h, fun _ _ => rfl, nofun, nofun, rfl, rfl, rfl, rfl⟩⟩
  | cons e entries ih =>
      have hp : (ofLex e).2 ∉ addresses entries := (List.nodup_cons.mp h.nodup).1
      obtain ⟨t, ht⟩ := Option.ne_none_iff_exists'.mp (h.allocated _ List.mem_cons_self)
      have hothers {q₁ : TimerQueue} (h₁ : ∀ p, p ≠ (ofLex e).2 → q₁.heap p = q.heap p) (p : Nat)
          (hmem : p ∈ addresses entries) : q₁.heap p = q.heap p :=
        h₁ p fun heq => hp (heq ▸ hmem)
      by_cases hkept : q.Kept (ofLex e).2 t
      · by_cases hadds : TimeStamp.Adds now t.interval
        · let t' : Timer := { t with expiration := now + t.interval.microSeconds }
          have hrestart : t.restart now = .ok t' := by
            rw [Timer.restart, if_pos hkept.1, TimeStamp.addTime_ok hadds]
            rfl
          have hsound : (q.store (ofLex e).2 (some t')).Sound ((ofLex e).2 :: addresses entries) :=
            Sound.restarted h ht rfl
          have hself : (q.store (ofLex e).2 (some t')).heap (ofLex e).2 = some t' := store_self ..
          obtain ⟨b, hinsert, -⟩ := insert_ok hsound hself
          let q₁ := (q.store (ofLex e).2 (some t')).withTimer (ofLex e).2 t'
          have hq₁ : ∀ p, p ≠ (ofLex e).2 → q₁.heap p = q.heap p := fun p hne => store_of_ne _ _ hne
          have hrun : q.restartEach now (e :: entries) = q₁.restartEach now entries := by
            simp only [restartEach, deref_ok ht, ok_bind, hrestart, hinsert]
            exact if_pos hkept
          have hcongr : Restartable q₁ now entries ↔ Restartable q now entries :=
            Restartable.congr (hothers hq₁) rfl
          rw [hrun]
          rcases ih (hsound.withTimer hself) with ⟨hres, q', hok, hend⟩ | ⟨hres, herror⟩
          · refine .inl ⟨fun e' he' => ?_, q', hok, hend.cons hp ht hq₁ (fun _ => hself)
              (fun hnot => absurd hkept hnot) rfl rfl rfl rfl⟩
            cases List.mem_cons.mp he' with
            | inl heq =>
                rw [heq]
                intro t₁ ht₁ _
                cases ht.symm.trans ht₁
                exact hadds
            | inr hmem => exact hcongr.mp hres e' hmem
          · refine .inr ⟨fun hall => hres (hcongr.mpr fun e' he' => ?_), herror⟩
            exact hall e' (List.mem_cons_of_mem _ he')
        · refine .inr ⟨fun hall => hadds (hall e List.mem_cons_self t ht hkept), ?_⟩
          have hrestart : t.restart now = .error .overflow := by
            rw [Timer.restart, if_pos hkept.1, TimeStamp.addTime_overflow hadds]
            rfl
          simp only [restartEach, deref_ok ht, ok_bind, hrestart]
          exact if_pos hkept
      · have hsound : (q.store (ofLex e).2 none).Sound (addresses entries) := Sound.deleted h
        have hq₁ : ∀ p, p ≠ (ofLex e).2 → (q.store (ofLex e).2 none).heap p = q.heap p :=
          fun p hne => store_of_ne _ _ hne
        have hrun : q.restartEach now (e :: entries) =
            (q.store (ofLex e).2 none).restartEach now entries := by
          simp only [restartEach, deref_ok ht, ok_bind]
          exact if_neg hkept
        have hcongr : Restartable (q.store (ofLex e).2 none) now entries ↔
            Restartable q now entries := Restartable.congr (hothers hq₁) rfl
        rw [hrun]
        rcases ih hsound with ⟨hres, q', hok, hend⟩ | ⟨hres, herror⟩
        · refine .inl ⟨fun e' he' => ?_, q', hok, hend.cons hp ht hq₁
            (fun hk => absurd hk hkept) (fun _ => store_self ..) rfl rfl rfl rfl⟩
          cases List.mem_cons.mp he' with
          | inl heq =>
              rw [heq]
              intro t₁ ht₁ hk
              cases ht.symm.trans ht₁
              exact absurd hk hkept
          | inr hmem => exact hcongr.mp hres e' hmem
        · refine .inr ⟨fun hall => hres (hcongr.mpr fun e' he' => ?_), herror⟩
          exact hall e' (List.mem_cons_of_mem _ he')

/-- The timerfd is set for the first timer, unless there is none with a valid
time. -/
def Rearmed (q' : TimerQueue) (clock : TimeStamp) (fd : TimerFd) : Prop :=
  (∀ e, q'.timers.first = some e → 0 < (ofLex e).1 →
    TimerFd.resetTimerfd (ofLex e).1 clock = .ok fd) ∧
  ((∀ e, q'.timers.first = some e → ¬ 0 < (ofLex e).1) → fd = q'.timerfd)

theorem nextExpire_ok (h : q.Sound loose) : q.nextExpire = .ok
    (match q.timers.first with | none => TimeStamp.invalid | some e => (ofLex e).1) := by
  cases hfirst : q.timers.first with
  | none => simp only [nextExpire, hfirst]
  | some e =>
      obtain ⟨t, ht, hexp⟩ := h.entry e (OrderedSet.first_eq_some hfirst).1
      simp only [nextExpire, hfirst, deref_ok ht, ok_bind]
      exact congrArg _ hexp

/-- handleRead ends with the timers put back and the timerfd set, unless a time
leaves its range: a next expiration, or the distance to the first one. -/
theorem finishHandling_cases (now clock : TimeStamp) {expired : List Entry}
    (h : q.Sound (addresses expired)) :
    (Restartable q now expired ∧ ∃ q' fd,
      q.finishHandling expired now clock = .ok { q' with timerfd := fd } ∧
        Restarted { q with callingExpiredTimers := false } q' now expired ∧
        Rearmed q' clock fd) ∨
    (q.finishHandling expired now clock = .error .overflow ∧
      (Restartable q now expired → ∃ q',
        Restarted { q with callingExpiredTimers := false } q' now expired ∧
          ∃ e, q'.timers.first = some e ∧ 0 < (ofLex e).1 ∧
            ¬ FitsInt64 ((ofLex e).1 - clock))) := by
  have hsound : Sound { q with callingExpiredTimers := false } (addresses expired) :=
    h.of_same rfl rfl rfl rfl
  rw [finishHandling, reset]
  rcases restartEach_cases now hsound with ⟨hres, q', hok, hend⟩ | ⟨hres, herror⟩
  · rw [hok, ok_bind, nextExpire_ok hend.sound, ok_bind]
    cases hfirst : q'.timers.first with
    | none =>
        refine .inl ⟨hres, q', q'.timerfd, rfl, hend, fun e he => ?_, fun _ => rfl⟩
        rw [hfirst] at he
        cases he
    | some e =>
        by_cases hvalid : 0 < (ofLex e).1
        · have hcond : TimeStamp.valid (ofLex e).1 = true := decide_eq_true hvalid
          simp only [hcond, if_true]
          by_cases hfits : FitsInt64 ((ofLex e).1 - clock)
          · obtain ⟨fd, hfd⟩ := resetTimerfd_ok _ _ hfits
            rw [hfd]
            refine .inl ⟨hres, q', fd, rfl, hend, fun e' he' _ => ?_, fun hall => ?_⟩
            · rw [hfirst] at he'
              cases he'
              exact hfd
            · exact absurd hvalid (hall e hfirst)
          · rw [resetTimerfd_overflow _ _ hfits]
            exact .inr ⟨rfl, fun _ => ⟨q', hend, e, hfirst, hvalid, hfits⟩⟩
        · have hcond : ¬ TimeStamp.valid (ofLex e).1 = true := by
            rw [TimeStamp.valid, decide_eq_true_eq]
            exact hvalid
          simp only [if_neg hcond]
          refine .inl ⟨hres, q', q'.timerfd, rfl, hend, fun e' he' hpos => ?_, fun _ => rfl⟩
          rw [hfirst] at he'
          cases he'
          exact absurd hpos hvalid
  · rw [herror]
    exact .inr ⟨rfl, fun hall => absurd hall hres⟩

end Finish
end TimerQueue
end TAlib
