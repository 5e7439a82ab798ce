import TAlib.Reactor.TimerQueue

/-!
The two sets of a timer queue describe the same timers. While handleRead runs,
the expired timers are in neither set but still allocated; they are the loose
ones below. Each operation is taken apart into what it does to the sets, the
allocated timers and the loose ones.
-/

namespace TAlib

open Foundation

namespace TimerQueue

/-- `loose` are the addresses of the timers that are in neither set. -/
structure Sound (q : TimerQueue) (loose : List Nat) : Prop where
  entry : ∀ e ∈ q.timers, ∃ t, q.heap (ofLex e).2 = some t ∧ t.expiration = (ofLex e).1
  active : ∀ id, id ∈ q.activeTimers ↔ ∃ t, q.heap (ofLex id).1 = some t ∧
    t.sequence = (ofLex id).2 ∧ toLex (t.expiration, (ofLex id).1) ∈ q.timers
  owned : ∀ p t, q.heap p = some t → (toLex (t.expiration, p) ∈ q.timers ↔ p ∉ loose)
  allocated : ∀ p ∈ loose, q.heap p ≠ none
  nodup : loose.Nodup
  address : ∀ p, q.heap p ≠ none → p < uintptrMax
  created : 0 ≤ q.numCreated
  sequence : ∀ p t, q.heap p = some t → 0 < t.sequence ∧ t.sequence ≤ q.numCreated
  unique : ∀ p p' t t', q.heap p = some t → q.heap p' = some t' → t.sequence = t'.sequence → p = p'

variable {q : TimerQueue} {loose : List Nat} {p : Nat} {t : Timer}

theorem deref_ok (h : q.heap p = some t) : q.deref p = .ok t := by
  rw [deref, h]

@[simp] theorem store_self (q : TimerQueue) (p : Nat) (t : Option Timer) :
    (q.store p t).heap p = t := Function.update_self _ _ _

@[simp] theorem store_of_ne (q : TimerQueue) {p p' : Nat} (t : Option Timer) (h : p' ≠ p) :
    (q.store p t).heap p' = q.heap p' := Function.update_of_ne h _ _

/-- The sets only matter through the timers they hold. -/
theorem Sound.sizes (h : q.Sound loose) : q.timers.size = q.activeTimers.size := by
  let idAt (e : Entry) : ActiveTimer :=
    toLex ((ofLex e).2, ((q.heap (ofLex e).2).map Timer.sequence).getD 0)
  refine OrderedSet.size_eq_of_map (f := idAt) (fun id => ?_) fun e he e' he' heq => ?_
  · rw [h.active]
    constructor
    · rintro ⟨t, ht, hseq, hmem⟩
      refine ⟨_, hmem, ?_⟩
      simp only [idAt, ofLex_toLex, ht, Option.map_some, Option.getD_some, hseq]
      rfl
    · rintro ⟨e, he, rfl⟩
      obtain ⟨t, ht, hexp⟩ := h.entry e he
      refine ⟨t, ht, by simp only [idAt, ofLex_toLex, ht, Option.map_some, Option.getD_some], ?_⟩
      rw [hexp]
      exact he
  · obtain ⟨t, ht, hexp⟩ := h.entry e he
    obtain ⟨t', ht', hexp'⟩ := h.entry e' he'
    have haddress : (ofLex e).2 = (ofLex e').2 := congrArg (fun id => (ofLex id).1) heq
    rw [haddress] at ht
    cases ht.symm.trans ht'
    exact congrArg toLex (Prod.ext (hexp.symm.trans hexp') haddress)

/-- Both sets with a timer put in. -/
def withTimer (q : TimerQueue) (p : Nat) (t : Timer) : TimerQueue :=
  { q with
    timers := q.timers.insert (toLex (t.expiration, p))
    activeTimers := q.activeTimers.insert (toLex (p, t.sequence)) }

theorem Sound.withTimer (h : q.Sound (p :: loose)) (ht : q.heap p = some t) :
    (q.withTimer p t).Sound loose := by
  obtain ⟨hp, hnodup⟩ := List.nodup_cons.mp h.nodup
  have hentry (p' : Nat) (t' : Timer) (ht' : q.heap p' = some t') :
      toLex (t'.expiration, p') ∈ q.timers.insert (toLex (t.expiration, p)) ↔
        p' = p ∨ toLex (t'.expiration, p') ∈ q.timers := by
    rw [OrderedSet.mem_insert]
    refine or_congr_left ⟨fun heq => (Prod.ext_iff.mp (toLex.injective heq)).2, ?_⟩
    rintro rfl
    cases ht.symm.trans ht'
    rfl
  refine ⟨fun e he => ?_, fun id => ?_, fun p' t' ht' => ?_,
    fun p' hp' => h.allocated p' (List.mem_cons_of_mem _ hp'), hnodup, h.address, h.created,
    h.sequence, h.unique⟩
  · cases OrderedSet.mem_insert.mp he with
    | inl heq =>
        rw [heq]
        exact ⟨t, ht, rfl⟩
    | inr hmem => exact h.entry e hmem
  · have hid : id ∈ (q.withTimer p t).activeTimers ↔ id = toLex (p, t.sequence) ∨
        id ∈ q.activeTimers := OrderedSet.mem_insert
    rw [hid, h.active]
    constructor
    · rintro (rfl | ⟨t', ht', hseq, hmem⟩)
      · exact ⟨t, ht, rfl, OrderedSet.mem_insert.mpr (.inl rfl)⟩
      · exact ⟨t', ht', hseq, OrderedSet.mem_insert.mpr (.inr hmem)⟩
    · rintro ⟨t', ht', hseq, hmem⟩
      cases (hentry _ _ ht').mp hmem with
      | inl heq =>
          refine .inl (congrArg toLex (Prod.ext heq ?_))
          rw [heq] at ht'
          cases ht.symm.trans ht'
          exact hseq.symm
      | inr hmem => exact .inr ⟨t', ht', hseq, hmem⟩
  · refine (hentry p' t' ht').trans ?_
    rw [h.owned p' t' ht', List.mem_cons, not_or]
    constructor
    · rintro (rfl | hnot)
      · exact hp
      · exact hnot.2
    · intro hnot
      by_cases heq : p' = p
      · exact .inl heq
      · exact .inr ⟨heq, hnot⟩

/-- insert puts a loose timer into both sets and says whether it is now alone in
front. -/
theorem insert_ok (h : q.Sound (p :: loose)) (ht : q.heap p = some t) :
    ∃ earliestChanged, q.insert p = .ok (earliestChanged, q.withTimer p t) ∧
      (earliestChanged = true ↔ ∀ e ∈ q.timers, t.expiration < (ofLex e).1) := by
  have hloose : toLex (t.expiration, p) ∉ q.timers := fun hmem =>
    (h.owned p t ht).mp hmem List.mem_cons_self
  have hidle : toLex (p, t.sequence) ∉ q.activeTimers := fun hmem => by
    obtain ⟨t', ht', -, hmem'⟩ := (h.active _).mp hmem
    cases ht.symm.trans ht'
    exact hloose hmem'
  have hafter : (q.timers.insert (toLex (t.expiration, p))).size =
      (q.activeTimers.insert (toLex (p, t.sequence))).size := (h.withTimer ht).sizes
  refine ⟨q.timers.first.all fun e => t.expiration < (ofLex e).1, ?_, ?_⟩
  · simp only [insert, require_of_true h.sizes, deref_ok ht, require_of_true hloose,
      require_of_true hidle, require_of_true hafter, ok_bind]
    cases q.timers.first <;> rfl
  · cases hfirst : q.timers.first with
    | none =>
        have hnone := OrderedSet.first_eq_none.mp hfirst
        exact iff_of_true rfl fun e he => absurd he (hnone e)
    | some e =>
        obtain ⟨hmem, hle⟩ := OrderedSet.first_eq_some hfirst
        rw [Option.all_some, decide_eq_true_eq]
        refine ⟨fun hlt e' he' => lt_of_lt_of_le hlt ?_, fun hall => hall e hmem⟩
        exact Prod.Lex.monotone_fst e e' (hle e' he')

/-- A new timer before it is put into the sets. -/
def withNew (q : TimerQueue) (p : Nat) (when : TimeStamp) (interval : Seconds) : TimerQueue :=
  { q.store p (some ⟨when, interval, q.numCreated + 1⟩) with numCreated := q.numCreated + 1 }

theorem Sound.withNew (h : q.Sound loose) (hfree : q.heap p = none) (hp : p < uintptrMax)
    (when : TimeStamp) (interval : Seconds) : (q.withNew p when interval).Sound (p :: loose) := by
  have hne {p' : Nat} {t' : Timer} (h' : q.heap p' = some t') : p' ≠ p := fun heq => by
    rw [heq, hfree] at h'
    cases h'
  have hself : (q.withNew p when interval).heap p = some ⟨when, interval, q.numCreated + 1⟩ :=
    store_self ..
  have hother {p' : Nat} (h' : p' ≠ p) : (q.withNew p when interval).heap p' = q.heap p' :=
    store_of_ne _ _ h'
  refine ⟨fun e he => ?_, fun id => ?_, fun p' t' h' => ?_, fun p' hp' => ?_,
    List.nodup_cons.mpr ⟨fun hmem => h.allocated p hmem hfree, h.nodup⟩, fun p' h' => ?_,
    Int.add_nonneg h.created Int.one_nonneg, fun p' t' h' => ?_, fun p₁ p₂ t₁ t₂ h₁ h₂ heq => ?_⟩
  · obtain ⟨t', ht', hexp⟩ := h.entry e he
    exact ⟨t', (hother (hne ht')).trans ht', hexp⟩
  · refine (h.active id).trans ⟨?_, ?_⟩
    · rintro ⟨t', ht', hseq, hmem⟩
      exact ⟨t', (hother (hne ht')).trans ht', hseq, hmem⟩
    · rintro ⟨t', ht', hseq, hmem⟩
      obtain ⟨t'', ht'', -⟩ := h.entry _ hmem
      exact ⟨t', (hother (hne ht'')).symm.trans ht', hseq, hmem⟩
  · by_cases heq : p' = p
    · subst heq
      refine iff_of_false (fun hmem => ?_) fun hnot => hnot List.mem_cons_self
      obtain ⟨t'', ht'', -⟩ := h.entry _ hmem
      exact hne ht'' rfl
    · rw [hother heq] at h'
      rw [List.mem_cons, not_or]
      exact (h.owned p' t' h').trans ⟨fun hnot => ⟨heq, hnot⟩, fun hnot => hnot.2⟩
  · by_cases heq : p' = p
    · rw [heq, hself]
      nofun
    · rw [hother heq]
      exact h.allocated p' ((List.mem_cons.mp hp').resolve_left heq)
  · by_cases heq : p' = p
    · exact heq ▸ hp
    · rw [hother heq] at h'
      exact h.address p' h'
  · by_cases heq : p' = p
    · rw [heq, hself] at h'
      cases h'
      exact ⟨Int.lt_add_one_of_le h.created, le_refl _⟩
    · rw [hother heq] at h'
      have hseq := h.sequence p' t' h'
      exact ⟨hseq.1, hseq.2.trans (Int.le_add_one (le_refl _))⟩
  · by_cases h₁' : p₁ = p
    · by_cases h₂' : p₂ = p
      · exact h₁'.trans h₂'.symm
      · rw [h₁', hself] at h₁
        rw [hother h₂'] at h₂
        cases h₁
        have hseq := (h.sequence p₂ t₂ h₂).2
        simp only at heq
        omega
    · by_cases h₂' : p₂ = p
      · rw [h₂', hself] at h₂
        rw [hother h₁'] at h₁
        cases h₂
        have hseq := (h.sequence p₁ t₁ h₁).2
        simp only at heq
        omega
      · rw [hother h₁'] at h₁
        rw [hother h₂'] at h₂
        exact h.unique p₁ p₂ t₁ t₂ h₁ h₂ heq

/-- delete of a loose timer. -/
theorem Sound.deleted (h : q.Sound (p :: loose)) : (q.store p none).Sound loose := by
  obtain ⟨hp, hnodup⟩ := List.nodup_cons.mp h.nodup
  have hsub {p' : Nat} {t' : Timer} (h' : (q.store p none).heap p' = some t') :
      p' ≠ p ∧ q.heap p' = some t' := by
    by_cases heq : p' = p
    · rw [heq, store_self] at h'
      cases h'
    · exact ⟨heq, (store_of_ne _ _ heq).symm.trans h'⟩
  have hheld {t' : Timer} {p' : Nat} (h' : q.heap p' = some t')
      (hmem : toLex (t'.expiration, p') ∈ q.timers) : (q.store p none).heap p' = some t' := by
    refine (store_of_ne _ _ fun heq => ?_).trans h'
    exact (h.owned p' t' h').mp hmem (heq ▸ List.mem_cons_self)
  refine ⟨fun e he => ?_, fun id => ?_, fun p' t' h' => ?_, fun p' hp' => ?_, hnodup,
    fun p' h' => ?_, h.created, fun p' t' h' => h.sequence p' t' (hsub h').2,
    fun p₁ p₂ t₁ t₂ h₁ h₂ => h.unique p₁ p₂ t₁ t₂ (hsub h₁).2 (hsub h₂).2⟩
  · obtain ⟨t', ht', hexp⟩ := h.entry e he
    exact ⟨t', hheld ht' (by rw [hexp]; exact he), hexp⟩
  · refine (h.active id).trans ⟨?_, ?_⟩
    · rintro ⟨t', ht', hseq, hmem⟩
      exact ⟨t', hheld ht' hmem, hseq, hmem⟩
    · rintro ⟨t', ht', hseq, hmem⟩
      exact ⟨t', (hsub ht').2, hseq, hmem⟩
  · refine (h.owned p' t' (hsub h').2).trans ?_
    rw [List.mem_cons, not_or]
    exact ⟨fun hnot => hnot.2, fun hnot => ⟨(hsub h').1, hnot⟩⟩
  · rw [store_of_ne _ _ fun heq : p' = p => hp (heq ▸ hp')]
    exact h.allocated p' (List.mem_cons_of_mem _ hp')
  · obtain ⟨t', ht'⟩ := Option.ne_none_iff_exists'.mp h'
    exact h.address p' (by rw [(hsub ht').2]; nofun)

/-- A loose timer may change its expiration. -/
theorem Sound.restarted (h : q.Sound (p :: loose)) {t' : Timer} (ht : q.heap p = some t)
    (hseq : t'.sequence = t.sequence) : (q.store p (some t')).Sound (p :: loose) := by
  have hsub {p₁ : Nat} {t₁ : Timer} (h' : (q.store p (some t')).heap p₁ = some t₁) :
      ∃ t₂, q.heap p₁ = some t₂ ∧ t₂.sequence = t₁.sequence ∧ (p₁ ≠ p → t₁ = t₂) := by
    by_cases heq : p₁ = p
    · rw [heq, store_self] at h'
      cases h'
      exact ⟨t, heq ▸ ht, hseq.symm, fun hne => absurd heq hne⟩
    · rw [store_of_ne _ _ heq] at h'
      exact ⟨t₁, h', rfl, fun _ => rfl⟩
  have hheld {t₁ : Timer} {p₁ : Nat} (h' : q.heap p₁ = some t₁)
      (hmem : toLex (t₁.expiration, p₁) ∈ q.timers) :
      (q.store p (some t')).heap p₁ = some t₁ := by
    refine (store_of_ne _ _ fun heq => ?_).trans h'
    exact (h.owned p₁ t₁ h').mp hmem (heq ▸ List.mem_cons_self)
  have hout (e : Entry) (he : e ∈ q.timers) : (ofLex e).2 ≠ p := fun heq => by
    obtain ⟨t₁, ht₁, hexp⟩ := h.entry e he
    refine (h.owned _ t₁ ht₁).mp ?_ (heq ▸ List.mem_cons_self)
    rw [hexp]
    exact he
  refine ⟨fun e he => ?_, fun id => ?_, fun p₁ t₁ h' => ?_, fun p₁ hp₁ => ?_, h.nodup,
    fun p₁ h' => ?_, h.created, fun p₁ t₁ h' => ?_, fun p₁ p₂ t₁ t₂ h₁ h₂ heq => ?_⟩
  · obtain ⟨t₁, ht₁, hexp⟩ := h.entry e he
    exact ⟨t₁, hheld ht₁ (by rw [hexp]; exact he), hexp⟩
  · refine (h.active id).trans ⟨?_, ?_⟩
    · rintro ⟨t₁, ht₁, hseq₁, hmem⟩
      exact ⟨t₁, hheld ht₁ hmem, hseq₁, hmem⟩
    · rintro ⟨t₁, ht₁, hseq₁, hmem⟩
      obtain ⟨t₂, ht₂, -, hsame⟩ := hsub ht₁
      rw [hsame (hout _ hmem)] at hseq₁ hmem
      exact ⟨t₂, ht₂, hseq₁, hmem⟩
  · by_cases heq : p₁ = p
    · exact iff_of_false (fun hmem => hout _ hmem heq) fun hnot => hnot (heq ▸ List.mem_cons_self)
    · rw [store_of_ne _ _ heq] at h'
      exact h.owned p₁ t₁ h'
  · by_cases heq : p₁ = p
    · rw [heq, store_self]
      nofun
    · rw [store_of_ne _ _ heq]
      exact h.allocated p₁ hp₁
  · obtain ⟨t₁, ht₁⟩ := Option.ne_none_iff_exists'.mp h'
    obtain ⟨t₂, ht₂, -, -⟩ := hsub ht₁
    exact h.address p₁ (by rw [ht₂]; nofun)
  · obtain ⟨t₂, ht₂, hsame, -⟩ := hsub h'
    rw [← hsame]
    exact h.sequence p₁ t₂ ht₂
  · obtain ⟨t₁', ht₁', hsame₁, -⟩ := hsub h₁
    obtain ⟨t₂', ht₂', hsame₂, -⟩ := hsub h₂
    exact h.unique p₁ p₂ t₁' t₂' ht₁' ht₂' (hsame₁.trans (heq.trans hsame₂.symm))

/-- The invariant is about the allocated timers and the two sets. -/
theorem Sound.of_same {q' : TimerQueue} (h : q.Sound loose) (hheap : q'.heap = q.heap)
    (htimers : q'.timers = q.timers) (hactive : q'.activeTimers = q.activeTimers)
    (hcreated : q'.numCreated = q.numCreated) : q'.Sound loose := by
  obtain ⟨heap, numCreated, timers, activeTimers, calling, canceling, fd⟩ := q'
  cases hheap
  cases htimers
  cases hactive
  cases hcreated
  exact ⟨h.entry, h.active, h.owned, h.allocated, h.nodup, h.address, h.created, h.sequence,
    h.unique⟩

theorem new_sound : new.Sound [] where
  entry := fun e he => absurd he (OrderedSet.not_mem_empty e)
  active := fun id => iff_of_false (OrderedSet.not_mem_empty id) fun ⟨_, h, _⟩ => nomatch h
  owned := nofun
  allocated := nofun
  nodup := .nil
  address := fun _ h => absurd rfl h
  created := le_refl _
  sequence := nofun
  unique := nofun

section AddTimer

/-- A timer for this time would be alone in front. -/
def Earliest (q : TimerQueue) (when : TimeStamp) : Prop := ∀ e ∈ q.timers, when < (ofLex e).1

/-- What addTimer does apart from arming the timerfd. -/
def withAdded (q : TimerQueue) (p : Nat) (when : TimeStamp) (interval : Seconds) : TimerQueue :=
  (q.withNew p when interval).withTimer p ⟨when, interval, q.numCreated + 1⟩

variable (when clock : TimeStamp) (interval : Seconds)

theorem resetTimerfd_ok (h : FitsInt64 (when - clock)) :
    ∃ fd, TimerFd.resetTimerfd when clock = .ok fd := by
  simp only [TimerFd.resetTimerfd, TimerFd.howMuchTimeFromNow, int64_ok h, ok_bind]
  exact ⟨_, rfl⟩

theorem resetTimerfd_overflow (h : ¬ FitsInt64 (when - clock)) :
    TimerFd.resetTimerfd when clock = .error .overflow := by
  rw [TimerFd.resetTimerfd, TimerFd.howMuchTimeFromNow, int64_overflow h]
  rfl

theorem Sound.withAdded (h : q.Sound loose) (hfree : q.heap p = none) (hp : p < uintptrMax) :
    (q.withAdded p when interval).Sound loose :=
  (h.withNew hfree hp when interval).withTimer (store_self ..)

/-- addTimer arms the timerfd for a timer that is alone in front, which needs the
time to it in an int64_t. -/
theorem addTimer_cases (h : q.Sound loose) (hfree : q.heap p = none) (hp : p < uintptrMax) :
    (∃ fd, q.addTimer p when interval clock =
        .ok (toLex (p, q.numCreated + 1), { q.withAdded p when interval with timerfd := fd }) ∧
      (q.Earliest when → FitsInt64 (when - clock) ∧
        TimerFd.resetTimerfd when clock = .ok fd) ∧
      (¬ q.Earliest when → fd = q.timerfd)) ∨
    (q.addTimer p when interval clock = .error .overflow ∧ q.Earliest when ∧
      ¬ FitsInt64 (when - clock)) := by
  have hnew := h.withNew hfree hp when interval
  have ht : (q.withNew p when interval).heap p = some ⟨when, interval, q.numCreated + 1⟩ :=
    store_self ..
  obtain ⟨earliestChanged, hinsert, hiff⟩ := insert_ok hnew ht
  have returns (q' : TimerQueue) (h' : q'.heap = (q.withNew p when interval).heap) :
      (q'.deref p >>= fun t => .ok (toLex (p, t.sequence), q')) =
        (.ok (toLex (p, q.numCreated + 1), q') : Except Fault (ActiveTimer × TimerQueue)) := by
    rw [deref_ok (h' ▸ ht)]
    rfl
  have hloop : q.addTimer p when interval clock =
      (q.withNew p when interval).addTimerInLoop p clock >>= fun q' => q'.deref p >>= fun t =>
        .ok (toLex (p, t.sequence), q') := rfl
  rw [hloop, addTimerInLoop, hinsert, ok_bind]
  cases earliestChanged with
  | false =>
      have hlater : ¬ q.Earliest when := fun hall =>
        absurd (hiff.mpr hall) Bool.false_ne_true
      refine .inl ⟨q.timerfd, ?_, fun hall => absurd hall hlater, fun _ => rfl⟩
      exact returns (q.withAdded p when interval) rfl
  | true =>
      have hfirst : q.Earliest when := hiff.mp rfl
      have hsame : ((q.withNew p when interval).withTimer p
          ⟨when, interval, q.numCreated + 1⟩).deref p =
            .ok ⟨when, interval, q.numCreated + 1⟩ := deref_ok ht
      simp only [if_true, hsame, ok_bind]
      by_cases hfits : FitsInt64 (when - clock)
      · obtain ⟨fd, hfd⟩ := resetTimerfd_ok when clock hfits
        refine .inl ⟨fd, ?_, fun _ => ⟨hfits, hfd⟩, fun hlater => absurd hfirst hlater⟩
        rw [hfd]
        exact returns { q.withAdded p when interval with timerfd := fd } rfl
      · refine .inr ⟨?_, hfirst, hfits⟩
        rw [resetTimerfd_overflow when clock hfits]
        rfl

end AddTimer

section Cancel

variable {id : ActiveTimer}

/-- What cancel does with an id that is not active. -/
def withCanceling (q : TimerQueue) (id : ActiveTimer) : TimerQueue :=
  if q.callingExpiredTimers then { q with cancelingTimers := q.cancelingTimers.insert id } else q

theorem cancelInLoop_miss (h : q.Sound loose) (hid : id ∉ q.activeTimers) :
    q.cancelInLoop id = .ok (q.withCanceling id) ∧ (q.withCanceling id).Sound loose ∧
      (q.withCanceling id).timers = q.timers ∧
      (q.withCanceling id).activeTimers = q.activeTimers := by
  have hsame : (q.withCanceling id).heap = q.heap ∧ (q.withCanceling id).timers = q.timers ∧
      (q.withCanceling id).activeTimers = q.activeTimers ∧
      (q.withCanceling id).numCreated = q.numCreated := by
    unfold withCanceling
    split
    · exact ⟨rfl, rfl, rfl, rfl⟩
    · exact ⟨rfl, rfl, rfl, rfl⟩
  obtain ⟨hheap, htimers, hactive, hcreated⟩ := hsame
  have hsound := h.of_same hheap htimers hactive hcreated
  refine ⟨?_, hsound, htimers, hactive⟩
  have hsizes := hsound.sizes
  rw [withCanceling] at hsizes ⊢
  simp only [cancelInLoop, require_of_true h.sizes, if_neg hid, ok_bind]
  rw [require_of_true hsizes]
  rfl

/-- The entry that stays in m_activeTimers makes the last assert fail. -/
theorem cancelInLoop_hit (h : q.Sound loose) (hid : id ∈ q.activeTimers) :
    q.cancelInLoop id = .error (.assertion .cancelSizesAfter) := by
  obtain ⟨t, ht, -, hmem⟩ := (h.active id).mp hid
  have hone : (if toLex (t.expiration, (ofLex id).1) ∈ q.timers then 1 else 0) = 1 := if_pos hmem
  have hshort : ¬ (q.timers.erase (toLex (t.expiration, (ofLex id).1))).size =
      q.activeTimers.size := by
    have hsizes := h.sizes
    have herase := OrderedSet.size_erase hmem
    omega
  simp only [cancelInLoop, require_of_true h.sizes, if_pos hid, deref_ok ht, hone, ok_bind]
  rw [require_of_true trivial, ok_bind]
  exact congrArg (· >>= fun _ => _) (require_of_false hshort _)

end Cancel
end TimerQueue
end TAlib
