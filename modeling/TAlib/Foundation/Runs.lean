import Mathlib.Logic.Basic
import Mathlib.Data.List.Basic

/-!
Runs of a fallible transition system. A call either yields the next state or
stops the run with a fault; a run executes a list of calls from left to right.
The rules below turn a fact about one call into a fact about every run. They
name no particular program.
-/

namespace TAlib.Foundation

universe u v w x
variable {σ : Type u} {α : Type v} {ε : Type w} {τ : Type x}

/-- Peels the first computation off a sequence that returned. -/
theorem bind_eq_ok {α' β : Type u} {c : Except ε α'} {f : α' → Except ε β} {r : β} :
    (c >>= f) = .ok r ↔ ∃ a, c = .ok a ∧ f a = .ok r := by
  cases c with
  | error e => simp [bind, Except.bind]
  | ok a => simp [bind, Except.bind]

theorem ok_bind {α' β : Type u} (a : α') (f : α' → Except ε β) :
    ((.ok a : Except ε α') >>= f) = f a := rfl

/-- A second computation that gives back the result of the first. -/
theorem bind_eq_self {α' : Type u} {c : Except ε α'} {f : α' → Except ε α'}
    (h : ∀ a, c = .ok a → f a = .ok a) : (c >>= f) = c := by
  cases c with
  | error e => rfl
  | ok a => exact h a rfl

/-- Sequences that start alike and go on alike from every result. -/
theorem bind_congr_ok {α' β : Type u} {c : Except ε α'} {f g : α' → Except ε β}
    (h : ∀ a, c = .ok a → f a = g a) : (c >>= f) = (c >>= g) := by
  cases c with
  | error e => rfl
  | ok a => exact h a rfl

/-- Two computations correspond when both fault alike or both return related
results. -/
def Corresponds {α' β : Type u} (R : α' → β → Prop) : Except ε α' → Except ε β → Prop
  | .error e, .error e' => e = e'
  | .ok a, .ok b => R a b
  | _, _ => False

theorem Corresponds.bind_of_ok {α' β γ δ : Type u} {R : α' → β → Prop} {S : γ → δ → Prop}
    {c : Except ε α'} {d : Except ε β} (h : Corresponds R c d)
    {f : α' → Except ε γ} {g : β → Except ε δ}
    (hfg : ∀ a b, c = .ok a → R a b → Corresponds S (f a) (g b)) :
    Corresponds S (c >>= f) (d >>= g) := by
  cases c with
  | error e =>
      cases d with
      | error e' => exact h
      | ok b => exact h.elim
  | ok a =>
      cases d with
      | error e' => exact h.elim
      | ok b => exact hfg a b rfl h

theorem Corresponds.bind {α' β γ δ : Type u} {R : α' → β → Prop} {S : γ → δ → Prop}
    {c : Except ε α'} {d : Except ε β} (h : Corresponds R c d)
    {f : α' → Except ε γ} {g : β → Except ε δ}
    (hfg : ∀ a b, R a b → Corresponds S (f a) (g b)) : Corresponds S (c >>= f) (d >>= g) :=
  h.bind_of_ok fun a b _ hab => hfg a b hab

theorem Corresponds.of_ok_left {α' β : Type u} {R : α' → β → Prop} {a : α'} {d : Except ε β}
    (h : Corresponds R (.ok a) d) : ∃ b, d = .ok b ∧ R a b := by
  cases d with
  | error e => exact h.elim
  | ok b => exact ⟨b, rfl, h⟩

theorem Corresponds.of_ok_right {α' β : Type u} {R : α' → β → Prop} {c : Except ε α'} {b : β}
    (h : Corresponds R c (.ok b)) : ∃ a, c = .ok a ∧ R a b := by
  cases c with
  | error e => exact h.elim
  | ok a => exact ⟨a, rfl, h⟩

/-- Two computations that correspond to one have corresponding results. -/
theorem Corresponds.trans_ok {α' β γ : Type u} {R : α' → β → Prop} {S : α' → γ → Prop}
    {T : β → γ → Prop} {c : Except ε α'} {b : β} {d : Except ε γ}
    (h : Corresponds R c (.ok b)) (h' : Corresponds S c d)
    (htrans : ∀ a x, R a b → S a x → T b x) : Corresponds T (.ok b) d := by
  obtain ⟨a, rfl, hab⟩ := h.of_ok_right
  obtain ⟨x, rfl, hax⟩ := h'.of_ok_left
  exact htrans a x hab hax

theorem Corresponds.refl {α' : Type u} (c : Except ε α') : Corresponds Eq c c := by
  cases c with
  | error e => rfl
  | ok a => rfl

/-- The computation does not stop with this fault. -/
def Avoids {α' : Type u} (e : ε) (c : Except ε α') : Prop := c ≠ .error e

theorem Avoids.ok {α' : Type u} (e : ε) (a : α') : Avoids e (.ok a) := nofun

theorem Avoids.error {α' : Type u} {e f : ε} (h : f ≠ e) : Avoids e (.error f : Except ε α') :=
  fun heq => h (Except.error.inj heq)

theorem Avoids.bind {α' β : Type u} {e : ε} {c : Except ε α'} {f : α' → Except ε β}
    (h : Avoids e c) (hf : ∀ a, c = .ok a → Avoids e (f a)) : Avoids e (c >>= f) := by
  cases c with
  | error e' => exact fun heq => h (congrArg Except.error (Except.error.inj heq))
  | ok a => exact hf a rfl

theorem Avoids.ite {α' : Type u} {e : ε} {p : Prop} [Decidable p] {c d : Except ε α'}
    (hc : p → Avoids e c) (hd : ¬ p → Avoids e d) : Avoids e (if p then c else d) := by
  split
  · rename_i hp
    exact hc hp
  · rename_i hp
    exact hd hp

/-- A decidable property of the result, if there is one. -/
def resultHolds {α' : Type u} (P : α' → Prop) [DecidablePred P] : Except ε α' → Bool
  | .error _ => false
  | .ok a => P a

theorem resultHolds_iff {α' : Type u} {P : α' → Prop} [DecidablePred P] {c : Except ε α'} :
    resultHolds P c = true ↔ ∃ a, c = .ok a ∧ P a := by
  cases c with
  | error e => simp [resultHolds]
  | ok a => simp [resultHolds]

/-- The fault that a computation stops with. -/
def faultOf {α' : Type u} : Except ε α' → Option ε
  | .error e => some e
  | .ok _ => none

theorem faultOf_eq_some {α' : Type u} {c : Except ε α'} {e : ε} :
    faultOf c = some e ↔ c = .error e := by
  cases c with
  | error e' => simp [faultOf]
  | ok a => simp [faultOf]

/-- Executes the calls from left to right and stops at the first fault. -/
def run (exec : σ → α → Except ε σ) : σ → List α → Except ε σ
  | s, [] => .ok s
  | s, a :: as => exec s a >>= fun t => run exec t as

/-- Every call of the list is issued in a state in which `Pre` admits it. -/
def Respects (exec : σ → α → Except ε σ) (Pre : σ → α → Prop) : σ → List α → Prop
  | _, [] => True
  | s, a :: as => Pre s a ∧ ∀ t, exec s a = .ok t → Respects exec Pre t as

/-- The property holds in the starting state and in every state the run passes. -/
def Always (exec : σ → α → Except ε σ) (P : σ → Prop) : σ → List α → Prop
  | s, [] => P s
  | s, a :: as => P s ∧ ∀ t, exec s a = .ok t → Always exec P t as

variable {exec : σ → α → Except ε σ} {Pre : σ → α → Prop}

instance Respects.decidable [∀ s a, Decidable (Pre s a)] :
    ∀ s as, Decidable (Respects exec Pre s as)
  | _, [] => isTrue trivial
  | s, a :: as =>
      match h : exec s a with
      | .error _ => decidable_of_iff (Pre s a)
          ⟨fun hp => ⟨hp, fun t ht => by simp [h] at ht⟩, fun hr => hr.1⟩
      | .ok m =>
          have := Respects.decidable m as
          decidable_of_iff (Pre s a ∧ Respects exec Pre m as)
            ⟨fun hp => ⟨hp.1, fun t ht => by rw [h] at ht; cases ht; exact hp.2⟩,
              fun hr => ⟨hr.1, hr.2 m h⟩⟩

@[simp] theorem run_nil (s : σ) : run exec s [] = .ok s := rfl

theorem run_cons_ok {s t : σ} {a : α} {as : List α} :
    run exec s (a :: as) = .ok t ↔ ∃ m, exec s a = .ok m ∧ run exec m as = .ok t :=
  bind_eq_ok

theorem run_append_ok {s t : σ} {as bs : List α} :
    run exec s (as ++ bs) = .ok t ↔ ∃ m, run exec s as = .ok m ∧ run exec m bs = .ok t := by
  induction as generalizing s with
  | nil => simp
  | cons a as ih =>
      simp only [List.cons_append, run_cons_ok, ih]
      constructor
      · rintro ⟨m, hm, n, hn, ht⟩
        exact ⟨n, ⟨m, hm, hn⟩, ht⟩
      · rintro ⟨n, ⟨m, hm, hn⟩, ht⟩
        exact ⟨m, hm, n, hn, ht⟩

theorem run_append_of_ok {s m : σ} {as bs : List α} (h : run exec s as = .ok m) :
    run exec s (as ++ bs) = run exec m bs := by
  induction as generalizing s with
  | nil =>
      cases h
      rfl
  | cons a as ih =>
      obtain ⟨n, hn, hm⟩ := run_cons_ok.mp h
      simp only [List.cons_append, run, hn, ok_bind]
      exact ih hm

theorem Respects.append {s : σ} {as bs : List α} (h : Respects exec Pre s as)
    (h' : ∀ m, run exec s as = .ok m → Respects exec Pre m bs) :
    Respects exec Pre s (as ++ bs) := by
  induction as generalizing s with
  | nil => exact h' s rfl
  | cons a as ih =>
      refine ⟨h.1, fun t ht => ih (h.2 t ht) fun m hm => h' m ?_⟩
      exact run_cons_ok.mpr ⟨t, ht, hm⟩

theorem Respects.suffix {s m : σ} {as bs : List α} (h : Respects exec Pre s (as ++ bs))
    (hm : run exec s as = .ok m) : Respects exec Pre m bs := by
  induction as generalizing s with
  | nil =>
      cases hm
      exact h
  | cons a as ih =>
      obtain ⟨t, ht, htm⟩ := run_cons_ok.mp hm
      exact ih (h.2 t ht) htm

theorem Respects.initial {s : σ} {as bs : List α} (h : Respects exec Pre s (as ++ bs)) :
    Respects exec Pre s as := by
  induction as generalizing s with
  | nil => trivial
  | cons a as ih => exact ⟨h.1, fun t ht => ih (h.2 t ht)⟩

theorem Respects.and {Pre' : σ → α → Prop} {s : σ} {as : List α} (h : Respects exec Pre s as)
    (h' : Respects exec Pre' s as) : Respects exec (fun s a => Pre s a ∧ Pre' s a) s as := by
  induction as generalizing s with
  | nil => trivial
  | cons a as ih => exact ⟨⟨h.1, h'.1⟩, fun t ht => ih (h.2 t ht) (h'.2 t ht)⟩

theorem Respects.imp {Pre' : σ → α → Prop} (himp : ∀ s a, Pre s a → Pre' s a) {s : σ} {as : List α}
    (h : Respects exec Pre s as) : Respects exec Pre' s as := by
  induction as generalizing s with
  | nil => trivial
  | cons a as ih => exact ⟨himp s a h.1, fun t ht => ih (h.2 t ht)⟩

/-- A run stops with a fault at the first call that raises it. -/
theorem run_eq_error {s : σ} {as : List α} {e : ε} :
    run exec s as = .error e ↔ ∃ before a after m,
      as = before ++ a :: after ∧ run exec s before = .ok m ∧ exec m a = .error e := by
  constructor
  · intro h
    induction as generalizing s with
    | nil => cases h
    | cons a as ih =>
        cases hstep : exec s a with
        | error e' =>
            simp only [run, hstep] at h
            cases h
            exact ⟨[], a, as, s, rfl, rfl, hstep⟩
        | ok t =>
            simp only [run, hstep, ok_bind] at h
            obtain ⟨before, b, after, m, rfl, hm, hb⟩ := ih h
            exact ⟨a :: before, b, after, m, rfl, run_cons_ok.mpr ⟨t, hstep, hm⟩, hb⟩
  · rintro ⟨before, a, after, m, rfl, hm, ha⟩
    rw [run_append_of_ok hm]
    simp only [run, ha]
    rfl

/-- A refinement rule: when every admitted call returns and keeps the states
related, every admitted run returns and stays related to the specification. -/
theorem run_refines {R : σ → τ → Prop} {spec : τ → α → τ}
    (hstep : ∀ s q a, R s q → Pre s a → ∃ t, exec s a = .ok t ∧ R t (spec q a))
    {s : σ} {q : τ} (hs : R s q) {as : List α} (hpre : Respects exec Pre s as) :
    ∃ t, run exec s as = .ok t ∧ R t (as.foldl spec q) := by
  induction as generalizing s q with
  | nil => exact ⟨s, rfl, hs⟩
  | cons a as ih =>
      obtain ⟨m, hm, hR⟩ := hstep s q a hs hpre.1
      obtain ⟨t, ht, hRt⟩ := ih hR (hpre.2 m hm)
      exact ⟨t, run_cons_ok.mpr ⟨m, hm, ht⟩, hRt⟩

/-- Where every call that is not admitted faults, a run that returns has admitted
calls only and stays related. -/
theorem run_refines_of_ok {R : σ → τ → Prop} {spec : τ → α → τ} {Adm : σ → α → Prop}
    (hstep : ∀ s q a, R s q → Adm s a → Pre s a → ∃ t, exec s a = .ok t ∧ R t (spec q a))
    (hfault : ∀ s q a, R s q → Adm s a → ¬ Pre s a → ∃ e, exec s a = .error e)
    {s t : σ} {q : τ} (hs : R s q) {as : List α} (hadm : Respects exec Adm s as)
    (hrun : run exec s as = .ok t) : Respects exec Pre s as ∧ R t (as.foldl spec q) := by
  induction as generalizing s q with
  | nil =>
      cases hrun
      exact ⟨trivial, hs⟩
  | cons a as ih =>
      obtain ⟨m, hm, hmt⟩ := run_cons_ok.mp hrun
      by_cases hpre : Pre s a
      · obtain ⟨m', hm', hRm⟩ := hstep s q a hs hadm.1 hpre
        cases Except.ok.inj (hm'.symm.trans hm)
        obtain ⟨hrest, hR⟩ := ih hRm (hadm.2 _ hm) hmt
        refine ⟨⟨hpre, fun n hn => ?_⟩, hR⟩
        cases Except.ok.inj (hm'.symm.trans hn)
        exact hrest
      · obtain ⟨e, he⟩ := hfault s q a hs hadm.1 hpre
        rw [he] at hm
        cases hm

/-- Two systems that answer every admitted call alike answer admitted runs alike. -/
theorem run_corresponds {σ' : Type u} {exec' : σ' → α → Except ε σ'} {R : σ → σ' → Prop}
    (hstep : ∀ s t a, R s t → Pre s a → Corresponds R (exec s a) (exec' t a))
    {s : σ} {t : σ'} (hs : R s t) {as : List α} (hpre : Respects exec Pre s as) :
    Corresponds R (run exec s as) (run exec' t as) := by
  induction as generalizing s t with
  | nil => exact hs
  | cons a as ih =>
      refine (hstep s t a hs hpre.1).bind_of_ok fun m m' hm hR => ?_
      exact ih hR (hpre.2 m hm)

/-- Calls that both carry out keep the two related. -/
theorem run_both_ok {σ' : Type u} {exec' : σ' → α → Except ε σ'} {R : σ → σ' → Prop}
    (hstep : ∀ s t a, R s t → Pre s a →
      ∃ s' t', exec s a = .ok s' ∧ exec' t a = .ok t' ∧ R s' t')
    {s : σ} {t : σ'} (hs : R s t) {as : List α} (hpre : Respects exec Pre s as) :
    ∃ s' t', run exec s as = .ok s' ∧ run exec' t as = .ok t' ∧ R s' t' := by
  induction as generalizing s t with
  | nil => exact ⟨s, t, rfl, rfl, hs⟩
  | cons a as ih =>
      obtain ⟨m, m', hm, hm', hR⟩ := hstep s t a hs hpre.1
      obtain ⟨s', t', hs', ht', hR'⟩ := ih hR (hpre.2 m hm)
      exact ⟨s', t', run_cons_ok.mpr ⟨m, hm, hs'⟩, run_cons_ok.mpr ⟨m', hm', ht'⟩, hR'⟩

theorem Corresponds.imp {α' β : Type u} {R S : α' → β → Prop} (himp : ∀ a b, R a b → S a b)
    {c : Except ε α'} {d : Except ε β} (h : Corresponds R c d) : Corresponds S c d := by
  cases c with
  | error e =>
      cases d with
      | error e' => exact h
      | ok b => exact h
  | ok a =>
      cases d with
      | error e' => exact h
      | ok b => exact himp a b h

/-- An invariant of admitted calls is an invariant of admitted runs. -/
theorem run_invariant {I : σ → Prop}
    (hstep : ∀ s a t, I s → Pre s a → exec s a = .ok t → I t)
    {s t : σ} (hs : I s) {as : List α} (hpre : Respects exec Pre s as)
    (hrun : run exec s as = .ok t) : I t := by
  induction as generalizing s with
  | nil =>
      cases hrun
      exact hs
  | cons a as ih =>
      obtain ⟨m, hm, ht⟩ := run_cons_ok.mp hrun
      exact ih (hstep s a m hs hpre.1 hm) (hpre.2 m hm) ht

/-- Calls that are admitted in every state. -/
theorem respects_of_forall {as : List α} (h : ∀ a ∈ as, ∀ s, Pre s a) (s : σ) :
    Respects exec Pre s as := by
  induction as generalizing s with
  | nil => trivial
  | cons a as ih =>
      refine ⟨h a List.mem_cons_self s, fun t _ => ih (fun b hb => ?_) t⟩
      exact h b (List.mem_cons_of_mem _ hb)

theorem respects_true (s : σ) (as : List α) : Respects exec (fun _ _ => True) s as :=
  respects_of_forall (fun _ _ _ => trivial) s

/-- An invariant of every call is an invariant of every run. -/
theorem run_invariant_of_step {I : σ → Prop}
    (hstep : ∀ s a t, I s → exec s a = .ok t → I t)
    {s t : σ} (hs : I s) {as : List α} (hrun : run exec s as = .ok t) : I t :=
  run_invariant (fun s a t h _ => hstep s a t h) hs (respects_true s as) hrun

/-- What the invariant of admitted calls says of an admitted call, it says of all
calls of an admitted run. -/
theorem Respects.of_invariant {I : σ → Prop} {Q : σ → α → Prop}
    (hQ : ∀ s a, I s → Pre s a → Q s a)
    (hstep : ∀ s a t, I s → Pre s a → exec s a = .ok t → I t)
    {s : σ} (hs : I s) {as : List α} (h : Respects exec Pre s as) : Respects exec Q s as := by
  induction as generalizing s with
  | nil => trivial
  | cons a as ih =>
      exact ⟨hQ s a hs h.1, fun t ht => ih (hstep s a t hs h.1 ht) (h.2 t ht)⟩

/-- A run whose calls are all admitted ends well; one with a call that is not
admitted ends badly, when what is bad stays bad. -/
theorem run_good_or_bad {I B : σ → Prop}
    (hgood : ∀ s a t, I s → Pre s a → exec s a = .ok t → I t)
    (hbad : ∀ s a t, I s → ¬ Pre s a → exec s a = .ok t → B t)
    (hstay : ∀ s a t, B s → exec s a = .ok t → B t)
    {s t : σ} (hs : I s) {as : List α} (hrun : run exec s as = .ok t) :
    (Respects exec Pre s as ∧ I t) ∨ (¬ Respects exec Pre s as ∧ B t) := by
  induction as generalizing s with
  | nil =>
      cases hrun
      exact .inl ⟨trivial, hs⟩
  | cons a as ih =>
      obtain ⟨m, hm, ht⟩ := run_cons_ok.mp hrun
      by_cases hpre : Pre s a
      · have huniq : ∀ n, exec s a = .ok n → n = m := fun n hn => Except.ok.inj (hn.symm.trans hm)
        rcases ih (hgood s a m hs hpre hm) ht with ⟨hres, hI⟩ | ⟨hres, hB⟩
        · exact .inl ⟨⟨hpre, fun n hn => huniq n hn ▸ hres⟩, hI⟩
        · exact .inr ⟨fun h => hres (h.2 m hm), hB⟩
      · refine .inr ⟨fun h => hpre h.1, ?_⟩
        exact run_invariant_of_step hstay (hbad s a m hs hpre hm) ht

/-- What holds throughout holds at the start. -/
theorem Always.head {P : σ → Prop} {s : σ} {as : List α} (h : Always exec P s as) : P s := by
  cases as with
  | nil => exact h
  | cons a as => exact h.1

/-- What holds throughout holds at the end. -/
theorem Always.last {P : σ → Prop} {s t : σ} {as : List α} (h : Always exec P s as)
    (hrun : run exec s as = .ok t) : P t := by
  induction as generalizing s with
  | nil =>
      cases hrun
      exact h
  | cons a as ih =>
      obtain ⟨m, hm, ht⟩ := run_cons_ok.mp hrun
      exact ih (h.2 m hm) ht

/-- What the invariant of admitted calls gives holds throughout an admitted run. -/
theorem always_of_respects {I P : σ → Prop} (hP : ∀ s, I s → P s)
    (hstep : ∀ s a t, I s → Pre s a → exec s a = .ok t → I t)
    {s : σ} (hs : I s) {as : List α} (hpre : Respects exec Pre s as) : Always exec P s as := by
  induction as generalizing s with
  | nil => exact hP s hs
  | cons a as ih => exact ⟨hP s hs, fun t ht => ih (hstep s a t hs hpre.1 ht) (hpre.2 t ht)⟩

/-- When an admitted call keeps the invariant and a call that is not admitted
breaks the property at once, a completed run has the property throughout
exactly when all its calls are admitted. -/
theorem always_iff_respects {I P : σ → Prop} (hP : ∀ s, I s → P s)
    (hgood : ∀ s a t, I s → Pre s a → exec s a = .ok t → I t)
    (hbad : ∀ s a t, I s → ¬ Pre s a → exec s a = .ok t → ¬ P t)
    {s t : σ} (hs : I s) {as : List α} (hrun : run exec s as = .ok t) :
    Always exec P s as ↔ Respects exec Pre s as := by
  induction as generalizing s with
  | nil => exact ⟨fun _ => trivial, fun _ => hP s hs⟩
  | cons a as ih =>
      obtain ⟨m, hm, ht⟩ := run_cons_ok.mp hrun
      have uniq : ∀ n, exec s a = .ok n → n = m := by
        intro n hn
        rw [hm] at hn
        exact (Except.ok.inj hn).symm
      by_cases hpre : Pre s a
      · have hi := ih (hgood s a m hs hpre hm) ht
        constructor
        · intro h
          refine ⟨hpre, fun n hn => ?_⟩
          rw [uniq n hn]
          exact hi.mp (h.2 m hm)
        · intro h
          refine ⟨hP s hs, fun n hn => ?_⟩
          rw [uniq n hn]
          exact hi.mpr (h.2 m hm)
      · constructor
        · intro h
          exact absurd (h.2 m hm).head (hbad s a m hs hpre hm)
        · intro h
          exact absurd h.1 hpre

/-- When a call that is not admitted returns and breaks the property, any run has
the property in every state it passes exactly when all its calls are admitted. -/
theorem always_iff_respects_of_breaks {I P : σ → Prop} (hP : ∀ s, I s → P s)
    (hgood : ∀ s a t, I s → Pre s a → exec s a = .ok t → I t)
    (hbad : ∀ s a, I s → ¬ Pre s a → ∃ t, exec s a = .ok t ∧ ¬ P t)
    {s : σ} (hs : I s) (as : List α) : Always exec P s as ↔ Respects exec Pre s as := by
  refine ⟨fun h => ?_, always_of_respects hP hgood hs⟩
  induction as generalizing s with
  | nil => trivial
  | cons a as ih =>
      by_cases hpre : Pre s a
      · exact ⟨hpre, fun t ht => ih (hgood s a t hs hpre ht) (h.2 t ht)⟩
      · obtain ⟨t, ht, hnot⟩ := hbad s a hs hpre
        exact absurd (h.2 t ht).head hnot

/-- The same for a step lemma that says both at once. -/
theorem always_iff_respects_of_step {I P : σ → Prop} (hP : ∀ s, I s → P s)
    (hstep : ∀ s a t, I s → exec s a = .ok t → (Pre s a ∧ I t) ∨ (¬ Pre s a ∧ ¬ P t))
    {s t : σ} (hs : I s) {as : List α} (hrun : run exec s as = .ok t) :
    Always exec P s as ↔ Respects exec Pre s as := by
  refine always_iff_respects hP (fun s a t h hpre ht => ?_) (fun s a t h hpre ht => ?_) hs hrun
  · cases hstep s a t h ht with
    | inl hgood => exact hgood.2
    | inr hbad => exact absurd hpre hbad.1
  · cases hstep s a t h ht with
    | inl hgood => exact absurd hgood.1 hpre
    | inr hbad => exact hbad.2

/-- When an admitted call returns, keeps the invariant and has the property `Q`,
and a call that is not admitted faults or breaks `P` at once, a run returns with
`P` and `Q` throughout exactly when all its calls are admitted. -/
theorem returns_always_iff_respects {I P : σ → Prop} {Q : σ → α → Prop} (hP : ∀ s, I s → P s)
    (hgood : ∀ s a, I s → Pre s a → Q s a ∧ ∃ t, exec s a = .ok t ∧ I t)
    (hbad : ∀ s a t, I s → ¬ Pre s a → exec s a = .ok t → ¬ P t)
    {s : σ} (hs : I s) (as : List α) :
    ((∃ t, run exec s as = .ok t) ∧ Always exec P s as ∧ Respects exec Q s as) ↔
      Respects exec Pre s as := by
  induction as generalizing s with
  | nil => exact ⟨fun _ => trivial, fun _ => ⟨⟨s, rfl⟩, hP s hs, trivial⟩⟩
  | cons a as ih =>
      constructor
      · rintro ⟨⟨t, ht⟩, hAlways, hQ⟩
        obtain ⟨m, hm, hmt⟩ := run_cons_ok.mp ht
        have hPm := (hAlways.2 m hm).head
        by_cases hpre : Pre s a
        · obtain ⟨-, m', hm', hI⟩ := hgood s a hs hpre
          refine ⟨hpre, fun n hn => ?_⟩
          cases Except.ok.inj (hm'.symm.trans hn)
          cases Except.ok.inj (hm'.symm.trans hm)
          exact (ih hI).mp ⟨⟨t, hmt⟩, hAlways.2 _ hm, hQ.2 _ hm⟩
        · exact absurd hPm (hbad s a m hs hpre hm)
      · rintro ⟨hpre, hrest⟩
        obtain ⟨hQ, m, hm, hI⟩ := hgood s a hs hpre
        obtain ⟨⟨t, ht⟩, hAlways, hRest⟩ := (ih hI).mpr (hrest m hm)
        have huniq : ∀ n, exec s a = .ok n → n = m := fun n hn => Except.ok.inj (hn.symm.trans hm)
        refine ⟨⟨t, run_cons_ok.mpr ⟨m, hm, ht⟩⟩, ⟨hP s hs, fun n hn => ?_⟩, hQ, fun n hn => ?_⟩
        · rw [huniq n hn]
          exact hAlways
        · rw [huniq n hn]
          exact hRest

/-- When an admitted call goes well, up to a fault that is allowed, and any other
call faults with one that is not or breaks the property at once, a run is safe
exactly when its calls are admitted. -/
theorem safe_iff_respects_of_breaks {I P : σ → Prop} {Adm : σ → α → Prop} {Allowed : ε → Prop}
    (hP : ∀ s, I s → P s)
    (hgood : ∀ s a, I s → Adm s a → Pre s a →
      (∃ t, exec s a = .ok t ∧ I t) ∨ ∃ e, exec s a = .error e ∧ Allowed e)
    (hbad : ∀ s a, I s → Adm s a → ¬ Pre s a →
      (∃ e, exec s a = .error e ∧ ¬ Allowed e) ∨ ∃ t, exec s a = .ok t ∧ ¬ P t)
    {s : σ} (hs : I s) {as : List α} (hadm : Respects exec Adm s as) :
    ((∀ e, run exec s as = .error e → Allowed e) ∧ Always exec P s as) ↔
      Respects exec Pre s as := by
  induction as generalizing s with
  | nil => exact ⟨fun _ => trivial, fun _ => ⟨nofun, hP s hs⟩⟩
  | cons a as ih =>
      by_cases hpre : Pre s a
      · rcases hgood s a hs hadm.1 hpre with ⟨m, hm, hI⟩ | ⟨e, he, hallowed⟩
        · have huniq : ∀ n, exec s a = .ok n → n = m := fun n hn =>
            Except.ok.inj (hn.symm.trans hm)
          have hrun : run exec s (a :: as) = run exec m as := by
            simp only [run, hm, ok_bind]
          rw [hrun]
          have hi := ih hI (hadm.2 m hm)
          constructor
          · rintro ⟨hfaults, hAlways⟩
            refine ⟨hpre, fun n hn => ?_⟩
            rw [huniq n hn]
            exact hi.mp ⟨hfaults, hAlways.2 m hm⟩
          · intro h
            obtain ⟨hfaults, hAlways⟩ := hi.mpr (h.2 m hm)
            refine ⟨hfaults, hP s hs, fun n hn => ?_⟩
            rw [huniq n hn]
            exact hAlways
        · have hrun : run exec s (a :: as) = .error e := by
            simp only [run, he]
            rfl
          have hnone : ∀ n, exec s a ≠ .ok n := fun n hn => nomatch he.symm.trans hn
          refine ⟨fun _ => ⟨hpre, fun n hn => absurd hn (hnone n)⟩, fun _ => ⟨?_, hP s hs, ?_⟩⟩
          · intro e' he'
            cases hrun.symm.trans he'
            exact hallowed
          · exact fun n hn => absurd hn (hnone n)
      · rcases hbad s a hs hadm.1 hpre with ⟨e, he, hnot⟩ | ⟨t, ht, hnot⟩
        · refine ⟨fun h => absurd (h.1 e ?_) hnot, fun h => absurd h.1 hpre⟩
          simp only [run, he]
          rfl
        · exact ⟨fun h => absurd (h.2.2 t ht).head hnot, fun h => absurd h.1 hpre⟩

theorem safe_iff_respects {I P : σ → Prop} {Adm : σ → α → Prop} {Allowed : ε → Prop}
    (hP : ∀ s, I s → P s)
    (hgood : ∀ s a, I s → Adm s a → Pre s a →
      (∃ t, exec s a = .ok t ∧ I t) ∨ ∃ e, exec s a = .error e ∧ Allowed e)
    (hbad : ∀ s a, I s → Adm s a → ¬ Pre s a → ∃ e, exec s a = .error e ∧ ¬ Allowed e)
    {s : σ} (hs : I s) {as : List α} (hadm : Respects exec Adm s as) :
    ((∀ e, run exec s as = .error e → Allowed e) ∧ Always exec P s as) ↔
      Respects exec Pre s as :=
  safe_iff_respects_of_breaks hP hgood (fun s a h h' hpre => .inl (hbad s a h h' hpre)) hs hadm

/-- A fault that no admitted call of a sound state raises stops no admitted run. -/
theorem run_avoids_of_invariant {I : σ → Prop} {e : ε}
    (hstep : ∀ s a t, I s → Pre s a → exec s a = .ok t → I t)
    (havoids : ∀ s a, I s → Pre s a → Avoids e (exec s a))
    {s : σ} (hs : I s) {as : List α} (hpre : Respects exec Pre s as) :
    Avoids e (run exec s as) := by
  induction as generalizing s with
  | nil => exact .ok e s
  | cons a as ih =>
      refine (havoids s a hs hpre.1).bind fun t ht => ?_
      exact ih (hstep s a t hs hpre.1 ht) (hpre.2 t ht)

theorem run_avoids {e : ε} (havoids : ∀ s a, Avoids e (exec s a)) (s : σ) (as : List α) :
    Avoids e (run exec s as) :=
  run_avoids_of_invariant (I := fun _ => True) (fun _ _ _ _ _ _ => trivial)
    (fun s a _ _ => havoids s a) trivial (respects_true s as)

end TAlib.Foundation
