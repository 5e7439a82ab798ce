import Mathlib.Data.List.Basic
import Mathlib.Data.List.Induction

/-!
Numerals in positional notation, the highest digit first, over any symbols. Which
symbols are digits and what they count is given by two functions. A numeral without
a needless zero in front is the only one of its number.
-/

namespace TAlib.Foundation

universe u
variable {α : Type u}

/-- The number that a row of digits stands for. -/
def numeralValue (base : Nat) (count : α → Nat) (ds : List α) : Nat :=
  ds.foldl (fun n d => base * n + count d) 0

/-- The row of digits is the numeral of the number: there is a digit, and the first of
several is not zero. -/
structure IsNumeral (base : Nat) (digit : α → Bool) (count : α → Nat) (n : Nat)
    (ds : List α) : Prop where
  ne_nil : ds ≠ []
  digits : ∀ d ∈ ds, digit d = true
  head_ne_zero : 1 < ds.length → ∀ d ∈ ds.head?, count d ≠ 0
  value : numeralValue base count ds = n

variable {base : Nat} {digit : α → Bool} {count : α → Nat}

@[simp] theorem numeralValue_append_singleton (ds : List α) (d : α) :
    numeralValue base count (ds ++ [d]) = base * numeralValue base count ds + count d := by
  rw [numeralValue, List.foldl_append]
  rfl

/-- A first digit that is not zero shows in the number. -/
theorem numeralValue_cons_ne_zero (hbase : 0 < base) {d : α} (hd : count d ≠ 0) (ds : List α) :
    numeralValue base count (d :: ds) ≠ 0 := by
  have hfold : ∀ (ds : List α) (n : Nat), n ≠ 0 →
      ds.foldl (fun n d => base * n + count d) n ≠ 0 := by
    intro ds
    induction ds with
    | nil => exact fun n hn => hn
    | cons e es ih =>
        intro n hn
        have hmul : base * n ≠ 0 := Nat.mul_ne_zero (Nat.ne_of_gt hbase) hn
        exact ih _ (Nat.ne_of_gt (Nat.add_pos_left (Nat.pos_of_ne_zero hmul) _))
  have hfirst : base * 0 + count d ≠ 0 := by
    rw [Nat.mul_zero, Nat.zero_add]
    exact hd
  exact hfold ds _ hfirst

namespace IsNumeral

theorem singleton {d : α} (hd : digit d = true) : IsNumeral base digit count (count d) [d] where
  ne_nil := List.cons_ne_nil d []
  digits _ he := List.eq_of_mem_singleton he ▸ hd
  head_ne_zero hlong := absurd hlong (Nat.lt_irrefl 1)
  value := by rw [numeralValue, List.foldl_cons, Nat.mul_zero, Nat.zero_add, List.foldl_nil]

theorem head?_append {ds : List α} (hne : ds ≠ []) (d : α) : (ds ++ [d]).head? = ds.head? := by
  obtain ⟨e, es, rfl⟩ := List.exists_cons_of_ne_nil hne
  rfl

/-- A digit behind a numeral that is not zero. -/
theorem append {n : Nat} {ds : List α} (h : IsNumeral base digit count n ds) (hn : n ≠ 0) {d : α}
    (hd : digit d = true) : IsNumeral base digit count (base * n + count d) (ds ++ [d]) where
  ne_nil := List.append_ne_nil_of_left_ne_nil h.ne_nil [d]
  digits e he :=
    (List.mem_append.mp he).elim (h.digits e) fun heq => List.eq_of_mem_singleton heq ▸ hd
  head_ne_zero _ e he := by
    rw [head?_append h.ne_nil] at he
    have hvalue := h.value
    obtain ⟨f, fs, rfl⟩ := List.exists_cons_of_ne_nil h.ne_nil
    cases Option.mem_some_iff.mp he
    cases fs with
    | nil =>
        intro hzero
        rw [numeralValue, List.foldl_cons, Nat.mul_zero, Nat.zero_add, List.foldl_nil] at hvalue
        exact hn (hvalue.symm.trans hzero)
    | cons g gs => exact h.head_ne_zero (Nat.succ_lt_succ (Nat.succ_pos _)) e rfl
  value := by rw [numeralValue_append_singleton, h.value]

/-- The numeral as it is usually written is one. -/
theorem toDigits {write : Char → α} (hbase : 1 < base)
    (hwrite : ∀ k < base, digit (write k.digitChar) = true ∧ count (write k.digitChar) = k)
    (n : Nat) :
    IsNumeral base digit count n ((Nat.toDigits base n).map write) := by
  induction n using Nat.strongRecOn with
  | ind n ih =>
      rw [Nat.toDigits_eq_if hbase]
      split
      · rename_i hlt
        obtain ⟨hdigit, hcount⟩ := hwrite n hlt
        have hsingle : IsNumeral base digit count _ _ := singleton hdigit
        rw [hcount] at hsingle
        rw [List.map_singleton]
        exact hsingle
      · rename_i hge
        have hge := Nat.le_of_not_lt hge
        have hpos : n / base ≠ 0 := Nat.ne_of_gt (Nat.div_pos hge (Nat.lt_of_succ_lt hbase))
        have hless : n / base < n :=
          Nat.div_lt_self (Nat.lt_of_lt_of_le (Nat.lt_of_succ_lt hbase) hge) hbase
        obtain ⟨hdigit, hcount⟩ := hwrite (n % base) (Nat.mod_lt n (Nat.lt_of_succ_lt hbase))
        have happend := (ih _ hless).append hpos hdigit
        rw [hcount, Nat.div_add_mod] at happend
        rw [List.map_append, List.map_singleton]
        exact happend

/-- What stands before the last of several digits is a numeral and not zero. -/
theorem init (hbase : 0 < base) {n : Nat} {ds : List α} {d : α}
    (h : IsNumeral base digit count n (ds ++ [d])) (hne : ds ≠ []) :
    IsNumeral base digit count (numeralValue base count ds) ds ∧
      numeralValue base count ds ≠ 0 := by
  have hhead : ∀ e ∈ ds.head?, count e ≠ 0 := by
    have hlong : 1 < (ds ++ [d]).length := by
      rw [List.length_append, List.length_singleton]
      exact Nat.succ_lt_succ (List.length_pos_iff.mpr hne)
    rw [← head?_append hne d]
    exact h.head_ne_zero hlong
  refine ⟨⟨hne, fun e he => h.digits e (List.mem_append_left _ he), fun _ => hhead, rfl⟩, ?_⟩
  obtain ⟨e, es, rfl⟩ := List.exists_cons_of_ne_nil hne
  exact numeralValue_cons_ne_zero hbase (hhead e rfl) es

/-- A number has one numeral. -/
theorem unique (hlt : ∀ d, digit d = true → count d < base)
    (hinj : ∀ d e, digit d = true → digit e = true → count d = count e → d = e) {n : Nat}
    {ds es : List α} (h : IsNumeral base digit count n ds) (h' : IsNumeral base digit count n es) :
    ds = es := by
  induction ds using List.reverseRecOn generalizing n es with
  | nil => exact absurd rfl h.ne_nil
  | append_singleton ds d ih =>
      induction es using List.reverseRecOn with
      | nil => exact absurd rfl h'.ne_nil
      | append_singleton es e _ =>
          have hd := h.digits d (List.mem_append_right _ List.mem_cons_self)
          have he := h'.digits e (List.mem_append_right _ List.mem_cons_self)
          have hdlt := hlt d hd
          have helt := hlt e he
          have hbase : 0 < base := Nat.zero_lt_of_lt hdlt
          have hvalue := h.value.trans h'.value.symm
          rw [numeralValue_append_singleton, numeralValue_append_singleton] at hvalue
          have hlast : d = e := by
            refine hinj d e hd he ?_
            have hmod := congrArg (· % base) hvalue
            simp only [Nat.mul_add_mod, Nat.mod_eq_of_lt hdlt, Nat.mod_eq_of_lt helt] at hmod
            exact hmod
          have hinit : numeralValue base count ds = numeralValue base count es := by
            rw [hlast] at hvalue
            exact Nat.eq_of_mul_eq_mul_left hbase (Nat.add_right_cancel hvalue)
          rw [hlast]
          by_cases hds : ds = []
          · by_cases hes : es = []
            · rw [hds, hes]
            · rw [hds] at hinit
              exact absurd hinit.symm (h'.init hbase hes).2
          · by_cases hes : es = []
            · rw [hes] at hinit
              exact absurd hinit (h.init hbase hds).2
            · rw [ih (h.init hbase hds).1 (hinit ▸ (h'.init hbase hes).1)]

end IsNumeral

end TAlib.Foundation
