import Mathlib.Data.List.TakeWhile
import TAlib.Common.Outcome
import TAlib.Foundation.ByteSearch
import TAlib.Foundation.MachineInt

/-!
Character arrays as C reads them. A pointer into an array is an offset from its
start. strstr and atoi read the string that runs from a pointer up to the next
NUL byte; without one inside the array they have no meaning.
-/

namespace TAlib

open Foundation

/-- The bytes of a character literal. -/
def bytesOf (cs : List Char) : Bytes := cs.map fun c => UInt8.ofNat c.toNat

/-- The white space of the C locale: blank and the controls from tab to
carriage return. -/
def isspace (b : UInt8) : Bool := b == 32 || (9 ≤ b && b ≤ 13)

def isdigit (b : UInt8) : Bool := 48 ≤ b && b ≤ 57

def byteAt (mem : Bytes) (p : Int) : Except Fault UInt8 :=
  if p < 0 then .error .outOfBounds
  else
    match mem[p.toNat]? with
    | none => .error .outOfBounds
    | some b => .ok b

/-- The string at a pointer, without its NUL. -/
def cString (mem : Bytes) (p : Int) : Except Fault Bytes :=
  if p < 0 ∨ 0 ∉ mem.drop p.toNat then .error .outOfBounds
  else .ok ((mem.drop p.toNat).takeWhile (· ≠ 0))

def strstr (mem : Bytes) (str : Int) (needle : Bytes) : Except Fault (Option Int) := do
  let s ← cString mem str
  return (search needle s).map fun i => str + i

/-- The number that a run of digits writes. -/
def digitsValue (ds : Bytes) : Nat := ds.foldl (fun n b => 10 * n + (b.toNat - 48)) 0

/-- The number at the start of a text, zero when there is none. -/
def leadingInt (text : Bytes) : Int :=
  match text.dropWhile isspace with
  | 45 :: rest => -digitsValue (rest.takeWhile isdigit)
  | 43 :: rest => digitsValue (rest.takeWhile isdigit)
  | rest => digitsValue (rest.takeWhile isdigit)

/-- A number outside the range of int leaves the language. -/
def atoi (mem : Bytes) (str : Int) : Except Fault Int := do
  let s ← cString mem str
  if -2 ^ 31 ≤ leadingInt s ∧ leadingInt s < 2 ^ 31 then .ok (leadingInt s) else .error .overflow

/-- The text that an unsigned number is written as. -/
def decimalText (n : Nat) : Bytes := bytesOf (Nat.toDigits 10 n)

theorem byteAt_append (before : Bytes) (b : UInt8) (after : Bytes) :
    byteAt (before ++ b :: after) before.length = .ok b := by
  simp only [byteAt, if_neg (Int.not_lt.mpr (Int.natCast_nonneg _)), Int.toNat_natCast,
    List.getElem?_append_right (Nat.le_refl _), Nat.sub_self, List.getElem?_cons_zero]

/-- The string goes on past a part without NUL. -/
theorem cString_append (before : Bytes) {text after : Bytes} (htext : 0 ∉ text)
    (hafter : 0 ∈ after) :
    cString (before ++ (text ++ after)) before.length =
      .ok (text ++ after.takeWhile (· ≠ 0)) := by
  have hmem : 0 ∈ text ++ after := List.mem_append_right _ hafter
  rw [cString, Int.toNat_natCast, List.drop_left, if_neg]
  · rw [List.takeWhile_append_of_pos]
    intro a ha
    exact decide_eq_true fun heq => htext (heq ▸ ha)
  · exact not_or.mpr ⟨Int.not_lt.mpr (Int.natCast_nonneg _), not_not.mpr hmem⟩

theorem digitChar_toNat {c : Char} (hc : c.isDigit = true) :
    (UInt8.ofNat c.toNat).toNat = c.toNat := by
  simp only [Char.isDigit, Bool.and_eq_true, decide_eq_true_eq, ge_iff_le,
    UInt32.le_iff_toNat_le] at hc
  rw [UInt8.toNat_ofNat']
  exact Nat.mod_eq_of_lt (Nat.lt_of_le_of_lt hc.2 (by decide))

theorem isdigit_of_mem_decimalText {n : Nat} {b : UInt8} (hb : b ∈ decimalText n) :
    isdigit b = true := by
  obtain ⟨c, hc, rfl⟩ := List.mem_map.mp hb
  have hdigit := Nat.isDigit_of_mem_toDigits (by decide) (Nat.le_refl 10) hc
  have hrange := hdigit
  simp only [Char.isDigit, Bool.and_eq_true, decide_eq_true_eq, ge_iff_le,
    UInt32.le_iff_toNat_le] at hrange
  simp only [isdigit, Bool.and_eq_true, decide_eq_true_eq, UInt8.le_iff_toNat_le,
    digitChar_toNat hdigit]
  exact hrange

theorem decimalText_ne_nil (n : Nat) : decimalText n ≠ [] :=
  fun h => Nat.toDigits_ne_nil (List.map_eq_nil_iff.mp h)

theorem decimalText_length_le {n k : Nat} (hk : 0 < k) (h : n < 10 ^ k) :
    (decimalText n).length ≤ k := by
  rw [decimalText, bytesOf, List.length_map]
  exact (Nat.length_toDigits_le_iff (by decide) hk).mpr h

theorem isdigit_range {b : UInt8} (hb : isdigit b = true) : 48 ≤ b.toNat ∧ b.toNat ≤ 57 := by
  simp only [isdigit, Bool.and_eq_true, decide_eq_true_eq, UInt8.le_iff_toNat_le] at hb
  exact hb

theorem digitsValue_decimalText (n : Nat) : digitsValue (decimalText n) = n := by
  have hfold : ∀ (cs : List Char) (m : Nat), (∀ c ∈ cs, c.isDigit = true) →
      (bytesOf cs).foldl (fun n b => 10 * n + (b.toNat - 48)) m = Nat.ofDigitChars 10 cs m := by
    intro cs
    induction cs with
    | nil => exact fun m _ => Nat.ofDigitChars_nil.symm
    | cons c rest ih =>
        intro m hcs
        rw [Nat.ofDigitChars_cons, ← ih _ fun c hc => hcs c (List.mem_cons_of_mem _ hc)]
        simp only [bytesOf, List.map_cons, List.foldl_cons,
          digitChar_toNat (hcs c List.mem_cons_self)]
        rfl
  rw [digitsValue, decimalText, hfold, Nat.ofDigitChars_ten_toDigits]
  exact fun c hc => Nat.isDigit_of_mem_toDigits (by decide) (Nat.le_refl 10) hc

theorem leadingInt_digits {ds t : Bytes} (hne : ds ≠ []) (hds : ∀ b ∈ ds, isdigit b = true)
    (ht : ∀ b ∈ t.head?, isdigit b = false) : leadingInt (ds ++ t) = digitsValue ds := by
  have htake : (ds ++ t).takeWhile isdigit = ds := by
    rw [List.takeWhile_append_of_pos hds]
    cases t with
    | nil => rw [List.takeWhile_nil, List.append_nil]
    | cons b rest =>
        rw [List.takeWhile_cons_of_neg (by rw [ht b rfl]; exact Bool.false_ne_true),
          List.append_nil]
  obtain ⟨d, ds', rfl⟩ := List.exists_cons_of_ne_nil hne
  have hd := hds d List.mem_cons_self
  have hspace : ¬ isspace d = true := by
    have hrange := isdigit_range hd
    simp only [isspace, Bool.or_eq_true, Bool.and_eq_true, beq_iff_eq, decide_eq_true_eq,
      UInt8.le_iff_toNat_le, ← UInt8.toNat_inj]
    intro h
    simp at h
    omega
  rw [leadingInt, List.cons_append, List.dropWhile_cons_of_neg hspace]
  split
  · rename_i heq
    cases heq
    exact absurd hd (by decide)
  · rename_i heq
    cases heq
    exact absurd hd (by decide)
  · rename_i heq _ _
    rw [← List.cons_append, htake]

theorem not_mem_decimalText {n : Nat} {b : UInt8} (hb : isdigit b = false) : b ∉ decimalText n := by
  intro hmem
  rw [isdigit_of_mem_decimalText hmem] at hb
  cases hb

/-- A decimal number that a line break ends. -/
theorem atoi_decimal (before : Bytes) {n : Nat} (hn : n ≤ intMax) {after : Bytes}
    (hafter : 0 ∈ after) :
    atoi (before ++ (decimalText n ++ 13 :: after)) before.length = .ok n := by
  have hlead : leadingInt (decimalText n ++ (13 :: after).takeWhile (· ≠ 0)) = n := by
    rw [List.takeWhile_cons_of_pos (by decide), leadingInt_digits (decimalText_ne_nil n)
      (fun b hb => isdigit_of_mem_decimalText hb), digitsValue_decimalText]
    intro b hb
    cases Option.mem_some_iff.mp hb
    rfl
  rw [atoi, cString_append before (not_mem_decimalText rfl) (List.mem_cons_of_mem _ hafter),
    ok_bind, hlead, if_pos]
  unfold intMax at hn
  omega

/-- The line break behind a text that holds no byte of one. -/
theorem strstr_line (before : Bytes) {line : Bytes} (h0 : 0 ∉ line) (h13 : 13 ∉ line)
    {after : Bytes}
    (hafter : 0 ∈ after) :
    strstr (before ++ (line ++ 13 :: 10 :: after)) before.length [13, 10] =
      .ok (some (before.length + line.length)) := by
  have hfree : ¬ [(13 : UInt8), 10] <:+: line := fun h => h13 (h.subset List.mem_cons_self)
  rw [strstr, cString_append before h0
      (List.mem_cons_of_mem _ (List.mem_cons_of_mem _ hafter)), ok_bind,
    List.takeWhile_cons_of_pos (by decide), List.takeWhile_cons_of_pos (by decide),
    search_pair_at_end (by decide) hfree]
  rfl

/-- A NUL inside the text only makes the string shorter. -/
theorem strstr_none (before : Bytes) {text : Bytes} (h10 : 10 ∉ text) (after : Bytes) :
    strstr (before ++ (text ++ 0 :: after)) before.length [13, 10] = .ok none := by
  have hmem : 0 ∈ text ++ 0 :: after := List.mem_append_right _ List.mem_cons_self
  have hsub : (text ++ 0 :: after).takeWhile (· ≠ 0) <+: text := by
    induction text with
    | nil => rw [List.nil_append, List.takeWhile_cons_of_neg (by simp)]
    | cons b rest ih =>
        rw [List.cons_append, List.takeWhile_cons]
        split
        · exact List.cons_prefix_cons.mpr ⟨rfl, ih (fun h => h10 (List.mem_cons_of_mem _ h))
            (List.mem_append_right _ List.mem_cons_self)⟩
        · exact List.nil_prefix
  have hfree : ¬ [(13 : UInt8), 10] <:+: (text ++ 0 :: after).takeWhile (· ≠ 0) := by
    intro h
    exact h10 (hsub.subset (h.subset (List.mem_cons_of_mem _ List.mem_cons_self)))
  rw [strstr, cString, Int.toNat_natCast, List.drop_left, if_neg, ok_bind,
    (search_eq_none_iff (by decide)).mpr hfree]
  · rfl
  · exact not_or.mpr ⟨Int.not_lt.mpr (Int.natCast_nonneg _), not_not.mpr hmem⟩

end TAlib
