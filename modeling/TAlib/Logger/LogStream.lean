import TAlib.Common.CString
import TAlib.Logger.LogBuffer

/-!
The stream of src/Logger/LogStream.h and LogStream.cpp. Numbers and pointers are
written in place when 32 bytes are free, anything else is copied when more bytes
are free than it has. The text of a floating-point number is made by snprintf, of
which only the bound on its length is used.
-/

namespace TAlib

open Foundation

def digits : Bytes := bytesOf "9876543210123456789".toList

/-- `zero[lsd]`, with zero in the middle of digits. -/
def zeroAt (lsd : Int) : UInt8 := digits.getD (9 + lsd).toNat 0

def digitsHex : Bytes := bytesOf "0123456789ABCDEF".toList

/-- The do-while loop of convert and convertHex, last digit first. The number gets
smaller in magnitude with every round but the last, so that bounds the rounds. -/
def digitLoop (base : Int) (digit : Int → UInt8) : Nat → Int → Bytes
  | 0, _ => []
  | fuel + 1, i =>
      digit (i.tmod base) :: if i.tdiv base ≠ 0 then digitLoop base digit fuel (i.tdiv base) else []

def convert (value : Int) : Bytes :=
  (digitLoop 10 zeroAt (value.natAbs + 1) value ++ if value < 0 then [45] else []).reverse

def convertHex (value : Nat) : Bytes :=
  (digitLoop 16 (fun lsd => digitsHex.getD lsd.toNat 0) (value + 1) value).reverse

/-- A text that snprintf makes with "%.12g": a sign, twelve digits, a point and an
exponent of five characters are the most there can be. -/
structure DoubleText where
  text : Bytes
  length_le : text.length ≤ 19
  deriving DecidableEq, Repr

/-- An object of class Fmt. Its constructor asserts the bound. -/
structure Fmt where
  text : Bytes
  length_lt : text.length < 32
  deriving DecidableEq, Repr

/-- What `<<` is applied to. A `const char*` is given by the bytes from it on. -/
inductive LogOperand where
  | bool (v : Bool)
  | short (v : Int16)
  | unsignedShort (v : UInt16)
  | int (v : Int32)
  | unsignedInt (v : UInt32)
  | long (v : Int64)
  | unsignedLong (v : UInt64)
  | longLong (v : Int64)
  | unsignedLongLong (v : UInt64)
  | pointer (p : UInt64)
  | float (v : DoubleText)
  | double (v : DoubleText)
  | char (v : UInt8)
  | cstr (str : Option Bytes)
  | string (s : Bytes)
  | fmt (f : Fmt)

def kMaxNumericSize : Nat := 32

abbrev LogStream := LogBuffer kSmallBuffer

namespace LogStream

/-- Writes a number in place. -/
def numeric (s : LogStream) (text : Bytes) : Except Fault LogStream :=
  if s.avail ≥ kMaxNumericSize then s.write text else .ok s

def formatInteger (s : LogStream) (v : Int) : Except Fault LogStream := s.numeric (convert v)

def null : Bytes := bytesOf "(NULL)".toList

/-- `*this << v` -/
def shift (s : LogStream) : LogOperand → Except Fault LogStream
  | .bool v => .ok (s.append (bytesOf (if v then ['1'] else ['0'])))
  | .short v => s.formatInteger v.toInt
  | .unsignedShort v => s.formatInteger v.toNat
  | .int v => s.formatInteger v.toInt
  | .unsignedInt v => s.formatInteger v.toNat
  | .long v => s.formatInteger v.toInt
  | .unsignedLong v => s.formatInteger v.toNat
  | .longLong v => s.formatInteger v.toInt
  | .unsignedLongLong v => s.formatInteger v.toNat
  | .pointer p => s.numeric (bytesOf ['0', 'x'] ++ convertHex p.toNat)
  | .float v => s.numeric v.text
  | .double v => s.numeric v.text
  | .char v => .ok (s.append [v])
  | .cstr (some str) => .ok (s.append (str.takeWhile (· ≠ 0)))
  | .cstr none => .ok (s.append null)
  | .string str => .ok (s.append (if str = [] then null else str))
  | .fmt f => .ok (s.append f.text)

end LogStream

/-- The text of a number in decimal. -/
def integerText (v : Int) : Bytes := (if v < 0 then [45] else []) ++ decimalText v.natAbs

/-- The text of a number in capital hexadecimal digits. -/
def hexText (v : Nat) : Bytes := (Nat.toDigits 16 v).map fun c => UInt8.ofNat c.toUpper.toNat

namespace LogOperand

/-- The whole text of the operand. -/
def text : LogOperand → Bytes
  | .bool v => bytesOf (if v then ['1'] else ['0'])
  | .short v => integerText v.toInt
  | .int v => integerText v.toInt
  | .long v | .longLong v => integerText v.toInt
  | .unsignedShort v => decimalText v.toNat
  | .unsignedInt v => decimalText v.toNat
  | .unsignedLong v | .unsignedLongLong v => decimalText v.toNat
  | .pointer p => bytesOf ['0', 'x'] ++ hexText p.toNat
  | .float v | .double v => v.text
  | .char v => [v]
  | .cstr (some str) => str.takeWhile (· ≠ 0)
  | .cstr none => LogStream.null
  | .string str => if str = [] then LogStream.null else str
  | .fmt f => f.text

/-- Written in place, and tested for the 32 bytes that the longest number needs. -/
def inPlace : LogOperand → Bool
  | .bool _ | .char _ | .cstr _ | .string _ | .fmt _ => false
  | _ => true

/-- There is room for the operand with this many bytes free. -/
def Fits (op : LogOperand) (avail : Nat) : Prop :=
  if op.inPlace then avail ≥ kMaxNumericSize else avail > op.text.length

instance (op : LogOperand) (avail : Nat) : Decidable (op.Fits avail) := by
  unfold Fits
  infer_instance

end LogOperand

section Digits

variable {base : Nat} (digit : Int → UInt8)

theorem natAbs_tdiv_base (i : Int) : (i.tdiv base).natAbs = i.natAbs / base := by
  rw [Int.natAbs_tdiv, Int.natAbs_natCast]
  rfl

/-- A number below the k-th power of the base has at most k digits. -/
theorem digitLoop_length_le {k : Nat} (hk : k ≠ 0) (fuel : Nat) {i : Int}
    (hi : i.natAbs < base ^ k) : (digitLoop base digit fuel i).length ≤ k := by
  induction k generalizing fuel i with
  | zero => exact absurd rfl hk
  | succ k ih =>
      cases fuel with
      | zero => exact Nat.zero_le _
      | succ fuel =>
          rw [digitLoop, List.length_cons]
          split
          · rename_i hne
            have hlt : (i.tdiv base).natAbs < base ^ k := by
              rw [natAbs_tdiv_base]
              exact Nat.div_lt_of_lt_mul (by rwa [Nat.mul_comm, ← Nat.pow_succ])
            have hk' : k ≠ 0 := by
              rintro rfl
              rw [Nat.pow_zero, Nat.lt_one_iff, Int.natAbs_eq_zero] at hlt
              exact hne hlt
            exact Nat.succ_le_succ (ih hk' fuel hlt)
          · exact Nat.succ_le_succ (Nat.zero_le _)

/-- The digits of the loop, backwards, are those of the number when the table holds
the digit of each remainder, of either sign in a signed type. -/
theorem digitLoop_reverse {write : Char → UInt8} {signed : Prop} (hbase : 1 < base)
    (hdigit : ∀ lsd : Int, lsd.natAbs < base → signed ∨ 0 ≤ lsd →
      digit lsd = write (Nat.digitChar lsd.natAbs))
    {fuel : Nat} {i : Int} (hi : i.natAbs < fuel) (hsign : signed ∨ 0 ≤ i) :
    (digitLoop base digit fuel i).reverse = (Nat.toDigits base i.natAbs).map write := by
  induction fuel generalizing i with
  | zero => exact absurd hi (Nat.not_lt_zero _)
  | succ fuel ih =>
      have hquot : (i.tdiv base).natAbs = i.natAbs / base := natAbs_tdiv_base i
      have hrem : (i.tmod base).natAbs = i.natAbs % base := Int.natAbs_tmod i base
      have hlsd : digit (i.tmod base) = write (Nat.digitChar (i.natAbs % base)) := by
        rw [hdigit _ (hrem ▸ Nat.mod_lt _ (Nat.lt_of_succ_lt hbase))
          (hsign.imp_right fun hnonneg => Int.tmod_nonneg _ hnonneg), hrem]
      rw [digitLoop, List.reverse_cons, hlsd, Nat.toDigits_eq_if hbase]
      split
      · rename_i hne
        have hge : ¬ i.natAbs < base := fun hlt =>
          hne (Int.natAbs_eq_zero.mp (hquot.trans (Nat.div_eq_of_lt hlt)))
        have hpos : 0 < i.natAbs :=
          Nat.lt_of_lt_of_le (Nat.lt_of_succ_lt hbase) (Nat.le_of_not_lt hge)
        have hless : (i.tdiv base).natAbs < fuel :=
          hquot ▸ Nat.lt_of_lt_of_le (Nat.div_lt_self hpos hbase) (Nat.le_of_lt_succ hi)
        rw [if_neg hge, List.map_append, ih hless
          (hsign.imp_right fun hnonneg => Int.tdiv_nonneg hnonneg (Int.natCast_nonneg _)), hquot]
        rfl
      · rename_i heq
        have hzero : i.natAbs / base = 0 := hquot ▸ Int.natAbs_eq_zero.mpr (not_not.mp heq)
        have hlt : i.natAbs < base :=
          (Nat.div_eq_zero_iff.mp hzero).resolve_left (Nat.ne_of_gt (Nat.lt_of_succ_lt hbase))
        rw [if_pos hlt, Nat.mod_eq_of_lt hlt]
        rfl

theorem zeroAt_eq {lsd : Int} (h : lsd.natAbs < 10) :
    zeroAt lsd = UInt8.ofNat (Nat.digitChar lsd.natAbs).toNat := by
  have htable : ∀ n : Nat, n < 10 → zeroAt n = UInt8.ofNat (Nat.digitChar n).toNat ∧
      zeroAt (-n) = UInt8.ofNat (Nat.digitChar n).toNat := by
    decide
  obtain ⟨hpos, hneg⟩ := htable lsd.natAbs h
  obtain heq | heq := Int.natAbs_eq lsd
  · exact (congrArg zeroAt heq).trans hpos
  · exact (congrArg zeroAt heq).trans hneg

theorem digitsHex_eq : ∀ n : Nat, n < 16 →
    digitsHex.getD n 0 = UInt8.ofNat (Nat.digitChar n).toUpper.toNat := by
  decide

theorem convert_eq (v : Int) : convert v = integerText v := by
  have hdigits : (digitLoop 10 zeroAt (v.natAbs + 1) v).reverse = decimalText v.natAbs :=
    @digitLoop_reverse 10 zeroAt _ True (by decide) (fun _ h _ => zeroAt_eq h) _ _
      (Nat.lt_succ_self _) (.inl trivial)
  rw [convert, List.reverse_append, hdigits, integerText]
  split
  · rfl
  · rfl

theorem convertHex_eq (v : Nat) : convertHex v = hexText v := by
  refine @digitLoop_reverse 16 _ (fun c => UInt8.ofNat c.toUpper.toNat) False (by decide) ?_ _ v
    (Nat.lt_succ_self _) (.inr (Int.natCast_nonneg _))
  rintro lsd hlsd (hsigned | hnonneg)
  · exact hsigned.elim
  · obtain ⟨n, rfl⟩ := Int.eq_ofNat_of_zero_le hnonneg
    exact digitsHex_eq n hlsd

theorem convert_length_le {v : Int} (hv : v.natAbs < 10 ^ 20) : (convert v).length ≤ 21 := by
  have hdigits : (digitLoop 10 zeroAt (v.natAbs + 1) v).length ≤ 20 :=
    @digitLoop_length_le 10 zeroAt 20 (by decide) (v.natAbs + 1) v hv
  have hsign : (if v < 0 then [45] else [] : Bytes).length ≤ 1 := by
    split
    · exact Nat.le_refl _
    · exact Nat.zero_le _
  rw [convert, List.length_reverse, List.length_append]
  omega

theorem convertHex_length_le {v : Nat} (hv : v < 16 ^ 16) : (convertHex v).length ≤ 16 := by
  rw [convertHex, List.length_reverse]
  exact @digitLoop_length_le 16 _ 16 (by decide) (v + 1) v (by rwa [Int.natAbs_natCast])

end Digits

theorem integerText_natCast (n : Nat) : integerText n = decimalText n := by
  rw [integerText, if_neg (Int.not_lt.mpr (Int.natCast_nonneg n)), Int.natAbs_natCast]
  rfl

theorem integerText_length_lt {v : Int} (hlow : -2 ^ 64 ≤ v) (hhigh : v < 2 ^ 64) :
    (integerText v).length < kMaxNumericSize := by
  have hlen : (convert v).length ≤ 21 := convert_length_le (by omega)
  rw [← convert_eq]
  exact Nat.lt_of_le_of_lt hlen (by decide)

theorem hexText_length_le {v : Nat} (hv : v < 2 ^ 64) : (hexText v).length ≤ 16 :=
  convertHex_eq v ▸ convertHex_length_le hv

namespace LogOperand

/-- What is written in place is shorter than the bytes it is tested for. -/
theorem text_length_lt {op : LogOperand} (h : op.inPlace) : op.text.length < kMaxNumericSize := by
  cases op with
  | bool _ | char _ | cstr _ | string _ | fmt _ => cases h
  | short v =>
      exact integerText_length_lt (Int.le_trans (by decide) v.le_toInt)
        (Int.lt_of_lt_of_le v.toInt_lt (by decide))
  | int v =>
      exact integerText_length_lt (Int.le_trans (by decide) v.le_toInt)
        (Int.lt_of_lt_of_le v.toInt_lt (by decide))
  | long v | longLong v =>
      exact integerText_length_lt (Int.le_trans (by decide) v.le_toInt)
        (Int.lt_of_lt_of_le v.toInt_lt (by decide))
  | unsignedShort v =>
      have := v.toNat_lt
      rw [text, ← integerText_natCast]
      exact integerText_length_lt (by omega) (by omega)
  | unsignedInt v =>
      have := v.toNat_lt
      rw [text, ← integerText_natCast]
      exact integerText_length_lt (by omega) (by omega)
  | unsignedLong v | unsignedLongLong v =>
      have := v.toNat_lt
      rw [text, ← integerText_natCast]
      exact integerText_length_lt (by omega) (by omega)
  | pointer p =>
      have hlen := hexText_length_le p.toNat_lt
      rw [text, List.length_append]
      exact Nat.lt_of_le_of_lt (Nat.add_le_add_left hlen _) (by decide)
  | float v | double v => exact Nat.lt_of_le_of_lt v.length_le (by decide)

end LogOperand

namespace LogStream

theorem formatInteger_eq (s : LogStream) (v : Int) :
    s.formatInteger v = s.numeric (integerText v) := by
  rw [formatInteger, convert_eq]

/-- There are two ways into the buffer. -/
theorem shift_eq (s : LogStream) (op : LogOperand) :
    s.shift op = if op.inPlace then s.numeric op.text else .ok (s.append op.text) := by
  cases op with
  | bool _ | char _ | string _ | fmt _ | float _ | double _ => rfl
  | cstr str =>
      cases str with
      | none => rfl
      | some str => rfl
  | short v | int v | long v | longLong v => exact formatInteger_eq s _
  | unsignedShort v | unsignedInt v | unsignedLong v | unsignedLongLong v =>
      exact (formatInteger_eq s _).trans (congrArg s.numeric (integerText_natCast _))
  | pointer p => exact congrArg (fun t => s.numeric (_ ++ t)) (convertHex_eq _)

/-- The number and its NUL are within the buffer. -/
theorem numeric_ok (s : LogStream) {text : Bytes} (h : text.length < kMaxNumericSize) :
    ∃ t, s.numeric text = .ok t ∧
      t.data = s.data ++ if s.avail ≥ kMaxNumericSize then text else [] := by
  by_cases havail : s.avail ≥ kMaxNumericSize
  · rw [numeric, if_pos havail, if_pos havail, LogBuffer.write,
      dif_pos (Nat.le_trans (Nat.succ_le_of_lt h) havail)]
    exact ⟨_, rfl, rfl⟩
  · rw [numeric, if_neg havail, if_neg havail, List.append_nil]
    exact ⟨s, rfl, rfl⟩

/-- Every operand is appended whole or not at all, and nothing is written behind
the buffer. -/
theorem shift_ok (s : LogStream) (op : LogOperand) :
    ∃ t, s.shift op = .ok t ∧ t.data = s.data ++ if op.Fits s.avail then op.text else [] := by
  rw [shift_eq]
  simp only [LogOperand.Fits]
  by_cases hplace : op.inPlace
  · simp only [if_pos hplace]
    exact numeric_ok s (LogOperand.text_length_lt hplace)
  · simp only [if_neg hplace]
    exact ⟨_, rfl, s.append_whole op.text⟩

end LogStream
end TAlib
