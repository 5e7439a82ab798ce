import TAlib.Common.Buffer
import TAlib.Foundation.IntegerType
import TAlib.Foundation.Numeral
import TAlib.Logger.LogStream

/-!
The number formatting of src/Logger/LogStream.cpp in the array it works on. Every byte
is stored through p, the last digit first, and the text is turned round in place. A
store outside the array is a fault, and so is a read outside a table of digits. The
result is that of convert and convertHex on plain texts, written over the array at
once, and it is the one numeral of the number.
-/

namespace TAlib

open Foundation IntegerType

/-- A character array and a pointer into it. -/
structure Cursor where
  mem : Bytes
  p : Nat
  deriving DecidableEq

namespace Cursor

/-- `*p++ = b` -/
def put (c : Cursor) (b : UInt8) : Except Fault Cursor := do
  let mem ← overwrite c.mem c.p [b]
  return ⟨mem, c.p + 1⟩

/-- Several of them. -/
def putAll (c : Cursor) (bs : Bytes) : Except Fault Cursor := do
  let mem ← overwrite c.mem c.p bs
  return ⟨mem, c.p + bs.length⟩

end Cursor

/-- std::reverse of a range of an array. -/
def reverseRange (mem : Bytes) (first last : Nat) : Bytes :=
  mem.take first ++ (slice mem first last).reverse ++ mem.drop last

namespace InPlace

variable {T : Type} [IntegerType T]

/-- The do-while loop of convert and convertHex. The number bounds its rounds. -/
def digitLoop (base : Nat) (digit : Int32 → Except Fault UInt8) :
    Nat → T → Cursor → Except Fault Cursor
  | 0, _, _ => .error .spins
  | fuel + 1, i, c => do
    let lsd := toInt32 (i % ofNat base)
    let i := i / ofNat base
    let b ← digit lsd
    let c ← c.put b
    if toInt i ≠ 0 then digitLoop base digit fuel i c else return c

/-- The array after the call, and the length that is returned. -/
def convert (mem : Bytes) (buf : Nat) (value : T) : Except Fault (Bytes × Nat) := do
  let c ← digitLoop 10 (fun lsd => byteAt digits (9 + lsd.toInt)) ((toInt value).natAbs + 1) value
    ⟨mem, buf⟩
  let c ← if toInt value < 0 then c.put 45 else .ok c
  let mem ← overwrite c.mem c.p [0]
  return (reverseRange mem buf c.p, c.p - buf)

def convertHex (mem : Bytes) (buf : Nat) (value : UInt64) : Except Fault (Bytes × Nat) := do
  let c ← digitLoop 16 (fun lsd => byteAt digitsHex lsd.toInt) (value.toNat + 1) value ⟨mem, buf⟩
  let mem ← overwrite c.mem c.p [0]
  return (reverseRange mem buf c.p, c.p - buf)

/-- What operator<< writes for a pointer. -/
def convertPointer (mem : Bytes) (buf : Nat) (v : UInt64) : Except Fault (Bytes × Nat) := do
  let mem ← overwrite mem buf [48]
  let mem ← overwrite mem (buf + 1) [120]
  let (mem, len) ← convertHex mem (buf + 2) v
  return (mem, len + 2)

end InPlace

section Stores

theorem overwrite_append (mem : Bytes) (pos : Nat) (bs cs : Bytes) :
    overwrite mem pos (bs ++ cs) =
      overwrite mem pos bs >>= fun mem => overwrite mem (pos + bs.length) cs := by
  by_cases hfirst : pos + bs.length ≤ mem.length
  · have hlen : (mem.take pos ++ bs).length = pos + bs.length := by
      rw [List.length_append, List.length_take_of_le (by omega)]
    have hsame : (mem.take pos ++ bs ++ mem.drop (pos + bs.length)).length = mem.length := by
      rw [List.length_append, hlen, List.length_drop]
      omega
    have hdrop : (mem.take pos ++ bs ++ mem.drop (pos + bs.length)).drop
      (pos + bs.length + cs.length) =
        mem.drop (pos + bs.length + cs.length) := by
      rw [← List.drop_drop, List.drop_left' hlen, List.drop_drop]
    rw [overwrite, overwrite, if_pos hfirst, ok_bind, overwrite, hsame, hdrop, List.take_left' hlen,
      List.length_append, ← Nat.add_assoc, ← List.append_assoc (mem.take pos) bs cs]
  · rw [overwrite, overwrite, if_neg hfirst, if_neg (by rw [List.length_append]; omega)]
    rfl

theorem Cursor.putAll_append (c : Cursor) (bs cs : Bytes) :
    c.putAll (bs ++ cs) = c.putAll bs >>= fun c => c.putAll cs := by
  simp only [Cursor.putAll, overwrite_append, bind_assoc, pure_bind, List.length_append,
    Nat.add_assoc]

theorem Cursor.putAll_cons (c : Cursor) (b : UInt8) (bs : Bytes) :
    c.putAll (b :: bs) = c.put b >>= fun c => c.putAll bs := c.putAll_append [b] bs

theorem reverseRange_middle (before middle after : Bytes) :
    reverseRange (before ++ middle ++ after) before.length (before.length + middle.length) =
      before ++ middle.reverse ++ after := by
  have hlen : (before ++ middle).length = before.length + middle.length := List.length_append
  rw [reverseRange, slice_middle, List.drop_left' hlen, List.append_assoc before middle,
    List.take_left]

/-- The end of convert: what was stored is turned round, with a NUL behind it. -/
theorem putAll_reverse (mem : Bytes) (buf : Nat) (bs : Bytes) :
    (do
      let c ← Cursor.putAll ⟨mem, buf⟩ bs
      let mem ← overwrite c.mem c.p [0]
      return (reverseRange mem buf c.p, c.p - buf)) =
      (do
        let mem ← overwrite mem buf (bs.reverse ++ [0])
        return (mem, bs.length) : Except Fault (Bytes × Nat)) := by
  have hboth : (do
      let c ← Cursor.putAll ⟨mem, buf⟩ bs
      let mem ← overwrite c.mem c.p [0]
      return (reverseRange mem buf c.p, c.p - buf)) =
      (do
        let mem ← overwrite mem buf (bs ++ [0])
        return (reverseRange mem buf (buf + bs.length), bs.length) : Except Fault
          (Bytes × Nat)) := by
    simp only [Cursor.putAll, overwrite_append, bind_assoc, pure_bind, Nat.add_sub_cancel_left]
  have hlength : (bs.reverse ++ [0]).length = (bs ++ [0]).length := by
    rw [List.length_append, List.length_append, List.length_reverse]
  rw [hboth, overwrite, overwrite, hlength]
  split
  · rename_i hle
    have hbuf : (mem.take buf).length = buf := List.length_take_of_le (by omega)
    have hmiddle := reverseRange_middle (mem.take buf) bs
      ([0] ++ mem.drop (buf + (bs ++ [0]).length))
    rw [hbuf] at hmiddle
    simp only [ok_bind, List.append_assoc] at hmiddle ⊢
    rw [hmiddle]
  · rfl

end Stores

namespace InPlace

section Loop

variable {T : Type} [IntegerType T]

/-- The loop stores the digits of the number, and it ends. -/
theorem digitLoop_eq {base : Nat} (hbase : 1 < base) (hsmall : base < 128)
    {digit : Int32 → Except Fault UInt8} {table : Int → UInt8}
    (hdigit : ∀ i : T, digit (toInt32 (i % ofNat base)) = .ok (table ((toInt i).tmod base)))
    {fuel : Nat} {i : T} (hfuel : (toInt i).natAbs < fuel) (c : Cursor) :
    digitLoop base digit fuel i c = c.putAll (TAlib.digitLoop base table fuel (toInt i)) := by
  have hpos : 0 < base := Nat.lt_of_succ_lt hbase
  induction fuel generalizing i c with
  | zero => exact absurd hfuel (Nat.not_lt_zero _)
  | succ fuel ih =>
      have hquot : toInt (i / ofNat base) = (toInt i).tdiv base := toInt_div_ofNat i hpos hsmall
      rw [digitLoop, hdigit, ok_bind, TAlib.digitLoop, hquot]
      split
      · rename_i hne
        have hless : (toInt (i / ofNat base : T)).natAbs < fuel := by
          have hnonzero : (toInt i).natAbs ≠ 0 := by
            intro hzero
            rw [Int.natAbs_eq_zero.mp hzero, Int.zero_tdiv] at hne
            exact hne rfl
          have hdiv := Nat.div_lt_self (Nat.pos_of_ne_zero hnonzero) hbase
          rw [hquot, natAbs_tdiv_base]
          omega
        rw [Cursor.putAll_cons]
        refine congrArg (c.put _ >>= ·) (funext fun c => ?_)
        rw [ih hless, hquot]
      · exact bind_pure _

theorem zero_eq {lsd : Int} (h : lsd.natAbs < 10) : byteAt digits (9 + lsd) = .ok (zeroAt lsd) := by
  have htable : ∀ n : Nat, n < 10 → byteAt digits (9 + n) = .ok (zeroAt n) ∧
      byteAt digits (9 + -n) = .ok (zeroAt (-n)) := by
    decide
  obtain ⟨hpos, hneg⟩ := htable lsd.natAbs h
  obtain heq | heq := Int.natAbs_eq lsd
  · rw [heq]
    exact hpos
  · rw [heq]
    exact hneg

theorem natAbs_tmod_lt (i : Int) {base : Nat} (hpos : 0 < base) : (i.tmod base).natAbs < base := by
  rw [Int.natAbs_tmod]
  exact Nat.mod_lt _ hpos

/-- convert writes the text of the number and a NUL at once. -/
theorem convert_eq (mem : Bytes) (buf : Nat) (value : T) :
    convert mem buf value = (do
      let mem ← overwrite mem buf (integerText (toInt value) ++ [0])
      return (mem, (integerText (toInt value)).length)) := by
  have hloop := @digitLoop_eq T _ 10 (by decide) (by decide)
    (fun lsd => byteAt digits (9 + lsd.toInt))
    zeroAt (fun i => by
      rw [toInt32_mod i (by decide) (by decide)]
      exact zero_eq (natAbs_tmod_lt _ (by decide))) _ value (Nat.lt_succ_self _) ⟨mem, buf⟩
  have htext := TAlib.convert_eq (toInt value)
  rw [convert, hloop, ← htext, TAlib.convert, List.length_reverse, ← putAll_reverse]
  split
  · rw [Cursor.putAll_append, bind_assoc]
    rfl
  · rw [List.append_nil]
    rfl

end Loop

theorem digitsHex_byteAt : ∀ n : Nat, n < 16 → byteAt digitsHex n = .ok (digitsHex.getD n 0) := by
  decide

theorem convertHex_eq (mem : Bytes) (buf : Nat) (value : UInt64) :
    convertHex mem buf value = (do
      let mem ← overwrite mem buf (hexText value.toNat ++ [0])
      return (mem, (hexText value.toNat).length)) := by
  have hloop := @digitLoop_eq UInt64 _ 16 (by decide) (by decide)
    (fun lsd => byteAt digitsHex lsd.toInt)
    (fun lsd => digitsHex.getD lsd.toNat 0) (fun i => by
      rw [toInt32_mod i (by decide) (by decide)]
      exact digitsHex_byteAt _ (Nat.mod_lt i.toNat (by decide))) _ value (Nat.lt_succ_self _)
        ⟨mem, buf⟩
  have htext := TAlib.convertHex_eq value.toNat
  rw [← htext, TAlib.convertHex, List.length_reverse, ← putAll_reverse]
  exact congrArg (· >>= _) hloop

theorem convertPointer_eq (mem : Bytes) (buf : Nat) (v : UInt64) :
    convertPointer mem buf v = (do
      let mem ← overwrite mem buf (bytesOf ['0', 'x'] ++ hexText v.toNat ++ [0])
      return (mem, (bytesOf ['0', 'x'] ++ hexText v.toNat).length)) := by
  have hprefix : bytesOf ['0', 'x'] = [48] ++ [120] := rfl
  have hlength (n : Nat) : 1 + (1 + n) = 2 + n := by omega
  simp only [convertPointer, convertHex_eq, hprefix, List.append_assoc, overwrite_append,
    bind_assoc, pure_bind, List.length_append, List.length_singleton, Nat.add_assoc, hlength,
    Nat.add_comm _ 2]

end InPlace

section Canonical

def decimalCount (b : UInt8) : Nat := b.toNat - 48

/-- The digits of a hexadecimal number, the letters in upper case. -/
def isHexDigit (b : UInt8) : Bool := isdigit b || (65 ≤ b && b ≤ 70)

def hexCount (b : UInt8) : Nat := if isdigit b then b.toNat - 48 else b.toNat - 55

theorem decimalCount_lt (d : UInt8) (h : isdigit d = true) : decimalCount d < 10 := by
  have hd := isdigit_range h
  unfold decimalCount
  omega

theorem decimalCount_inj (d e : UInt8) (h : isdigit d = true) (h' : isdigit e = true)
    (hcount : decimalCount d = decimalCount e) : d = e := by
  have hd := isdigit_range h
  have he := isdigit_range h'
  unfold decimalCount at hcount
  exact UInt8.toNat_inj.mp (by omega)

/-- A hexadecimal digit is a decimal one, or a letter that counts from ten on. -/
theorem isHexDigit_cases {d : UInt8} (h : isHexDigit d = true) :
    (48 ≤ d.toNat ∧ d.toNat ≤ 57 ∧ hexCount d = d.toNat - 48) ∨
      (65 ≤ d.toNat ∧ d.toNat ≤ 70 ∧ hexCount d = d.toNat - 55) := by
  by_cases hdigit : isdigit d = true
  · obtain ⟨hlow, hhigh⟩ := isdigit_range hdigit
    exact .inl ⟨hlow, hhigh, if_pos hdigit⟩
  · rw [isHexDigit, Bool.or_eq_true, Bool.and_eq_true, decide_eq_true_eq, decide_eq_true_eq,
      UInt8.le_iff_toNat_le, UInt8.le_iff_toNat_le] at h
    obtain ⟨hlow, hhigh⟩ := h.resolve_left hdigit
    exact .inr ⟨hlow, hhigh, if_neg hdigit⟩

theorem hexCount_lt (d : UInt8) (h : isHexDigit d = true) : hexCount d < 16 := by
  obtain ⟨_, _, hd⟩ | ⟨_, _, hd⟩ := isHexDigit_cases h
  · omega
  · omega

theorem hexCount_inj (d e : UInt8) (h : isHexDigit d = true) (h' : isHexDigit e = true)
    (hcount : hexCount d = hexCount e) : d = e := by
  have hd := isHexDigit_cases h
  have he := isHexDigit_cases h'
  exact UInt8.toNat_inj.mp (by omega)

/-- The canonical decimal text of a number. -/
def IsDecimal (v : Int) (text : Bytes) : Prop :=
  ∃ ds, text = (if v < 0 then [45] else []) ++ ds ∧ IsNumeral 10 isdigit decimalCount v.natAbs ds

/-- The canonical hexadecimal text of a number. -/
def IsHex (v : Nat) (text : Bytes) : Prop := IsNumeral 16 isHexDigit hexCount v text

theorem decimalText_isNumeral (n : Nat) : IsNumeral 10 isdigit decimalCount n (decimalText n) :=
  IsNumeral.toDigits (by decide) (by decide) n

theorem isDecimal_iff {v : Int} {text : Bytes} : IsDecimal v text ↔ text = integerText v := by
  constructor
  · rintro ⟨ds, rfl, hds⟩
    rw [IsNumeral.unique decimalCount_lt decimalCount_inj hds (decimalText_isNumeral v.natAbs),
      integerText]
  · rintro rfl
    exact ⟨_, rfl, decimalText_isNumeral v.natAbs⟩

theorem isHex_iff {v : Nat} {text : Bytes} : IsHex v text ↔ text = hexText v := by
  have hhex : IsHex v (hexText v) := IsNumeral.toDigits (by decide) (by decide) v
  constructor
  · exact fun h => IsNumeral.unique hexCount_lt hexCount_inj h hhex
  · rintro rfl
    exact hhex

/-- The decimal text is read as the number. -/
theorem leadingInt_integerText (v : Int) : leadingInt (integerText v) = v := by
  have hdigits : ∀ b ∈ decimalText v.natAbs, isdigit b = true := fun _ => isdigit_of_mem_decimalText
  have hvalue : digitsValue (decimalText v.natAbs) = v.natAbs := digitsValue_decimalText _
  rw [integerText]
  split
  · have htake : (decimalText v.natAbs).takeWhile isdigit = decimalText v.natAbs :=
      List.takeWhile_eq_self_iff.mpr hdigits
    have hminus : leadingInt ([45] ++ decimalText v.natAbs) =
        -digitsValue ((decimalText v.natAbs).takeWhile isdigit) := rfl
    rw [hminus, htake, hvalue]
    omega
  · have hread := @leadingInt_digits (decimalText v.natAbs) [] (decimalText_ne_nil _) hdigits
      (by simp)
    rw [List.append_nil, hvalue] at hread
    rw [List.nil_append, hread]
    omega

end Canonical

namespace InPlace

section Exact

/-- The call fills the bytes from buf on with the text and a NUL, within those that are
reserved for a number, leaves every other byte as it was, and returns the length of the
text. -/
def Writes (call : Except Fault (Bytes × Nat)) (mem : Bytes) (buf : Nat) (text : Bytes) : Prop :=
  text.length + 1 ≤ kMaxNumericSize ∧
    call = .ok (mem.take buf ++ (text ++ [0]) ++ mem.drop (buf + (text.length + 1)), text.length)

/-- convert at one type: for every number and wherever the reserved bytes are. The array
may end with them, so no store has gone beyond. -/
def ConvertExact (T : Type) [IntegerType T] : Prop :=
  ∀ (mem : Bytes) (buf : Nat) (value : T), buf + kMaxNumericSize ≤ mem.length →
    ∃ text, Writes (convert mem buf value) mem buf text ∧ IsDecimal (toInt value) text ∧
      leadingInt text = toInt value

/-- convertHex on its own, and behind the two characters of a pointer. -/
def ConvertHexExact : Prop :=
  ∀ (mem : Bytes) (buf : Nat) (value : UInt64), buf + kMaxNumericSize ≤ mem.length →
    ∃ text, Writes (convertHex mem buf value) mem buf text ∧
      Writes (convertPointer mem buf value) mem buf (bytesOf ['0', 'x'] ++ text) ∧
      IsHex value.toNat text ∧ numeralValue 16 hexCount text = value.toNat

theorem writes_of_overwrite {mem : Bytes} {buf : Nat} {text : Bytes}
    (hroom : buf + kMaxNumericSize ≤ mem.length) (hlen : text.length < kMaxNumericSize) :
    Writes (do
      let mem ← overwrite mem buf (text ++ [0])
      return (mem, text.length)) mem buf text := by
  have hlength : (text ++ [0]).length = text.length + 1 := List.length_append
  refine ⟨hlen, ?_⟩
  rw [overwrite, hlength, if_pos (by omega), ok_bind]
  rfl

theorem convertExact (T : Type) [IntegerType T] : ConvertExact T := by
  intro mem buf value hroom
  have hvalue := natAbs_lt value
  refine ⟨integerText (toInt value), ?_, isDecimal_iff.mpr rfl, leadingInt_integerText _⟩
  rw [convert_eq]
  exact writes_of_overwrite hroom (integerText_length_lt (by omega) (by omega))

theorem convertHexExact : ConvertHexExact := by
  intro mem buf value hroom
  have hlen := hexText_length_le value.toNat_lt
  have hhex : IsHex value.toNat (hexText value.toNat) := isHex_iff.mpr rfl
  refine ⟨hexText value.toNat, ?_, ?_, hhex, hhex.value⟩
  · rw [convertHex_eq]
    exact writes_of_overwrite hroom (Nat.lt_of_le_of_lt hlen (by decide))
  · rw [convertPointer_eq]
    refine writes_of_overwrite hroom ?_
    rw [List.length_append]
    exact Nat.lt_of_le_of_lt (Nat.add_le_add_left hlen _) (by decide)

/-- Every integer of every type, the least ones included, and every pointer. -/
theorem numbers_exact :
    ConvertExact Int16 ∧ ConvertExact UInt16 ∧ ConvertExact Int32 ∧ ConvertExact UInt32 ∧
      ConvertExact Int64 ∧ ConvertExact UInt64 ∧ ConvertHexExact :=
  ⟨convertExact Int16, convertExact UInt16, convertExact Int32, convertExact UInt32,
    convertExact Int64, convertExact UInt64, convertHexExact⟩

/-- The least number of 64 bits, whose negation does not exist, in an array that ends
with the reserved bytes. -/
theorem numbers_exact_least :
    ∃ text, Writes (convert (List.replicate 32 0) 0 Int64.minValue) (List.replicate 32 0) 0 text ∧
      text = bytesOf "-9223372036854775808".toList := by
  obtain ⟨text, hwrites, hdecimal, -⟩ :=
    numbers_exact.2.2.2.2.1 (List.replicate 32 0) 0 Int64.minValue (by decide)
  exact ⟨text, hwrites, (isDecimal_iff.mp hdecimal).trans (by decide)⟩

end Exact

end InPlace

/-- m_data and the offset of m_cur. -/
structure LogArray where
  data : Bytes
  cur : Nat
  deriving DecidableEq

namespace LogArray

def avail (a : LogArray) : Nat := a.data.length - a.cur

/-- What formatInteger and operator<< for a pointer do around the conversion. -/
def inPlace (a : LogArray) (convert : Bytes → Nat → Except Fault (Bytes × Nat)) :
    Except Fault LogArray :=
  if a.avail ≥ kMaxNumericSize then do
    let (data, len) ← convert a.data a.cur
    return ⟨data, a.cur + len⟩
  else .ok a

def formatInteger {T : Type} [IntegerType T] (a : LogArray) (v : T) : Except Fault LogArray :=
  a.inPlace fun data buf => InPlace.convert data buf v

def shiftPointer (a : LogArray) (p : UInt64) : Except Fault LogArray :=
  a.inPlace fun data buf => InPlace.convertPointer data buf p

/-- The array of a stream: its text lies before m_cur. -/
structure Represents (a : LogArray) (s : LogStream) : Prop where
  size : a.data.length = kSmallBuffer
  text : a.data.take a.cur = s.data
  cur : a.cur = s.data.length

section Refinement

variable {a : LogArray} {s : LogStream}

theorem Represents.avail_eq (h : a.Represents s) : a.avail = s.avail := by
  rw [avail, h.size, h.cur]
  rfl

/-- A conversion that writes a text in place acts on the stream as numeric does. -/
theorem inPlace_refines (h : a.Represents s) {text : Bytes}
    {call : Bytes → Nat → Except Fault (Bytes × Nat)}
    (hcall : a.cur + kMaxNumericSize ≤ a.data.length →
      InPlace.Writes (call a.data a.cur) a.data a.cur text) (hlen : text.length < kMaxNumericSize) :
    ∃ a' s', a.inPlace call = .ok a' ∧ s.numeric text = .ok s' ∧ a'.Represents s' := by
  obtain ⟨s', hs', hdata⟩ := s.numeric_ok hlen
  rw [← h.avail_eq] at hdata
  by_cases hroom : a.avail ≥ kMaxNumericSize
  · have hcur : a.cur + kMaxNumericSize ≤ a.data.length := by
      unfold avail at hroom
      have : 0 < kMaxNumericSize := by decide
      omega
    have htake : (a.data.take a.cur).length = a.cur := List.length_take_of_le (by omega)
    have hlength : (text ++ [0]).length = text.length + 1 := List.length_append
    have hok : a.inPlace call = .ok ⟨a.data.take a.cur ++ (text ++ [0]) ++
        a.data.drop (a.cur + (text.length + 1)), a.cur + text.length⟩ := by
      rw [inPlace, if_pos hroom, (hcall hcur).2]
      rfl
    rw [if_pos hroom] at hdata
    refine ⟨_, s', hok, hs', ?_, ?_, ?_⟩
    · rw [← h.size]
      simp only [List.length_append, htake, List.length_drop, hlength]
      omega
    · have hsplit : (a.data.take a.cur ++ text).length = a.cur + text.length := by
        rw [List.length_append, htake]
      rw [hdata, ← h.text, ← List.append_assoc, List.append_assoc (_ ++ text),
        List.take_left' hsplit]
    · rw [hdata, List.length_append, ← h.cur]
  · rw [if_neg hroom, List.append_nil] at hdata
    refine ⟨a, s', if_neg hroom, hs', h.size, ?_, ?_⟩
    · rw [hdata]
      exact h.text
    · rw [hdata]
      exact h.cur

/-- formatInteger on the array is formatInteger on the text. -/
theorem formatInteger_refines {T : Type} [IntegerType T] (h : a.Represents s) (v : T) :
    ∃ a' s', a.formatInteger v = .ok a' ∧ s.formatInteger (toInt v) = .ok s' ∧
      a'.Represents s' := by
  have hvalue := natAbs_lt v
  rw [LogStream.formatInteger_eq]
  refine inPlace_refines h (fun hroom => ?_) (integerText_length_lt (by omega) (by omega))
  obtain ⟨text, hwrites, hdecimal, -⟩ := InPlace.convertExact T a.data a.cur v hroom
  rw [isDecimal_iff.mp hdecimal] at hwrites
  exact hwrites

theorem shiftPointer_refines (h : a.Represents s) (p : UInt64) :
    ∃ a' s', a.shiftPointer p = .ok a' ∧ s.shift (.pointer p) = .ok s' ∧ a'.Represents s' := by
  have hlen : (LogOperand.pointer p).text.length < kMaxNumericSize := LogOperand.text_length_lt rfl
  rw [LogStream.shift_eq]
  refine inPlace_refines h (fun hroom => ?_) hlen
  obtain ⟨text, -, hwrites, hhex, -⟩ := InPlace.convertHexExact a.data a.cur p hroom
  rw [isHex_iff.mp hhex] at hwrites
  exact hwrites

end Refinement

end LogArray

end TAlib
