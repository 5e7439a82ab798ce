import TAlib.Http.RefusedLine

/-!
The request lines that processRequestLine takes, among all byte strings. To see
which bytes it looks at, it is written once more over a memory in which only the
bytes of the line may be read: a read of any other byte would be a fault.
-/

namespace TAlib

open Foundation

/-- A memory of which some bytes may be read. -/
abbrev Window := Nat → Option UInt8

namespace Window

/-- Only the bytes of `text` may be read, the first of them at `start`. -/
def only (start : Nat) (text : Bytes) : Window :=
  fun i => if start ≤ i then text[i - start]? else none

def load (mem : Window) (i : Nat) : Except Fault UInt8 :=
  match mem i with
  | some b => .ok b
  | none => .error .outOfBounds

/-- std::find over the `count` bytes from `start` on. -/
def find (mem : Window) (c : UInt8) : Nat → Nat → Except Fault Nat
  | start, 0 => .ok start
  | start, count + 1 => do
      let b ← mem.load start
      if b = c then return start else find mem c (start + 1) count

/-- The bytes that a std::string is made of. -/
def range (mem : Window) : Nat → Nat → Except Fault Bytes
  | _, 0 => .ok []
  | start, count + 1 => do
      let b ← mem.load start
      let rest ← range mem (start + 1) count
      return b :: rest

/-- std::equal with a literal of the same length. -/
def equal (mem : Window) : Nat → Bytes → Except Fault Bool
  | _, [] => .ok true
  | start, c :: cs => do
      let b ← mem.load start
      if b = c then equal mem (start + 1) cs else return false

end Window

namespace HttpContext

def processVersionIn (r : HttpRequest) (mem : Window) (start stop : Nat) :
    Except Fault (Bool × HttpRequest) :=
  if stop - start = 8 then do
    let succeed ← mem.equal start (bytesOf ['H', 'T', 'T', 'P', '/', '1', '.'])
    if succeed then do
      let last ← mem.load (stop - 1)
      if last = 49 then return (true, r.setVersion .kHttp11)
      else if last = 48 then return (true, r.setVersion .kHttp10)
      else return (false, r)
    else return (false, r)
  else .ok (false, r)

def processTargetIn (r : HttpRequest) (mem : Window) (start stop : Nat) :
    Except Fault (Bool × HttpRequest) := do
  let space ← mem.find 32 start (stop - start)
  if space ≠ stop then do
    let question ← mem.find 63 start (space - start)
    if question ≠ space then do
      let path ← mem.range start (question - start)
      let query ← mem.range question (space - question)
      processVersionIn { r with path := path, query := query } mem (space + 1) stop
    else do
      let path ← mem.range start (space - start)
      processVersionIn { r with path := path } mem (space + 1) stop
  else return (false, r)

/-- processRequestLine, every read of which is checked. -/
def processRequestLineIn (r : HttpRequest) (mem : Window) (start stop : Nat) :
    Except Fault (Bool × HttpRequest) := do
  let space ← mem.find 32 start (stop - start)
  if space ≠ stop then do
    let m ← mem.range start (space - start)
    let (known, r) ← r.setMethod m 0 m.length
    if known then processTargetIn r mem (space + 1) stop else return (false, r)
  else return (false, r)

end HttpContext

section Reads

variable {text : Bytes} (p : Nat)

theorem slice_cons {a b : Nat} (hab : a < b) (hb : b ≤ text.length) :
    slice text a b = text[a] :: slice text (a + 1) b := by
  have hcount : b - a = (b - (a + 1)) + 1 := by omega
  rw [slice, hcount, List.drop_eq_getElem_cons (by omega), List.take_succ_cons]
  rfl

theorem Window.load_only {i : Nat} (hi : i < text.length) :
    (Window.only p text).load (p + i) = .ok text[i] := by
  have hget : Window.only p text (p + i) = some text[i] := by
    rw [Window.only, if_pos (Nat.le_add_right p i), Nat.add_sub_cancel_left,
      List.getElem?_eq_getElem hi]
  simp only [Window.load, hget]

theorem Window.find_only (c : UInt8) {a b : Nat} (hab : a ≤ b) (hb : b ≤ text.length) :
    (Window.only p text).find c (p + a) (b - a) = .ok (p + TAlib.find text a b c) := by
  induction hn : b - a generalizing a with
  | zero =>
      obtain rfl : a = b := by omega
      simp [Window.find, TAlib.find, slice]
  | succ n ih =>
      have hlt : a < b := by omega
      have hnext := ih (a := a + 1) (by omega) (by omega)
      rw [Window.find, Window.load_only p (by omega), ok_bind]
      simp only [TAlib.find, slice_cons hlt hb, List.idxOf_cons] at hnext ⊢
      by_cases hc : text[a] = c
      · simp [hc]
        rfl
      · rw [if_neg hc, Nat.add_assoc, hnext, beq_false_of_ne hc, cond_false]
        congr 1
        omega

theorem Window.range_only {a b : Nat} (hab : a ≤ b) (hb : b ≤ text.length) :
    (Window.only p text).range (p + a) (b - a) = .ok (slice text a b) := by
  induction hn : b - a generalizing a with
  | zero => simp [Window.range, slice, hn]
  | succ n ih =>
      have hlt : a < b := by omega
      have hnext := ih (a := a + 1) (by omega) (by omega)
      rw [Window.range, Window.load_only p (by omega), ok_bind, Nat.add_assoc, hnext, ok_bind,
        slice_cons hlt hb]
      rfl

theorem Window.equal_only {literal : Bytes} {a : Nat} (hb : a + literal.length ≤ text.length) :
    (Window.only p text).equal (p + a) literal =
      .ok (slice text a (a + literal.length) = literal) := by
  induction literal generalizing a with
  | nil => simp [Window.equal, slice]
  | cons c cs ih =>
      rw [List.length_cons] at hb
      have hnext := ih (a := a + 1) (by omega)
      have hend : a + 1 + cs.length = a + (cs.length + 1) := by omega
      rw [Window.equal, Window.load_only p (by omega), ok_bind, List.length_cons,
        slice_cons (by omega) hb]
      by_cases hc : text[a] = c
      · rw [if_pos hc, Nat.add_assoc, hnext, hend]
        simp [hc]
      · rw [if_neg hc]
        simp [hc]
        rfl

end Reads

namespace HttpContext

section Agreement

variable {line : Bytes} (p : Nat)

theorem processVersionIn_only (r : HttpRequest) {a : Nat} (ha : a ≤ line.length) :
    processVersionIn r (.only p line) (p + a) (p + line.length) =
      .ok (processVersion r line a line.length) := by
  unfold processVersionIn processVersion
  by_cases h8 : line.length - a = 8
  · have hcount : p + line.length - (p + a) = 8 := by omega
    have hend : a + 7 = line.length - 1 := by omega
    have hlast : p + line.length - 1 = p + (line.length - 1) := by omega
    have hequal := Window.equal_only p
      (show a + (bytesOf ['H', 'T', 'T', 'P', '/', '1', '.']).length ≤ line.length by
        have : (bytesOf ['H', 'T', 'T', 'P', '/', '1', '.']).length = 7 := rfl
        omega)
    rw [show (bytesOf ['H', 'T', 'T', 'P', '/', '1', '.']).length = 7 from rfl, hend] at hequal
    rw [if_pos hcount, hequal, hlast, ok_bind, Window.load_only p (by omega), h8,
      List.getD_eq_getElem?_getD, List.getElem?_eq_getElem (by omega), Option.getD_some]
    simp only [true_and, ok_bind, decide_eq_true_eq]
    split
    · split
      · rfl
      · split <;> rfl
    · rfl
  · rw [if_neg (by omega), if_neg fun h => h8 h.1]

theorem processTargetIn_only (r : HttpRequest) {a : Nat} (ha : a ≤ line.length) :
    processTargetIn r (.only p line) (p + a) (p + line.length) =
      .ok (processTarget r line a line.length) := by
  have hspace := find_le ha (Nat.le_refl line.length) 32
  have hle := le_find line a line.length 32
  have hcount : p + line.length - (p + a) = line.length - a := by omega
  unfold processTargetIn processTarget
  rw [hcount, Window.find_only p 32 ha (Nat.le_refl _), ok_bind]
  generalize TAlib.find line a line.length 32 = space at hspace hle
  by_cases hend : space = line.length
  · rw [if_neg (by omega), if_neg (by omega)]
    rfl
  · have hquestion := find_le hle hspace 63
    have hqle := le_find line a space 63
    have hcount' : p + space - (p + a) = space - a := by omega
    simp only [ne_eq, Nat.add_left_cancel_iff, hend, not_false_eq_true, if_true]
    rw [hcount', Window.find_only p 63 hle hspace, ok_bind]
    generalize TAlib.find line a space 63 = question at hquestion hqle
    simp only [Nat.add_left_cancel_iff]
    have hrange {i j : Nat} (hij : i ≤ j) (hj : j ≤ line.length) :=
      Window.range_only p hij hj
    split
    · have hpath : p + question - (p + a) = question - a := by omega
      have hquery : p + space - (p + question) = space - question := by omega
      rw [hpath, hquery, hrange hqle (by omega), ok_bind, hrange hquestion hspace, ok_bind,
        Nat.add_assoc]
      exact processVersionIn_only p _ (by omega)
    · rw [hrange hle hspace, ok_bind, Nat.add_assoc]
      exact processVersionIn_only p _ (by omega)

/-- The checked reads find the bytes of the line, wherever in memory it is. -/
theorem processRequestLineIn_only (r : HttpRequest) :
    processRequestLineIn r (.only p line) p (p + line.length) =
      processRequestLine r line 0 line.length := by
  have hspace := find_le (Nat.zero_le _) (Nat.le_refl line.length) 32
  have hfind := Window.find_only p 32 (Nat.zero_le _) (Nat.le_refl line.length)
  have hcount : p + line.length - p = line.length - 0 := by omega
  unfold processRequestLineIn processRequestLine
  rw [Nat.add_zero] at hfind
  rw [hcount, hfind, ok_bind]
  generalize TAlib.find line 0 line.length 32 = space at hspace
  by_cases hend : space = line.length
  · rw [if_neg (by omega), if_neg (by omega)]
    rfl
  · have hword : p + space - p = space - 0 := by omega
    have hrange := Window.range_only p (Nat.zero_le space) hspace
    rw [if_pos (by omega), if_pos hend]
    rw [Nat.add_zero] at hrange ⊢
    rw [hword, hrange, ok_bind]
    have hwhole : slice (slice line 0 space) 0 (slice line 0 space).length =
        slice line 0 space := by
      simp [slice]
    simp only [HttpRequest.setMethod, hwhole, Nat.add_assoc]
    refine bind_congr_ok fun q _ => ?_
    split
    · exact processTargetIn_only p q.2 (by omega)
    · rfl

end Agreement

/-- The version that the last character of a request line stands for. -/
def versionOf (d : UInt8) : Version := if d = 49 then .kHttp11 else .kHttp10

/-- A method, a blank, a target without blanks, and " HTTP/1." with a digit. -/
def IsRequestLine (line : Bytes) (m : Method) (t : Bytes) (d : UInt8) : Prop :=
  m ≠ .kInvalid ∧ 32 ∉ t ∧ (d = 48 ∨ d = 49) ∧
    line = m.text ++ [32] ++ t ++ bytesOf [' ', 'H', 'T', 'T', 'P', '/', '1', '.'] ++ [d]

theorem versionOf_text {d : UInt8} (hd : d = 48 ∨ d = 49) :
    32 :: (versionOf d).text = bytesOf [' ', 'H', 'T', 'T', 'P', '/', '1', '.'] ++ [d] := by
  rcases hd with rfl | rfl
  · rfl
  · rfl

/-- A request line has the parts that its target falls into. -/
theorem IsRequestLine.parts {line : Bytes} {m : Method} {t : Bytes} {d : UInt8}
    (h : IsRequestLine line m t d) :
    ∃ l : LineParts, line = l.text ∧ l.method = m ∧ l.version = versionOf d ∧
      l.path ++ l.query = t := by
  obtain ⟨hm, ht, hd, rfl⟩ := h
  obtain ⟨path, query, rfl, hquestion, hstart⟩ := target_parts t
  rw [List.mem_append, not_or] at ht
  have hversion : versionOf d ≠ .kUnknown := by
    unfold versionOf
    split <;> exact nofun
  refine ⟨⟨m, path, query, versionOf d, hm, hversion, ht.1, hquestion, hstart, ht.2⟩, ?_, rfl, rfl,
    rfl⟩
  simp only [LineParts.text, versionOf_text hd, List.append_assoc,
    List.cons_append, List.nil_append]

theorem lineParts_isRequestLine (l : LineParts) :
    ∃ d, IsRequestLine l.text l.method (l.path ++ l.query) d := by
  have hd : ∃ d, (d = 48 ∨ d = 49) ∧ l.version = versionOf d := by
    cases hv : l.version with
    | kUnknown => exact absurd hv l.version_known
    | kHttp10 => exact ⟨48, .inl rfl, rfl⟩
    | kHttp11 => exact ⟨49, .inr rfl, rfl⟩
  obtain ⟨d, hdigit, hversion⟩ := hd
  refine ⟨d, l.method_known, ?_, hdigit, ?_⟩
  · rw [List.mem_append, not_or]
    exact ⟨l.path_no_blank, l.query_no_blank⟩
  · simp only [LineParts.text, hversion, versionOf_text hdigit, List.append_assoc, List.cons_append,
      List.nil_append]

/-- A line anywhere in memory is taken exactly when it is a request line, its parts
are stored, and no byte outside of it is read. -/
theorem processRequestLine_grammar (before line after : Bytes) :
    ∃ ok r, processRequestLine .new (before ++ line ++ after) before.length
        (before.length + line.length) = .ok (ok, r) ∧
      (ok = true ↔ ∃ m t d, IsRequestLine line m t d) ∧
      (∀ m t d, IsRequestLine line m t d → r.method = m ∧ r.version = versionOf d ∧
        r.path ++ r.query = t ∧ 63 ∉ r.path ∧ (r.query = [] ∨ r.query.head? = some 63)) ∧
      processRequestLineIn .new (.only before.length line) before.length
        (before.length + line.length) = .ok (ok, r) := by
  have hwhere := processRequestLine_line .new (Nat.le_add_right before.length line.length)
    (show before.length + line.length ≤ (before ++ line ++ after).length by
      simp only [List.length_append]
      omega)
  rw [slice_middle, Nat.add_sub_cancel_left] at hwhere
  obtain ⟨⟨ok, r⟩, hp⟩ :=
    processRequestLine_returns (show HttpRequest.new.method = .kInvalid from rfl) line 0 line.length
  have htext {m : Method} {t : Bytes} {d : UInt8} (h : IsRequestLine line m t d) :
      ∃ l : LineParts, l.method = m ∧ l.version = versionOf d ∧ l.path ++ l.query = t ∧
        ok = true ∧ r = l.request 0 := by
    obtain ⟨l, rfl, hm, hv, ht⟩ := h.parts
    rw [processRequestLine_parts] at hp
    cases hp
    exact ⟨l, hm, hv, ht, rfl, rfl⟩
  refine ⟨ok, r, hwhere.trans hp, ⟨?_, ?_⟩, ?_, (processRequestLineIn_only _ _).trans hp⟩
  · rintro rfl
    obtain ⟨l, rfl⟩ := processRequestLine_sound_parts hp
    obtain ⟨d, hl⟩ := lineParts_isRequestLine l
    exact ⟨_, _, d, hl⟩
  · rintro ⟨m, t, d, h⟩
    obtain ⟨-, -, -, -, hok, -⟩ := htext h
    exact hok
  · intro m t d h
    obtain ⟨l, hm, hv, ht, -, rfl⟩ := htext h
    exact ⟨hm, hv, ht, l.path_no_question, l.query_start⟩

end HttpContext
end TAlib
