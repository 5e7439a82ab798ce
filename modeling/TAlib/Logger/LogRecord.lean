import TAlib.Logger.LogStream

/-!
The records of src/Logger/Logger.cpp. The constructor of a Logger writes the head
of the line to its stream, the destructor the newline, and the buffer goes to
g_output. An operand without room is dropped, and the newline is one of them.
-/

namespace TAlib

open Foundation

/-- The levels that the macros use. NUM_LOG_LEVELS counts them. -/
inductive LogLevel where
  | trace
  | debug
  | info
  | warn
  | error
  | fatal
  deriving DecidableEq, Repr

def black : Bytes := 27 :: bytesOf "[1;30m".toList

def red : Bytes := 27 :: bytesOf "[1;31m".toList

def green : Bytes := 27 :: bytesOf "[1;32m".toList

def yellow : Bytes := 27 :: bytesOf "[1;33m".toList

def blue : Bytes := 27 :: bytesOf "[1;34m".toList

def purple : Bytes := 27 :: bytesOf "[1;35m".toList

/-- The last of the colors, which stands behind those of the levels. -/
def normal : Bytes := 27 :: bytesOf "[0;39m".toList

def LogLevel.color : LogLevel → Bytes
  | .trace => purple
  | .debug => blue
  | .info => green
  | .warn => yellow
  | .error => red
  | .fatal => black

def LogLevel.name : LogLevel → Bytes
  | .trace => bytesOf "[TRACE]".toList
  | .debug => bytesOf "[DEBUG]".toList
  | .info => bytesOf "[INFO ]".toList
  | .warn => bytesOf "[WARN ]".toList
  | .error => bytesOf "[ERROR]".toList
  | .fatal => bytesOf "[FATAL]".toList

/-- What stands behind the last slash. -/
def filenamecut (x : Bytes) : Bytes :=
  ((x.takeWhile (· ≠ 0)).reverse.takeWhile (· ≠ 47)).reverse

/-- The arguments of Logger, the texts of the time as the asserts of _formatTime let
them pass, and what getpid and gettid return. -/
structure LogOrigin where
  filename : Bytes
  line : Int32
  level : LogLevel
  func : Bytes
  t_time : Bytes
  us : Fmt
  us_length : us.text.length = 8
  pid : Int32
  tid : Int64

def LogOperand.literal (str : String) : LogOperand := .cstr (some (bytesOf str.toList))

namespace LogOrigin

def formatTime (o : LogOrigin) : List LogOperand := [.cstr (some o.t_time), .cstr (some o.us.text)]

/-- What the constructor writes to the stream. -/
def header (o : LogOrigin) : List LogOperand :=
  o.formatTime ++
    [.cstr (some o.level.color), .cstr (some o.level.name), .cstr (some normal), .char 32,
      .literal " [pid:", .int o.pid, .literal "] [tid:", .long o.tid, .literal "] ", .char 91,
      .cstr (some (filenamecut o.filename)), .char 58, .int o.line, .literal "] [",
      .cstr (some o.func), .literal "] ", .cstr (some o.level.color), .literal "|",
      .cstr (some normal)]

end LogOrigin

/-- The bytes of the buffer in use after an operand. -/
def fill (n : Nat) (op : LogOperand) : Nat :=
  if op.Fits (kSmallBuffer - n) then n + op.text.length else n

/-- The lengths of the operands that find room, added up. -/
def filled (ops : List LogOperand) : Nat := ops.foldl fill 0

namespace LogStream

/-- What the destructor of Logger hands to g_output. -/
def record (s : LogStream) : Except Fault Bytes := do
  let s ← s.shift (.cstr (some [10]))
  return s.data

/-- The line of a Logger: the buffer keeps a byte free, every operand is appended
whole or not at all, and the record is the buffer with the newline behind it. -/
structure CompleteLine (o : LogOrigin) (ops : List LogOperand) : Prop where
  bounded : Always shift (fun s => s.length ≤ 4095) LogBuffer.new (o.header ++ ops)
  whole : ∀ before op after, o.header ++ ops = before ++ op :: after →
    ∃ s t, run shift LogBuffer.new before = .ok s ∧ s.shift op = .ok t ∧
      (t.data = s.data ++ op.text ∨ t.data = s.data)
  newline : ∃ s, run shift LogBuffer.new (o.header ++ ops) = .ok s ∧
    s.record = .ok (s.data ++ [10])

theorem shift_length {s t : LogStream} {op : LogOperand} (h : s.shift op = .ok t) :
    t.length = fill s.length op := by
  obtain ⟨t', ht', hdata⟩ := shift_ok s op
  rw [h] at ht'
  cases ht'
  have hfill : fill s.length op = if op.Fits s.avail then s.length + op.text.length else s.length :=
    rfl
  rw [LogBuffer.length, hdata, List.length_append, hfill]
  by_cases hfits : op.Fits s.avail
  · rw [if_pos hfits, if_pos hfits]
    rfl
  · rw [if_neg hfits, if_neg hfits]
    rfl

/-- An operand that finds room leaves a byte free. -/
theorem fill_lt {n : Nat} {op : LogOperand} (hn : n < kSmallBuffer) : fill n op < kSmallBuffer := by
  rw [fill]
  split
  · rename_i hfits
    have hroom : op.text.length < kSmallBuffer - n := by
      rw [LogOperand.Fits] at hfits
      split at hfits
      · rename_i hplace
        exact Nat.lt_of_lt_of_le (LogOperand.text_length_lt hplace) hfits
      · exact hfits
    omega
  · exact hn

theorem run_ok (s : LogStream) (ops : List LogOperand) :
    ∃ t, run shift s ops = .ok t ∧ t.length = ops.foldl fill s.length := by
  induction ops generalizing s with
  | nil => exact ⟨s, rfl, rfl⟩
  | cons op ops ih =>
      obtain ⟨m, hm, _⟩ := shift_ok s op
      obtain ⟨t, ht, hlen⟩ := ih m
      refine ⟨t, run_cons_ok.mpr ⟨m, hm, ht⟩, ?_⟩
      rw [hlen, shift_length hm, List.foldl_cons]

theorem always_bounded (ops : List LogOperand) :
    Always shift (fun s => s.length ≤ 4095) LogBuffer.new ops := by
  have hstep : ∀ (s : LogStream) (op : LogOperand) (t : LogStream), s.length < kSmallBuffer → True →
      s.shift op = .ok t → t.length < kSmallBuffer := by
    intro s op t hs _ h
    rw [shift_length h]
    exact fill_lt hs
  have hnew : (LogBuffer.new : LogStream).length < kSmallBuffer := by decide
  exact always_of_respects (fun s hs => Nat.le_of_lt_succ hs) hstep hnew (respects_true _ ops)

/-- An operand goes through whole wherever it stands. -/
theorem appended_whole (before : List LogOperand) (op : LogOperand) :
    ∃ s t, run shift LogBuffer.new before = .ok s ∧ s.shift op = .ok t ∧
      (t.data = s.data ++ op.text ∨ t.data = s.data) := by
  obtain ⟨s, hs, _⟩ := run_ok LogBuffer.new before
  obtain ⟨t, ht, hdata⟩ := shift_ok s op
  refine ⟨s, t, hs, ht, ?_⟩
  rw [hdata]
  split
  · exact .inl rfl
  · exact .inr (List.append_nil _)

/-- The newline needs two free bytes. -/
theorem record_eq (s : LogStream) :
    s.record = .ok (s.data ++ if s.length < 4095 then [10] else []) := by
  have hiff : s.avail > 1 ↔ s.length < 4095 := by
    have hsize : s.avail = 4096 - s.length := rfl
    omega
  rw [← if_congr hiff rfl rfl]
  exact congrArg Except.ok (s.append_whole [10])

theorem record_newline_iff {s : LogStream} (hs : s.length ≤ 4095) :
    s.record = .ok (s.data ++ [10]) ↔ s.length ≠ 4095 := by
  rw [record_eq]
  constructor
  · intro h hfull
    rw [if_neg (by omega), List.append_nil] at h
    have hlen := congrArg List.length (Except.ok.inj h)
    rw [List.length_append] at hlen
    exact absurd hlen (by simp)
  · intro hne
    rw [if_pos (by omega)]

/-- The stream at the end of the line. -/
theorem run_filled (ops : List LogOperand) :
    ∃ s, run shift LogBuffer.new ops = .ok s ∧ s.length = filled ops ∧ s.length ≤ 4095 := by
  obtain ⟨s, hs, hlen⟩ := run_ok LogBuffer.new ops
  exact ⟨s, hs, hlen, (always_bounded ops).last hs⟩

theorem CompleteLine.filled_ne {o : LogOrigin} {ops : List LogOperand} (h : CompleteLine o ops) :
    filled (o.header ++ ops) ≠ 4095 := by
  obtain ⟨s, hs, hlen, hle⟩ := run_filled (o.header ++ ops)
  obtain ⟨t, ht, hrecord⟩ := h.newline
  rw [hs] at ht
  cases ht
  rw [← hlen]
  exact (record_newline_iff hle).mp hrecord

/-- A record is a complete line exactly when the operands that find room do not add up
to all but the last byte of the buffer. -/
theorem completeLine_iff (o : LogOrigin) (ops : List LogOperand) :
    CompleteLine o ops ↔ filled (o.header ++ ops) ≠ 4095 := by
  refine ⟨fun h => h.filled_ne, fun hne => ?_⟩
  obtain ⟨s, hs, hlen, hle⟩ := run_filled (o.header ++ ops)
  refine ⟨always_bounded _, fun before op _ _ => appended_whole before op, s, hs, ?_⟩
  exact (record_newline_iff hle).mpr (hlen ▸ hne)

/-- A text of 3990 bytes fills the buffer up to its last byte, and the line has no end. -/
theorem not_completeLine_at_4095 :
    let o : LogOrigin :=
      { filename := bytesOf "src/main.cpp".toList, line := 7, level := .info,
        func := bytesOf "main".toList, t_time := bytesOf "2024-01-01 08:00:00".toList,
        us := ⟨bytesOf ".000000 ".toList, by decide⟩, us_length := by decide,
        pid := 100, tid := 100 }
    let ops : List LogOperand := [.string (List.replicate 3990 120)]
    (∃ s, run shift LogBuffer.new (o.header ++ ops) = .ok s ∧ s.length = 4095 ∧
      s.record = .ok s.data) ∧ ¬ CompleteLine o ops := by
  intro o ops
  have hfilled : filled (o.header ++ ops) = 4095 := by decide +kernel
  obtain ⟨s, hs, hlen, _⟩ := run_filled (o.header ++ ops)
  have hfull : s.length = 4095 := hlen.trans hfilled
  refine ⟨⟨s, hs, hfull, ?_⟩, fun h => h.filled_ne hfilled⟩
  rw [record_eq, if_neg (by omega), List.append_nil]

end LogStream
end TAlib
