import TAlib.Http.HttpContext

/-!
The parser on byte strings. parseRequest reads its buffer only through the
content, so it computes the same as `parseBytes` on that content; positions in
the vector, compaction and stale bytes have no influence. The fuel of the loop
is shown to suffice in the two states in which the loop can be entered.
-/

namespace TAlib

open Foundation

theorem find_le {mem : Bytes} {a b : Nat} (hab : a ≤ b) (hb : b ≤ mem.length) (c : UInt8) :
    find mem a b c ≤ b := by
  have h := List.idxOf_le_length (a := c) (l := slice mem a b)
  rw [slice_length mem a b hb] at h
  unfold find
  omega

theorem le_find (mem : Bytes) (a b : Nat) (c : UInt8) : a ≤ find mem a b c :=
  Nat.le_add_right _ _

section Shift

variable {mem : Bytes} {p q : Nat}

/-- Searching a range of the line is searching the shifted range of the memory. -/
theorem find_shift {a b : Nat} (hb : p + b ≤ q) (c : UInt8) :
    find mem (p + a) (p + b) c = p + find (slice mem p q) a b c := by
  unfold find
  rw [slice_slice mem p q a b hb, Nat.add_assoc]

private theorem getD_slice {i : Nat} (hi : p + i < q) :
    mem.getD (p + i) 0 = (slice mem p q).getD i 0 := by
  simp only [slice, List.getD_eq_getElem?_getD]
  rw [List.getElem?_take_of_lt (by omega), List.getElem?_drop]

namespace HttpContext

private theorem processVersion_shift (r : HttpRequest) {a b : Nat} (hb : p + b ≤ q) :
    processVersion r mem (p + a) (p + b) = processVersion r (slice mem p q) a b := by
  unfold processVersion
  by_cases h8 : b - a = 8
  · have hlast : p + b - 1 = p + (b - 1) := by omega
    have hlen : p + b - (p + a) = 8 := by omega
    rw [hlast, hlen, h8, slice_slice mem p q a (b - 1) (by omega),
      getD_slice (q := q) (by omega)]
  · have hlen : ¬ p + b - (p + a) = 8 := by omega
    simp [h8, hlen]

private theorem processTarget_shift (r : HttpRequest) {a b : Nat} (hab : a ≤ b) (hb : p + b ≤ q)
    (hq : q ≤ mem.length) :
    processTarget r mem (p + a) (p + b) = processTarget r (slice mem p q) a b := by
  have hlen : b ≤ (slice mem p q).length := by
    rw [slice_length mem p q hq]
    omega
  have hspace := find_le hab hlen 32
  have hle := le_find (slice mem p q) a b 32
  unfold processTarget
  rw [find_shift hb]
  generalize find (slice mem p q) a b 32 = space at hspace hle
  have hquestion := find_le hle (hspace.trans hlen) 63
  simp only [ne_eq, Nat.add_left_cancel_iff]
  rw [find_shift (q := q) (by omega)]
  generalize find (slice mem p q) a space 63 = question at hquestion
  simp only [HttpRequest.setPath, HttpRequest.setQuery, Nat.add_left_cancel_iff, Nat.add_assoc]
  rw [processVersion_shift _ hb, slice_slice mem p q a question (by omega),
    slice_slice mem p q question space (by omega), slice_slice mem p q a space (by omega)]

/-- Only the bytes of the line matter to processRequestLine. -/
theorem processRequestLine_line (r : HttpRequest) (hpq : p ≤ q) (hq : q ≤ mem.length) :
    processRequestLine r mem p q = processRequestLine r (slice mem p q) 0 (q - p) := by
  have hlen : q - p ≤ (slice mem p q).length := Nat.le_of_eq (slice_length mem p q hq).symm
  have hend : p + (q - p) = q := by omega
  have hfind : find mem (p + 0) (p + (q - p)) 32 = p + find (slice mem p q) 0 (q - p) 32 :=
    find_shift (by omega) 32
  have hspace := find_le (Nat.zero_le _) hlen 32
  rw [hend, Nat.add_zero] at hfind
  unfold processRequestLine
  rw [hfind]
  generalize find (slice mem p q) 0 (q - p) 32 = space at hspace
  have hcond : p + space ≠ q ↔ space ≠ q - p := by omega
  simp only [hcond]
  have hword : slice mem p (p + space) = slice (slice mem p q) 0 space := by
    rw [slice_slice mem p q 0 space (by omega), Nat.add_zero]
  split
  · have htarget (r : HttpRequest) : processTarget r mem (p + space + 1) q =
        processTarget r (slice mem p q) (space + 1) (q - p) := by
      have h : processTarget r mem (p + (space + 1)) (p + (q - p)) =
          processTarget r (slice mem p q) (space + 1) (q - p) :=
        processTarget_shift r (by omega) (by omega) hq
      rwa [hend, ← Nat.add_assoc] at h
    simp only [HttpRequest.setMethod, hword, htarget]
  · rfl

theorem addHeader_line (r : HttpRequest) {i colon : Nat} (hc : colon ≤ i) :
    r.addHeader mem p (p + colon) (p + i) =
      r.addHeader (slice mem p (p + i)) 0 colon i := by
  have hname := slice_slice mem p (p + i) 0 colon (by omega)
  have hvalue := slice_slice mem p (p + i) (colon + 1) i (Nat.le_refl _)
  rw [Nat.add_zero] at hname
  unfold HttpRequest.addHeader
  rw [hname, hvalue, Nat.add_assoc]

end HttpContext
end Shift

namespace HttpContext

/-- One iteration of the loop on the content alone. -/
def iterationBytes (receiveTime : TimeStamp) (c : HttpContext) (s : Bytes) :
    Except Fault (Iteration Bytes) :=
  match c.state with
  | .kExpectRequestLine =>
      match search kCRLF s with
      | some i => do
          let (ok, r) ← processRequestLine c.request (s.take i) 0 i
          if ok then
            return ⟨true, true, ⟨.kExpectHeaders, r.setReceiveTime receiveTime⟩, s.drop (i + 2)⟩
          else return ⟨false, false, ⟨c.state, r⟩, s⟩
      | none => .ok ⟨true, false, c, s⟩
  | .kExpectHeaders =>
      match search kCRLF s with
      | some i =>
          let colon := find (s.take i) 0 i 58
          if colon ≠ i then
            .ok ⟨true, true, ⟨c.state, c.request.addHeader (s.take i) 0 colon i⟩, s.drop (i + 2)⟩
          else .ok ⟨true, false, ⟨.kGotAll, c.request⟩, s.drop (i + 2)⟩
      | none => .ok ⟨true, false, c, s⟩
  | .kExpectBody | .kGotAll => .ok ⟨true, true, c, s⟩

def loopBytes (receiveTime : TimeStamp) : Nat → HttpContext → Bytes →
    Except Fault (Bool × HttpContext × Bytes)
  | 0, _, _ => .error .spins
  | fuel + 1, c, s => do
      let i ← iterationBytes receiveTime c s
      if i.hasMore then loopBytes receiveTime fuel i.context i.rest
      else return (i.ok, i.context, i.rest)

def parseBytes (receiveTime : TimeStamp) (c : HttpContext) (s : Bytes) :
    Except Fault (Bool × HttpContext × Bytes) :=
  loopBytes receiveTime (s.length + 1) c s

/-- A buffer in place of the content it holds. -/
structure Holds (b : Buffer) (s : Bytes) (limit : Nat) : Prop where
  valid : b.Valid
  readable_eq : b.readable = s
  writer_le : b.writerIndex ≤ limit

theorem Holds.findCRLF {b : Buffer} {s : Bytes} {limit : Nat} (h : Holds b s limit) :
    b.findCRLF = (search kCRLF s).map (b.readerIndex + ·) := by
  rw [← h.readable_eq]
  rfl

theorem Holds.line {b : Buffer} {s : Bytes} {limit i : Nat} (h : Holds b s limit)
    (hi : i ≤ s.length) : slice b.buffer b.readerIndex (b.readerIndex + i) = s.take i ∧
      b.readerIndex + i ≤ b.writerIndex := by
  have hlen := h.valid.readable_length
  rw [h.readable_eq, h.valid.readableBytes_eq] at hlen
  have hr := h.valid.reader_le
  refine ⟨?_, by omega⟩
  rw [← h.readable_eq]
  simp only [Buffer.readable, slice, List.take_take]
  congr 1
  omega

/-- Retrieving a line with its CRLF leaves the bytes after it. -/
theorem Holds.retrieveLine {b : Buffer} {s : Bytes} {limit i : Nat} (h : Holds b s limit)
    (hi : i + 2 ≤ s.length) :
    ∃ b', b.retrieveUntil (b.readerIndex + i + 2) = .ok b' ∧ Holds b' (s.drop (i + 2)) limit := by
  have hend := (h.line hi).2
  obtain ⟨b', hb', hv', hread, hw'⟩ :=
    Buffer.retrieveUntil_spec h.valid (Nat.le_add_right _ (i + 2)) hend
  refine ⟨b', hb', hv', ?_, hw'.trans h.writer_le⟩
  rw [hread, h.readable_eq, Nat.add_sub_cancel_left]

private theorem crlf_line {s : Bytes} {i : Nat} (h : search kCRLF s = some i) :
    i + 2 ≤ s.length :=
  search_add_length_le (by decide) h

/-- One iteration on a buffer is one iteration on its content. -/
theorem parseIteration_holds (t : TimeStamp) (c : HttpContext) {b : Buffer} {s : Bytes}
    {limit : Nat} (h : Holds b s limit) :
    Corresponds (fun i j => i.ok = j.ok ∧ i.hasMore = j.hasMore ∧ i.context = j.context ∧
      Holds i.rest j.rest limit) (parseIteration t c b) (iterationBytes t c s) := by
  unfold parseIteration iterationBytes
  rw [h.findCRLF]
  cases hstate : c.state with
  | kExpectRequestLine =>
      cases hfind : search kCRLF s with
      | none => exact ⟨rfl, rfl, rfl, h⟩
      | some i =>
          have hi := crlf_line hfind
          obtain ⟨hline, hend⟩ := h.line (Nat.le_of_add_right_le hi)
          obtain ⟨b', hb', hholds⟩ := h.retrieveLine hi
          have hproc := processRequestLine_line c.request (Nat.le_add_right b.readerIndex i)
            (hend.trans h.valid.writer_le)
          rw [hline, Nat.add_sub_cancel_left] at hproc
          simp only [Option.map_some, hproc]
          refine Corresponds.bind (Corresponds.refl _) ?_
          rintro ⟨ok, r⟩ _ rfl
          cases ok with
          | false => exact ⟨rfl, rfl, rfl, h⟩
          | true =>
              simp only [if_true, hb']
              exact ⟨rfl, rfl, rfl, hholds⟩
  | kExpectHeaders =>
      cases hfind : search kCRLF s with
      | none => exact ⟨rfl, rfl, rfl, h⟩
      | some i =>
          have hi := crlf_line hfind
          obtain ⟨hline, hend⟩ := h.line (Nat.le_of_add_right_le hi)
          obtain ⟨b', hb', hholds⟩ := h.retrieveLine hi
          have hcolon : find b.buffer (b.readerIndex + 0) (b.readerIndex + i) 58 =
              b.readerIndex + find (s.take i) 0 i 58 := by
            rw [← hline]
            exact find_shift (Nat.le_refl _) 58
          rw [Nat.add_zero] at hcolon
          have hle : find (s.take i) 0 i 58 ≤ i :=
            find_le (Nat.zero_le _) (Nat.le_of_eq (List.length_take_of_le (by omega)).symm) 58
          simp only [Option.map_some, hcolon, ne_eq, Nat.add_left_cancel_iff,
            addHeader_line c.request hle, hline]
          split
          · simp only [hb']
            exact ⟨rfl, rfl, rfl, hholds⟩
          · simp only [hb']
            exact ⟨rfl, rfl, rfl, hholds⟩
  | kExpectBody | kGotAll => exact ⟨rfl, rfl, rfl, h⟩

/-- The outcome of a parse on a buffer and on a byte string. -/
def SameParse (limit : Nat) (x : Bool × HttpContext × Buffer) (y : Bool × HttpContext × Bytes) :
    Prop :=
  x.1 = y.1 ∧ x.2.1 = y.2.1 ∧ Holds x.2.2 y.2.2 limit

theorem parseLoop_holds (t : TimeStamp) (fuel : Nat) (c : HttpContext) {b : Buffer} {s : Bytes}
    {limit : Nat} (h : Holds b s limit) :
    Corresponds (SameParse limit) (parseLoop t fuel c b) (loopBytes t fuel c s) := by
  induction fuel generalizing c b s with
  | zero => rfl
  | succ fuel ih =>
      refine Corresponds.bind (parseIteration_holds t c h) ?_
      rintro i j ⟨hok, hmore, hctx, hrest⟩
      rw [hmore, hctx]
      cases j.hasMore with
      | true => exact ih j.context hrest
      | false => exact ⟨hok, rfl, hrest⟩

/-- parseRequest computes on the content of its buffer. -/
theorem parseRequest_holds (t : TimeStamp) (c : HttpContext) {b : Buffer} {s : Bytes}
    {limit : Nat} (h : Holds b s limit) :
    Corresponds (SameParse limit) (parseRequest t c b) (parseBytes t c s) := by
  have hlen := h.valid.readable_length
  rw [h.readable_eq] at hlen
  unfold parseRequest parseBytes
  rw [← hlen]
  exact parseLoop_holds t _ c h

/-- The states in which the loop makes progress or stops. -/
def Live (c : HttpContext) : Prop :=
  c.state = .kExpectRequestLine ∨ c.state = .kExpectHeaders

/-- An iteration that goes on has consumed a line and stays in a live state. -/
theorem iterationBytes_more {t : TimeStamp} {c : HttpContext} {s : Bytes} {i : Iteration Bytes}
    (hc : c.Live) (h : iterationBytes t c s = .ok i) (hmore : i.hasMore = true) :
    i.context.Live ∧ i.rest.length + 2 ≤ s.length := by
  unfold iterationBytes at h
  rcases hc with hc | hc
  · rw [hc] at h
    cases hfind : search kCRLF s with
    | none =>
        simp only [hfind] at h
        cases h
        cases hmore
    | some k =>
        have hk := crlf_line hfind
        simp only [hfind, bind_eq_ok] at h
        obtain ⟨⟨ok, r⟩, -, h⟩ := h
        cases ok with
        | false =>
            cases h
            cases hmore
        | true =>
            cases h
            refine ⟨.inr rfl, ?_⟩
            simp only [List.length_drop]
            omega
  · rw [hc] at h
    cases hfind : search kCRLF s with
    | none =>
        simp only [hfind] at h
        cases h
        cases hmore
    | some k =>
        have hk := crlf_line hfind
        simp only [hfind] at h
        split at h
        · cases h
          refine ⟨.inr rfl, ?_⟩
          simp only [List.length_drop]
          omega
        · cases h
          cases hmore

/-- Any fuel above the number of bytes gives the same outcome. -/
theorem loopBytes_fuel (t : TimeStamp) {c : HttpContext} (hc : c.Live) {s : Bytes} {n m : Nat}
    (hn : s.length < n) (hm : s.length < m) : loopBytes t n c s = loopBytes t m c s := by
  induction n generalizing c s m with
  | zero => omega
  | succ n ih =>
      cases m with
      | zero => omega
      | succ m =>
          simp only [loopBytes]
          cases hi : iterationBytes t c s with
          | error e => rfl
          | ok i =>
              simp only [ok_bind]
              split
              · rename_i hmore
                obtain ⟨hlive, hlen⟩ := iterationBytes_more hc hi hmore
                exact ih hlive (by omega) (by omega)
              · rfl

/-- The loop without its fuel. -/
theorem parseBytes_step (t : TimeStamp) {c : HttpContext} (hc : c.Live) (s : Bytes) :
    parseBytes t c s = iterationBytes t c s >>= fun i =>
      if i.hasMore then parseBytes t i.context i.rest
      else .ok (i.ok, i.context, i.rest) := by
  unfold parseBytes
  simp only [loopBytes]
  cases hi : iterationBytes t c s with
  | error e => rfl
  | ok i =>
      simp only [ok_bind]
      split
      · rename_i hmore
        obtain ⟨hlive, hlen⟩ := iterationBytes_more hc hi hmore
        change loopBytes t s.length i.context i.rest =
          loopBytes t (i.rest.length + 1) i.context i.rest
        exact loopBytes_fuel t hlive (by omega) (by omega)
      · rfl

end HttpContext
end TAlib
