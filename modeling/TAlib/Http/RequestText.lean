import TAlib.Http.ParseBytes

/-!
The text of a request without a body, and that parsing it gives the request
back. A request line and a header line carry the conditions that make them one
line of their kind, so only well-formed texts can be written down.
-/

namespace TAlib

open Foundation

/-- A blank, a colon and a question mark, as the parser looks for them. -/
theorem find_of_slice {mem before : Bytes} (after : Bytes) {start stop : Nat} {c : UInt8}
    (h : slice mem start stop = before ++ c :: after) (hc : c ∉ before) :
    find mem start stop c = start + before.length := by
  unfold find
  rw [h, List.idxOf_append_of_notMem hc, List.idxOf_cons_self, Nat.add_zero]

theorem find_of_absent {mem : Bytes} {start stop : Nat} {c : UInt8} (hle : start ≤ stop)
    (hstop : stop ≤ mem.length) (hc : c ∉ slice mem start stop) : find mem start stop c = stop := by
  unfold find
  rw [List.idxOf_eq_length hc, slice_length mem start stop hstop]
  omega

namespace Version

/-- The eight characters of a request line that name the version. -/
def text : Version → Bytes
  | .kHttp10 => bytesOf ['H', 'T', 'T', 'P', '/', '1', '.', '0']
  | .kHttp11 => bytesOf ['H', 'T', 'T', 'P', '/', '1', '.', '1']
  | .kUnknown => []

end Version

/-- The parts of what is taken for a request line, which need not be one line. -/
structure LineParts where
  method : Method
  path : Bytes
  query : Bytes
  version : Version
  method_known : method ≠ .kInvalid
  version_known : version ≠ .kUnknown
  path_no_blank : 32 ∉ path
  path_no_question : 63 ∉ path
  query_start : query = [] ∨ query.head? = some 63
  query_no_blank : 32 ∉ query

namespace LineParts

def text (l : LineParts) : Bytes :=
  l.method.text ++ 32 :: (l.path ++ l.query ++ 32 :: l.version.text)

/-- The request that a request line starts. -/
def request (l : LineParts) (receiveTime : TimeStamp) : HttpRequest :=
  ⟨l.method, l.version, l.path, l.query, receiveTime, .empty⟩

end LineParts

/-- The parts of a valid request line. -/
structure RequestLine where
  method : Method
  path : Bytes
  query : Bytes
  version : Version
  method_known : method ≠ .kInvalid
  version_known : version ≠ .kUnknown
  path_no_blank : 32 ∉ path
  path_no_question : 63 ∉ path
  path_no_crlf : ¬ kCRLF <:+: path
  query_start : query = [] ∨ query.head? = some 63
  query_no_blank : 32 ∉ query
  query_no_crlf : ¬ kCRLF <:+: query

namespace RequestLine

def text (l : RequestLine) : Bytes :=
  l.method.text ++ 32 :: (l.path ++ l.query ++ 32 :: l.version.text)

theorem text_no_crlf (l : RequestLine) : ¬ kCRLF <:+: l.text := by
  have hmethod : ¬ kCRLF <:+: l.method.text := by
    cases l.method <;> decide
  have hversion : ¬ kCRLF <:+: l.version.text := by
    cases l.version <;> decide
  have htarget : ¬ kCRLF <:+: l.path ++ l.query := by
    refine pair_not_infix_append l.path_no_crlf l.query_no_crlf ?_
    rcases l.query_start with h | h
    · simp [h]
    · simp [h]
  refine pair_not_infix_append hmethod (pair_not_infix_cons (by decide) ?_) (by simp)
  exact pair_not_infix_append htarget (pair_not_infix_cons (by decide) hversion) (by simp)

/-- The request that a request line starts. -/
def request (l : RequestLine) (receiveTime : TimeStamp) : HttpRequest :=
  ⟨l.method, l.version, l.path, l.query, receiveTime, .empty⟩

def parts (l : RequestLine) : LineParts :=
  ⟨l.method, l.path, l.query, l.version, l.method_known, l.version_known, l.path_no_blank,
    l.path_no_question, l.query_start, l.query_no_blank⟩

end RequestLine

namespace HttpContext

private theorem processVersion_text (r : HttpRequest) (before : Bytes) {mem : Bytes} {v : Version}
    (hv : v ≠ .kUnknown) (hmem : mem = before ++ v.text) :
    processVersion r mem before.length mem.length = (true, r.setVersion v) := by
  subst hmem
  have hlen : v.text.length = 8 := by
    cases v with
    | kUnknown => exact absurd rfl hv
    | kHttp10 | kHttp11 => rfl
  have hstop : (before ++ v.text).length - before.length = 8 := by
    rw [List.length_append]
    omega
  have hlast : (before ++ v.text).length - 1 = before.length + 7 := by
    rw [List.length_append]
    omega
  have hslice : slice (before ++ v.text) before.length (before.length + 7) = v.text.take 7 := by
    simp [slice]
  have hget : (before ++ v.text).getD (before.length + 7) 0 = v.text.getD 7 0 := by
    simp [List.getD_eq_getElem?_getD, List.getElem?_append_right]
  unfold processVersion
  rw [hstop, hlast, hslice, hget]
  cases v with
  | kUnknown => exact absurd rfl hv
  | kHttp10 => rfl
  | kHttp11 => rfl

private theorem processTarget_text (r : HttpRequest) (hr : r.query = []) (before : Bytes)
    {mem : Bytes}
    (l : LineParts) (hmem : mem = before ++ (l.path ++ l.query ++ 32 :: l.version.text)) :
    processTarget r mem before.length mem.length =
      (true, { r with path := l.path, query := l.query, version := l.version }) := by
  have hrest : slice mem before.length mem.length = l.path ++ l.query ++ 32 :: l.version.text :=
    slice_of_eq before [] (by simp [hmem]) rfl (by simp [hmem])
  have hblank : 32 ∉ l.path ++ l.query := by
    simp [l.path_no_blank, l.query_no_blank]
  have hspace := find_of_slice l.version.text hrest hblank
  have hversion (r : HttpRequest) := processVersion_text r
    (before ++ (l.path ++ l.query ++ [32])) l.version_known
    (show mem = before ++ (l.path ++ l.query ++ [32]) ++ l.version.text by simp [hmem])
  have hpath : slice mem before.length (before.length + l.path.length) = l.path :=
    slice_of_eq before (l.query ++ 32 :: l.version.text) (by simp [hmem]) rfl rfl
  have htarget : slice mem before.length (before.length + (l.path ++ l.query).length) =
      l.path ++ l.query :=
    slice_of_eq before (32 :: l.version.text) (by simp [hmem]) rfl rfl
  have hquery : slice mem (before.length + l.path.length)
      (before.length + (l.path ++ l.query).length) = l.query :=
    slice_of_eq (before ++ l.path) (32 :: l.version.text) (by simp [hmem])
      (by simp) (by simp [Nat.add_assoc])
  have hstop : before.length + (l.path ++ l.query).length ≠ mem.length := by
    simp only [hmem, List.length_append, List.length_cons]
    omega
  have hnext : before.length + (l.path ++ l.query).length + 1 =
      (before ++ (l.path ++ l.query ++ [32])).length := by
    simp only [List.length_append, List.length_singleton]
    omega
  unfold processTarget
  simp only [hspace, hnext, hversion, ne_eq, hstop, not_false_eq_true, if_true]
  rcases l.query_start with hq | hq
  · have hquestion : find mem before.length (before.length + (l.path ++ l.query).length) 63 =
        before.length + (l.path ++ l.query).length := by
      refine find_of_absent (Nat.le_add_right _ _) (by simp [hmem]) ?_
      rw [htarget, hq, List.append_nil]
      exact l.path_no_question
    simp only [hquestion, not_true_eq_false, if_false, HttpRequest.setPath, HttpRequest.setVersion,
      htarget]
    rw [hq, hr, List.append_nil]
  · obtain ⟨q, hq'⟩ : ∃ q, l.query = 63 :: q := by
      cases hl : l.query with
      | nil => simp [hl] at hq
      | cons b q =>
          rw [hl] at hq
          exact ⟨q, by rw [Option.some.inj hq]⟩
    have hquestion : find mem before.length (before.length + (l.path ++ l.query).length) 63 =
        before.length + l.path.length :=
      find_of_slice q (by rw [htarget, hq']) l.path_no_question
    have hne : before.length + l.path.length ≠ before.length + (l.path ++ l.query).length := by
      simp only [hq', List.length_append, List.length_cons]
      omega
    simp only [hquestion, hne, not_false_eq_true, if_true, HttpRequest.setPath,
      HttpRequest.setQuery, HttpRequest.setVersion, hpath, hquery]

/-- The text gives its parts back. -/
theorem processRequestLine_parts (l : LineParts) :
    processRequestLine .new l.text 0 l.text.length = .ok (true, l.request 0) := by
  have hword : slice l.text 0 l.method.text.length = l.method.text :=
    slice_of_eq [] (32 :: (l.path ++ l.query ++ 32 :: l.version.text))
      (by simp [LineParts.text]) rfl (by simp)
  have hblank : 32 ∉ l.method.text := by
    cases l.method <;> decide
  have hspace : find l.text 0 l.text.length 32 = 0 + l.method.text.length :=
    find_of_slice (l.path ++ l.query ++ 32 :: l.version.text)
      (by simp [slice, LineParts.text]) hblank
  have hstop : l.method.text.length ≠ l.text.length := by
    simp only [LineParts.text, List.length_append, List.length_cons]
    omega
  have htarget (r : HttpRequest) (hr : r.query = []) := processTarget_text r hr
    (l.method.text ++ [32]) l (show l.text = _ by simp [LineParts.text])
  rw [Nat.zero_add] at hspace
  rw [List.length_append] at htarget
  unfold processRequestLine
  simp only [hspace, ne_eq, hstop, not_false_eq_true, if_true,
    HttpRequest.setMethod_of_invalid (show HttpRequest.new.method = .kInvalid from rfl), hword,
    Method.ofText_text, ok_bind, l.method_known, decide_true]
  exact congrArg Except.ok (htarget { HttpRequest.new with method := l.method } rfl)

theorem processRequestLine_text (l : RequestLine) :
    processRequestLine .new l.text 0 l.text.length = .ok (true, l.request 0) :=
  processRequestLine_parts l.parts

end HttpContext

private theorem takeWhile_colon {before : Bytes} (h : 58 ∉ before) (after : Bytes) :
    (before ++ 58 :: after).takeWhile (· ≠ 58) = before := by
  rw [List.takeWhile_append_of_pos]
  · simp
  · intro b hb
    have : b ≠ 58 := fun heq => h (heq ▸ hb)
    simpa using this

/-- A line with a colon in it. -/
structure HeaderLine where
  line : Bytes
  has_colon : 58 ∈ line
  no_crlf : ¬ kCRLF <:+: line

namespace HeaderLine

def name (h : HeaderLine) : Bytes := h.line.takeWhile (· ≠ 58)

def value (h : HeaderLine) : Bytes := HttpRequest.trim (h.line.drop (h.name.length + 1))

theorem line_eq (h : HeaderLine) :
    58 ∉ h.name ∧ h.line = h.name ++ 58 :: h.line.drop (h.name.length + 1) := by
  obtain ⟨before, after, hline, hbefore⟩ := List.eq_append_cons_of_mem h.has_colon
  have hname : h.name = before := by
    unfold name
    rw [hline]
    exact takeWhile_colon hbefore after
  rw [hname]
  refine ⟨hbefore, ?_⟩
  rw [hline]
  simp

/-- addHeader on a header line enters its name with its value. -/
theorem addHeader_line_text (h : HeaderLine) (r : HttpRequest) :
    find h.line 0 h.line.length 58 ≠ h.line.length ∧
      r.addHeader h.line 0 (find h.line 0 h.line.length 58) h.line.length =
        { r with headers := r.headers.insert h.name h.value } := by
  obtain ⟨hcolon, hline⟩ := h.line_eq
  have hfind : find h.line 0 h.line.length 58 = 0 + h.name.length :=
    find_of_slice (h.line.drop (h.name.length + 1)) (by simpa [slice] using hline) hcolon
  rw [Nat.zero_add] at hfind
  rw [hfind]
  constructor
  · intro hlen
    have := congrArg List.length hline
    simp only [List.length_append, List.length_cons] at this
    omega
  · have hname : slice h.line 0 h.name.length = h.name :=
      slice_of_eq [] (58 :: h.line.drop (h.name.length + 1)) hline rfl (by simp)
    have hvalue : slice h.line (h.name.length + 1) h.line.length =
        h.line.drop (h.name.length + 1) := by
      simp [slice]
    simp only [HttpRequest.addHeader, hname, hvalue, value]

end HeaderLine

/-- A header as a client writes it: the name, a colon, a blank and the value. -/
structure HeaderField where
  name : Bytes
  value : Bytes
  name_no_colon : 58 ∉ name
  name_no_crlf : ¬ kCRLF <:+: name
  value_no_crlf : ¬ kCRLF <:+: value
  value_first : ∀ b, value.head? = some b → ¬ isspace b
  value_last : ∀ b, value.getLast? = some b → ¬ isspace b

namespace HeaderField

def line (f : HeaderField) : HeaderLine where
  line := f.name ++ 58 :: 32 :: f.value
  has_colon := by simp
  no_crlf := pair_not_infix_append f.name_no_crlf
    (pair_not_infix_cons (by decide) (pair_not_infix_cons (by decide) f.value_no_crlf)) (by simp)

theorem line_name (f : HeaderField) : f.line.name = f.name := by
  exact takeWhile_colon f.name_no_colon (32 :: f.value)

theorem line_value (f : HeaderField) : f.line.value = f.value := by
  unfold HeaderLine.value
  rw [line_name]
  have hdrop : f.line.line.drop (f.name.length + 1) = 32 :: f.value := by
    simp [line]
  rw [hdrop, HttpRequest.trim_cons_blank]
  exact HttpRequest.trim_eq_self f.value_first f.value_last

end HeaderField

/-- A request without a body: a request line, header lines, an empty line. -/
structure RequestText where
  line : RequestLine
  headers : List HeaderLine

namespace RequestText

/-- The header lines with the empty line that ends them. -/
def headerText : List HeaderLine → Bytes
  | [] => kCRLF
  | h :: hs => h.line ++ kCRLF ++ headerText hs

def text (r : RequestText) : Bytes := r.line.text ++ kCRLF ++ headerText r.headers

/-- The map of the headers read so far with those of some more lines entered. -/
def enterAll (m : OrderedMap Bytes Bytes) (hs : List HeaderLine) : OrderedMap Bytes Bytes :=
  hs.foldl (fun m h => m.insert h.name h.value) m

/-- What the parser is to make of the text. -/
def request (r : RequestText) (receiveTime : TimeStamp) : HttpRequest :=
  { r.line.request receiveTime with headers := enterAll .empty r.headers }

/-- The last value given for a name is the one in the map. -/
theorem enterAll_find? (m : OrderedMap Bytes Bytes) (hs : List HeaderLine) (name : Bytes) :
    (enterAll m hs).find? name =
      ((hs.reverse.find? fun h => h.name = name).map HeaderLine.value).or (m.find? name) := by
  induction hs generalizing m with
  | nil => simp [enterAll]
  | cons h hs ih =>
      have hstep : enterAll m (h :: hs) = enterAll (m.insert h.name h.value) hs := rfl
      rw [hstep, ih, List.reverse_cons, List.find?_append]
      by_cases hname : h.name = name
      · subst hname
        rw [OrderedMap.find?_insert_self]
        cases List.find? (fun h' => decide (h'.name = h.name)) hs.reverse with
        | none => simp
        | some _ => simp
      · rw [OrderedMap.find?_insert_of_ne m hname]
        simp [hname]

end RequestText

namespace HttpContext

/-- The first line of a text is found up to its line end. -/
theorem search_line {line : Bytes} (h : ¬ kCRLF <:+: line) (x : Bytes) :
    search kCRLF (line ++ kCRLF ++ x) = some line.length ∧
      (line ++ kCRLF ++ x).take line.length = line ∧
      (line ++ kCRLF ++ x).drop (line.length + 2) = x := by
  have happend : line ++ kCRLF ++ x = line ++ 13 :: 10 :: x := by simp [kCRLF]
  rw [happend]
  exact ⟨search_pair_at_end (by decide) h x, List.take_left, by simp⟩

theorem iterationBytes_requestLine (t : TimeStamp) (l : RequestLine) (x : Bytes) :
    iterationBytes t new (l.text ++ kCRLF ++ x) =
      .ok ⟨true, true, ⟨.kExpectHeaders, l.request t⟩, x⟩ := by
  obtain ⟨hfind, htake, hdrop⟩ := search_line l.text_no_crlf x
  simp only [iterationBytes, new, hfind, htake, hdrop, processRequestLine_text, ok_bind]
  rfl

theorem iterationBytes_headerLine (t : TimeStamp) (r : HttpRequest) (h : HeaderLine) (x : Bytes) :
    iterationBytes t ⟨.kExpectHeaders, r⟩ (h.line ++ kCRLF ++ x) =
      .ok ⟨true, true, ⟨.kExpectHeaders, { r with headers := r.headers.insert h.name h.value }⟩,
        x⟩ := by
  obtain ⟨hfind, htake, hdrop⟩ := search_line h.no_crlf x
  obtain ⟨hcolon, hadd⟩ := h.addHeader_line_text r
  simp only [iterationBytes, hfind, htake, hdrop, ne_eq, hcolon, not_false_eq_true, if_true, hadd]

theorem iterationBytes_emptyLine (t : TimeStamp) (r : HttpRequest) (x : Bytes) :
    iterationBytes t ⟨.kExpectHeaders, r⟩ (kCRLF ++ x) = .ok ⟨true, false, ⟨.kGotAll, r⟩, x⟩ := by
  rfl

theorem parseBytes_headerText (t : TimeStamp) (r : HttpRequest) (hs : List HeaderLine)
    (x : Bytes) :
    parseBytes t ⟨.kExpectHeaders, r⟩ (RequestText.headerText hs ++ x) =
      .ok (true, ⟨.kGotAll, { r with headers := RequestText.enterAll r.headers hs }⟩, x) := by
  induction hs generalizing r with
  | nil =>
      rw [parseBytes_step t (.inr rfl), RequestText.headerText, iterationBytes_emptyLine]
      rfl
  | cons h hs ih =>
      have htext : RequestText.headerText (h :: hs) ++ x =
          h.line ++ kCRLF ++ (RequestText.headerText hs ++ x) := by
        simp [RequestText.headerText]
      rw [parseBytes_step t (.inr rfl), htext, iterationBytes_headerLine, ok_bind, if_pos rfl]
      exact ih { r with headers := r.headers.insert h.name h.value }

/-- Parsing the text of a request, whatever follows, gives the request. -/
theorem parseBytes_text (t : TimeStamp) (r : RequestText) (x : Bytes) :
    parseBytes t new (r.text ++ x) = .ok (true, ⟨.kGotAll, r.request t⟩, x) := by
  have htext : r.text ++ x = r.line.text ++ kCRLF ++ (RequestText.headerText r.headers ++ x) := by
    simp [RequestText.text]
  rw [htext, parseBytes_step t (.inl rfl), iterationBytes_requestLine, ok_bind, if_pos rfl]
  exact parseBytes_headerText t (r.line.request t) r.headers x

/-- The request line, a "name: value" line for each header, an empty line. -/
def canonicalText (l : RequestLine) (fields : List HeaderField) : Bytes :=
  l.text ++ kCRLF ++ fields.flatMap (fun f => f.name ++ [58, 32] ++ f.value ++ kCRLF) ++ kCRLF

theorem canonicalText_eq (l : RequestLine) (fields : List HeaderField) :
    canonicalText l fields = RequestText.text ⟨l, fields.map HeaderField.line⟩ := by
  have hheaders : fields.flatMap (fun f => f.name ++ [58, 32] ++ f.value ++ kCRLF) ++ kCRLF =
      RequestText.headerText (fields.map HeaderField.line) := by
    induction fields with
    | nil => rfl
    | cons f fields ih =>
        simp only [List.flatMap_cons, List.map_cons, RequestText.headerText, ← ih]
        simp [HeaderField.line]
  rw [canonicalText, RequestText.text, ← hheaders, List.append_assoc]

/-- The round trip of a canonical request, from any buffer that holds it with
any bytes behind it. -/
theorem parseRequest_canonicalText (l : RequestLine) (fields : List HeaderField)
    (trailing : Bytes) (receiveTime : TimeStamp) {b : Buffer} (hv : b.Valid)
    (hread : b.readable = canonicalText l fields ++ trailing) :
    ∃ c b', parseRequest receiveTime new b = .ok (true, c, b') ∧ c.gotAll = true ∧
      c.request.method = l.method ∧ c.request.path = l.path ∧ c.request.query = l.query ∧
      c.request.version = l.version ∧
      (∀ name, c.request.headers.find? name =
        (fields.reverse.find? fun f => f.name = name).map HeaderField.value) ∧
      b'.readable = trailing := by
  have hholds := parseRequest_holds receiveTime new ⟨hv, hread, Nat.le_refl _⟩
  rw [canonicalText_eq, parseBytes_text] at hholds
  obtain ⟨⟨ok, c, b'⟩, hparse, hok, hctx, hrest⟩ := hholds.of_ok_right
  simp only at hok hctx
  subst hok hctx
  refine ⟨_, b', hparse, rfl, rfl, rfl, rfl, rfl, fun name => ?_, hrest.readable_eq⟩
  simp only [RequestText.request]
  rw [RequestText.enterAll_find?, ← List.map_reverse, List.find?_map, Option.map_map,
    OrderedMap.find?_empty, Option.or_none]
  have hnames : (fun h : HeaderLine => decide (h.name = name)) ∘ HeaderField.line =
      fun f => decide (f.name = name) := by
    funext f
    simp only [Function.comp_apply, f.line_name]
  have hvalues : HeaderLine.value ∘ HeaderField.line = HeaderField.value := by
    funext f
    exact f.line_value
  rw [hnames, hvalues]

/-- A repeated name, a question mark in the query, a colon in a value and the
start of a next request. -/
theorem parseRequest_canonicalText_repeated_name :
    let l : RequestLine := ⟨.kGet, bytesOf ['/'], bytesOf ['?', 'a', '?'], .kHttp11,
      by decide, by decide, by decide, by decide, by decide, by decide, by decide, by decide⟩
    let first : HeaderField := ⟨bytesOf ['H'], bytesOf ['x'],
      by decide, by decide, by decide, by decide +kernel, by decide +kernel⟩
    let second : HeaderField := ⟨bytesOf ['H'], bytesOf ['y', ':', 'z'],
      by decide, by decide, by decide, by decide +kernel, by decide +kernel⟩
    ∃ b c b', b.readable = canonicalText l [first, second] ++ bytesOf ['G'] ∧
      parseRequest 0 new b = .ok (true, c, b') ∧
      c.request.headers.find? (bytesOf ['H']) = some (bytesOf ['y', ':', 'z']) ∧
      b'.readable = bytesOf ['G'] := by
  intro l first second
  obtain ⟨b, hv, hread⟩ := Buffer.exists_readable
    (show (canonicalText l [first, second] ++ bytesOf ['G']).length ≤ kInitialSize by decide)
  obtain ⟨c, b', hparse, -, -, -, -, -, hheaders, hrest⟩ :=
    parseRequest_canonicalText l [first, second] (bytesOf ['G']) 0 hv hread
  exact ⟨b, c, b', hread, hparse, hheaders (bytesOf ['H']), hrest⟩

end HttpContext

end TAlib
