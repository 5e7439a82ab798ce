import TAlib.Common.CString
import TAlib.Http.HttpResponse

/-!
Where a response ends. A reader that goes by lines and by the length header takes
apart what several responses wrote into one buffer, whatever their bodies are. The
headers that appendToBuffer writes by itself come first, so entries of the header
map with the same names do not mislead it; only a name with ": " inside cannot be
told from its value.
-/

namespace TAlib

open Foundation

/-- A response as it is read. -/
structure Message where
  statusCode : Nat
  statusMessage : Bytes
  headers : List (Bytes × Bytes)
  body : Bytes
  deriving DecidableEq

namespace Reader

def line (bytes : Bytes) : Option (Bytes × Bytes) :=
  (search kCRLF bytes).map fun i => (bytes.take i, bytes.drop (i + 2))

/-- The lines up to the first empty one. -/
def headerLines : Nat → Bytes → Option (List Bytes × Bytes)
  | 0, _ => none
  | fuel + 1, bytes => do
      let (l, rest) ← line bytes
      if l = [] then return ([], rest)
      else do
        let (ls, rest) ← headerLines fuel rest
        return (l :: ls, rest)

def header (l : Bytes) : Bytes × Bytes :=
  match search (bytesOf [':', ' ']) l with
  | some i => (l.take i, l.drop (i + 2))
  | none => (l, [])

/-- The code and the message behind "HTTP/1.1 ". -/
def statusLine (l : Bytes) : Nat × Bytes :=
  (digitsValue ((l.drop 9).takeWhile isdigit), ((l.drop 9).dropWhile isdigit).drop 1)

def connection : Bytes := bytesOf "Connection".toList

def contentLength : Bytes := bytesOf "Content-Length".toList

def close : Bytes := bytesOf "close".toList

/-- The first headers with these names decide how far the body goes; the lines that
are not of the header map are left out. -/
def response (bytes : Bytes) : Option (Message × Bytes) := do
  let (status, rest) ← line bytes
  let (lines, rest) ← headerLines bytes.length rest
  let headers := lines.map header
  let (code, message) := statusLine status
  if headers.lookup connection = some close then
    return (⟨code, message, headers.drop 1, rest⟩, [])
  else
    let n := digitsValue ((headers.lookup contentLength).getD [])
    if rest.length < n then none
    else return (⟨code, message, headers.drop 2, rest.take n⟩, rest.drop n)

def responses : Nat → Bytes → Option (List Message)
  | _, [] => some []
  | 0, _ :: _ => none
  | fuel + 1, bytes => do
      let (m, rest) ← response bytes
      let ms ← responses fuel rest
      return m :: ms

end Reader

namespace HttpResponse

def message (r : HttpResponse) : Message :=
  ⟨r.statusCode.value, r.statusMessage, r.headers.entries, r.body⟩

/-- The responses are appended one after another. -/
def appendAll : List HttpResponse → Buffer → Except Fault Buffer
  | [], output => .ok output
  | r :: rs, output => do
      let output ← r.appendToBuffer output
      appendAll rs output

/-- No CR and no LF. -/
def OneLine (s : Bytes) : Prop := 13 ∉ s ∧ 10 ∉ s

instance : DecidablePred OneLine := fun s => inferInstanceAs (Decidable (13 ∉ s ∧ 10 ∉ s))

/-- What the caller has to see to. -/
structure Plain (r : HttpResponse) : Prop where
  statusMessage : OneLine r.statusMessage
  names : ∀ h ∈ r.headers.entries, OneLine h.1
  values : ∀ h ∈ r.headers.entries, OneLine h.2
  body : r.body.length < 10 ^ 13

/-- No name in the header map can be taken for a name with a value. -/
def NamesEnd (r : HttpResponse) : Prop :=
  ∀ h ∈ r.headers.entries, ¬ bytesOf [':', ' '] <:+: h.1

section Appended

/-- A computation that, when it returns, has added these bytes. -/
def Adds (fill : Buffer → Except Fault Buffer) (data : Bytes) : Prop :=
  ∀ b b' : Buffer, b.Valid → fill b = .ok b' → b'.Valid ∧ b'.readable = b.readable ++ data

theorem adds_append (data : Bytes) : Adds (fun b => b.append data) data :=
  fun _ _ hv h => Buffer.append_ok hv h

theorem Adds.bind {f g : Buffer → Except Fault Buffer} {x y : Bytes} (hf : Adds f x)
    (hg : Adds g y) : Adds (fun b => f b >>= g) (x ++ y) := by
  intro b b' hv h
  obtain ⟨m, hm, h⟩ := bind_eq_ok.mp h
  obtain ⟨hmv, hmr⟩ := hf b m hv hm
  obtain ⟨hv', hr'⟩ := hg m b' hmv h
  exact ⟨hv', by rw [hr', hmr, List.append_assoc]⟩

theorem appendHeaders_adds (headers : List (Bytes × Bytes)) :
    Adds (appendHeaders headers) (headersText headers) := by
  induction headers with
  | nil =>
      intro b b' hv h
      cases h
      exact ⟨hv, (List.append_nil _).symm⟩
  | cons h headers ih =>
      obtain ⟨field, value⟩ := h
      have htext : headersText ((field, value) :: headers) =
          field ++ (bytesOf [':', ' '] ++ (value ++ (kCRLF ++ headersText headers))) := by
        simp [headersText]
      rw [htext]
      exact (adds_append field).bind ((adds_append _).bind ((adds_append value).bind
        ((adds_append kCRLF).bind ih)))

theorem appendConnection_adds (r : HttpResponse) : Adds r.appendConnection r.connectionText := by
  unfold connectionText
  intro b
  unfold appendConnection
  split
  · exact adds_append _ b
  · exact (adds_append _).bind (adds_append _) b

theorem appendToBuffer_adds (r : HttpResponse) : Adds r.appendToBuffer r.text := by
  have htext : r.text =
      snprintf (bytesOf "HTTP/1.1 ".toList ++ decimal r.statusCode.value ++ [32]) ++
        (r.statusMessage ++ (kCRLF ++ (r.connectionText ++ (headersText r.headers.entries ++
          (kCRLF ++ r.body))))) := by
    simp [text]
  rw [htext]
  exact (adds_append _).bind ((adds_append _).bind ((adds_append _).bind
    ((appendConnection_adds r).bind ((appendHeaders_adds _).bind
      ((adds_append _).bind (adds_append _))))))

theorem appendAll_adds (rs : List HttpResponse) : Adds (appendAll rs) (rs.flatMap text) := by
  induction rs with
  | nil =>
      intro b b' hv h
      cases h
      exact ⟨hv, (List.append_nil _).symm⟩
  | cons r rs ih =>
      rw [List.flatMap_cons]
      exact (appendToBuffer_adds r).bind ih

theorem appendAll_fills (rs : List HttpResponse) : Fills (appendAll rs) (rs.flatMap text) := by
  induction rs with
  | nil => exact fun b hv _ _ => ⟨b, rfl, hv, (List.append_nil _).symm, Nat.le_add_right _ _⟩
  | cons r rs ih =>
      rw [List.flatMap_cons]
      exact (appendToBuffer_fills r).bind ih

end Appended

section Lines

/-- A text of lines. -/
def linesText (lines : List Bytes) : Bytes := lines.flatMap fun l => l ++ kCRLF

theorem length_le_linesText (lines : List Bytes) : lines.length ≤ (linesText lines).length := by
  induction lines with
  | nil => exact Nat.le_refl 0
  | cons l lines ih =>
      have htwo : kCRLF.length = 2 := rfl
      simp only [linesText, List.flatMap_cons, List.length_append, List.length_cons] at ih ⊢
      omega

theorem line_ok {l : Bytes} (hl : 13 ∉ l) (rest : Bytes) :
    Reader.line (l ++ (kCRLF ++ rest)) = some (l, rest) := by
  have hfree : ¬ [(13 : UInt8), 10] <:+: l := fun h => hl (h.subset List.mem_cons_self)
  have hsearch : search kCRLF (l ++ (kCRLF ++ rest)) = some l.length :=
    search_pair_at_end (by decide) hfree rest
  have hdrop : (l ++ (kCRLF ++ rest)).drop (l.length + 2) = rest := by
    rw [← List.append_assoc]
    exact List.drop_left' (by rw [List.length_append]; rfl)
  rw [Reader.line, hsearch, Option.map_some, List.take_left, hdrop]

theorem headerLines_ok {lines : List Bytes} (hlines : ∀ l ∈ lines, 13 ∉ l ∧ l ≠ []) (rest : Bytes)
    {fuel : Nat} (hfuel : lines.length < fuel) :
    Reader.headerLines fuel (linesText lines ++ (kCRLF ++ rest)) = some (lines, rest) := by
  induction lines generalizing fuel with
  | nil =>
      obtain ⟨fuel, rfl⟩ := Nat.exists_eq_succ_of_ne_zero (Nat.ne_of_gt hfuel)
      have hline := line_ok (l := []) List.not_mem_nil rest
      rw [List.nil_append] at hline
      simp only [linesText, List.flatMap_nil, List.nil_append, Reader.headerLines, hline]
      rfl
  | cons l lines ih =>
      obtain ⟨fuel, rfl⟩ := Nat.exists_eq_succ_of_ne_zero (Nat.ne_of_gt (Nat.zero_lt_of_lt hfuel))
      obtain ⟨hl, hne⟩ := hlines l List.mem_cons_self
      have hline := line_ok hl (linesText lines ++ (kCRLF ++ rest))
      have htext : linesText (l :: lines) ++ (kCRLF ++ rest) =
          l ++ (kCRLF ++ (linesText lines ++ (kCRLF ++ rest))) := by
        simp only [linesText, List.flatMap_cons, List.append_assoc]
      have hrest := ih (fun l' hl' => hlines l' (List.mem_cons_of_mem _ hl'))
        (Nat.lt_of_succ_lt_succ hfuel)
      rw [htext, Reader.headerLines, hline]
      simp only [Option.bind_eq_bind, Option.bind_some, if_neg hne, hrest]
      rfl

def headerLine (h : Bytes × Bytes) : Bytes := h.1 ++ bytesOf [':', ' '] ++ h.2

theorem header_ok {h : Bytes × Bytes} (hname : ¬ bytesOf [':', ' '] <:+: h.1) :
    Reader.header (headerLine h) = h := by
  obtain ⟨name, value⟩ := h
  have hline : headerLine (name, value) = name ++ (bytesOf [':', ' '] ++ value) :=
    List.append_assoc ..
  have hsearch : search (bytesOf [':', ' ']) (name ++ (bytesOf [':', ' '] ++ value)) =
      some name.length := search_pair_at_end (by decide) hname value
  have hdrop : (name ++ (bytesOf [':', ' '] ++ value)).drop (name.length + 2) = value := by
    rw [← List.append_assoc]
    exact List.drop_left' (by rw [List.length_append]; rfl)
  simp only [hline, Reader.header, hsearch, List.take_left, hdrop]

end Lines

variable {r : HttpResponse}

/-- The headers that appendToBuffer writes by itself. -/
def ownHeaders (r : HttpResponse) : List (Bytes × Bytes) :=
  if r.closeConnection then [(Reader.connection, Reader.close)]
  else [(Reader.contentLength, decimal r.body.length),
    (Reader.connection, bytesOf "Keep-Alive".toList)]

theorem decimal_length {n : Nat} (h : n < 10 ^ 13) : (decimal n).length ≤ 13 := by
  rw [decimal, bytesOf, List.length_map]
  exact (Nat.length_toDigits_le_iff (by decide) (by decide)).mpr h

theorem connectionText_eq (hbody : r.body.length < 10 ^ 13) :
    r.connectionText = linesText (r.ownHeaders.map headerLine) := by
  rw [connectionText, ownHeaders]
  split
  · rfl
  · have hlen := decimal_length hbody
    have hshort : (bytesOf "Content-Length: ".toList ++ decimal r.body.length ++
        kCRLF).length ≤ 31 := by
      have htext : (bytesOf "Content-Length: ".toList).length = 16 := rfl
      have htwo : kCRLF.length = 2 := rfl
      simp only [List.length_append]
      omega
    have hhead : bytesOf "Content-Length: ".toList = Reader.contentLength ++ bytesOf [':', ' '] :=
      rfl
    have hkeep : bytesOf "Connection: Keep-Alive\r\n".toList =
        Reader.connection ++ bytesOf [':', ' '] ++ bytesOf "Keep-Alive".toList ++ kCRLF := rfl
    rw [snprintf, List.take_of_length_le hshort, hhead, hkeep]
    simp only [linesText, headerLine, List.map_cons, List.map_nil, List.flatMap_cons,
      List.flatMap_nil, List.append_assoc, List.append_nil]

theorem headersText_eq (headers : List (Bytes × Bytes)) :
    headersText headers = linesText (headers.map headerLine) := by
  rw [headersText, linesText, List.flatMap_map]
  rfl

def statusText (r : HttpResponse) : Bytes :=
  bytesOf "HTTP/1.1 ".toList ++ (decimal r.statusCode.value ++ ([32] ++ r.statusMessage))

/-- The response as lines and a body. -/
theorem text_eq (hbody : r.body.length < 10 ^ 13) (rest : Bytes) :
    r.text ++ rest = r.statusText ++ (kCRLF ++
      (linesText ((r.ownHeaders ++ r.headers.entries).map headerLine) ++
        (kCRLF ++ (r.body ++ rest)))) := by
  have hstatus : snprintf (bytesOf "HTTP/1.1 ".toList ++ decimal r.statusCode.value ++ [32]) =
      bytesOf "HTTP/1.1 ".toList ++ decimal r.statusCode.value ++ [32] := by
    cases r.statusCode <;> decide
  have hlines : linesText ((r.ownHeaders ++ r.headers.entries).map headerLine) =
      r.connectionText ++ headersText r.headers.entries := by
    rw [connectionText_eq hbody, headersText_eq, List.map_append, linesText, List.flatMap_append]
    rfl
  rw [text, hstatus, hlines, statusText]
  simp only [List.append_assoc]

theorem statusLine_ok (r : HttpResponse) :
    Reader.statusLine r.statusText = (r.statusCode.value, r.statusMessage) := by
  have hdrop : r.statusText.drop 9 = decimal r.statusCode.value ++ ([32] ++ r.statusMessage) :=
    List.drop_left' rfl
  have hdigits (b : UInt8) (hb : b ∈ decimal r.statusCode.value) : isdigit b = true :=
    isdigit_of_mem_decimalText hb
  have htake : (decimal r.statusCode.value ++ ([32] ++ r.statusMessage)).takeWhile isdigit =
      decimal r.statusCode.value := by
    rw [List.takeWhile_append_of_pos hdigits, List.singleton_append,
      List.takeWhile_cons_of_neg (by decide), List.append_nil]
  have hafter : (decimal r.statusCode.value ++ ([32] ++ r.statusMessage)).dropWhile isdigit =
      32 :: r.statusMessage := by
    rw [List.dropWhile_append_of_pos hdigits, List.singleton_append,
      List.dropWhile_cons_of_neg (by decide)]
  rw [Reader.statusLine, hdrop, htake, hafter, show digitsValue (decimal r.statusCode.value) =
    r.statusCode.value from digitsValue_decimalText _]
  rfl

/-- The own headers are lines with a name that ends. -/
theorem ownHeaders_plain (r : HttpResponse) :
    ∀ h ∈ r.ownHeaders, 13 ∉ headerLine h ∧ ¬ bytesOf [':', ' '] <:+: h.1 := by
  have hdigits : 13 ∉ decimal r.body.length := not_mem_decimalText rfl
  intro h hmem
  rw [ownHeaders] at hmem
  split at hmem
  · cases List.mem_singleton.mp hmem
    exact ⟨by decide, by decide⟩
  · simp only [List.mem_cons, List.not_mem_nil, or_false] at hmem
    rcases hmem with rfl | rfl
    · have hname : 13 ∉ Reader.contentLength ++ bytesOf [':', ' '] ∧
          ¬ bytesOf [':', ' '] <:+: Reader.contentLength := by decide
      exact ⟨fun hmem => (List.mem_append.mp hmem).elim hname.1 hdigits, hname.2⟩
    · exact ⟨by decide, by decide⟩

theorem headerLine_ne_nil (h : Bytes × Bytes) : headerLine h ≠ [] := by
  simp [headerLine, bytesOf]

/-- The lines of a response, and their headers. -/
theorem lines_ok (hplain : r.Plain) (hnames : r.NamesEnd) :
    (∀ l ∈ (r.ownHeaders ++ r.headers.entries).map headerLine, 13 ∉ l ∧ l ≠ []) ∧
      ((r.ownHeaders ++ r.headers.entries).map headerLine).map Reader.header =
        r.ownHeaders ++ r.headers.entries := by
  constructor
  · intro l hl
    obtain ⟨h, hmem, rfl⟩ := List.mem_map.mp hl
    refine ⟨?_, headerLine_ne_nil h⟩
    cases List.mem_append.mp hmem with
    | inl hown => exact (ownHeaders_plain r h hown).1
    | inr hin =>
        intro hcr
        simp only [headerLine, List.mem_append] at hcr
        rcases hcr with (hcr | hcr) | hcr
        · exact (hplain.names h hin).1 hcr
        · exact absurd hcr (by decide)
        · exact (hplain.values h hin).1 hcr
  · rw [List.map_map]
    refine (List.map_congr_left fun h hmem => ?_).trans (List.map_id _)
    refine header_ok ?_
    cases List.mem_append.mp hmem with
    | inl hown => exact (ownHeaders_plain r h hown).2
    | inr hin => exact hnames h hin

/-- A response is read back, and what is behind it is left when it is keep-alive. -/
theorem response_ok (hplain : r.Plain) (hnames : r.NamesEnd) (rest : Bytes)
    (hrest : r.closeConnection = true → rest = []) :
    Reader.response (r.text ++ rest) = some (r.message, rest) := by
  obtain ⟨hlines, hheaders⟩ := lines_ok hplain hnames
  have hstatus : 13 ∉ r.statusText := by
    simp only [statusText, List.mem_append, not_or]
    exact ⟨by decide, not_mem_decimalText rfl, by decide, hplain.statusMessage.1⟩
  have hcount : ((r.ownHeaders ++ r.headers.entries).map headerLine).length <
      (r.text ++ rest).length := by
    have hle := length_le_linesText ((r.ownHeaders ++ r.headers.entries).map headerLine)
    have htwo : kCRLF.length = 2 := rfl
    rw [text_eq hplain.body rest]
    simp only [List.length_append] at hle ⊢
    omega
  have hread := headerLines_ok hlines (r.body ++ rest) hcount
  rw [Reader.response, text_eq hplain.body rest, line_ok hstatus]
  simp only [Option.bind_eq_bind, Option.bind_some]
  rw [← text_eq hplain.body rest, hread]
  simp only [Option.bind_some, statusLine_ok, hheaders]
  by_cases hclose : r.closeConnection = true
  · have hown : r.ownHeaders = [(Reader.connection, Reader.close)] := if_pos hclose
    have hfirst : (r.ownHeaders ++ r.headers.entries).lookup Reader.connection =
        some Reader.close := by
      rw [hown]
      rfl
    rw [if_pos hfirst, hrest hclose, List.append_nil, hown]
    rfl
  · have hown : r.ownHeaders = [(Reader.contentLength, decimal r.body.length),
        (Reader.connection, bytesOf "Keep-Alive".toList)] := if_neg hclose
    have hfirst : (r.ownHeaders ++ r.headers.entries).lookup Reader.connection =
        some (bytesOf "Keep-Alive".toList) := by
      rw [hown]
      rfl
    have hlength : (r.ownHeaders ++ r.headers.entries).lookup Reader.contentLength =
        some (decimal r.body.length) := by
      rw [hown]
      rfl
    have hvalue : digitsValue (decimal r.body.length) = r.body.length := digitsValue_decimalText _
    rw [hfirst, if_neg (by decide), hlength, Option.getD_some, hvalue, if_neg (by simp),
      List.take_left, List.drop_left, hown]
    rfl

theorem responses_ok {rs : List HttpResponse} (hplain : ∀ r ∈ rs, r.Plain)
    (hnames : ∀ r ∈ rs, r.NamesEnd) (hclose : ∀ r ∈ rs.dropLast, r.closeConnection = false)
    {fuel : Nat} (hfuel : (rs.flatMap text).length ≤ fuel) :
    Reader.responses fuel (rs.flatMap text) = some (rs.map message) := by
  induction rs generalizing fuel with
  | nil =>
      cases fuel with
      | zero => rfl
      | succ fuel => rfl
  | cons r rs ih =>
      have hlen : r.text.length = (r.text ++ []).length := by rw [List.append_nil]
      rw [text_eq (hplain r List.mem_cons_self).body []] at hlen
      have htwo : kCRLF.length = 2 := rfl
      simp only [List.length_append] at hlen
      rw [List.flatMap_cons] at hfuel ⊢
      rw [List.length_append] at hfuel
      obtain ⟨fuel, rfl⟩ := Nat.exists_eq_succ_of_ne_zero (n := fuel) (by omega)
      have hread := response_ok (hplain r List.mem_cons_self) (hnames r List.mem_cons_self)
        (rs.flatMap text) fun hc => by
          cases rs with
          | nil => rfl
          | cons r' rs =>
              have hkeep := hclose r List.mem_cons_self
              rw [hc] at hkeep
              cases hkeep
      have hrest := ih (fun r' hr' => hplain r' (List.mem_cons_of_mem _ hr'))
        (fun r' hr' => hnames r' (List.mem_cons_of_mem _ hr'))
        (fun r' hr' => hclose r' (by
          cases rs with
          | nil => cases hr'
          | cons r'' rs => exact List.mem_cons_of_mem _ hr')) (by omega : _ ≤ fuel)
      obtain ⟨b, bytes, hbytes⟩ := List.exists_cons_of_ne_nil (l := r.text ++ rs.flatMap text)
        (fun hnil => by
          have hzero := congrArg List.length hnil
          rw [List.length_append, List.length_nil] at hzero
          omega)
      rw [hbytes] at hread ⊢
      rw [Reader.responses, hread]
      · simp only [Option.bind_eq_bind, Option.bind_some, hrest]
        rfl
      · exact List.cons_ne_nil _ _

/-- From what the appends leave in an empty buffer the reader recovers every
response, in order and with nothing left over, and the appends do return when the
texts fit. -/
theorem responses_framed {rs : List HttpResponse} (hplain : ∀ r ∈ rs, r.Plain)
    (hnames : ∀ r ∈ rs, r.NamesEnd) (hclose : ∀ r ∈ rs.dropLast, r.closeConnection = false)
    {b : Buffer} (hv : b.Valid) (hempty : b.readable = []) :
    (∀ b', appendAll rs b = .ok b' →
      Reader.responses b'.readable.length b'.readable = some (rs.map message)) ∧
    ((rs.flatMap text).length ≤ intMax → b.writerIndex + (rs.flatMap text).length ≤ maxSize →
      ∃ b', appendAll rs b = .ok b') := by
  refine ⟨fun b' h => ?_, fun hint hmax => ?_⟩
  · obtain ⟨-, hread⟩ := appendAll_adds rs b b' hv h
    rw [hempty, List.nil_append] at hread
    rw [hread]
    exact responses_ok hplain hnames hclose (Nat.le_refl _)
  · obtain ⟨b', hb', -⟩ := appendAll_fills rs b hv hint hmax
    exact ⟨b', hb'⟩

/-- A body with an empty line in it and a header map with a length of its own, and
a closing response behind it. -/
theorem responses_framed_two :
    let r : HttpResponse := ⟨⟨[(Reader.contentLength, [55])], List.pairwise_singleton ..⟩, .k200Ok,
      [79, 75], false, [13, 10, 13, 10]⟩
    let r' : HttpResponse := ⟨.empty, .k404NotFound, [], true, [1, 2]⟩
    let b : Buffer := ⟨List.replicate 8 0, 8, 8⟩
    (∀ b', appendAll [r, r'] b = .ok b' →
      Reader.responses b'.readable.length b'.readable = some [r.message, r'.message]) ∧
    ([r, r'].flatMap text).length ≤ intMax ∧ ∃ b', appendAll [r, r'] b = .ok b' := by
  intro r r' b
  have hplain : ∀ x ∈ [r, r'], x.Plain := by
    intro x hx
    simp only [List.mem_cons, List.not_mem_nil, or_false] at hx
    rcases hx with rfl | rfl
    · exact ⟨by decide, by decide, by decide, by decide⟩
    · exact ⟨by decide, by decide, by decide, by decide⟩
  have hnames : ∀ x ∈ [r, r'], x.NamesEnd := by
    intro x hx
    simp only [List.mem_cons, List.not_mem_nil, or_false] at hx
    rcases hx with rfl | rfl
    · exact show ∀ h ∈ r.headers.entries, _ by decide
    · exact show ∀ h ∈ r'.headers.entries, _ by decide
  have hboth := responses_framed hplain hnames (by decide) (b := b)
    ⟨by decide, by decide, by decide, by decide⟩ rfl
  have hshort : ([r, r'].flatMap text).length ≤ 1000 := by decide +kernel
  exact ⟨hboth.1, hshort.trans (by decide), hboth.2 (hshort.trans (by decide))
    ((Nat.add_le_add_left hshort 8).trans (by decide))⟩

/-- No reader at all tells a name with ": " inside from a shorter name. -/
theorem responses_ambiguous :
    ¬ ∃ read : Bytes → List Message, ∀ rs : List HttpResponse, (∀ r ∈ rs, r.Plain) →
      (∀ r ∈ rs.dropLast, r.closeConnection = false) → ∀ b' : Buffer,
        appendAll rs ⟨List.replicate 8 0, 8, 8⟩ = .ok b' → read b'.readable = rs.map message := by
  rintro ⟨read, hread⟩
  let r : HttpResponse :=
    ⟨⟨[([97, 58, 32, 98], [99])], List.pairwise_singleton ..⟩, .k200Ok, [], true, []⟩
  let r' : HttpResponse :=
    ⟨⟨[([97], [98, 58, 32, 99])], List.pairwise_singleton ..⟩, .k200Ok, [], true, []⟩
  have hplain : ∀ x ∈ [r, r'], x.Plain := by
    intro x hx
    simp only [List.mem_cons, List.not_mem_nil, or_false] at hx
    rcases hx with rfl | rfl
    · exact ⟨by decide, by decide, by decide, by decide⟩
    · exact ⟨by decide, by decide, by decide, by decide⟩
  have happend (x : HttpResponse) (hx : x ∈ [r, r']) :
      ∃ b', appendAll [x] ⟨List.replicate 8 0, 8, 8⟩ = .ok b' ∧ b'.readable = r.text := by
    have htext : [x].flatMap text = r.text := by
      simp only [List.mem_cons, List.not_mem_nil, or_false] at hx
      rcases hx with rfl | rfl
      · exact List.append_nil _
      · decide +kernel
    have hshort : r.text.length ≤ 1000 := by decide +kernel
    obtain ⟨b', hb', -, hreadable, -⟩ := appendAll_fills [x] ⟨List.replicate 8 0, 8, 8⟩
      ⟨by decide, by decide, by decide, by decide⟩ (by rw [htext]; exact hshort.trans (by decide))
      (by rw [htext]; exact (Nat.add_le_add_left hshort 8).trans (by decide))
    rw [htext] at hreadable
    exact ⟨b', hb', hreadable⟩
  have hrecovered (x : HttpResponse) (hx : x ∈ [r, r']) : read r.text = [x.message] := by
    obtain ⟨b', hb', hreadable⟩ := happend x hx
    rw [← hreadable]
    refine hread [x] (fun y hy => ?_) nofun b' hb'
    cases List.mem_singleton.mp hy
    exact hplain x hx
  have hsame := (hrecovered r List.mem_cons_self).symm.trans
    (hrecovered r' (List.mem_cons_of_mem _ List.mem_cons_self))
  exact absurd hsame (by decide)

end HttpResponse
end TAlib
