import TAlib.Http.RefusedLine

/-!
The header block as one call of parseRequest reads it from a fresh context. Lines
with a colon are headers; the first line without one ends the block, whether it is
empty or not. The input falls into these lines and what is left of it.
-/

namespace TAlib

open Foundation

namespace HttpContext

/-- The header lines without the empty line after them. -/
def headerLines (hs : List HeaderLine) : Bytes := hs.flatMap fun h => h.line ++ kCRLF

/-- A line that is no header. -/
structure PlainLine where
  line : Bytes
  no_colon : 58 ∉ line
  no_crlf : ¬ kCRLF <:+: line

/-- A request line, header lines and an empty line. -/
def Accepts (s : Bytes) : Prop := ∃ r : RequestText, r.text <+: s

/-- Among the lines after the request line, the first without a colon is not empty. -/
def EndsUnmarked (s : Bytes) : Prop :=
  ∃ (l : RequestLine) (hs : List HeaderLine) (last : PlainLine) (rest : Bytes),
    last.line ≠ [] ∧ s = l.text ++ kCRLF ++ headerLines hs ++ last.line ++ kCRLF ++ rest

/-- What arrives before the last byte of a request. -/
def CutShort (s : Bytes) : Prop := ∃ r : RequestText, s <+: r.text ∧ s ≠ r.text

/-- The header block ends at the empty line, a line that is neither empty nor a
header is refused, and an incomplete block is waited for. -/
structure HeaderGrammar (s : Bytes) (ok : Bool) (gotAll : Bool) : Prop where
  accepts : gotAll = true ↔ Accepts s
  refuses : EndsUnmarked s → ok = false ∧ gotAll = false
  waits : CutShort s → ok = true ∧ gotAll = false

theorem headerText_eq (hs : List HeaderLine) :
    RequestText.headerText hs = headerLines hs ++ kCRLF := by
  induction hs with
  | nil => rfl
  | cons h hs ih =>
      simp only [RequestText.headerText, ih, headerLines, List.flatMap_cons, List.append_assoc]

/-- The first line without a colon ends the block. -/
theorem parseBytes_plainLine (t : TimeStamp) (r : HttpRequest) (hs : List HeaderLine)
    (last : PlainLine) (rest : Bytes) :
    parseBytes t ⟨.kExpectHeaders, r⟩ (headerLines hs ++ last.line ++ kCRLF ++ rest) =
      .ok (true, ⟨.kGotAll, { r with headers := RequestText.enterAll r.headers hs }⟩, rest) := by
  induction hs generalizing r with
  | nil =>
      obtain ⟨hfind, htake, hdrop⟩ := search_line last.no_crlf rest
      have hcolon : find last.line 0 last.line.length 58 = last.line.length :=
        find_of_absent (Nat.zero_le _) (Nat.le_refl _) (by simpa [slice] using last.no_colon)
      rw [parseBytes_step t (.inr rfl)]
      simp only [headerLines, List.flatMap_nil, List.nil_append, iterationBytes, hfind, htake,
        hdrop, hcolon, ne_eq, not_true_eq_false, if_false]
      rfl
  | cons h hs ih =>
      have htext : headerLines (h :: hs) ++ last.line ++ kCRLF ++ rest =
          h.line ++ kCRLF ++ (headerLines hs ++ last.line ++ kCRLF ++ rest) := by
        simp [headerLines]
      rw [parseBytes_step t (.inr rfl), htext, iterationBytes_headerLine, ok_bind, if_pos rfl]
      exact ih { r with headers := r.headers.insert h.name h.value }

/-- Whatever follows the request line, it is some header lines and then either a
line that ends the block or no further line. -/
theorem parseBytes_headerBlock (t : TimeStamp) (r : HttpRequest) (s : Bytes) :
    (∃ hs, ∃ last : PlainLine, ∃ rest, s = headerLines hs ++ last.line ++ kCRLF ++ rest) ∨
    (∃ r' rest, parseBytes t ⟨.kExpectHeaders, r⟩ s = .ok (true, ⟨.kExpectHeaders, r'⟩, rest)) := by
  induction hn : s.length using Nat.strong_induction_on generalizing s r with
  | _ n ih =>
      cases hfind : search kCRLF s with
      | none => exact .inr ⟨r, s, parseBytes_waiting t (.inr rfl) hfind⟩
      | some k =>
          have hsplit := search_split hfind
          have hline := search_take_free (by decide) hfind
          have hlen : k + 2 ≤ s.length := search_add_length_le (by decide) hfind
          by_cases hcolon : 58 ∈ s.take k
          · let h : HeaderLine := ⟨s.take k, hcolon, hline⟩
            let r' : HttpRequest := { r with headers := r.headers.insert h.name h.value }
            have hrest : (s.drop (k + 2)).length < n := by
              rw [List.length_drop]
              omega
            rcases ih _ hrest r' (s.drop (k + 2)) rfl
              with ⟨hs, last, rest, heq⟩ | ⟨r'', rest, hparse⟩
            · refine .inl ⟨h :: hs, last, rest, ?_⟩
              calc s = s.take k ++ kCRLF ++ s.drop (k + 2) := hsplit
                _ = s.take k ++ kCRLF ++ (headerLines hs ++ last.line ++ kCRLF ++ rest) := by
                  rw [heq]
                _ = headerLines (h :: hs) ++ last.line ++ kCRLF ++ rest := by simp [headerLines, h]
            · refine .inr ⟨r'', rest, ?_⟩
              have hiter := iterationBytes_headerLine t r h (s.drop (k + 2))
              rw [show h.line ++ kCRLF ++ s.drop (k + 2) = s from hsplit.symm] at hiter
              rw [parseBytes_step t (.inr rfl), hiter, ok_bind, if_pos rfl]
              exact hparse
          · exact .inl ⟨[], ⟨s.take k, hcolon, hline⟩, s.drop (k + 2), hsplit⟩

/-- The first line without a colon after a request line ends the request. -/
theorem parseBytes_block (t : TimeStamp) (l : RequestLine) (hs : List HeaderLine)
    (last : PlainLine) (rest : Bytes) :
    ∃ c, c.gotAll = true ∧
      parseBytes t new (l.text ++ kCRLF ++ headerLines hs ++ last.line ++ kCRLF ++ rest) =
        .ok (true, c, rest) := by
  have htext : l.text ++ kCRLF ++ headerLines hs ++ last.line ++ kCRLF ++ rest =
      l.text ++ kCRLF ++ (headerLines hs ++ last.line ++ kCRLF ++ rest) := by
    simp
  have hparse := parseBytes_plainLine t (l.request t) hs last rest
  rw [htext, parseBytes_step t (.inl rfl), iterationBytes_requestLine, ok_bind, if_pos rfl]
  exact ⟨_, rfl, hparse⟩

/-- Nothing else ends a request. -/
theorem block_of_gotAll {t : TimeStamp} {s rest : Bytes} {ok : Bool} {c : HttpContext}
    (h : parseBytes t new s = .ok (ok, c, rest)) (hgot : c.gotAll = true) :
    ∃ (l : RequestLine) (hs : List HeaderLine) (last : PlainLine) (rest' : Bytes),
      s = l.text ++ kCRLF ++ headerLines hs ++ last.line ++ kCRLF ++ rest' := by
  cases hfind : search kCRLF s with
  | none =>
      rw [parseBytes_waiting t (.inl rfl) hfind] at h
      cases h
      cases hgot
  | some k =>
      have hsplit := search_split hfind
      have hline := search_take_free (by decide) hfind
      have hlen : k + 2 ≤ s.length := search_add_length_le (by decide) hfind
      have hk : (s.take k).length = k := List.length_take_of_le (by omega)
      rcases hp : processRequestLine .new (s.take k) 0 k with e | ⟨taken, r⟩
      · rw [parseBytes_step t (.inl rfl)] at h
        simp only [iterationBytes, new, hfind, hp] at h
        cases h
      · cases taken with
        | false =>
            rw [parseBytes_step t (.inl rfl)] at h
            simp only [iterationBytes, new, hfind, hp] at h
            cases h
            cases hgot
        | true =>
            obtain ⟨l, hl⟩ := processRequestLine_sound hline
              (show processRequestLine .new (s.take k) 0 (s.take k).length = .ok (true, r) by
                rw [hk]
                exact hp)
            have htext : s = l.text ++ kCRLF ++ s.drop (k + 2) := by
              rw [← hl]
              exact hsplit
            rw [htext, parseBytes_step t (.inl rfl), iterationBytes_requestLine, ok_bind,
              if_pos rfl] at h
            rcases parseBytes_headerBlock t (l.request t) (s.drop (k + 2)) with
              ⟨hs, last, rest', heq⟩ | ⟨r', rest', hparse⟩
            · refine ⟨l, hs, last, rest', ?_⟩
              rw [htext, heq]
              simp
            · rw [hparse] at h
              cases h
              cases hgot

theorem gotAll_of_accepts {t : TimeStamp} {s rest : Bytes} {ok : Bool} {c : HttpContext}
    (h : parseBytes t new s = .ok (ok, c, rest)) (hs : Accepts s) : c.gotAll = true := by
  obtain ⟨r, x, rfl⟩ := hs
  rw [parseBytes_text] at h
  cases h
  rfl

theorem accepts_of_gotAll {t : TimeStamp} {s rest : Bytes} {ok : Bool} {c : HttpContext}
    (h : parseBytes t new s = .ok (ok, c, rest)) (hgot : c.gotAll = true)
    (hmarked : ¬ EndsUnmarked s) : Accepts s := by
  obtain ⟨l, hs, last, rest', heq⟩ := block_of_gotAll h hgot
  have hempty : last.line = [] := by
    by_contra hne
    exact hmarked ⟨l, hs, last, rest', hne, heq⟩
  refine ⟨⟨l, hs⟩, rest', ?_⟩
  rw [heq, hempty, RequestText.text, headerText_eq]
  simp

/-- An incomplete request is waited for: had the parser stopped, it would stop
on the whole text with the missing bytes left over. -/
theorem waits_of_cutShort {t : TimeStamp} {s rest : Bytes} {ok : Bool} {c : HttpContext}
    (h : parseBytes t new s = .ok (ok, c, rest)) (hs : CutShort s) :
    ok = true ∧ c.gotAll = false := by
  obtain ⟨r, ⟨x, hx⟩, hne⟩ := hs
  by_contra hstop
  have happend := parseBytes_append t (c := new) (.inl rfl) s x
  have htext := parseBytes_text t r []
  rw [List.append_nil, ← hx, happend, h, ok_bind, if_neg hstop] at htext
  have hrest : rest ++ x = [] := congrArg (fun p => p.2.2) (Except.ok.inj htext)
  have hnil : x = [] := (List.append_eq_nil_iff.mp hrest).2
  rw [hnil, List.append_nil] at hx
  exact hne hx

theorem headerGrammar_iff {t : TimeStamp} {s rest : Bytes} {ok : Bool} {c : HttpContext}
    (h : parseBytes t new s = .ok (ok, c, rest)) :
    HeaderGrammar s ok c.gotAll ↔ ¬ EndsUnmarked s := by
  constructor
  · intro hgrammar hmarked
    have hrefused := (hgrammar.refuses hmarked).2
    obtain ⟨l, hs, last, rest', -, rfl⟩ := hmarked
    obtain ⟨c', hgot, hparse⟩ := parseBytes_block t l hs last rest'
    rw [hparse] at h
    cases h
    rw [hgot] at hrefused
    cases hrefused
  · intro hmarked
    refine ⟨⟨fun hgot => accepts_of_gotAll h hgot hmarked, gotAll_of_accepts h⟩,
      fun hends => absurd hends hmarked, waits_of_cutShort h⟩

/-- parseRequest on a buffer that holds the bytes ends as on the bytes. -/
theorem parseRequest_of_parseBytes {t : TimeStamp} {b : Buffer} (hv : b.Valid) {rest : Bytes}
    {ok : Bool} {c : HttpContext} (h : parseBytes t new b.readable = .ok (ok, c, rest)) :
    ∃ b', parseRequest t new b = .ok (ok, c, b') := by
  have hholds := parseRequest_holds t new ⟨hv, rfl, Nat.le_refl _⟩
  rw [h] at hholds
  obtain ⟨⟨ok', c', b'⟩, hrun, hok, hctx, -⟩ := hholds.of_ok_right
  simp only at hok hctx
  subst hok hctx
  exact ⟨b', hrun⟩

/-- The header block is read as its grammar says unless a line that is neither a
header nor empty stands in the place of the empty line. -/
theorem parseRequest_headerBlock_iff (receiveTime : TimeStamp) {b : Buffer} (hv : b.Valid) :
    ∃ ok c b', parseRequest receiveTime new b = .ok (ok, c, b') ∧
      (HeaderGrammar b.readable ok c.gotAll ↔ ¬ EndsUnmarked b.readable) := by
  obtain ⟨⟨ok, c, rest⟩, hparse⟩ := parseBytes_returns new_ready receiveTime b.readable
  obtain ⟨b', hrun⟩ := parseRequest_of_parseBytes hv hparse
  exact ⟨ok, c, b', hrun, headerGrammar_iff hparse⟩

/-- Behind the end of a line there is nothing that ends like a line and is none. -/
theorem line_eq_nil {a b line : Bytes} (hfree : ¬ kCRLF <:+: line)
    (h : a ++ kCRLF = b ++ kCRLF ++ line) : line = [] := by
  rcases List.eq_nil_or_concat line with hnil | ⟨front, c, rfl⟩
  · exact hnil
  · have hlast : a ++ [13] ++ [10] = b ++ kCRLF ++ front ++ [c] := by
      rw [List.concat_eq_append, ← List.append_assoc] at h
      rw [List.append_assoc]
      exact h
    obtain ⟨hfront, hc⟩ := List.append_inj' hlast rfl
    rcases List.eq_nil_or_concat front with rfl | ⟨front, d, rfl⟩
    · have hten : a ++ [13] = b ++ [13] ++ [10] := by
        rw [hfront, List.append_nil, List.append_assoc]
        rfl
      exact absurd (List.append_inj' hten rfl).2 (by decide)
    · rw [List.concat_eq_append, ← List.append_assoc] at hfront
      have hd := (List.append_inj' hfront rfl).2
      rw [← List.singleton_inj.mp hc, ← List.singleton_inj.mp hd] at hfree
      exact absurd ⟨front, [], by simp [kCRLF]⟩ hfree

theorem ends_with_line (l : RequestLine) (hs : List HeaderLine) :
    ∃ a, l.text ++ kCRLF ++ headerLines hs = a ++ kCRLF := by
  rcases List.eq_nil_or_concat hs with rfl | ⟨hs, h, rfl⟩
  · exact ⟨l.text, List.append_nil _⟩
  · refine ⟨l.text ++ kCRLF ++ headerLines hs ++ h.line, ?_⟩
    simp [headerLines]

/-- A request that is complete has no such line. -/
theorem Accepts.not_endsUnmarked {s : Bytes} (h : Accepts s) : ¬ EndsUnmarked s := by
  obtain ⟨r, x, rfl⟩ := h
  rintro ⟨l, hs, last, rest, hne, heq⟩
  obtain ⟨c, -, hparse⟩ := parseBytes_block 0 l hs last rest
  rw [← heq, parseBytes_text] at hparse
  have hrest : x = rest := congrArg (fun p => p.2.2) (Except.ok.inj hparse)
  rw [hrest] at heq
  have htext := List.append_cancel_right heq
  rw [RequestText.text, headerText_eq, ← List.append_assoc] at htext
  obtain ⟨a, ha⟩ := ends_with_line r.line r.headers
  obtain ⟨b, hb⟩ := ends_with_line l hs
  have hlines := List.append_cancel_right htext
  rw [ha, hb] at hlines
  exact hne (line_eq_nil last.no_crlf hlines)

/-- A request with two headers is read as the grammar says. -/
theorem parseRequest_headerBlock_iff_with_headers :
    ∃ b ok c b', b.readable = bytesOf "GET / HTTP/1.1\r\nHost: a\r\nX:y\r\n\r\n".toList ∧
      parseRequest 0 new b = .ok (ok, c, b') ∧ c.gotAll = true ∧
      HeaderGrammar b.readable ok c.gotAll := by
  let r : RequestText :=
    { line := ⟨.kGet, bytesOf ['/'], [], .kHttp11,
        by decide, by decide, by decide, by decide, by decide, by decide, by decide, by decide⟩
      headers := [⟨bytesOf "Host: a".toList, by decide, by decide⟩,
        ⟨bytesOf "X:y".toList, by decide, by decide⟩] }
  obtain ⟨b, hv, hread⟩ := Buffer.exists_readable
    (show r.text.length ≤ kInitialSize by decide)
  obtain ⟨ok, c, b', hparse, hiff⟩ := parseRequest_headerBlock_iff 0 hv
  have haccepts : Accepts b.readable := ⟨r, [], by rw [hread, List.append_nil]⟩
  have hgrammar := hiff.mpr haccepts.not_endsUnmarked
  have htext : r.text =
      bytesOf "GET / HTTP/1.1\r\nHost: a\r\nX:y\r\n\r\n".toList := by decide
  exact ⟨b, ok, c, b', hread.trans htext, hparse, hgrammar.accepts.mpr haccepts, hgrammar⟩

/-- A line "Host" after the request line ends the request, and the line after it
is left for the next one. -/
theorem parseRequest_ends_at_unmarked_line :
    ∃ b ok c b', b.readable = bytesOf "GET / HTTP/1.1\r\nHost\r\nX: y\r\n\r\n".toList ∧
      parseRequest 0 new b = .ok (ok, c, b') ∧ ok = true ∧ c.gotAll = true ∧
      ¬ HeaderGrammar b.readable ok c.gotAll := by
  let l : RequestLine := ⟨.kGet, bytesOf ['/'], [], .kHttp11,
    by decide, by decide, by decide, by decide, by decide, by decide, by decide, by decide⟩
  let last : PlainLine := ⟨bytesOf "Host".toList, by decide, by decide⟩
  obtain ⟨c, hgot, hparse⟩ := parseBytes_block 0 l [] last (bytesOf "X: y\r\n\r\n".toList)
  have htext : bytesOf "GET / HTTP/1.1\r\nHost\r\nX: y\r\n\r\n".toList =
      l.text ++ kCRLF ++ headerLines [] ++ last.line ++ kCRLF ++
        bytesOf "X: y\r\n\r\n".toList := by decide
  obtain ⟨b, hv, hread⟩ := Buffer.exists_readable
    (show (bytesOf "GET / HTTP/1.1\r\nHost\r\nX: y\r\n\r\n".toList).length ≤ kInitialSize by decide)
  rw [← htext, ← hread] at hparse
  obtain ⟨b', hrun⟩ := parseRequest_of_parseBytes hv hparse
  refine ⟨b, true, c, b', hread, hrun, rfl, hgot, fun hgrammar => ?_⟩
  have hends : EndsUnmarked b.readable :=
    ⟨l, [], last, bytesOf "X: y\r\n\r\n".toList, by decide, hread.trans htext⟩
  cases (hgrammar.refuses hends).1

end HttpContext
end TAlib
