import TAlib.Http.RequestText
import TAlib.Http.Session

/-!
Request lines that the parser refuses. processRequestLine stores the method
before it looks at the rest of the line, and a refused line stays in the
buffer, so the next message meets the same line with a method already set and
the assert of setMethod fails. This is shown to be the only way to reach that
assert.
-/

namespace TAlib

open Foundation

theorem exists_of_find_ne {mem : Bytes} {start stop : Nat} {c : UInt8} (hle : start ≤ stop)
    (hstop : stop ≤ mem.length) (h : find mem start stop c ≠ stop) :
    ∃ before after, slice mem start stop = before ++ c :: after ∧ c ∉ before ∧
      find mem start stop c = start + before.length := by
  have hmem : c ∈ slice mem start stop := by
    by_contra habsent
    exact h (find_of_absent hle hstop habsent)
  obtain ⟨before, after, hslice, hbefore⟩ := List.eq_append_cons_of_mem hmem
  exact ⟨before, after, hslice, hbefore, find_of_slice after hslice hbefore⟩

namespace HttpContext

private theorem processVersion_sound {r r' : HttpRequest} {before v : Bytes}
    (h : processVersion r (before ++ v) before.length (before ++ v).length = (true, r')) :
    ∃ version : Version, version ≠ .kUnknown ∧ v = version.text := by
  unfold processVersion at h
  split at h
  · rename_i hshape
    obtain ⟨hlen, hslice⟩ := hshape
    rw [List.length_append, Nat.add_sub_cancel_left] at hlen
    have hlast : (before ++ v).length - 1 = before.length + 7 := by
      rw [List.length_append]
      omega
    have hslice' : v.take 7 = bytesOf ['H', 'T', 'T', 'P', '/', '1', '.'] := by
      rw [← hslice, hlast]
      simp [slice]
    have hget : (before ++ v).getD ((before ++ v).length - 1) 0 = v.getD 7 0 := by
      rw [hlast]
      simp [List.getD_eq_getElem?_getD, List.getElem?_append_right]
    have hv : v = v.take 7 ++ [v.getD 7 0] := by
      have hdrop : v.drop 7 = [v.getD 7 0] := by
        rw [List.drop_eq_getElem_cons (by omega), List.drop_eq_nil_of_le (by omega),
          List.getD_eq_getElem?_getD, List.getElem?_eq_getElem (by omega), Option.getD_some]
      rw [← hdrop, List.take_append_drop]
    rw [hget] at h
    rw [hslice'] at hv
    split at h
    · rename_i hone
      exact ⟨.kHttp11, by decide, by rw [hv, hone]; rfl⟩
    · split at h
      · rename_i hzero
        exact ⟨.kHttp10, by decide, by rw [hv, hzero]; rfl⟩
      · cases h
  · cases h

private theorem processTarget_sound {r r' : HttpRequest} {before rest : Bytes}
    (h : processTarget r (before ++ rest) before.length (before ++ rest).length = (true, r')) :
    ∃ target, ∃ version : Version, 32 ∉ target ∧ version ≠ .kUnknown ∧
      rest = target ++ 32 :: version.text := by
  have hrest : slice (before ++ rest) before.length (before ++ rest).length = rest :=
    slice_of_eq before [] (by simp) rfl List.length_append
  unfold processTarget at h
  simp only at h
  split at h
  · rename_i hspace
    obtain ⟨target, v, hslice, hblank, hfind⟩ :=
      exists_of_find_ne (by simp) (Nat.le_refl _) hspace
    rw [hrest] at hslice
    subst hslice
    have hsplit : before ++ (target ++ 32 :: v) = (before ++ target ++ [32]) ++ v := by simp
    have hlen : before.length + target.length + 1 = (before ++ target ++ [32]).length := by
      simp only [List.length_append, List.length_singleton]
    rw [hfind, hlen, hsplit] at h
    obtain ⟨version, hknown, rfl⟩ := processVersion_sound h
    exact ⟨target, version, hblank, hknown, rfl⟩
  · cases h

/-- The split of a request target at its first question mark. -/
theorem target_parts (target : Bytes) :
    ∃ path query, target = path ++ query ∧ 63 ∉ path ∧
      (query = [] ∨ query.head? = some 63) := by
  by_cases hq : 63 ∈ target
  · obtain ⟨path, query, rfl, hpath⟩ := List.eq_append_cons_of_mem hq
    exact ⟨path, 63 :: query, rfl, hpath, .inr rfl⟩
  · exact ⟨target, [], (List.append_nil _).symm, hq, .inl rfl⟩

/-- Only what has the parts of a request line is accepted. -/
theorem processRequestLine_sound_parts {line : Bytes} {r' : HttpRequest}
    (h : processRequestLine .new line 0 line.length = .ok (true, r')) :
    ∃ l : LineParts, line = l.text := by
  have hwhole : slice line 0 line.length = line := by simp [slice]
  unfold processRequestLine at h
  simp only at h
  split at h
  · rename_i hspace
    obtain ⟨word, rest, hslice, hblank, hfind⟩ :=
      exists_of_find_ne (Nat.zero_le _) (Nat.le_refl _) hspace
    rw [hwhole] at hslice
    subst hslice
    have hword : slice (word ++ 32 :: rest) 0 word.length = word :=
      slice_of_eq [] (32 :: rest) rfl rfl (Nat.zero_add _).symm
    rw [hfind, HttpRequest.setMethod_of_invalid rfl, Nat.zero_add, hword, ok_bind] at h
    split at h
    · rename_i hknown
      have hmethod := Method.text_of_ofText (of_decide_eq_true hknown)
      have hsplit : word ++ 32 :: rest = (word ++ [32]) ++ rest := by simp
      have hlen : word.length + 1 = (word ++ [32]).length := by simp
      rw [hlen, hsplit] at h
      obtain ⟨target, version, htarget, hversion, rfl⟩ := processTarget_sound (Except.ok.inj h)
      obtain ⟨path, query, rfl, hquestion, hstart⟩ := target_parts target
      rw [List.mem_append, not_or] at htarget
      refine ⟨⟨Method.ofText word, path, query, version, of_decide_eq_true hknown, hversion,
        htarget.1, hquestion, hstart, htarget.2⟩, ?_⟩
      simp only [LineParts.text, ← hmethod]
    · cases h
  · cases h

/-- On a line of its own it is a request line. -/
theorem processRequestLine_sound {line : Bytes} (hline : ¬ kCRLF <:+: line) {r' : HttpRequest}
    (h : processRequestLine .new line 0 line.length = .ok (true, r')) :
    ∃ l : RequestLine, line = l.text := by
  obtain ⟨l, rfl⟩ := processRequestLine_sound_parts h
  have hinfix (x : Bytes) (hx : x <:+: l.path ++ l.query) : ¬ kCRLF <:+: x := fun hcr =>
    hline (hcr.trans (hx.trans ⟨l.method.text ++ [32], 32 :: l.version.text, by
      simp [LineParts.text]⟩))
  exact ⟨⟨l.method, l.path, l.query, l.version, l.method_known, l.version_known, l.path_no_blank,
    l.path_no_question, hinfix l.path (List.prefix_append _ _).isInfix, l.query_start,
    l.query_no_blank, hinfix l.query (List.suffix_append _ _).isInfix⟩, rfl⟩

/-- The line starts with one of the five methods and a blank. -/
def NamesMethod (line : Bytes) : Prop :=
  ∃ m : Method, ∃ rest, m ≠ .kInvalid ∧ line = m.text ++ 32 :: rest

/-- A line that names a method and is no request line all the same. -/
def RefusedLine (line : Bytes) : Prop := NamesMethod line ∧ ¬ ∃ l : RequestLine, line = l.text

private theorem processTarget_method (r : HttpRequest) (mem : Bytes) (start stop : Nat) :
    (processTarget r mem start stop).2.method = r.method := by
  have hversion (r : HttpRequest) (a b : Nat) : (processVersion r mem a b).2.method = r.method := by
    unfold processVersion
    split_ifs <;> rfl
  unfold processTarget
  simp only
  split_ifs
  · exact hversion _ _ _
  · exact hversion _ _ _
  · rfl

theorem find_of_namesMethod {line rest : Bytes} {m : Method} (hline : line = m.text ++ 32 :: rest) :
    find line 0 line.length 32 = m.text.length := by
  have hblank : 32 ∉ m.text := by
    cases m <;> decide
  rw [find_of_slice rest (by simpa [slice] using hline) hblank, Nat.zero_add]

/-- The method is kept exactly when the line names one; else nothing changes. -/
theorem processRequestLine_method {line : Bytes} {ok : Bool} {r' : HttpRequest}
    (h : processRequestLine .new line 0 line.length = .ok (ok, r')) :
    (NamesMethod line ∧ r'.method ≠ .kInvalid) ∨ (¬ NamesMethod line ∧ r' = .new) := by
  have hwhole : slice line 0 line.length = line := by simp [slice]
  unfold processRequestLine at h
  simp only at h
  split at h
  · rename_i hspace
    obtain ⟨word, rest, hslice, hblank, hfind⟩ :=
      exists_of_find_ne (Nat.zero_le _) (Nat.le_refl _) hspace
    rw [hwhole] at hslice
    have hword : slice line 0 word.length = word :=
      slice_of_eq [] (32 :: rest) hslice rfl (Nat.zero_add _).symm
    rw [Nat.zero_add] at hfind
    rw [hfind, HttpRequest.setMethod_of_invalid rfl, hword, ok_bind] at h
    split at h
    · rename_i hknown
      have hne : Method.ofText word ≠ .kInvalid := of_decide_eq_true hknown
      have hpair := Except.ok.inj h
      refine .inl ⟨⟨Method.ofText word, rest, hne, ?_⟩, ?_⟩
      · rw [← Method.text_of_ofText hne]
        exact hslice
      · have hmethod := congrArg (fun p => p.2.method) hpair
        rw [processTarget_method] at hmethod
        rwa [← hmethod]
    · rename_i hunknown
      have hinvalid : Method.ofText word = .kInvalid := by simpa using hunknown
      refine .inr ⟨?_, ?_⟩
      · rintro ⟨m, rest', hm, hline⟩
        have hlen := find_of_namesMethod hline
        rw [hfind] at hlen
        rw [hslice] at hline
        have := (List.append_inj hline hlen).1
        rw [this, Method.ofText_text] at hinvalid
        exact hm hinvalid
      · have hpair := congrArg Prod.snd (Except.ok.inj h)
        simp only [hinvalid] at hpair
        exact hpair.symm
  · rename_i hspace
    refine .inr ⟨?_, (congrArg Prod.snd (Except.ok.inj h)).symm⟩
    rintro ⟨m, rest', hm, hline⟩
    apply hspace
    rw [find_of_namesMethod hline, hline]
    simp only [List.length_append, List.length_cons]
    omega

/-- What processRequestLine makes of a line from a fresh request: it takes the
line, keeps the method of a refused line, or is left as it was. -/
theorem processRequestLine_cases {line : Bytes} (hline : ¬ kCRLF <:+: line) :
    (∃ r', processRequestLine .new line 0 line.length = .ok (true, r') ∧ ¬ RefusedLine line) ∨
    (∃ r', processRequestLine .new line 0 line.length = .ok (false, r') ∧
      r'.method ≠ .kInvalid ∧ RefusedLine line) ∨
    (processRequestLine .new line 0 line.length = .ok (false, .new) ∧ ¬ RefusedLine line) := by
  obtain ⟨⟨ok, r'⟩, hp⟩ :=
    processRequestLine_returns (show HttpRequest.new.method = .kInvalid from rfl) line 0 line.length
  cases ok with
  | true => exact .inl ⟨r', hp, fun hrefused => hrefused.2 (processRequestLine_sound hline hp)⟩
  | false =>
      rcases processRequestLine_method hp with ⟨hnames, hmethod⟩ | ⟨hnot, rfl⟩
      · refine .inr (.inl ⟨r', hp, hmethod, hnames, ?_⟩)
        rintro ⟨l, rfl⟩
        rw [processRequestLine_text] at hp
        cases hp
      · exact .inr (.inr ⟨hp, fun hrefused => hnot hrefused.1⟩)

/-- The first complete line of the bytes is a refused one. -/
def StartsRefused (u : Bytes) : Prop :=
  ∃ line rest, u = line ++ kCRLF ++ rest ∧ ¬ kCRLF <:+: line ∧ RefusedLine line

theorem startsRefused_iff {u : Bytes} {k : Nat} (h : search kCRLF u = some k) :
    StartsRefused u ↔ RefusedLine (u.take k) := by
  constructor
  · rintro ⟨line, rest, rfl, hline, hrefused⟩
    obtain ⟨hfind, htake, -⟩ := search_line hline rest
    rw [hfind] at h
    cases h
    rwa [htake]
  · intro hrefused
    exact ⟨u.take k, u.drop (k + 2), search_split h, search_take_free (by decide) h, hrefused⟩

theorem not_startsRefused {u : Bytes} (h : search kCRLF u = none) : ¬ StartsRefused u := by
  rintro ⟨line, rest, rfl, hline, -⟩
  rw [(search_line hline rest).1] at h
  cases h

/-- Past the request line the parser stays among the headers or ends. -/
theorem parseBytes_headers {t : TimeStamp} {c c' : HttpContext} {s rest : Bytes} {ok : Bool}
    (hc : c.state = .kExpectHeaders) (h : parseBytes t c s = .ok (ok, c', rest)) :
    c'.state = .kExpectHeaders ∨ c'.gotAll = true := by
  revert h
  refine parseBytes_induction (t := t)
    (motive := fun c s => c.state = .kExpectHeaders → parseBytes t c s = .ok (ok, c', rest) →
      c'.state = .kExpectHeaders ∨ c'.gotAll = true) ?_ (.inr hc) s hc
  intro c s hlive ih hc h
  rw [parseBytes_step t hlive, bind_eq_ok] at h
  obtain ⟨i, hi, h⟩ := h
  have hstate : i.context.state = .kExpectHeaders ∨
      (i.context.gotAll = true ∧ i.hasMore = false) := by
    unfold iterationBytes at hi
    simp only [hc] at hi
    split at hi
    · split at hi
      · cases hi
        exact .inl rfl
      · cases hi
        exact .inr ⟨rfl, rfl⟩
    · cases hi
      exact .inl hc
  split at h
  · rename_i hmore
    rcases hstate with hstate | ⟨-, hno⟩
    · exact ih i hi hmore (.inr hstate) hstate h
    · rw [hno] at hmore
      cases hmore
  · cases h
    exact hstate.imp_right And.left

/-- A fresh context either refuses the first line and keeps its method, or
ends as a fresh context, among the headers or with a whole request. -/
theorem parseBytes_new_cases (t : TimeStamp) (u : Bytes) :
    (StartsRefused u ∧ ∃ r', r'.method ≠ .kInvalid ∧
      parseBytes t new u = .ok (false, ⟨.kExpectRequestLine, r'⟩, u)) ∨
    (¬ StartsRefused u ∧ ∃ ok c rest, parseBytes t new u = .ok (ok, c, rest) ∧
      (c = new ∨ c.state = .kExpectHeaders ∨ c.gotAll = true)) := by
  cases hfind : search kCRLF u with
  | none =>
      exact .inr ⟨not_startsRefused hfind, true, new, u,
        parseBytes_waiting t new_ready.1 hfind, .inl rfl⟩
  | some k =>
      have hlen : k + 2 ≤ u.length := search_add_length_le (by decide) hfind
      have hk : (u.take k).length = k := List.length_take_of_le (by omega)
      have hstep := parseBytes_step t new_ready.1 u
      have hiter : iterationBytes t new u = processRequestLine .new (u.take k) 0
        (u.take k).length >>=
          fun p => if p.1 then
            .ok ⟨true, true, ⟨.kExpectHeaders, p.2.setReceiveTime t⟩, u.drop (k + 2)⟩
          else .ok ⟨false, false, ⟨.kExpectRequestLine, p.2⟩, u⟩ := by
        simp only [iterationBytes, new, hfind, hk]
        rfl
      rw [startsRefused_iff hfind]
      rcases processRequestLine_cases (search_take_free (by decide) hfind) with
        ⟨r', hp, hnot⟩ | ⟨r', hp, hmethod, hrefused⟩ | ⟨hp, hnot⟩
      · rw [hp] at hiter
        rw [hiter] at hstep
        obtain ⟨⟨ok, c, rest⟩, hrest⟩ := parseBytes_returns
          (ready_of_headers (c := ⟨.kExpectHeaders, r'.setReceiveTime t⟩) rfl) t (u.drop (k + 2))
        refine .inr ⟨hnot, ok, c, rest, hstep.trans hrest, .inr (parseBytes_headers rfl hrest)⟩
      · rw [hp] at hiter
        rw [hiter] at hstep
        exact .inl ⟨hrefused, r', hmethod, hstep⟩
      · rw [hp] at hiter
        rw [hiter] at hstep
        exact .inr ⟨hnot, false, new, u, hstep, .inl rfl⟩

end HttpContext
end TAlib
