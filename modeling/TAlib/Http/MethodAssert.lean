import TAlib.Http.RefusedLine

/-!
When the assert of setMethod fails. A session that has refused a line with a
method in it is poisoned: the next message that is delivered fails the assert,
whatever it holds. No other session fails it.
-/

namespace TAlib

open Foundation

namespace HttpResponse

variable {e : Fault} (he : e.ofBuffer = false)
include he

theorem appendHeaders_avoids (headers : List (Bytes × Bytes)) (output : Buffer) :
    Avoids e (appendHeaders headers output) := by
  induction headers generalizing output with
  | nil => exact .ok e output
  | cons h headers ih =>
      refine (Buffer.append_avoids he _ _).bind fun _ _ => ?_
      refine (Buffer.append_avoids he _ _).bind fun _ _ => ?_
      refine (Buffer.append_avoids he _ _).bind fun _ _ => ?_
      exact (Buffer.append_avoids he _ _).bind fun _ _ => ih _

theorem appendConnection_avoids (r : HttpResponse) (output : Buffer) :
    Avoids e (r.appendConnection output) :=
  Avoids.ite (fun _ => Buffer.append_avoids he _ _) fun _ =>
    (Buffer.append_avoids he _ _).bind fun _ _ => Buffer.append_avoids he _ _

theorem appendToBuffer_avoids (r : HttpResponse) (output : Buffer) :
    Avoids e (r.appendToBuffer output) := by
  refine (Buffer.append_avoids he _ _).bind fun _ _ => ?_
  refine (Buffer.append_avoids he _ _).bind fun _ _ => ?_
  refine (Buffer.append_avoids he _ _).bind fun _ _ => ?_
  refine (appendConnection_avoids he r _).bind fun _ _ => ?_
  refine (appendHeaders_avoids he _ _).bind fun _ _ => ?_
  exact (Buffer.append_avoids he _ _).bind fun _ _ => Buffer.append_avoids he _ _

end HttpResponse

namespace HttpServer

theorem onRequest_avoids {e : Fault} (he : e.ofBuffer = false) (httpCallback : HttpCallback)
    (req : HttpRequest) : Avoids e (onRequest httpCallback req) :=
  (Buffer.new_avoids he _).bind fun _ _ =>
    (HttpResponse.appendToBuffer_avoids he _ _).bind fun _ _ => .ok e _

end HttpServer

namespace Session

/-- The parser waits for a request line, and with this message the first line
is complete, names a method, and is no request line. -/
def Refuses (s : Session) (a : Arrival) : Prop :=
  s.context.state = .kExpectRequestLine ∧ HttpContext.StartsRefused (s.input.readable ++ a.bytes)

/-- Between requests, or past a request line. -/
structure Sound (s : Session) : Prop where
  valid : s.input.Valid
  context : s.context = .new ∨ s.context.state = .kExpectHeaders

/-- The parser holds a method and is to read a line with a method again. -/
structure Poisoned (s : Session) : Prop where
  valid : s.input.Valid
  state : s.context.state = .kExpectRequestLine
  method : s.context.request.method ≠ .kInvalid
  refused : HttpContext.StartsRefused s.input.readable

theorem start_sound {b : Buffer} (hv : b.Valid) : (start b).Sound := ⟨hv, .inl rfl⟩

private theorem sound_of_cases {s s' : Session} {c : HttpContext} (hv : s'.input.Valid)
    (hcases : (c.gotAll = true ∧ s'.context = .new ∧ s'.dispatched = s.dispatched ++ [c.request]) ∨
      (c.gotAll = false ∧ s'.context = c ∧ s'.dispatched = s.dispatched))
    (hc : c = .new ∨ c.state = .kExpectHeaders ∨ c.gotAll = true) : s'.Sound := by
  rcases hcases with ⟨-, hnew, -⟩ | ⟨hgot, hctx, -⟩
  · exact ⟨hv, .inl hnew⟩
  · rcases hc with hc | hc | hc
    · exact ⟨hv, .inl (hctx.trans hc)⟩
    · exact ⟨hv, .inr (by rw [hctx, hc])⟩
    · rw [hc] at hgot
      cases hgot

/-- A sound session stays sound, unless the message makes it refuse a line. -/
theorem receive_sound {d : Delivery} {s s' : Session} {a : Arrival} (hs : s.Sound)
    (h : receive d s a = .ok s') : (s.Refuses a ∧ s'.Poisoned) ∨ (¬ s.Refuses a ∧ s'.Sound) := by
  obtain ⟨ok, c, hparse, hv', hcases⟩ := receive_ok hs.valid h
  rcases hs.context with hnew | hheaders
  · rw [hnew] at hparse
    have hstate : s.context.state = .kExpectRequestLine := by
      rw [hnew]
      rfl
    rcases HttpContext.parseBytes_new_cases a.receiveTime (s.input.readable ++ a.bytes) with
      ⟨hrefused, r', hmethod, hp⟩ | ⟨hnot, ok', c', rest, hp, hc'⟩
    · rw [hp] at hparse
      simp only [Except.ok.injEq, Prod.mk.injEq] at hparse
      obtain ⟨-, rfl, hread⟩ := hparse
      rcases hcases with ⟨hgot, -, -⟩ | ⟨-, hctx, -⟩
      · cases hgot
      · refine .inl ⟨⟨hstate, hrefused⟩, hv', by rw [hctx], by rwa [hctx], ?_⟩
        rwa [← hread]
    · rw [hp] at hparse
      simp only [Except.ok.injEq, Prod.mk.injEq] at hparse
      obtain ⟨-, rfl, -⟩ := hparse
      exact .inr ⟨fun hrefuses => hnot hrefuses.2, sound_of_cases hv' hcases hc'⟩
  · refine .inr ⟨fun hrefuses => ?_, ?_⟩
    · rw [hrefuses.1] at hheaders
      cases hheaders
    · exact sound_of_cases hv' hcases (.inr (HttpContext.parseBytes_headers hheaders hparse))

theorem Sound.ready {s : Session} (hs : s.Sound) : s.context.Ready := by
  rcases hs.context with hnew | hheaders
  · rw [hnew]
    exact HttpContext.new_ready
  · refine ⟨.inr hheaders, fun hline => ?_⟩
    rw [hheaders] at hline
    cases hline

/-- A sound session does not fail the assert. -/
theorem receive_sound_avoids {d : Delivery} {s : Session} (a : Arrival) (hs : s.Sound) :
    Avoids (.assertion .setMethodInvalid) (receive d s a) := by
  refine Avoids.bind d.into_fault fun b hb => Avoids.bind ?_ fun _ _ => .ok _ _
  obtain ⟨hbv, hread⟩ := d.into_ok hs.valid hb
  have hholds := HttpContext.parseRequest_holds a.receiveTime s.context ⟨hbv, hread, Nat.le_refl _⟩
  obtain ⟨p, hp⟩ := HttpContext.parseBytes_returns hs.ready a.receiveTime
    (s.input.readable ++ a.bytes)
  rw [hp] at hholds
  obtain ⟨q, hq, -⟩ := hholds.of_ok_right
  simp only [HttpServer.onMessage, hq, ok_bind]
  refine Avoids.ite (fun _ => ?_) fun _ => .ok _ _
  exact (HttpServer.onRequest_avoids rfl _ _).bind fun _ _ => .ok _ _

/-- A poisoned session fails the assert at the next message. -/
theorem receive_poisoned {d : Delivery} {s : Session} {a : Arrival} {b : Buffer} (hs : s.Poisoned)
    (hb : d.into s.input a.bytes = .ok b) :
    receive d s a = .error (.assertion .setMethodInvalid) := by
  obtain ⟨hbv, hread⟩ := d.into_ok hs.valid hb
  have hholds := HttpContext.parseRequest_holds a.receiveTime s.context ⟨hbv, hread, Nat.le_refl _⟩
  have hfault : HttpContext.parseBytes a.receiveTime s.context (s.input.readable ++ a.bytes) =
      .error (.assertion .setMethodInvalid) := by
    obtain ⟨line, rest, hline, hcrlf, ⟨m, tail, hm, hnames⟩, -⟩ := hs.refused
    have hfirst : s.input.readable ++ a.bytes = line ++ kCRLF ++ (rest ++ a.bytes) := by
      rw [hline, List.append_assoc]
    obtain ⟨hfind, htake, -⟩ := HttpContext.search_line hcrlf (rest ++ a.bytes)
    have hspace : find line 0 line.length 32 ≠ line.length := by
      rw [HttpContext.find_of_namesMethod hnames, hnames]
      simp only [List.length_append, List.length_cons]
      omega
    rw [HttpContext.parseBytes_step _ (.inl hs.state), hfirst]
    simp only [HttpContext.iterationBytes, hs.state, hfind, htake, HttpContext.processRequestLine,
      ne_eq, hspace, not_false_eq_true, if_true, HttpRequest.setMethod_of_known hs.method]
    rfl
  rw [hfault] at hholds
  cases hparse : HttpContext.parseRequest a.receiveTime s.context b with
  | ok p =>
      rw [hparse] at hholds
      exact hholds.elim
  | error e =>
      rw [hparse] at hholds
      obtain rfl : e = _ := hholds
      simp only [receive, HttpServer.onMessage, hb, hparse, ok_bind]
      rfl

/-- A session that has handled some messages is sound or poisoned. -/
theorem run_sound_or_poisoned {d : Delivery} {s s' : Session} {arrivals : List Arrival}
    (hs : s.Sound) (h : run (receive d) s arrivals = .ok s') : s'.Sound ∨ s'.Poisoned := by
  refine run_invariant_of_step (I := fun s => s.Sound ∨ s.Poisoned) ?_ (.inl hs) h
  rintro s a t (hs | hs) ht
  · rcases receive_sound hs ht with ⟨-, hp⟩ | ⟨-, hs'⟩
    · exact .inr hp
    · exact .inl hs'
  · obtain ⟨b, hb, -⟩ := bind_eq_ok.mp ht
    rw [receive_poisoned hs hb] at ht
    cases ht

theorem sound_of_receive {d : Delivery} {s s' : Session} {a : Arrival} (hs : s.Sound ∨ s.Poisoned)
    (h : receive d s a = .ok s') : s.Sound := by
  rcases hs with hs | hs
  · exact hs
  · obtain ⟨b, hb, -⟩ := bind_eq_ok.mp h
    rw [receive_poisoned hs hb] at h
    cases h

/-- The assert of setMethod holds throughout a run of messages exactly when no
message is delivered right after one that made the parser refuse a line with a
method in it. -/
theorem setMethod_assert_iff {b : Buffer} (hv : b.Valid) (d : Delivery) (arrivals : List Arrival) :
    run (receive d) (start b) arrivals ≠ .error (.assertion .setMethodInvalid) ↔
      ∀ before a next after s s' buf, arrivals = before ++ a :: next :: after →
        run (receive d) (start b) before = .ok s → receive d s a = .ok s' →
        d.into s'.input next.bytes = .ok buf → ¬ s.Refuses a := by
  have hstart := start_sound hv
  constructor
  · rintro hrun before a next after s s' buf rfl hs hs' hbuf hrefuses
    have hsound := sound_of_receive (run_sound_or_poisoned hstart hs) hs'
    rcases receive_sound hsound hs' with ⟨-, hpoisoned⟩ | ⟨hnot, -⟩
    · refine hrun (run_eq_error.mpr ⟨before ++ [a], next, after, s', by simp, ?_,
        receive_poisoned hpoisoned hbuf⟩)
      rw [run_append_of_ok hs]
      exact run_cons_ok.mpr ⟨s', hs', rfl⟩
    · exact hnot hrefuses
  · intro hclean herror
    obtain ⟨before, next, after, s', rfl, hrun, hfault⟩ := run_eq_error.mp herror
    have hpoisoned : s'.Poisoned := by
      rcases run_sound_or_poisoned hstart hrun with hs' | hs'
      · exact absurd hfault (receive_sound_avoids next hs')
      · exact hs'
    -- the session was sound at the start, so some message has poisoned it
    rcases List.eq_nil_or_concat before with rfl | ⟨before', a, rfl⟩
    · cases hrun
      exact hpoisoned.method rfl
    · rw [List.concat_eq_append] at hrun
      obtain ⟨s, hs, hlast⟩ := run_append_ok.mp hrun
      obtain ⟨t, ht, hnil⟩ := run_cons_ok.mp hlast
      cases hnil
      have hsound := sound_of_receive (run_sound_or_poisoned hstart hs) ht
      have hdelivered : ∃ buf, d.into s'.input next.bytes = .ok buf := by
        cases hinto : d.into s'.input next.bytes with
        | ok buf => exact ⟨buf, rfl⟩
        | error e =>
            simp only [receive, hinto] at hfault
            have he : e = .assertion .setMethodInvalid := Except.error.inj hfault
            exact absurd (he ▸ hinto) d.into_fault
      obtain ⟨buf, hbuf⟩ := hdelivered
      rcases receive_sound hsound ht with ⟨hrefuses, -⟩ | ⟨-, hs'⟩
      · exact hclean before' a next after s s' buf (by simp) hs ht hbuf hrefuses
      · exact absurd hfault (receive_sound_avoids next hs')

/-- A message that the input buffer of a sound session has room for is handled. -/
theorem Sound.receive_returns {s : Session} (hs : s.Sound) {a : Arrival}
    (hint : a.bytes.length ≤ intMax) (hmax : s.input.writerIndex + a.bytes.length ≤ maxSize)
    (hfits : ∀ req, (HttpServer.respond a.httpCallback req).text.length ≤ intMax) :
    ∃ t, receive .append s a = .ok t ∧
      t.input.writerIndex ≤ s.input.writerIndex + a.bytes.length := by
  obtain ⟨b, hb, -, -, hbw⟩ := Buffer.append_spec hs.valid hint hmax
  obtain ⟨p, hp⟩ := HttpContext.parseBytes_returns hs.ready a.receiveTime
    (s.input.readable ++ a.bytes)
  obtain ⟨t, ht, htw⟩ := Session.receive_returns (d := .append) hs.valid hb hp hfits
  exact ⟨t, ht, htw.trans hbw⟩

/-- GET / without a version, and its line end. -/
def shortLine : Arrival := ⟨bytesOf "GET /\r\n".toList, 0, HttpServer.defaultHttpCallback⟩

/-- A refused line in the last message does no harm. -/
theorem setMethod_assert_iff_last_message :
    ∃ b, Buffer.new kInitialSize = .ok b ∧
      run (receive .append) (start b) [shortLine] ≠ .error (.assertion .setMethodInvalid) := by
  obtain ⟨b, hnew, hv, -, -⟩ :=
    Buffer.new_spec (show kCheapPrepend + kInitialSize ≤ maxSize by decide)
  refine ⟨b, hnew, (setMethod_assert_iff hv .append [shortLine]).mpr ?_⟩
  intro before a next after s s' buf hsplit
  have hlen := congrArg List.length hsplit
  simp only [List.length_append, List.length_cons, List.length_nil] at hlen
  omega

private theorem shortLine_refused : HttpContext.StartsRefused shortLine.bytes := by
  refine ⟨bytesOf "GET /".toList, [], by decide, by decide, ⟨.kGet, bytesOf ['/'], by decide,
    by decide⟩, ?_⟩
  rintro ⟨l, hl⟩
  have hversion : l.version.text.length = 8 := by
    have := l.version_known
    cases hv : l.version with
    | kUnknown => exact absurd hv this
    | kHttp10 | kHttp11 => rfl
  have hlen := congrArg List.length hl
  simp only [RequestLine.text, List.length_append, List.length_cons, hversion] at hlen
  have hshort : (bytesOf "GET /".toList).length = 5 := by decide
  omega

/-- The same line followed by any further message stops the server. -/
theorem setMethod_assert_fails_after_refusal :
    ∃ b, Buffer.new kInitialSize = .ok b ∧
      run (receive .append) (start b)
        [shortLine, ⟨bytesOf ['x'], 0, HttpServer.defaultHttpCallback⟩] =
          .error (.assertion .setMethodInvalid) := by
  obtain ⟨b, hnew, hv, hempty, hw⟩ :=
    Buffer.new_spec (show kCheapPrepend + kInitialSize ≤ maxSize by decide)
  have hstart := start_sound hv
  obtain ⟨s, hs, hsw⟩ := hstart.receive_returns
    (show shortLine.bytes.length ≤ intMax by decide) (by rw [start, hw]; decide)
    HttpServer.defaultResponse_fits
  have hpoisoned : s.Poisoned := by
    rcases receive_sound hstart hs with ⟨-, h⟩ | ⟨hnot, -⟩
    · exact h
    · refine absurd ⟨rfl, ?_⟩ hnot
      rw [start, hempty]
      exact shortLine_refused
  obtain ⟨n, hn, -⟩ := Buffer.append_spec hpoisoned.valid
    (show (bytesOf ['x']).length ≤ intMax by decide) (by
      have hshort : b.writerIndex + shortLine.bytes.length + (bytesOf ['x']).length ≤ maxSize := by
        rw [hw]
        decide
      exact Nat.le_trans (Nat.add_le_add_right hsw _) hshort)
  refine ⟨b, hnew, run_eq_error.mpr ⟨[shortLine], _, [], s, rfl, ?_, receive_poisoned hpoisoned hn⟩⟩
  exact run_cons_ok.mpr ⟨s, hs, rfl⟩

end Session
end TAlib
