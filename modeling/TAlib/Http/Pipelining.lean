import TAlib.Http.RequestText
import TAlib.Http.Session
import Mathlib.Data.List.Forall2

/-!
Pipelined requests on one connection. onMessage hands over at most one request
per call, so how many of the requests that have arrived are dispatched depends
on how the bytes were cut into messages. The exact condition is proved: no
final stretch of the messages may complete more requests than it has messages.
-/

namespace TAlib

open Foundation

/-- The bytes of a list of requests sent one after another. -/
def textOf (reqs : List RequestText) : Bytes := reqs.flatMap RequestText.text

def bytesOfArrivals (arrivals : List Arrival) : Bytes := arrivals.flatMap Arrival.bytes

/-- How many of the requests end within the first `k` bytes. -/
def completed : List RequestText → Nat → Nat
  | [], _ => 0
  | r :: rs, k => if r.text.length ≤ k then completed rs (k - r.text.length) + 1 else 0

/-- A dispatched request has the fields that its text gives. -/
def SameRequest (req : HttpRequest) (r : RequestText) : Prop :=
  req.method = r.line.method ∧ req.path = r.line.path ∧ req.query = r.line.query ∧
    req.version = r.line.version ∧ req.headers = RequestText.enterAll .empty r.headers

/-- `n` requests can be dispatched by the messages when `k` bytes have arrived
before them: there are enough messages, and whatever number of them is still
to come is no less than what the bytes before leave to do. -/
def Room (rs : List RequestText) (k : Nat) (arrivals : List Arrival) (n : Nat) : Prop :=
  n ≤ arrivals.length ∧ ∀ before after, before ≠ [] → arrivals = before ++ after →
    n ≤ completed rs (k + (bytesOfArrivals before).length) + after.length

theorem bytesOfArrivals_cons_length (a : Arrival) (arrivals : List Arrival) :
    (bytesOfArrivals (a :: arrivals)).length = a.bytes.length +
    (bytesOfArrivals arrivals).length := by
  simp [bytesOfArrivals]

theorem room_cons (rs : List RequestText) (k : Nat) (a : Arrival) (arrivals : List Arrival)
    (n : Nat) :
    Room rs k (a :: arrivals) n ↔
      n ≤ arrivals.length + 1 ∧ n ≤ completed rs (k + a.bytes.length) + arrivals.length ∧
      ∀ before after, before ≠ [] → arrivals = before ++ after →
        n ≤ completed rs (k + a.bytes.length + (bytesOfArrivals before).length) + after.length := by
  constructor
  · rintro ⟨hlen, hroom⟩
    refine ⟨hlen, ?_, fun before after _ h => ?_⟩
    · simpa [bytesOfArrivals] using hroom [a] arrivals (List.cons_ne_nil _ _) rfl
    · have := hroom (a :: before) after (List.cons_ne_nil _ _) (by rw [h]; rfl)
      rwa [bytesOfArrivals_cons_length, ← Nat.add_assoc] at this
  · rintro ⟨hlen, hone, hmore⟩
    refine ⟨hlen, fun before after hne h => ?_⟩
    cases before with
    | nil => exact absurd rfl hne
    | cons b before =>
        obtain ⟨rfl, hrest⟩ := List.cons.inj h
        rw [bytesOfArrivals_cons_length, ← Nat.add_assoc]
        cases before with
        | nil =>
            obtain rfl : arrivals = after := hrest
            simpa [bytesOfArrivals] using hone
        | cons b before => exact hmore (b :: before) after (List.cons_ne_nil _ _) hrest

/-- A message that completes the first request leaves room for one less. -/
theorem room_complete {r : RequestText} {rs : List RequestText} {k : Nat} {a : Arrival}
    (h : r.text.length ≤ k + a.bytes.length) (arrivals : List Arrival) (n : Nat) :
    Room (r :: rs) k (a :: arrivals) n ↔
      Room rs (k + a.bytes.length - r.text.length) arrivals (n - 1) := by
  have hcompleted : ∀ m, completed (r :: rs) (k + a.bytes.length + m) =
      completed rs (k + a.bytes.length - r.text.length + m) + 1 := by
    intro m
    rw [completed, if_pos (by omega)]
    congr 2
    omega
  have hzero := hcompleted 0
  simp only [Nat.add_zero] at hzero
  rw [room_cons, hzero]
  simp only [hcompleted, Room]
  constructor
  · rintro ⟨hlen, -, hmore⟩
    refine ⟨by omega, fun before after hne hsplit => ?_⟩
    have := hmore before after hne hsplit
    omega
  · rintro ⟨hlen, hmore⟩
    refine ⟨by omega, by omega, fun before after hne hsplit => ?_⟩
    have := hmore before after hne hsplit
    omega

theorem room_waits {rs : List RequestText} {k : Nat} {a : Arrival}
    (h : completed rs (k + a.bytes.length) = 0) (arrivals : List Arrival) (n : Nat) :
    Room rs k (a :: arrivals) n ↔ Room rs (k + a.bytes.length) arrivals n := by
  rw [room_cons, h]
  constructor
  · rintro ⟨-, hone, hmore⟩
    exact ⟨by omega, hmore⟩
  · rintro ⟨hlen, hmore⟩
    exact ⟨by omega, by omega, hmore⟩

namespace HttpContext

/-- A text that stops short of the end of the request leaves the parser waiting. -/
theorem parseBytes_text_cutShort (t : TimeStamp) {r : RequestText} {v z : Bytes}
    (h : r.text = v ++ z) (hz : z ≠ []) :
    ∃ c rest, parseBytes t new v = .ok (true, c, rest) ∧ c.gotAll = false := by
  obtain ⟨⟨ok, c, rest⟩, hp⟩ := parseBytes_returns new_ready t v
  have hwhole := parseBytes_text t r []
  rw [List.append_nil, h, parseBytes_append t new_ready.1, hp, ok_bind] at hwhole
  by_cases hgo : ok = true ∧ c.gotAll = false
  · exact ⟨c, rest, by rw [hp, hgo.1], hgo.2⟩
  · -- the parser never gives back bytes, so it cannot have stopped before them
    rw [if_neg hgo] at hwhole
    have hrest := congrArg (fun p => p.2.2) (Except.ok.inj hwhole)
    exact absurd (List.append_eq_nil_iff.mp hrest).2 hz

end HttpContext

namespace Session

/-- Every request was handed to onRequest once, in order, and nothing is left. -/
def AllDispatched (s : Session) (reqs : List RequestText) : Prop :=
  List.Forall₂ SameRequest s.dispatched reqs ∧ s.input.readable = []

/-- The session will make of any further bytes what a fresh one would make of
them after the bytes `u`. -/
structure Resumes (s : Session) (u : Bytes) : Prop where
  valid : s.input.Valid
  live : s.context.Live
  resumes : ∀ t x, Corresponds HttpContext.SameOutcome
    (HttpContext.parseBytes t s.context (s.input.readable ++ x))
    (HttpContext.parseBytes t .new (u ++ x))
  empty : u = [] → s.input.readable = []

theorem start_resumes {b : Buffer} (hv : b.Valid) (hempty : b.readable = []) :
    (start b).Resumes [] where
  valid := hv
  live := .inl rfl
  resumes t x := by
    rw [start, hempty]
    exact HttpContext.parseBytes_time (HttpContext.SameButTime.refl _) t t _
  empty _ := hempty

/-- Bytes that complete the next request have it dispatched. -/
theorem receive_complete {d : Delivery} {s s' : Session} {a : Arrival} {u y : Bytes}
    {r : RequestText} (hs : s.Resumes u) (hbytes : u ++ a.bytes = r.text ++ y)
    (h : receive d s a = .ok s') :
    ∃ req, SameRequest req r ∧ s'.dispatched = s.dispatched ++ [req] ∧ s'.Resumes y := by
  obtain ⟨ok, c, hparse, hv', hcases⟩ := receive_ok hs.valid h
  have hsame := hs.resumes a.receiveTime a.bytes
  rw [hparse, hbytes, HttpContext.parseBytes_text] at hsame
  obtain ⟨-, hctx, hrest⟩ := hsame
  simp only at hctx hrest
  obtain ⟨t, ht⟩ := hctx.symm
  have hreq : c.request = (r.request a.receiveTime).setReceiveTime t := by
    rw [ht]
    rfl
  have hgot : c.gotAll = true := by
    rw [ht]
    rfl
  rcases hcases with ⟨-, hnew, hdisp⟩ | ⟨hno, -, -⟩
  · refine ⟨c.request, ?_, hdisp, hv', ?_, fun t x => ?_, fun hy => hrest.trans hy⟩
    · rw [hreq]
      exact ⟨rfl, rfl, rfl, rfl, rfl⟩
    · rw [hnew]
      exact .inl rfl
    · rw [hnew, hrest]
      exact HttpContext.parseBytes_time (HttpContext.SameButTime.refl _) t t _
  · rw [hgot] at hno
    cases hno

/-- Bytes that do not complete a request are kept. -/
theorem receive_waits {d : Delivery} {s s' : Session} {a : Arrival} {u : Bytes}
    (hs : s.Resumes u)
    (hwait : ∃ c rest, HttpContext.parseBytes a.receiveTime .new (u ++ a.bytes) =
      .ok (true, c, rest) ∧ c.gotAll = false)
    (h : receive d s a = .ok s') :
    s'.dispatched = s.dispatched ∧ s'.Resumes (u ++ a.bytes) := by
  obtain ⟨c', rest, hnew, hgot'⟩ := hwait
  obtain ⟨ok, c, hparse, hv', hcases⟩ := receive_ok hs.valid h
  have hsame := hs.resumes a.receiveTime a.bytes
  rw [hparse, hnew] at hsame
  obtain ⟨-, hctx, hrest⟩ := hsame
  simp only at hctx hrest
  rcases hcases with ⟨hgot, -, -⟩ | ⟨hgot, hc, hdisp⟩
  · rw [← hctx.gotAll_eq, hgot'] at hgot
    cases hgot
  · have hlive : c.Live := by
      rcases HttpContext.parseBytes_state hs.live hparse with hlive | ⟨hall, -⟩
      · exact hlive
      · rw [hall] at hgot
        cases hgot
    refine ⟨hdisp, hv', by rwa [hc], fun t x => ?_, fun hnil => ?_⟩
    · have htime := HttpContext.parseBytes_time (HttpContext.SameButTime.refl .new) a.receiveTime t
        (u ++ a.bytes)
      rw [hnew] at htime
      obtain ⟨⟨ok'', c'', rest''⟩, ht, hok, hcc, hrr⟩ := htime.of_ok_left
      simp only at hok hcc hrr
      subst hok hrr
      rw [HttpContext.parseBytes_append t HttpContext.new_ready.1, ht, ok_bind,
        if_pos ⟨rfl, hcc.gotAll_eq.trans hgot'⟩, hc, hrest]
      exact HttpContext.parseBytes_time (hctx.trans hcc) t t _
    · rw [hnil, HttpContext.parseBytes_waiting _ HttpContext.new_ready.1 rfl] at hnew
      rw [hrest]
      exact (congrArg (fun p => p.2.2) (Except.ok.inj hnew)).symm

/-- A message completes the next request, which is dispatched, or leaves it
incomplete. -/
theorem receive_step {d : Delivery} {s s' : Session} {a : Arrival} {u w : Bytes}
    {rs : List RequestText} (hs : s.Resumes u) (hbytes : u ++ a.bytes ++ w = textOf rs)
    (h : receive d s a = .ok s') :
    (∃ r rs' y req, rs = r :: rs' ∧ u ++ a.bytes = r.text ++ y ∧ y ++ w = textOf rs' ∧
      SameRequest req r ∧ s'.dispatched = s.dispatched ++ [req] ∧ s'.Resumes y) ∨
    (completed rs (u ++ a.bytes).length = 0 ∧ s'.dispatched = s.dispatched ∧
      s'.Resumes (u ++ a.bytes)) := by
  cases rs with
  | nil =>
      have hnil := (List.append_eq_nil_iff.mp hbytes).1
      refine .inr ⟨rfl, receive_waits hs ?_ h⟩
      rw [hnil]
      exact ⟨_, _, HttpContext.parseBytes_waiting _ HttpContext.new_ready.1 rfl, rfl⟩
  | cons r rs' =>
      have htext : u ++ a.bytes ++ w = r.text ++ textOf rs' := hbytes
      have hdispatch (y : Bytes) (hy : u ++ a.bytes = r.text ++ y) (hw : y ++ w = textOf rs') :
          ∃ r' rs'' y req, r :: rs' = r' :: rs'' ∧ u ++ a.bytes = r'.text ++ y ∧
            y ++ w = textOf rs'' ∧ SameRequest req r' ∧ s'.dispatched = s.dispatched ++ [req] ∧
            s'.Resumes y := by
        obtain ⟨req, hreq, hdisp, hs'⟩ := receive_complete hs hy h
        exact ⟨r, rs', y, req, rfl, hy, hw, hreq, hdisp, hs'⟩
      rcases List.append_eq_append_iff.mp htext with ⟨z, hz, hrest⟩ | ⟨y, hy, hrest⟩
      · by_cases hnil : z = []
        · subst hnil
          exact .inl (hdispatch [] (by simpa using hz.symm) (by simpa using hrest))
        · refine .inr ⟨?_, receive_waits hs (HttpContext.parseBytes_text_cutShort _ hz hnil) h⟩
          have hpos := List.length_pos_iff.mpr hnil
          have hlen := congrArg List.length hz
          rw [List.length_append] at hlen
          rw [completed, if_neg (by omega)]
      · exact .inl (hdispatch y hy hrest.symm)

theorem bytesOfArrivals_cons (u : Bytes) (a : Arrival) (arrivals : List Arrival) :
    u ++ bytesOfArrivals (a :: arrivals) = u ++ a.bytes ++ bytesOfArrivals arrivals := by
  simp [bytesOfArrivals]

/-- A run dispatches an initial part of the requests, as long as there is room. -/
theorem run_dispatches {d : Delivery} {s s' : Session} {u : Bytes} {arrivals : List Arrival}
    {rs : List RequestText} (hs : s.Resumes u) (hbytes : u ++ bytesOfArrivals arrivals = textOf rs)
    (h : run (receive d) s arrivals = .ok s') :
    ∃ reqs done left, rs = done ++ left ∧ s'.dispatched = s.dispatched ++ reqs ∧
      List.Forall₂ SameRequest reqs done ∧ (left = [] → s'.input.readable = []) ∧
      ∀ n, n ≤ done.length ↔ Room rs u.length arrivals n := by
  induction arrivals generalizing s u rs with
  | nil =>
      cases h
      refine ⟨[], [], rs, rfl, (List.append_nil _).symm, .nil, fun hrs => ?_, fun n => ?_⟩
      · subst hrs
        exact hs.empty (List.append_eq_nil_iff.mp hbytes).1
      · constructor
        · intro hn
          refine ⟨hn, fun before after hne hsplit => ?_⟩
          exact absurd (List.append_eq_nil_iff.mp hsplit.symm).1 hne
        · intro hroom
          exact hroom.1
  | cons a arrivals ih =>
      obtain ⟨m, hm, h⟩ := run_cons_ok.mp h
      rw [bytesOfArrivals_cons] at hbytes
      have hlen : (u ++ a.bytes).length = u.length + a.bytes.length := List.length_append
      rcases receive_step hs hbytes hm with
        ⟨r, rs', y, req, rfl, hy, hleft, hreq, hdisp, hm'⟩ | ⟨hzero, hdisp, hm'⟩
      · obtain ⟨reqs, done, left, hrs, hreqs, hall, hempty, hroom⟩ := ih hm' hleft h
        have hylen := congrArg List.length hy
        rw [hlen, List.length_append] at hylen
        refine ⟨req :: reqs, r :: done, left, by rw [hrs]; rfl, ?_, .cons hreq hall, hempty,
          fun n => ?_⟩
        · rw [hreqs, hdisp, List.append_assoc]
          rfl
        · rw [room_complete (by omega), show u.length + a.bytes.length - r.text.length = y.length
            by omega, ← hroom, List.length_cons]
          omega
      · obtain ⟨reqs, done, left, hrs, hreqs, hall, hempty, hroom⟩ := ih hm' hbytes h
        refine ⟨reqs, done, left, hrs, by rw [hreqs, hdisp], hall, hempty, fun n => ?_⟩
        rw [hlen] at hzero hroom
        rw [room_waits hzero, hroom]

/-- The messages of well-formed requests are all handled when their bytes have
room in the buffer and the responses fit theirs. -/
theorem run_append_returns {s : Session} {u : Bytes} {arrivals : List Arrival}
    {rs : List RequestText} (hs : s.Resumes u) (hbytes : u ++ bytesOfArrivals arrivals = textOf rs)
    (hint : (bytesOfArrivals arrivals).length ≤ intMax)
    (hmax : s.input.writerIndex + (bytesOfArrivals arrivals).length ≤ maxSize)
    (hfits : ∀ a ∈ arrivals, ∀ req, (HttpServer.respond a.httpCallback req).text.length ≤ intMax) :
    ∃ s', run (receive .append) s arrivals = .ok s' := by
  induction arrivals generalizing s u rs with
  | nil => exact ⟨s, rfl⟩
  | cons a arrivals ih =>
      rw [bytesOfArrivals_cons] at hbytes
      rw [bytesOfArrivals_cons_length] at hint hmax
      obtain ⟨b, hb, -, -, hw⟩ :=
        Buffer.append_spec hs.valid (show a.bytes.length ≤ intMax by omega) (by omega)
      obtain ⟨q, hq⟩ :=
        HttpContext.parseBytes_returns HttpContext.new_ready a.receiveTime (u ++ a.bytes)
      have hparse := hs.resumes a.receiveTime a.bytes
      rw [hq] at hparse
      obtain ⟨p, hp, -⟩ := hparse.of_ok_right
      obtain ⟨m, hm, hmw⟩ := receive_returns (d := .append) hs.valid hb hp
        (hfits a List.mem_cons_self)
      have hrest : ∀ a ∈ arrivals, ∀ req,
          (HttpServer.respond a.httpCallback req).text.length ≤ intMax :=
        fun a ha => hfits a (List.mem_cons_of_mem _ ha)
      have hnext : ∃ s', run (receive .append) m arrivals = .ok s' := by
        rcases receive_step hs hbytes hm with
          ⟨r, rs', y, req, -, -, hleft, -, -, hm'⟩ | ⟨-, -, hm'⟩
        · exact ih hm' hleft (by omega) (by omega) hrest
        · exact ih hm' hbytes (by omega) (by omega) hrest
      obtain ⟨s', hs'⟩ := hnext
      exact ⟨s', run_cons_ok.mpr ⟨m, hm, hs'⟩⟩

theorem completed_zero (reqs : List RequestText) : completed reqs 0 = 0 := by
  cases reqs with
  | nil => rfl
  | cons r rs =>
      have hpos : 0 < r.text.length := by
        rw [RequestText.text, List.length_append, List.length_append]
        exact Nat.add_pos_left (Nat.add_pos_right _ (by decide)) _
      rw [completed, if_neg (by omega)]

/-- Every request is dispatched, in order, with nothing left over, exactly when
no final stretch of the messages completes more requests than it has messages.
The run itself returns when bytes and responses fit their buffers. -/
theorem allDispatched_iff {b : Buffer} (hv : b.Valid) (hempty : b.readable = [])
    {reqs : List RequestText} {arrivals : List Arrival}
    (hcut : bytesOfArrivals arrivals = textOf reqs) :
    (∀ d s, run (receive d) (start b) arrivals = .ok s →
      (s.AllDispatched reqs ↔ ∀ before after, arrivals = before ++ after →
        reqs.length ≤ completed reqs (bytesOfArrivals before).length + after.length)) ∧
    ((bytesOfArrivals arrivals).length ≤ intMax →
      b.writerIndex + (bytesOfArrivals arrivals).length ≤ maxSize →
      (∀ a ∈ arrivals, ∀ req, (HttpServer.respond a.httpCallback req).text.length ≤ intMax) →
      ∃ s, run (receive .append) (start b) arrivals = .ok s) := by
  have hstart := start_resumes hv hempty
  have hbytes : [] ++ bytesOfArrivals arrivals = textOf reqs := hcut
  refine ⟨fun d s hrun => ?_,
    fun hint hmax hfits => run_append_returns hstart hbytes hint hmax hfits⟩
  obtain ⟨dispatched, done, left, rfl, hdisp, hall, hleft, hroom⟩ :=
    run_dispatches hstart hbytes hrun
  have hdisp' : s.dispatched = dispatched := hdisp
  have hcount : s.AllDispatched (done ++ left) ↔ (done ++ left).length ≤ done.length := by
    constructor
    · rintro ⟨hsame, -⟩
      rw [← hsame.length_eq, hdisp', hall.length_eq]
    · intro hle
      have hnil : left = [] := by
        rw [List.length_append] at hle
        exact List.eq_nil_of_length_eq_zero (by omega)
      refine ⟨?_, hleft hnil⟩
      rw [hdisp', hnil, List.append_nil]
      exact hall
  rw [hcount, hroom]
  simp only [Room, List.length_nil, Nat.zero_add]
  constructor
  · rintro ⟨hlen, hmore⟩ before after hsplit
    cases before with
    | nil =>
        obtain rfl : arrivals = after := hsplit
        omega
    | cons a before => exact hmore (a :: before) after (List.cons_ne_nil _ _) hsplit
  · intro h
    refine ⟨?_, fun before after _ hsplit => h before after hsplit⟩
    have := h [] arrivals rfl
    rwa [bytesOfArrivals, List.flatMap_nil, List.length_nil, completed_zero, Nat.zero_add] at this

/-- GET / HTTP/1.1 without headers. -/
def plainGet : RequestText where
  line := ⟨.kGet, bytesOf ['/'], [], .kHttp11, by decide, by decide, by decide, by decide,
    by decide, .inl rfl, by decide, by decide⟩
  headers := []

private theorem plainGets_return {b : Buffer} (hv : b.Valid) (hempty : b.readable = [])
    (hw : b.writerIndex = kCheapPrepend) {x y : Bytes}
    (hcut : x ++ y = textOf [plainGet, plainGet]) :
    ∃ s, run (receive .append) (start b) [⟨x, 0, HttpServer.defaultHttpCallback⟩,
      ⟨y, 0, HttpServer.defaultHttpCallback⟩] = .ok s := by
  have hbytes : bytesOfArrivals [⟨x, 0, HttpServer.defaultHttpCallback⟩,
      ⟨y, 0, HttpServer.defaultHttpCallback⟩] = textOf [plainGet, plainGet] := by
    simpa [bytesOfArrivals] using hcut
  refine run_append_returns (start_resumes hv hempty) hbytes (by rw [hbytes]; decide) ?_ ?_
  · rw [hbytes, start, hw]
    decide
  · intro a ha
    have hcallback : a.httpCallback = HttpServer.defaultHttpCallback := by
      simp only [List.mem_cons, List.not_mem_nil, or_false] at ha
      rcases ha with rfl | rfl
      · rfl
      · rfl
    rw [hcallback]
    exact HttpServer.defaultResponse_fits

/-- Two requests in two messages, the first of which ends inside the second
request. -/
theorem allDispatched_iff_two_messages :
    ∃ b s, Buffer.new kInitialSize = .ok b ∧
      run (receive .append) (start b)
        [⟨(textOf [plainGet, plainGet]).take 25, 0, HttpServer.defaultHttpCallback⟩,
          ⟨(textOf [plainGet, plainGet]).drop 25, 0, HttpServer.defaultHttpCallback⟩] = .ok s ∧
      s.AllDispatched [plainGet, plainGet] := by
  obtain ⟨b, hnew, hv, hempty, hw⟩ :=
    Buffer.new_spec (show kCheapPrepend + kInitialSize ≤ maxSize by decide)
  obtain ⟨s, hs⟩ := plainGets_return hv hempty hw (List.take_append_drop 25 _)
  have hcut : bytesOfArrivals
      [⟨(textOf [plainGet, plainGet]).take 25, 0, HttpServer.defaultHttpCallback⟩,
        ⟨(textOf [plainGet, plainGet]).drop 25, 0, HttpServer.defaultHttpCallback⟩] =
      textOf [plainGet, plainGet] := by decide
  refine ⟨b, s, hnew, hs, ((allDispatched_iff hv hempty hcut).1 .append s hs).mpr ?_⟩
  intro before after hsplit
  cases before with
  | nil =>
      subst hsplit
      decide
  | cons x before =>
      obtain ⟨rfl, hrest⟩ := List.cons.inj hsplit
      clear hsplit
      cases before with
      | nil =>
          subst hrest
          decide
      | cons y before =>
          obtain ⟨rfl, hnil⟩ := List.cons.inj hrest
          obtain ⟨rfl, rfl⟩ := List.append_eq_nil_iff.mp hnil.symm
          decide

/-- Two requests in one message: only the first is dispatched, and the second
stays in the buffer although all its bytes have arrived. -/
theorem allDispatched_fails_on_one_message :
    ∃ b s, Buffer.new kInitialSize = .ok b ∧
      run (receive .append) (start b)
        [⟨textOf [plainGet, plainGet], 0, HttpServer.defaultHttpCallback⟩] = .ok s ∧
      s.dispatched.length = 1 ∧ s.input.readable = plainGet.text ∧
      ¬ s.AllDispatched [plainGet, plainGet] := by
  obtain ⟨b, hnew, hv, hempty, hw⟩ :=
    Buffer.new_spec (show kCheapPrepend + kInitialSize ≤ maxSize by decide)
  have hstart := start_resumes hv hempty
  obtain ⟨t, ht⟩ := plainGets_return hv hempty hw (List.append_nil _)
  obtain ⟨s, hs, -⟩ := run_cons_ok.mp ht
  have hbytes : ([] : Bytes) ++ textOf [plainGet, plainGet] = plainGet.text ++ plainGet.text := by
    decide
  obtain ⟨ok, c, hparse, -, -⟩ := receive_ok hstart.valid hs
  obtain ⟨req, -, hdisp, -⟩ := receive_complete hstart hbytes hs
  have hlen : s.dispatched.length = 1 := by
    rw [hdisp]
    rfl
  refine ⟨b, s, hnew, run_cons_ok.mpr ⟨s, hs, rfl⟩, hlen, ?_, fun hall => ?_⟩
  · have hread : (start b).input.readable ++ textOf [plainGet, plainGet] =
        plainGet.text ++ plainGet.text := by
      rw [start, hempty]
      exact hbytes
    rw [hread] at hparse
    have hsame := HttpContext.parseBytes_text 0 plainGet plainGet.text
    have heq := hparse.symm.trans hsame
    exact congrArg (fun p => p.2.2) (Except.ok.inj heq)
  · have := hall.1.length_eq
    rw [hlen] at this
    cases this

end Session
end TAlib
