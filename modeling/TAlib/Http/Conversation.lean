import TAlib.Http.HttpConnection

/-!
What a client reads that sends requests on one connection. Each request that
has arrived whole and was handed over is answered by one response, and the
client takes the responses apart again: the requests, the chunks they come in,
the writes and the client's own reading are put together here.
-/

namespace TAlib

open Foundation

namespace HttpResponse

/-- What onRequest calls for a response. -/
def callsOf (r : HttpResponse) : List ConnectionCall :=
  .send r.text :: if r.closeConnection then [.shutdown] else []

/-- The responses up to the first one that closes the connection, with it. -/
def untilClose : List HttpResponse → List HttpResponse
  | [] => []
  | r :: rs => if r.closeConnection then [r] else r :: untilClose rs

theorem messages_callsOf (rs : List HttpResponse) :
    HttpConnection.messages (rs.flatMap callsOf) = (untilClose rs).map text := by
  induction rs with
  | nil => rfl
  | cons r rs ih =>
      rw [List.flatMap_cons, callsOf, untilClose]
      split
      · rfl
      · simp only [List.cons_append, List.nil_append, HttpConnection.messages, ih, List.map_cons]

/-- Only the last of them closes the connection, whichever of them are kept. -/
theorem untilClose_pairwise (rs : List HttpResponse) :
    (untilClose rs).Pairwise fun r _ => r.closeConnection = false := by
  induction rs with
  | nil => exact .nil
  | cons r rs ih =>
      rw [untilClose]
      split
      · exact List.pairwise_singleton _ _
      · rename_i hkeep
        exact .cons (fun _ _ => Bool.eq_false_iff.mpr hkeep) ih

theorem untilClose_subset {rs : List HttpResponse} {r : HttpResponse} (h : r ∈ untilClose rs) :
    r ∈ rs := by
  induction rs with
  | nil => exact h
  | cons r' rs ih =>
      rw [untilClose] at h
      split at h
      · exact List.mem_cons.mpr (.inl (List.mem_singleton.mp h))
      · rcases List.mem_cons.mp h with rfl | h
        · exact List.mem_cons_self
        · exact List.mem_cons_of_mem _ (ih h)

theorem dropLast_of_pairwise {rs : List HttpResponse}
    (h : rs.Pairwise fun r _ => r.closeConnection = false) :
    ∀ r ∈ rs.dropLast, r.closeConnection = false := by
  intro r hr
  have hne : rs ≠ [] := by
    intro hnil
    rw [hnil] at hr
    exact List.not_mem_nil hr
  rw [← List.dropLast_concat_getLast hne, List.pairwise_append] at h
  exact h.2.2 r hr _ List.mem_cons_self

end HttpResponse

namespace HttpServer

/-- What onRequest calls, whether or not the response was known to fit. -/
theorem onRequest_calls {httpCallback : HttpCallback} {req : HttpRequest}
    {calls : List ConnectionCall} (h : onRequest httpCallback req = .ok calls) :
    calls = (respond httpCallback req).callsOf := by
  obtain ⟨b₀, hnew, hv, hempty, -⟩ :=
    Buffer.new_spec (show kCheapPrepend + kInitialSize ≤ maxSize by decide)
  simp only [onRequest, hnew, ok_bind, bind_eq_ok] at h
  obtain ⟨b, hb, h⟩ := h
  obtain ⟨-, hread⟩ := HttpResponse.appendToBuffer_adds _ b₀ b hv hb
  rw [hempty, List.nil_append] at hread
  rw [hread] at h
  cases h
  rfl

theorem onMessage_calls {httpCallback : HttpCallback} {context : HttpContext} {buf : Buffer}
    {receiveTime : TimeStamp} {h : Handled}
    (hok : onMessage httpCallback context buf receiveTime = .ok h) :
    ∃ p, context.parseRequest receiveTime buf = .ok p ∧
      h.calls = (if p.1 then [] else [.send badRequest, .shutdown]) ++
        (h.dispatched.toList.map (respond httpCallback)).flatMap HttpResponse.callsOf := by
  simp only [onMessage, bind_eq_ok] at hok
  obtain ⟨p, hp, hok⟩ := hok
  refine ⟨p, hp, ?_⟩
  split at hok
  · obtain ⟨calls, hcalls, hok⟩ := bind_eq_ok.mp hok
    cases hok
    simp [onRequest_calls hcalls]
  · cases hok
    simp

end HttpServer

namespace Session

/-- The next bytes of well-formed requests are accepted. -/
theorem Resumes.accepts {s : Session} {u bytes w : Bytes} {requests : List RequestText}
    (hs : s.Resumes u) (hbytes : u ++ bytes ++ w = textOf requests) {t : TimeStamp}
    {p : Bool × HttpContext × Bytes}
    (hp : HttpContext.parseBytes t s.context (s.input.readable ++ bytes) = .ok p) :
    p.1 = true := by
  have hnew : ∃ c rest, HttpContext.parseBytes t .new (u ++ bytes) = .ok (true, c, rest) := by
    cases requests with
    | nil =>
        have hnil := (List.append_eq_nil_iff.mp hbytes).1
        rw [hnil]
        exact ⟨_, _, HttpContext.parseBytes_waiting _ HttpContext.new_ready.1 rfl⟩
    | cons r rs =>
        have htext : u ++ bytes ++ w = r.text ++ textOf rs := hbytes
        rcases List.append_eq_append_iff.mp htext with ⟨z, hz, -⟩ | ⟨y, hy, -⟩
        · by_cases hnil : z = []
          · rw [hnil, List.append_nil] at hz
            rw [← hz, ← List.append_nil r.text]
            exact ⟨_, _, HttpContext.parseBytes_text t r []⟩
          · obtain ⟨c, rest, hc, -⟩ := HttpContext.parseBytes_text_cutShort t hz hnil
            exact ⟨c, rest, hc⟩
        · rw [hy]
          exact ⟨_, _, HttpContext.parseBytes_text t r y⟩
  obtain ⟨c, rest, hnew⟩ := hnew
  have hsame := hs.resumes t bytes
  rw [hp, hnew] at hsame
  exact hsame.1

theorem Resumes.of_same {s s' : Session} {u : Bytes} (hs : s.Resumes u)
    (hcontext : s'.context = s.context) (hv : s'.input.Valid)
    (hread : s'.input.readable = s.input.readable) : s'.Resumes u where
  valid := hv
  live := hcontext ▸ hs.live
  resumes t x := by
    rw [hcontext, hread]
    exact hs.resumes t x
  empty hnil := hread.trans (hs.empty hnil)

end Session

namespace HttpConnection

/-- The connection as a session of messages. -/
def session (s : HttpConnection) : Session :=
  ⟨s.context, s.loop.conn.inputBuffer, s.calls, s.answered.map Prod.fst⟩

theorem readFd_delivered (b : Buffer) (bytes : Bytes) :
    b.readFd (.data (b.delivered (.data bytes))) = b.readFd (.data bytes) := by
  have hsame : b.delivered (.data (b.delivered (.data bytes))) = b.delivered (.data bytes) := by
    simp only [Buffer.delivered, List.take_take, Nat.min_self]
  simp only [Buffer.readFd, hsame]

/-- What onMessage makes of a chunk that readFd has brought is what a session
makes of it. -/
theorem onMessage_session {s t : HttpConnection} {r : ReadEvent} {bytes stream : Bytes} {b : Buffer}
    (hv : s.loop.Carries stream)
    (hb : s.loop.conn.inputBuffer.readFd (.data bytes) = .ok b)
    (h : s.onMessage r (s.loop.conn.inputBuffer.delivered (.data bytes)) b = .ok t) :
    Session.receive .readFd s.session
        ⟨s.loop.conn.inputBuffer.delivered (.data bytes), r.receiveTime, r.httpCallback⟩ =
      .ok t.session := by
  simp only [onMessage, bind_eq_ok] at h
  obtain ⟨m, hm, loop, hloop, h⟩ := h
  cases h
  have hinput : loop.conn.inputBuffer = m.input := by
    obtain ⟨hinput, -⟩ := userCalls_carries (hv.setInput m.input) hloop
    exact hinput
  have hlen : (s.loop.conn.inputBuffer.delivered (.data bytes)).length ≤
      s.loop.conn.inputBuffer.readvCapacity := List.length_take_le _ _
  have hinto : Delivery.readFd.into s.loop.conn.inputBuffer
      (s.loop.conn.inputBuffer.delivered (.data bytes)) = .ok b := by
    simp only [Delivery.readFd, if_pos hlen, readFd_delivered, hb]
  simp only [Session.receive, session, hinto, ok_bind, hm, hinput, List.map_append, List.map_map]
  congr 3
  simp [Function.comp_def]

/-- The requests `done` have been answered, and `u` is what has arrived of the
next one. -/
structure Answers (s : HttpConnection) (done : List RequestText) (u : Bytes) : Prop where
  received : s.received = textOf done ++ u
  resumes : s.session.Resumes u
  same : List.Forall₂ SameRequest (s.answered.map Prod.fst) done
  calls : s.calls = (s.answered.map Prod.snd).flatMap HttpResponse.callsOf

theorem textOf_append (rs rs' : List RequestText) : textOf (rs ++ rs') = textOf rs ++ textOf rs' :=
  List.flatMap_append

/-- A chunk of well-formed requests completes the next one, which is answered,
or leaves it incomplete. -/
theorem onMessage_answers {s t : HttpConnection} {r : ReadEvent} {bytes u w stream : Bytes}
    {b : Buffer} {done left : List RequestText} (hs : s.Answers done u)
    (hcarries : s.loop.Carries stream)
    (hb : s.loop.conn.inputBuffer.readFd (.data bytes) = .ok b)
    (h : s.onMessage r (s.loop.conn.inputBuffer.delivered (.data bytes)) b = .ok t)
    (hbytes : t.received ++ w = textOf (done ++ left)) :
    ∃ done' left' u', done' ++ left' = done ++ left ∧ t.Answers done' u' := by
  have hsession := onMessage_session hcarries hb h
  simp only [onMessage, bind_eq_ok] at h
  obtain ⟨m, hm, loop, -, h⟩ := h
  obtain ⟨p, hp, hcalls⟩ := HttpServer.onMessage_calls hm
  set chunk := s.loop.conn.inputBuffer.delivered (.data bytes) with hchunk
  have hreceived : t.received = s.received ++ chunk := by
    cases h
    rfl
  have hrest : u ++ chunk ++ w = textOf left := by
    rw [hreceived, hs.received, textOf_append, List.append_assoc, List.append_assoc] at hbytes
    rw [List.append_assoc]
    exact List.append_cancel_left hbytes
  have hok : p.1 = true := by
    obtain ⟨hbv, hread⟩ := Buffer.readFd_ok hs.resumes.valid hb
    have hholds := HttpContext.parseRequest_holds r.receiveTime s.context
      ⟨hbv, hread, Nat.le_refl _⟩
    rw [hp] at hholds
    obtain ⟨q, hq, hsame, -⟩ := hholds.of_ok_left
    rw [hsame]
    exact hs.resumes.accepts hrest hq
  rw [hok, if_pos rfl, List.nil_append] at hcalls
  have hanswered : ∃ new : List (HttpRequest × HttpResponse), t.answered = s.answered ++ new ∧
      t.calls = s.calls ++ (new.map Prod.snd).flatMap HttpResponse.callsOf := by
    cases h
    refine ⟨_, rfl, ?_⟩
    rw [hcalls, List.map_map]
    rfl
  obtain ⟨new, hanswered, htcalls⟩ := hanswered
  have hcallsOf : t.calls = (t.answered.map Prod.snd).flatMap HttpResponse.callsOf := by
    rw [htcalls, hs.calls, hanswered, List.map_append, List.flatMap_append]
  rcases Session.receive_step hs.resumes hrest hsession with
    ⟨q, rest, y, req, rfl, hy, -, hreq, hdispatched, hresumes⟩ | ⟨-, hdispatched, hresumes⟩
  · refine ⟨done ++ [q], rest, y, by simp, ?_, hresumes, ?_, hcallsOf⟩
    · rw [hreceived, hs.received, textOf_append, List.append_assoc, List.append_assoc, hy]
      simp [textOf]
    · have hmap : t.answered.map Prod.fst = s.answered.map Prod.fst ++ [req] := hdispatched
      rw [hmap]
      exact List.rel_append hs.same (.cons hreq .nil)
  · refine ⟨done, left, u ++ chunk, rfl, ?_, hresumes, ?_, hcallsOf⟩
    · rw [hreceived, hs.received, List.append_assoc]
    · have hmap : t.answered.map Prod.fst = s.answered.map Prod.fst := hdispatched
      rw [hmap]
      exact hs.same

theorem handleWrite_inputBuffer {loop loop' : InLoop} {result : WriteResult}
    (h : loop.handleWrite result = .ok loop') :
    loop'.conn.inputBuffer = loop.conn.inputBuffer := by
  simp only [InLoop.handleWrite] at h
  split at h
  · cases result with
    | error _ =>
        cases h
        rfl
    | wrote n =>
        simp only [Socket.write] at h
        split at h
        · obtain ⟨b, -, h⟩ := bind_eq_ok.mp h
          split at h
          · obtain ⟨channel, poller, -, rfl⟩ := InLoop.onChannel_ok h
            rfl
          · cases h
            rfl
        · cases h
          rfl
  · cases h
    rfl

theorem handleClose_inputBuffer {loop loop' : InLoop} (h : loop.handleClose = .ok loop') :
    loop'.conn.inputBuffer = loop.conn.inputBuffer := by
  simp only [InLoop.handleClose, bind_eq_ok] at h
  obtain ⟨_, -, m, hm, h⟩ := h
  cases h
  obtain ⟨channel, poller, -, rfl⟩ := InLoop.onChannel_ok hm
  rfl

/-- Only the loop changed, and its input buffer still holds the same bytes. -/
theorem Answers.of_loop {s : HttpConnection} {done : List RequestText} {u : Bytes}
    (hs : s.Answers done u) {loop : InLoop} (hv : loop.conn.inputBuffer.Valid)
    (hread : loop.conn.inputBuffer.readable = s.loop.conn.inputBuffer.readable) :
    Answers { s with loop := loop } done u :=
  ⟨hs.received, hs.resumes.of_same rfl hv hread, hs.same, hs.calls⟩

/-- What a step reads is added to what was read before. -/
theorem exec_received {s t : HttpConnection} {e : HttpEvent} (h : s.exec e = .ok t) :
    ∃ more, t.received = s.received ++ more := by
  cases e with
  | handleRead r =>
      simp only [exec, handleRead] at h
      split at h
      · cases h
        exact ⟨[], (List.append_nil _).symm⟩
      · simp only [bind_eq_ok] at h
        obtain ⟨b, -, h⟩ := h
        split at h
        · simp only [onMessage, bind_eq_ok] at h
          obtain ⟨m, -, loop, -, h⟩ := h
          cases h
          exact ⟨_, rfl⟩
        · obtain ⟨loop, -, h⟩ := bind_eq_ok.mp h
          cases h
          exact ⟨[], (List.append_nil _).symm⟩
  | handleWrite result =>
      obtain ⟨loop, -, h⟩ := bind_eq_ok.mp h
      cases h
      exact ⟨[], (List.append_nil _).symm⟩
  | handleClose =>
      obtain ⟨loop, -, h⟩ := bind_eq_ok.mp h
      cases h
      exact ⟨[], (List.append_nil _).symm⟩

theorem run_received {s t : HttpConnection} {events : List HttpEvent}
    (h : run exec s events = .ok t) : ∃ more, t.received = s.received ++ more := by
  induction events generalizing s with
  | nil =>
      cases h
      exact ⟨[], (List.append_nil _).symm⟩
  | cons e events ih =>
      obtain ⟨m, hm, h⟩ := run_cons_ok.mp h
      obtain ⟨first, hfirst⟩ := exec_received hm
      obtain ⟨more, hmore⟩ := ih h
      exact ⟨first ++ more, by rw [hmore, hfirst, List.append_assoc]⟩

theorem exec_answers {s t : HttpConnection} {e : HttpEvent} {u w stream : Bytes}
    {done left : List RequestText} (hs : s.Answers done u) (hcarries : s.loop.Carries stream)
    (h : s.exec e = .ok t) (hbytes : t.received ++ w = textOf (done ++ left)) :
    ∃ done' left' u', done' ++ left' = done ++ left ∧ t.Answers done' u' := by
  cases e with
  | handleRead r =>
      simp only [exec, handleRead] at h
      split at h
      · cases h
        exact ⟨done, left, u, rfl, hs⟩
      · simp only [bind_eq_ok] at h
        obtain ⟨b, hb, h⟩ := h
        split at h
        · exact onMessage_answers hs hcarries hb h hbytes
        · -- the end of the input leaves the bytes that have arrived
          rename_i hend
          obtain ⟨loop, hloop, h⟩ := bind_eq_ok.mp h
          cases h
          obtain ⟨hbv, hread⟩ := Buffer.readFd_ok hs.resumes.valid hb
          have hinput : loop.conn.inputBuffer = b := handleClose_inputBuffer hloop
          change b.readable = s.loop.conn.inputBuffer.readable ++
            s.loop.conn.inputBuffer.delivered _ at hread
          rw [List.eq_nil_of_length_eq_zero (Nat.eq_zero_of_not_pos hend), List.append_nil] at hread
          exact ⟨done, left, u, rfl, hs.of_loop (hinput ▸ hbv) (by rw [hinput]; exact hread)⟩
  | handleWrite result =>
      obtain ⟨loop, hloop, h⟩ := bind_eq_ok.mp h
      cases h
      have hinput := handleWrite_inputBuffer hloop
      exact ⟨done, left, u, rfl, hs.of_loop (hinput ▸ hs.resumes.valid) (by rw [hinput])⟩
  | handleClose =>
      obtain ⟨loop, hloop, h⟩ := bind_eq_ok.mp h
      cases h
      have hinput := handleClose_inputBuffer hloop
      exact ⟨done, left, u, rfl, hs.of_loop (hinput ▸ hs.resumes.valid) (by rw [hinput])⟩

theorem run_answers {s t : HttpConnection} {events : List HttpEvent}
    {u w : Bytes} {done left : List RequestText} (hs : s.Answers done u) (hserves : s.Serves)
    (h : run exec s events = .ok t) (hbytes : t.received ++ w = textOf (done ++ left)) :
    ∃ done' left' u', done' ++ left' = done ++ left ∧ t.Answers done' u' := by
  induction events generalizing s u done left with
  | nil =>
      cases h
      exact ⟨done, left, u, rfl, hs⟩
  | cons e events ih =>
      obtain ⟨m, hm, h⟩ := run_cons_ok.mp h
      obtain ⟨more, hmore⟩ := run_received h
      have hsofar : m.received ++ (more ++ w) = textOf (done ++ left) := by
        rw [← List.append_assoc, ← hmore, hbytes]
      obtain ⟨done', left', u', hsplit, hm'⟩ := exec_answers hs hserves.carries hm hsofar
      obtain ⟨hserves', -⟩ := exec_serves hserves hm
      rw [← hsplit] at hbytes ⊢
      exact ih hm' hserves' h hbytes

/-- Every response is the callback's, for the request it answers. -/
theorem exec_answered {s t : HttpConnection} {e : HttpEvent} (h : s.exec e = .ok t) :
    ∃ new, t.answered = s.answered ++ new ∧
      ∀ p ∈ new, ∃ r, e = .handleRead r ∧ p.2 = HttpServer.respond r.httpCallback p.1 := by
  have hnone : ∃ new, s.answered = s.answered ++ new ∧
      ∀ p ∈ new, ∃ r, e = .handleRead r ∧ p.2 = HttpServer.respond r.httpCallback p.1 :=
    ⟨[], (List.append_nil _).symm, fun p hp => absurd hp List.not_mem_nil⟩
  cases e with
  | handleRead r =>
      simp only [exec, handleRead] at h
      split at h
      · cases h
        exact hnone
      · simp only [bind_eq_ok] at h
        obtain ⟨b, -, h⟩ := h
        split at h
        · simp only [onMessage, bind_eq_ok] at h
          obtain ⟨m, -, loop, -, h⟩ := h
          cases h
          refine ⟨_, rfl, fun p hp => ⟨r, rfl, ?_⟩⟩
          obtain ⟨req, -, rfl⟩ := List.mem_map.mp hp
          rfl
        · obtain ⟨loop, -, h⟩ := bind_eq_ok.mp h
          cases h
          exact hnone
  | handleWrite result =>
      obtain ⟨loop, -, h⟩ := bind_eq_ok.mp h
      cases h
      exact hnone
  | handleClose =>
      obtain ⟨loop, -, h⟩ := bind_eq_ok.mp h
      cases h
      exact hnone

theorem run_answered {s t : HttpConnection} {events : List HttpEvent}
    (h : run exec s events = .ok t) :
    ∃ new, t.answered = s.answered ++ new ∧
      ∀ p ∈ new, ∃ r, .handleRead r ∈ events ∧ p.2 = HttpServer.respond r.httpCallback p.1 := by
  induction events generalizing s with
  | nil =>
      cases h
      exact ⟨[], (List.append_nil _).symm, fun p hp => absurd hp List.not_mem_nil⟩
  | cons e events ih =>
      obtain ⟨m, hm, h⟩ := run_cons_ok.mp h
      obtain ⟨first, hfirst, hthis⟩ := exec_answered hm
      obtain ⟨more, hmore, hlater⟩ := ih h
      refine ⟨first ++ more, by rw [hmore, hfirst, List.append_assoc], fun p hp => ?_⟩
      cases List.mem_append.mp hp with
      | inl hp =>
          obtain ⟨r, rfl, hr⟩ := hthis p hp
          exact ⟨r, List.mem_cons_self, hr⟩
      | inr hp =>
          obtain ⟨r, hmem, hr⟩ := hlater p hp
          exact ⟨r, List.mem_cons_of_mem _ hmem, hr⟩

theorem start_answers {loop : InLoop} (hs : loop.Established) : (start loop).Answers [] [] := by
  obtain ⟨-, hv, hempty⟩ := hs.fresh
  exact ⟨rfl, Session.start_resumes hv hempty, .nil, rfl⟩

/-- What has reached the stream reads back as some of the responses, or as all of
them if all that onMessage sent is taken. -/
theorem Answers.reads {t : HttpConnection} {done : List RequestText} {u : Bytes}
    (ht : t.Answers done u) (hserves : t.Serves)
    (hplain : ∀ p ∈ t.answered, p.2.Plain ∧ p.2.NamesEnd) :
    ∃ kept, kept.Sublist (HttpResponse.untilClose (t.answered.map Prod.snd)) ∧
      Reader.responses t.output.length t.output = some (kept.map HttpResponse.message) ∧
      ((∀ x ∈ t.sent, x.Taken) → kept = HttpResponse.untilClose (t.answered.map Prod.snd)) := by
  have hmessages : messages t.calls =
      (HttpResponse.untilClose (t.answered.map Prod.snd)).map HttpResponse.text := by
    rw [ht.calls, HttpResponse.messages_callsOf]
  have hsub := hserves.sublist
  rw [hmessages] at hsub
  obtain ⟨kept, hkept, htexts⟩ := List.sublist_map_iff.mp hsub
  have houtput : t.output = kept.flatMap HttpResponse.text := by
    rw [List.flatMap_def, ← htexts]
    exact hserves.carries.stream_eq
  have hmem : ∀ r ∈ kept, r.Plain ∧ r.NamesEnd := by
    intro r hr
    have hanswer := HttpResponse.untilClose_subset (hkept.subset hr)
    obtain ⟨p, hp, rfl⟩ := List.mem_map.mp hanswer
    exact hplain p hp
  refine ⟨kept, hkept, ?_, fun hall => ?_⟩
  · rw [houtput]
    exact HttpResponse.responses_ok (fun r hr => (hmem r hr).1) (fun r hr => (hmem r hr).2)
      (HttpResponse.dropLast_of_pairwise ((HttpResponse.untilClose_pairwise _).sublist hkept))
      (Nat.le_refl _)
  · have hlength := congrArg List.length (takenOf_all hall)
    rw [hserves.sent, hmessages, ← HttpConnection.kept, htexts, List.length_map,
      List.length_map] at hlength
    exact hkept.eq_of_length hlength

/-- A client that sends well-formed requests is answered one by one and in order,
however its bytes are cut and however the kernel takes the responses: what has
been written and queued reads back as responses to the first requests, up to the
first one that closes the connection, in full unless the client has stopped
taking them. -/
theorem client_reads_responses {loop : InLoop} (hs : loop.Established) {events : List HttpEvent}
    {t : HttpConnection} (h : run exec (start loop) events = .ok t) {requests : List RequestText}
    {rest : Bytes} (hbytes : t.received ++ rest = textOf requests)
    (hplain : ∀ p ∈ t.answered, p.2.Plain ∧ p.2.NamesEnd) :
    ∃ done left kept, requests = done ++ left ∧
      List.Forall₂ SameRequest (t.answered.map Prod.fst) done ∧
      (∀ p ∈ t.answered, ∃ r, .handleRead r ∈ events ∧
        p.2 = HttpServer.respond r.httpCallback p.1) ∧
      kept.Sublist (HttpResponse.untilClose (t.answered.map Prod.snd)) ∧
      Reader.responses t.output.length t.output = some (kept.map HttpResponse.message) ∧
      (Respects exec Unbroken (start loop) events →
        kept = HttpResponse.untilClose (t.answered.map Prod.snd)) := by
  have hfirst : t.received ++ rest = textOf ([] ++ requests) := hbytes
  obtain ⟨done, left, u, hsplit, hanswers⟩ :=
    run_answers (start_answers hs) (start_serves hs) h hfirst
  obtain ⟨hserves, -⟩ := run_serves (start_serves hs) h
  obtain ⟨kept, hkept, hread, hreadAll⟩ := hanswers.reads hserves hplain
  refine ⟨done, left, kept, hsplit.symm, hanswers.same, ?_, hkept, hread, fun hunbroken => ?_⟩
  · obtain ⟨new, hnew, hresponds⟩ := run_answered h
    rw [hnew]
    exact hresponds
  · exact hreadAll (run_unbroken hs h hunbroken)

/-- Two requests, cut apart in the middle of the second; the kernel takes part of
the first response, and nothing of the second until the last event. -/
def twoRequests : List HttpEvent :=
  [.handleRead ⟨.data ((textOf [Session.plainGet, Session.plainGet]).take 25), 0,
      fun _ resp => resp.setStatusCode .k200Ok, fun _ => .wrote 30⟩,
    .handleRead ⟨.data ((textOf [Session.plainGet, Session.plainGet]).drop 25), 1,
      HttpServer.defaultHttpCallback, fun _ => .error EWOULDBLOCK⟩,
    .handleWrite (.wrote 40)]

theorem client_reads_responses_two :
    ∃ loop t, loop.Established ∧ run exec (start loop) twoRequests = .ok t ∧
      t.answered.length = 2 ∧ t.loop.conn.socket.accepted.length = 70 ∧
      ∃ kept : List HttpResponse,
        kept.Sublist (HttpResponse.untilClose (t.answered.map Prod.snd)) ∧
        Reader.responses t.output.length t.output = some (kept.map HttpResponse.message) := by
  obtain ⟨t, ht, hanswered, haccepted, hreceived⟩ := resultHolds_iff.mp
    (show resultHolds (fun t : HttpConnection => t.answered.map Prod.snd =
        [(HttpResponse.new false).setStatusCode .k200Ok,
          HttpServer.respond HttpServer.defaultHttpCallback .new] ∧
        t.loop.conn.socket.accepted.length = 70 ∧
        t.received ++ [] = textOf [Session.plainGet, Session.plainGet])
      (established twoRequests) = true by decide +kernel)
  obtain ⟨loop, hloop, hrun⟩ := bind_eq_ok.mp ht
  have hplain : ∀ p ∈ t.answered, p.2.Plain ∧ p.2.NamesEnd := by
    intro p hp
    have hmem : p.2 ∈ t.answered.map Prod.snd := List.mem_map_of_mem hp
    rw [hanswered, List.mem_cons, List.mem_singleton] at hmem
    cases hmem with
    | inl hp =>
        rw [hp]
        exact ⟨⟨by decide, by decide, by decide, by decide⟩, fun h hh => absurd hh List.not_mem_nil⟩
    | inr hp =>
        rw [hp]
        exact ⟨⟨by decide, by decide, by decide, by decide⟩, fun h hh => absurd hh List.not_mem_nil⟩
  obtain ⟨-, -, kept, -, -, -, hkept, hread, -⟩ :=
    client_reads_responses (InLoop.establish_ok hloop) hrun hreceived hplain
  have hlength := congrArg List.length hanswered
  rw [List.length_map] at hlength
  exact ⟨loop, t, InLoop.establish_ok hloop, hrun, hlength, haccepted, kept, hkept, hread⟩

end HttpConnection
end TAlib
