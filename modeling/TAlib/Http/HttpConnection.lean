import TAlib.Http.Framing
import TAlib.Http.Pipelining
import TAlib.Tcp.MessageStream

/-!
A connection of an HttpServer in its loop: the message callback of
TcpConnection is onMessage, and what onMessage asks of the connection goes
through send and shutdown to the output buffer and the kernel. A peer is sent
whole responses, in the order of its requests, and nothing behind the first one
that closes the connection.
-/

namespace TAlib

open Foundation

/-- A message that onMessage sends, the state in which send finds the connection, and
the kernel's answer if send writes the message at once. -/
structure SentMessage where
  message : Bytes
  state : StateE
  answer : Option WriteResult
  deriving DecidableEq, Repr

namespace SentMessage

/-- The peer does not take the message, nor any other. -/
def Refused (x : SentMessage) : Prop :=
  x.answer = some (.error EPIPE) ∨ x.answer = some (.error ECONNRESET)

/-- It is written or queued. -/
def Taken (x : SentMessage) : Prop := x.state = .kConnected ∧ ¬ x.Refused

instance (x : SentMessage) : Decidable x.Refused := inferInstanceAs (Decidable (_ ∨ _))

instance (x : SentMessage) : Decidable x.Taken := inferInstanceAs (Decidable (_ ∧ ¬ _))

end SentMessage

/-- A connection with its context. What has been read from the kernel, what
onMessage has called, what became of the messages up to its first shutdown, and which
response it gave to which request is recorded. -/
structure HttpConnection where
  loop : InLoop
  context : HttpContext
  received : Bytes
  calls : List ConnectionCall
  sent : List SentMessage
  answered : List (HttpRequest × HttpResponse)

/-- What a call of handleRead meets: the answer of readv, the clock, the user's
callback, and how the kernel takes the writes of onMessage. -/
structure ReadEvent where
  result : ReadResult
  receiveTime : TimeStamp
  httpCallback : HttpCallback
  writes : Nat → WriteResult

inductive HttpEvent where
  | handleRead (r : ReadEvent)
  | handleWrite (result : WriteResult)
  | handleClose

def ConnectionCall.userCall (result : WriteResult) : ConnectionCall → UserCall
  | .send message => .send message result
  | .shutdown => .shutdown

/-- The calls of onMessage, each send with the answer that the kernel gives it. -/
def userCalls (writes : Nat → WriteResult) (calls : List ConnectionCall) : List UserCall :=
  calls.mapIdx fun i c => c.userCall (writes i)

/-- What becomes of the messages up to the first shutdown. -/
def sentBy : InLoop → (Nat → WriteResult) → List ConnectionCall → List SentMessage
  | _, _, [] | _, _, .shutdown :: _ => []
  | s, writes, .send message :: calls =>
      ⟨message, s.conn.state, if s.WritesDirectly then some (writes 0) else none⟩ ::
        match s.send message (writes 0) with
        | .error _ => []
        | .ok s => sentBy s (fun k => writes (k + 1)) calls

/-- The messages that reach the stream. -/
def takenOf (sent : List SentMessage) : List Bytes :=
  (sent.filter fun x => x.Taken).map SentMessage.message

namespace HttpConnection

/-- onConnection has given the connection a new context. -/
def start (loop : InLoop) : HttpConnection := ⟨loop, .new, [], [], [], []⟩

/-- m_messageCallBack on an input buffer that `chunk` has just come into. -/
def onMessage (s : HttpConnection) (r : ReadEvent) (chunk : Bytes) (buf : Buffer) :
    Except Fault HttpConnection := do
  let h ← HttpServer.onMessage r.httpCallback s.context buf r.receiveTime
  let before := s.loop.setInput h.input
  let loop ← run InLoop.userCall before (userCalls r.writes h.calls)
  return {
    loop := loop
    context := h.context
    received := s.received ++ chunk
    calls := s.calls ++ h.calls
    sent := s.sent ++ if .shutdown ∈ s.calls then [] else sentBy before r.writes h.calls
    answered := s.answered ++
      h.dispatched.toList.map fun req => (req, HttpServer.respond r.httpCallback req) }

def handleRead (s : HttpConnection) (r : ReadEvent) : Except Fault HttpConnection :=
  match r.result with
  | .error _ => .ok s
  | .data bytes => do
      let delivered := s.loop.conn.inputBuffer.delivered (.data bytes)
      let b ← s.loop.conn.inputBuffer.readFd (.data bytes)
      if 0 < delivered.length then s.onMessage r delivered b
      else do
        let loop ← (s.loop.setInput b).handleClose
        return { s with loop := loop }

def exec (s : HttpConnection) : HttpEvent → Except Fault HttpConnection
  | .handleRead r => s.handleRead r
  | .handleWrite result => do
      let loop ← s.loop.handleWrite result
      return { s with loop := loop }
  | .handleClose => do
      let loop ← s.loop.handleClose
      return { s with loop := loop }

/-- What the kernel has taken, and behind it what still has to be written. -/
def output (s : HttpConnection) : Bytes :=
  s.loop.conn.socket.accepted ++ s.loop.conn.outputBuffer.readable

/-- The messages before the first shutdown. -/
def messages : List ConnectionCall → List Bytes
  | [] => []
  | .send message :: calls => message :: messages calls
  | .shutdown :: _ => []

theorem messages_append (cs ds : List ConnectionCall) :
    messages (cs ++ ds) = messages cs ++ if .shutdown ∈ cs then [] else messages ds := by
  induction cs with
  | nil => rfl
  | cons c cs ih =>
      cases c with
      | send message =>
          have hmem : ConnectionCall.shutdown ∈ ConnectionCall.send message :: cs ↔
              ConnectionCall.shutdown ∈ cs := by simp
          simp only [List.cons_append, messages, ih, hmem]
      | shutdown => simp [messages]

/-- The peer still takes what it is sent. -/
def Unbroken (s : HttpConnection) : HttpEvent → Prop
  | .handleRead r => s.loop.conn.state ≠ .kDisConnected ∧
      ∀ k, r.writes k ≠ .error EPIPE ∧ r.writes k ≠ .error ECONNRESET
  | .handleWrite _ | .handleClose => True

section Sent

variable {s s' : InLoop} {stream : Bytes} {writes : Nat → WriteResult}
  {calls : List ConnectionCall}

theorem taken_iff_takes (s : InLoop) (message : Bytes) (result : WriteResult) :
    (⟨message, s.conn.state, if s.WritesDirectly then some result else none⟩ : SentMessage).Taken ↔
      s.Takes result := by
  by_cases hdirect : s.WritesDirectly
  · simp [SentMessage.Taken, SentMessage.Refused, InLoop.Takes, InLoop.GivesUp, hdirect]
  · simp [SentMessage.Taken, SentMessage.Refused, InLoop.Takes, InLoop.GivesUp, hdirect]

theorem takenOf_cons (x : SentMessage) (sent : List SentMessage) :
    takenOf (x :: sent) = (if x.Taken then [x.message] else []) ++ takenOf sent := by
  by_cases hx : x.Taken
  · simp [takenOf, hx]
  · simp [takenOf, hx]

theorem takenOf_append (sent sent' : List SentMessage) :
    takenOf (sent ++ sent') = takenOf sent ++ takenOf sent' := by
  simp only [takenOf, List.filter_append, List.map_append]

theorem takenOf_sublist (sent : List SentMessage) :
    (takenOf sent).Sublist (sent.map SentMessage.message) := List.filter_sublist.map _

theorem takenOf_all {sent : List SentMessage} (h : ∀ x ∈ sent, x.Taken) :
    takenOf sent = sent.map SentMessage.message := by
  rw [takenOf, List.filter_eq_self.mpr fun x hx => decide_eq_true (h x hx)]

theorem takenOf_none {sent : List SentMessage} (h : ∀ x ∈ sent, ¬ x.Taken) : takenOf sent = [] := by
  rw [takenOf, List.filter_eq_nil_iff.mpr fun x hx => by simpa using h x hx, List.map_nil]

/-- send leaves the state as it is, so all messages find the same one. -/
theorem sentBy_mem {x : SentMessage} (hs : s.Carries stream) (hx : x ∈ sentBy s writes calls) :
    x.state = s.conn.state ∧ ∀ result, x.answer = some result → ∃ k, result = writes k := by
  induction calls generalizing s stream writes with
  | nil => cases hx
  | cons c calls ih =>
      cases c with
      | shutdown => cases hx
      | send message =>
          rw [sentBy] at hx
          rcases List.mem_cons.mp hx with rfl | hx
          · refine ⟨rfl, fun result hresult => ⟨0, ?_⟩⟩
            dsimp only at hresult
            split at hresult
            · exact (Option.some.inj hresult).symm
            · cases hresult
          · split at hx
            · cases hx
            · rename_i m hm
              obtain ⟨hcarries, hstate, -⟩ := InLoop.send_carries hs hm
              obtain ⟨hsame, hanswer⟩ := ih hcarries hx
              refine ⟨hsame.trans hstate, fun result hresult => ?_⟩
              obtain ⟨k, hk⟩ := hanswer result hresult
              exact ⟨k + 1, hk⟩

theorem sentBy_closed (hs : s.Carries stream) (hclosed : s.conn.state ≠ .kConnected)
    (writes : Nat → WriteResult) (calls : List ConnectionCall) :
    takenOf (sentBy s writes calls) = [] :=
  takenOf_none fun _ hx htaken => hclosed ((sentBy_mem hs hx).1.symm.trans htaken.1)

/-- The calls of one onMessage extend the stream by the messages among theirs that are
taken, up to the first shutdown. -/
theorem userCalls_carries (hs : s.Carries stream)
    (h : run InLoop.userCall s (userCalls writes calls) = .ok s') :
    s'.conn.inputBuffer = s.conn.inputBuffer ∧
      (s'.conn.state = .kConnected ↔ s.conn.state = .kConnected ∧ .shutdown ∉ calls) ∧
      (s'.conn.state = .kDisConnected ↔ s.conn.state = .kDisConnected) ∧
      s'.Carries (stream ++ (takenOf (sentBy s writes calls)).flatten) ∧
      (sentBy s writes calls).map SentMessage.message = messages calls := by
  induction calls generalizing s stream writes with
  | nil =>
      cases h
      refine ⟨rfl, by simp, Iff.rfl, ?_, rfl⟩
      rw [sentBy, takenOf, List.filter_nil, List.map_nil, List.flatten_nil, List.append_nil]
      exact hs
  | cons c calls ih =>
      rw [userCalls, List.mapIdx_cons] at h
      obtain ⟨m, hm, hrest⟩ := run_cons_ok.mp h
      change run InLoop.userCall m (userCalls (fun k => writes (k + 1)) calls) = .ok s' at hrest
      cases c with
      | send message =>
          have hsend : s.send message (writes 0) = .ok m := hm
          obtain ⟨hcarries, hstate, hinput⟩ := InLoop.send_carries hs hsend
          obtain ⟨hinput', hconn, hdown, hstream, hsent⟩ := ih hcarries hrest
          rw [hstate] at hconn hdown
          have hmem : ConnectionCall.shutdown ∉ ConnectionCall.send message :: calls ↔
              ConnectionCall.shutdown ∉ calls := by simp
          refine ⟨hinput'.trans hinput, hconn.trans (by rw [hmem]), hdown, ?_, ?_⟩
          · simp only [sentBy, hsend, takenOf_cons, taken_iff_takes, List.flatten_append,
              ← List.append_assoc]
            split
            · rename_i htakes
              simpa only [if_pos htakes, List.flatten_singleton] using hstream
            · rename_i htakes
              simpa only [if_neg htakes, List.flatten_nil] using hstream
          · simp only [sentBy, hsend, List.map_cons, hsent, messages]
      | shutdown =>
          cases hm
          obtain ⟨hcarries, hinput, hclosed, hdown⟩ := InLoop.shutdown_carries hs
          obtain ⟨hinput', hconn, hdown', hstream, -⟩ := ih hcarries hrest
          rw [sentBy_closed hcarries hclosed] at hstream
          refine ⟨hinput'.trans hinput, ?_, hdown'.trans hdown, hstream, rfl⟩
          rw [hconn]
          simp [hclosed]

end Sent

section Output

variable {s t : HttpConnection}

/-- What has reached the stream. -/
def kept (s : HttpConnection) : List Bytes := takenOf s.sent

/-- The stream is made of the messages that are taken; the others were refused or came
too late. -/
structure Serves (s : HttpConnection) : Prop where
  carries : s.loop.Carries s.kept.flatten
  sent : s.sent.map SentMessage.message = messages s.calls
  lost : ∀ x ∈ s.sent, ¬ x.Taken → x.state = .kDisConnected ∨ x.Refused
  connected : s.loop.conn.state = .kConnected → .shutdown ∉ s.calls
  /-- The connection is as the calls left it unless it is down. -/
  open_or_down : .shutdown ∉ s.calls → s.loop.conn.state ≠ .kDisConnected →
    s.loop.conn.state = .kConnected

theorem Serves.sublist (hs : s.Serves) : s.kept.Sublist (messages s.calls) :=
  hs.sent ▸ takenOf_sublist s.sent

/-- A change of the connection that neither sends nor shuts down. -/
theorem Serves.of_loop (hs : s.Serves) {loop : InLoop} (hcarries : loop.Carries s.kept.flatten)
    (hstate : loop.conn.state = s.loop.conn.state ∨ loop.conn.state = .kDisConnected) :
    Serves { s with loop := loop } := by
  refine ⟨hcarries, hs.sent, hs.lost, fun hconn => ?_, fun hmem hup => ?_⟩
  · cases hstate with
    | inl hsame => exact hs.connected (hsame.symm.trans hconn)
    | inr hdown => exact absurd (hdown.symm.trans hconn) (by decide)
  · cases hstate with
    | inl hsame => exact hsame.trans (hs.open_or_down hmem fun h => hup (hsame.trans h))
    | inr hdown => exact absurd hdown hup

theorem onMessage_serves {r : ReadEvent} {chunk : Bytes} {buf : Buffer} (hs : s.Serves)
    (h : s.onMessage r chunk buf = .ok t) :
    t.Serves ∧ ∃ more, t.sent = s.sent ++ more ∧
      (s.Unbroken (.handleRead r) → ∀ x ∈ more, x.Taken) := by
  simp only [onMessage, bind_eq_ok] at h
  obtain ⟨m, -, loop, hloop, h⟩ := h
  cases h
  have hinput := hs.carries.setInput m.input
  obtain ⟨-, hconn, hdown, hcarries, hsent⟩ := userCalls_carries hinput hloop
  have hfound (x : SentMessage) (hx : x ∈ sentBy (s.loop.setInput m.input) r.writes m.calls) :
      x.state = s.loop.conn.state ∧ ∀ result, x.answer = some result →
        ∃ k, result = r.writes k := by
    have hmem := sentBy_mem hinput hx
    exact hmem
  change loop.conn.state = _ ↔ s.loop.conn.state = _ ∧ _ at hconn
  change loop.conn.state = _ ↔ s.loop.conn.state = _ at hdown
  rw [← List.flatten_append] at hcarries
  have hclosed : loop.conn.state = .kConnected → .shutdown ∉ s.calls ++ m.calls := by
    intro hup
    obtain ⟨hup, hm⟩ := hconn.mp hup
    simp [hs.connected hup, hm]
  have hopen : .shutdown ∉ s.calls ++ m.calls → loop.conn.state ≠ .kDisConnected →
      loop.conn.state = .kConnected := by
    intro hmem hup
    simp only [List.mem_append, not_or] at hmem
    exact hconn.mpr ⟨hs.open_or_down hmem.1 fun h => hup (hdown.mpr h), hmem.2⟩
  by_cases hmem : .shutdown ∈ s.calls
  · -- behind a shutdown nothing is taken
    rw [sentBy_closed hinput fun hup => hs.connected hup hmem, List.append_nil] at hcarries
    simp only [if_pos hmem, List.append_nil]
    refine ⟨⟨hcarries, ?_, hs.lost, hclosed, hopen⟩, [], (List.append_nil _).symm,
      fun _ x hx => absurd hx List.not_mem_nil⟩
    rw [messages_append, if_pos hmem, List.append_nil]
    exact hs.sent
  · simp only [if_neg hmem]
    refine ⟨⟨?_, ?_, fun x hx hnot => ?_, hclosed, hopen⟩, _, rfl, fun hunbroken x hx => ?_⟩
    · rw [kept, takenOf_append]
      exact hcarries
    · rw [messages_append, if_neg hmem, List.map_append, hs.sent, hsent]
    · cases List.mem_append.mp hx with
      | inl hold => exact hs.lost x hold hnot
      | inr hnew =>
          by_cases hstate : s.loop.conn.state = .kDisConnected
          · exact .inl ((hfound x hnew).1.trans hstate)
          · have hup := (hfound x hnew).1.trans (hs.open_or_down hmem hstate)
            exact .inr (Classical.not_not.mp fun hrefused => hnot ⟨hup, hrefused⟩)
    · refine ⟨(hfound x hx).1.trans (hs.open_or_down hmem hunbroken.1), fun hrefused => ?_⟩
      cases hrefused with
      | inl hpipe =>
          obtain ⟨k, hk⟩ := (hfound x hx).2 _ hpipe
          exact (hunbroken.2 k).1 hk.symm
      | inr hreset =>
          obtain ⟨k, hk⟩ := (hfound x hx).2 _ hreset
          exact (hunbroken.2 k).2 hk.symm

theorem exec_serves {e : HttpEvent} (hs : s.Serves) (h : s.exec e = .ok t) :
    t.Serves ∧ ∃ more, t.sent = s.sent ++ more ∧ (s.Unbroken e → ∀ x ∈ more, x.Taken) := by
  have hquiet {loop : InLoop} (hcarries : loop.Carries s.kept.flatten)
      (hstate : loop.conn.state = s.loop.conn.state ∨ loop.conn.state = .kDisConnected) :
      Serves { s with loop := loop } ∧ ∃ more, s.sent = s.sent ++ more ∧
        (s.Unbroken e → ∀ x ∈ more, x.Taken) :=
    ⟨hs.of_loop hcarries hstate, [], (List.append_nil _).symm,
      fun _ x hx => absurd hx List.not_mem_nil⟩
  cases e with
  | handleRead r =>
      simp only [exec, handleRead] at h
      split at h
      · cases h
        exact hquiet hs.carries (.inl rfl)
      · simp only [bind_eq_ok] at h
        obtain ⟨b, -, h⟩ := h
        split at h
        · exact onMessage_serves hs h
        · obtain ⟨loop, hloop, h⟩ := bind_eq_ok.mp h
          cases h
          obtain ⟨hcarries, hdown⟩ := InLoop.handleClose_carries (hs.carries.setInput b) hloop
          exact hquiet hcarries (.inr hdown)
  | handleWrite result =>
      obtain ⟨loop, hloop, h⟩ := bind_eq_ok.mp h
      cases h
      obtain ⟨hcarries, hstate⟩ := InLoop.handleWrite_carries hs.carries hloop
      exact hquiet hcarries (.inl hstate)
  | handleClose =>
      obtain ⟨loop, hloop, h⟩ := bind_eq_ok.mp h
      cases h
      obtain ⟨hcarries, hdown⟩ := InLoop.handleClose_carries hs.carries hloop
      exact hquiet hcarries (.inr hdown)

theorem start_serves {loop : InLoop} (h : loop.Established) : (start loop).Serves := by
  obtain ⟨-, hstate, -⟩ := h.spec
  exact ⟨h.carries, rfl, fun x hx => absurd hx List.not_mem_nil, fun _ => List.not_mem_nil,
    fun _ _ => hstate⟩

theorem run_serves {events : List HttpEvent} (hs : s.Serves) (h : run exec s events = .ok t) :
    t.Serves ∧ ∃ more, t.sent = s.sent ++ more ∧
      (Respects exec Unbroken s events → ∀ x ∈ more, x.Taken) := by
  induction events generalizing s with
  | nil =>
      cases h
      exact ⟨hs, [], (List.append_nil _).symm, fun _ x hx => absurd hx List.not_mem_nil⟩
  | cons e events ih =>
      obtain ⟨m, hm, h⟩ := run_cons_ok.mp h
      obtain ⟨hserves, more, hmore, htaken⟩ := exec_serves hs hm
      obtain ⟨hserves', more', hmore', htaken'⟩ := ih hserves h
      refine ⟨hserves', more ++ more', ?_, fun hunbroken x hx => ?_⟩
      · rw [hmore', hmore, List.append_assoc]
      · cases List.mem_append.mp hx with
        | inl hfirst => exact htaken hunbroken.1 x hfirst
        | inr hrest => exact htaken' (hunbroken.2 m hm) x hrest

/-- On a run that the peer does not break off every message is taken. -/
theorem run_unbroken {loop : InLoop} (hs : loop.Established) {events : List HttpEvent}
    (h : run exec (start loop) events = .ok t)
    (hunbroken : Respects exec Unbroken (start loop) events) : ∀ x ∈ t.sent, x.Taken := by
  obtain ⟨-, more, hmore, htaken⟩ := run_serves (start_serves hs) h
  rw [hmore]
  exact htaken hunbroken

/-- Whatever arrives, in whatever pieces, and whatever the kernel takes of each write,
the stream to the peer is made of the messages that onMessage sends before its first
shutdown, whole and in their order. Each of them that is missing was sent on a connection
already down, or the kernel refused it for good. -/
theorem output_in_order {loop : InLoop} (hs : loop.Established) {events : List HttpEvent}
    (h : run exec (start loop) events = .ok t) :
    t.sent.map SentMessage.message = messages t.calls ∧
      t.output = (takenOf t.sent).flatten ∧
      (∀ x ∈ t.sent, ¬ x.Taken → x.state = .kDisConnected ∨ x.Refused) ∧
      (Respects exec Unbroken (start loop) events → ∀ x ∈ t.sent, x.Taken) := by
  obtain ⟨hserves, -⟩ := run_serves (start_serves hs) h
  exact ⟨hserves.sent, hserves.carries.stream_eq, hserves.lost, run_unbroken hs h⟩

/-- A connection that is established and put through these events. -/
def established (events : List HttpEvent) : Except Fault HttpConnection := do
  let loop ← InLoop.establish
  run exec (start loop) events

/-- A line that is no request line: the refusal is written in two pieces. -/
theorem output_in_order_refused :
    ∃ loop t, loop.Established ∧
      run exec (start loop) [.handleRead ⟨.data (bytesOf "x\r\n".toList), 0,
        HttpServer.defaultHttpCallback, fun _ => .wrote 10⟩, .handleWrite (.wrote 40)] = .ok t ∧
      t.loop.conn.outputBuffer.readable = [] ∧ t.output = HttpServer.badRequest := by
  obtain ⟨t, ht, hsent, hempty⟩ := resultHolds_iff.mp
    (show resultHolds (fun t : HttpConnection =>
        t.sent = [⟨HttpServer.badRequest, .kConnected, some (.wrote 10)⟩] ∧
        t.loop.conn.outputBuffer.readable = [])
      (established [.handleRead ⟨.data (bytesOf "x\r\n".toList), 0,
        HttpServer.defaultHttpCallback, fun _ => .wrote 10⟩, .handleWrite (.wrote 40)]) = true by
      decide +kernel)
  obtain ⟨loop, hloop, hrun⟩ := bind_eq_ok.mp ht
  obtain ⟨-, houtput, -⟩ := output_in_order (InLoop.establish_ok hloop) hrun
  refine ⟨loop, t, InLoop.establish_ok hloop, hrun, hempty, ?_⟩
  rw [houtput, hsent]
  decide +kernel

end Output

end HttpConnection
end TAlib
