import TAlib.Redis.BufferTail
import TAlib.Redis.Link

/-!
Calls of execute one after another on one connection. The server answers each
command that it has read whole with one reply, in order, and the bytes of the replies
arrive at any time and in any pieces. What a call does not read stays in the socket,
and the next call takes it for the beginning of its own reply. What a write leaves
unfinished stays with the server, and the next command is taken for its rest. A call
that starts with neither, and in which the parser stays inside the received bytes,
decodes its own reply and nothing else.
-/

namespace TAlib

open Foundation RedisConnect

/-- A call of execute: the command, and what it meets. -/
structure ExecuteCall where
  cmd : Command
  x : Exchange
  deriving DecidableEq, Repr

/-- What was given to a call and what came out: the bytes that were on the wire, those
that the call has added, what the server writes because of them, and what the call has
received. The received bytes have the number of the call whose bytes they answer. -/
structure ExecuteResult where
  number : Nat
  vec : List Bytes
  wire : Bytes
  sent : Bytes
  reply : Bytes
  received : List (Nat × UInt8)
  answer : Command.Answer
  deriving DecidableEq, Repr

/-- A connection, the bytes of the replies that it has not read, and its calls. -/
structure RedisSession where
  link : Link
  unread : List (Nat × UInt8)
  results : List ExecuteResult
  deriving DecidableEq, Repr

namespace RedisSession

def new (redis : RedisConnect) : RedisSession := ⟨⟨redis, [], [], []⟩, [], []⟩

/-- The bytes that the call can receive. -/
def incoming (s : RedisSession) (c : ExecuteCall) : List (Nat × UInt8) :=
  s.unread ++ c.x.reply.map fun b => (s.results.length, b)

def exec (s : RedisSession) (c : ExecuteCall) : Except Fault RedisSession := do
  let (cmd, link) ← s.link.execute c.cmd c.x
  let bytes := s.incoming c
  let count := bytes.length - link.unread.length
  return {
    link := link
    unread := bytes.drop count
    results := s.results ++ [{
      number := s.results.length
      vec := c.cmd.vec
      wire := s.link.wire
      sent := Link.sent c.cmd c.x
      reply := c.x.reply
      received := bytes.take count
      answer := ⟨link.redis.code, link.redis.status, link.redis.msg, cmd.res⟩ }] }

/-- The server sends one reply for each command that is complete with these bytes. -/
def Served (s : RedisSession) (c : ExecuteCall) : Prop :=
  ∀ cmds part cmds' part', Framed commandText s.link.wire cmds part →
    Framed commandText (s.link.wire ++ Link.sent c.cmd c.x) cmds' part' →
    ∃ (fresh : List (List Bytes)) (replies : List Bytes), cmds' = cmds ++ fresh ∧
      replies.length = fresh.length ∧ c.x.reply = replies.flatten

end RedisSession

/-- The answer is what these bytes of a reply lead to, in one or more pieces, for a
new command on any connection with a buffer of this size. -/
def Decodes (memsz : Nat) (vec : List Bytes) (reply : Bytes) (a : Command.Answer) : Prop :=
  ∃ pieces : List Bytes, pieces.flatten = reply ∧ ∀ redis : RedisConnect, redis.memsz = memsz →
    Command.resultOf (Command.new vec) redis pieces = .ok a

/-- With the bytes of the call the server has read one command more, which is that of the
call. So what it writes because of them is the reply to this very command. -/
def ExecuteResult.Own (r : ExecuteResult) : Prop :=
  ∃ cmds part, Framed commandText r.wire cmds part ∧
    Framed commandText (r.wire ++ r.sent) (cmds ++ [r.vec]) []

/-- A result without error is decoded from the reply to the call and from nothing
else. -/
def ExecuteResult.Paired (memsz : Nat) (r : ExecuteResult) : Prop :=
  0 ≤ r.answer.code →
    r.Own ∧ (∀ b ∈ r.received, b.1 = r.number) ∧ r.received.map Prod.snd <+: r.reply ∧
      Decodes memsz r.vec (r.received.map Prod.snd) r.answer

namespace RedisSession

/-- In each round of the receiving loop the parser stays inside the received bytes
and their NUL. -/
def staysInside (memsz : Nat) : List Recv → Bytes → Command → Bool
  | [], _, _ => true
  | .failed :: _, _, _ => true
  | .nothing :: sock, received, cmd => staysInside memsz sock received cmd
  | .data b :: sock, received, cmd =>
      if b = [] then true
      else
        let received := received ++ b.take (memsz - received.length)
        match Command.parse (received ++ [0]) 0 received.length cmd with
        | .error _ => false
        | .ok (code, cmd) => code ≠ TIMEOUT || staysInside memsz sock received cmd

/-- No write so far has left the server inside a command. -/
def AtCommand (s : RedisSession) : Prop := ∃ cmds, Framed commandText s.link.wire cmds []

/-- A command goes out with a Command that holds no elements of another reply, and the
parser does not look at what is left in the buffer behind the received bytes. -/
def Fresh (s : RedisSession) (c : ExecuteCall) : Prop :=
  c.cmd.res = [] ∧ staysInside s.link.redis.memsz (deliver c.x.arrivals c.x.reply) []
    { c.cmd with status := 0, msg := [] }

instance (s : RedisSession) (c : ExecuteCall) : Decidable (s.Fresh c) :=
  inferInstanceAs (Decidable (_ ∧ _))

/-- A command that sock.write accepts is written when no earlier write was cut short inside
a command and all bytes of the replies so far have been read. -/
def Clean (s : RedisSession) (c : ExecuteCall) : Prop :=
  0 ≤ (Link.written c.cmd c.x).code → s.AtCommand ∧ s.unread = [] ∧ s.Fresh c

end RedisSession

namespace Command

variable {memsz : Nat} {timeout : Int} {buffer : Bytes}

/-- A round of the receiving loop that gets bytes. -/
theorem readReply_round {p mem b : Bytes} {sock : List Recv} {delay : Int} {cmd : Command}
    {r : Received} (hmem : Holding buffer p mem) (hroom : p.length < memsz) (hb : b ≠ [])
    (hread : readReply memsz timeout (.data b :: sock) delay p.length mem cmd = .ok r) :
    ∃ len cmd', parse (loaded buffer (p ++ b.take (memsz - p.length))) 0
        (p ++ b.take (memsz - p.length)).length cmd = .ok (len, cmd') ∧
      if len ≠ TIMEOUT then
        r = ⟨len, cmd', loaded buffer (p ++ b.take (memsz - p.length)),
          unread (b.take (memsz - p.length)).length b sock⟩
      else if b.length ≤ (b.take (memsz - p.length)).length then
        readReply memsz timeout sock 0 (p ++ b.take (memsz - p.length)).length
          (loaded buffer (p ++ b.take (memsz - p.length))) cmd' = .ok r
      else r.code = PARAMERR := by
  rw [readReply, if_pos hroom] at hread
  simp only [if_neg hb, hmem (b.take (memsz - p.length))] at hread
  rw [← List.length_append] at hread
  obtain ⟨⟨len, cmd'⟩, hparse, hread⟩ := bind_eq_ok.mp hread
  refine ⟨len, cmd', hparse, ?_⟩
  simp only at hread
  split at hread
  · rename_i hlen
    rw [if_pos hlen]
    exact (Except.ok.inj hread).symm
  · rename_i hlen
    rw [if_neg hlen]
    split at hread
    · rename_i hshort
      rw [if_pos hshort]
      exact hread
    · rename_i hshort
      rw [if_neg hshort, ← Except.ok.inj hread]

/-- What is left of a segment goes on with the rest. -/
theorem payload_unread (b : Bytes) (sock : List Recv) (room : Nat) :
    payload (.data b :: sock) = b.take room ++ payload (unread (b.take room).length b sock) := by
  rw [unread, payload_cons_data]
  split
  · rename_i hshort
    rw [(List.take_prefix room b).eq_of_length_le hshort]
  · have hlen : (b.take room).length = room := by
      rename_i hlong
      rw [List.length_take] at hlong ⊢
      omega
    rw [hlen, payload_cons_data, ← List.append_assoc, List.take_append_drop]

/-- A parser that stays inside a segment gives the same on any other connection. -/
theorem staysInside_segment {b : Bytes} (hb : b ≠ []) {sock : List Recv} {p : Bytes}
    {cmd cmd' : Command} {len : Int}
    (hparse : parse (loaded buffer (p ++ b.take (memsz - p.length))) 0
      (p ++ b.take (memsz - p.length)).length cmd = .ok (len, cmd'))
    (hinside : RedisSession.staysInside memsz (.data b :: sock) p cmd = true) :
    (∀ buffer', parse (loaded buffer' (p ++ b.take (memsz - p.length))) 0
      (p ++ b.take (memsz - p.length)).length cmd = .ok (len, cmd')) ∧
    (len = TIMEOUT → RedisSession.staysInside memsz sock
      (p ++ b.take (memsz - p.length)) cmd' = true) := by
  simp only [RedisSession.staysInside, if_neg hb] at hinside
  split at hinside
  · cases hinside
  · rename_i code cmd'' hparse'
    cases (parse_loaded hparse' buffer).symm.trans hparse
    refine ⟨parse_loaded hparse', fun hlen => ?_⟩
    simpa [hlen] using hinside

/-- What readReply decodes when it returns without error: some pieces of what
arrives, which are what it takes from the socket. If the parser stays inside them,
they alone give the same. -/
theorem readReply_pieces {sock : List Recv} {delay : Int} {p mem : Bytes} {cmd : Command}
    {r : Received} (hmem : Holding buffer p mem)
    (hread : readReply memsz timeout sock delay p.length mem cmd = .ok r) (hcode : 0 ≤ r.code) :
    ∃ pieces : List Bytes, pieces.flatten ≠ [] ∧
      payload sock = pieces.flatten ++ payload r.rest ∧
      (RedisSession.staysInside memsz sock p cmd = true → ∀ timeout' buffer' mem',
        Holding buffer' p mem' → ∃ mem'', readReply memsz timeout' (pieces.map .data) 0 p.length
          mem' cmd = .ok ⟨r.code, r.cmd, mem'', []⟩) := by
  induction sock generalizing delay p mem cmd with
  | nil =>
      rw [readReply] at hread
      split at hread
      · split at hread
        · cases hread
        · cases hread
          cases hcode
      · cases hread
        cases hcode
  | cons a sock ih =>
      by_cases hroom : p.length < memsz
      · cases a with
        | failed =>
            rw [readReply, if_pos hroom] at hread
            cases hread
            cases hcode
        | nothing =>
            rw [readReply, if_pos hroom] at hread
            split at hread
            · cases hread
            · split at hread
              · cases hread
                cases hcode
              · exact ih hmem hread
        | data b =>
            by_cases hb : b = []
            · rw [readReply, if_pos hroom] at hread
              simp only [if_pos hb] at hread
              cases hread
              cases hcode
            · obtain ⟨len, cmd', hparse, hread⟩ := readReply_round hmem hroom hb hread
              have hgot : b.take (memsz - p.length) ≠ [] := by
                rw [Ne, List.take_eq_nil_iff, not_or]
                exact ⟨by omega, hb⟩
              have hfits : p.length + (b.take (memsz - p.length)).length ≤ memsz := by
                rw [List.length_take]
                omega
              split at hread
              · rename_i hlen
                subst hread
                refine ⟨[b.take (memsz - p.length)], ?_, ?_,
                  fun hinside timeout' buffer' mem' hmem' =>
                    ⟨loaded buffer' (p ++ b.take (memsz - p.length)), ?_⟩⟩
                · rwa [List.flatten_singleton]
                · rw [List.flatten_singleton]
                  exact payload_unread b sock _
                · rw [List.map_singleton, readReply_data hgot hfits (hmem' _),
                    (staysInside_segment hb hparse hinside).1 buffer', ok_bind]
                  exact if_pos hlen
              · rename_i hlen
                split at hread
                · rename_i hshort
                  obtain ⟨pieces, -, hpayload, halone⟩ := ih (holding_loaded buffer _) hread
                  refine ⟨b.take (memsz - p.length) :: pieces, ?_, ?_,
                    fun hinside timeout' buffer' mem' hmem' => ?_⟩
                  · rw [List.flatten_cons]
                    exact fun hnil => hgot (List.append_eq_nil_iff.mp hnil).1
                  · rw [payload_unread b sock (memsz - p.length), unread, if_pos hshort, hpayload,
                      List.flatten_cons, List.append_assoc]
                  · obtain ⟨hparse', hrest⟩ := staysInside_segment hb hparse hinside
                    obtain ⟨mem'', halone⟩ := halone (hrest (not_not.mp hlen)) timeout' buffer' _
                      (holding_loaded buffer' _)
                    refine ⟨mem'', ?_⟩
                    rw [List.map_cons, readReply_data hgot hfits (hmem' _), hparse' buffer',
                      ok_bind]
                    exact (if_neg hlen).trans halone
                · rw [hread] at hcode
                  cases hcode
      · cases a with
        | failed | nothing | data =>
            rw [readReply, if_neg hroom] at hread
            cases hread
            cases hcode

/-- A call of getResult that returns without error. -/
theorem getResult_pieces {cmd : Command} {redis : RedisConnect} {written : Bool} {sock : List Recv}
    {r : Command × RedisConnect × List Recv} (hresult : cmd.getResult redis written sock = .ok r)
    (hcode : 0 ≤ (answer r).code) :
    written = true ∧ ∃ pieces : List Bytes, pieces.flatten ≠ [] ∧
      payload sock = pieces.flatten ++ payload r.2.2 ∧
      (RedisSession.staysInside redis.memsz sock [] { cmd with status := 0, msg := [] } = true →
        ∀ redis' : RedisConnect, redis'.memsz = redis.memsz →
          resultOf cmd redis' pieces = .ok (answer r)) := by
  rw [getResult] at hresult
  cases written with
  | false =>
      simp only [Bool.false_eq_true, if_false, ok_bind] at hresult
      cases hresult
      cases hcode
  | true =>
      simp only [if_true] at hresult
      obtain ⟨received, hread, hresult⟩ := bind_eq_ok.mp hresult
      have hcode' : 0 ≤ received.code := by
        cases hresult
        exact hcode
      obtain ⟨pieces, hne, hpayload, halone⟩ :=
        readReply_pieces (holding_start redis.buffer) hread hcode'
      refine ⟨rfl, pieces, hne, ?_, fun hinside redis' hmemsz => ?_⟩
      · cases hresult
        exact hpayload
      · obtain ⟨mem, hread'⟩ := halone hinside redis'.timeout redis'.buffer redis'.buffer
          (holding_start redis'.buffer)
        rw [← hmemsz] at hread'
        have hok : readReply redis'.memsz redis'.timeout (pieces.map .data) 0 0 redis'.buffer
            { cmd with status := 0, msg := [] } =
          .ok ⟨received.code, received.cmd, mem, []⟩ := hread'
        simp only [resultOf, getResult, if_true, hok, ok_bind]
        cases hresult
        rfl

end Command

namespace RedisSession

variable {s t : RedisSession} {c : ExecuteCall}

/-- The session and its connection have the same bytes left. -/
def Level (s : RedisSession) : Prop := s.unread.map Prod.snd = s.link.unread

theorem incoming_bytes (hs : s.Level) (c : ExecuteCall) :
    (s.incoming c).map Prod.snd = s.link.unread ++ c.x.reply := by
  rw [incoming, List.map_append, hs, List.map_map]
  exact congrArg _ (List.map_id' c.x.reply)

/-- What execute does with the connection and the replies. -/
theorem exec_ok (hs : s.Level) (h : s.exec c = .ok t) :
    ∃ r count, c.cmd.getResult s.link.redis (0 ≤ (Link.written c.cmd c.x).code)
        (deliver c.x.arrivals ((s.incoming c).map Prod.snd)) = .ok r ∧
      count = (payload (deliver c.x.arrivals ((s.incoming c).map Prod.snd))).length -
        (payload r.2.2).length ∧
      t.link.redis = r.2.1 ∧ t.link.wire = s.link.wire ++ Link.sent c.cmd c.x ∧
      t.link.unread = t.unread.map Prod.snd ∧ t.unread = (s.incoming c).drop count ∧
      t.results = s.results ++ [⟨s.results.length, c.cmd.vec, s.link.wire, Link.sent c.cmd c.x,
        c.x.reply, (s.incoming c).take count, Command.answer r⟩] := by
  obtain ⟨⟨cmd, link⟩, hexecute, h⟩ := bind_eq_ok.mp h
  obtain ⟨r, hr, hexecute⟩ := bind_eq_ok.mp hexecute
  rw [← incoming_bytes hs] at hr hexecute
  cases h
  cases hexecute
  have hlen : (payload (deliver c.x.arrivals ((s.incoming c).map Prod.snd))).length -
      (payload r.2.2).length ≤ (s.incoming c).length := by
    have := (payload_deliver c.x.arrivals ((s.incoming c).map Prod.snd)).length_le
    rw [List.length_map] at this
    omega
  have hcount : (s.incoming c).length - (((s.incoming c).map Prod.snd).drop
      ((payload (deliver c.x.arrivals ((s.incoming c).map Prod.snd))).length -
        (payload r.2.2).length)).length =
      (payload (deliver c.x.arrivals ((s.incoming c).map Prod.snd))).length -
        (payload r.2.2).length := by
    rw [List.length_drop, List.length_map]
    omega
  refine ⟨r, _, hr, rfl, rfl, rfl, ?_, ?_, ?_⟩
  · simp only [hcount, List.map_drop]
  · simp only [hcount]
  · simp only [hcount]
    rfl

theorem exec_level (hs : s.Level) (h : s.exec c = .ok t) : t.Level := by
  obtain ⟨r, count, -, -, -, -, hlevel, -⟩ := exec_ok hs h
  exact hlevel.symm

theorem exec_wire (hs : s.Level) (h : s.exec c = .ok t) :
    t.link.wire = s.link.wire ++ Link.sent c.cmd c.x := by
  obtain ⟨r, count, -, -, -, hwire, -⟩ := exec_ok hs h
  exact hwire

theorem exec_memsz (hs : s.Level) (h : s.exec c = .ok t) :
    t.link.redis.memsz = s.link.redis.memsz := by
  obtain ⟨r, count, hr, -, hredis, -⟩ := exec_ok hs h
  obtain ⟨received, -, hr⟩ := bind_eq_ok.mp hr
  rw [hredis, ← Except.ok.inj hr]

/-- The bytes that a call without error receives are what it decodes. -/
theorem received_pieces {bytes : List (Nat × UInt8)} {arrivals : List ReplyArrival}
    {pieces : List Bytes} {rest : List Recv} {count : Nat}
    (hpayload : payload (deliver arrivals (bytes.map Prod.snd)) = pieces.flatten ++ payload rest)
    (hcount : count = (payload (deliver arrivals (bytes.map Prod.snd))).length -
      (payload rest).length) : (bytes.take count).map Prod.snd = pieces.flatten := by
  have hprefix := payload_deliver arrivals (bytes.map Prod.snd)
  rw [hpayload] at hprefix hcount
  have hlen : count = pieces.flatten.length := by
    rw [hcount, List.length_append]
    omega
  obtain ⟨w, hw⟩ := (List.prefix_append _ _).trans hprefix
  rw [List.map_take, ← hw, hlen, List.take_left]

/-- A command that is sent whole from between two commands is the next one that the server
has read; of one that is cut short the server has read none, and it answers nothing. -/
theorem own_or_silent (hserved : s.Served c) (hat : s.AtCommand) :
    (∃ cmds part, Framed commandText s.link.wire cmds part ∧
      Framed commandText (s.link.wire ++ Link.sent c.cmd c.x) (cmds ++ [c.cmd.vec]) []) ∨
      c.x.reply = [] := by
  obtain ⟨cmds, hframed⟩ := hat
  by_cases hwhole : Link.sent c.cmd c.x = commandText c.cmd.vec
  · refine .inl ⟨cmds, [], hframed, ?_⟩
    rw [hwhole]
    exact hframed.whole c.cmd.vec
  · have hsent : Link.sent c.cmd c.x <+: commandText c.cmd.vec := List.take_prefix _ _
    obtain ⟨fresh, replies, hfresh, hlen, hreply⟩ :=
      hserved _ _ _ _ hframed (hframed.started hsent hwhole)
    cases List.append_cancel_left ((List.append_nil _).trans hfresh)
    cases List.length_eq_zero_iff.mp hlen
    exact .inr hreply

theorem exec_paired (hs : s.Level) (hserved : s.Served c) (hclean : s.Clean c)
    (h : s.exec c = .ok t) :
    ∃ r, t.results = s.results ++ [r] ∧ r.Paired s.link.redis.memsz := by
  obtain ⟨r, count, hr, hcount, -, -, -, -, hresults⟩ := exec_ok hs h
  refine ⟨_, hresults, fun hcode => ?_⟩
  obtain ⟨hwritten, pieces, hne, hpayload, halone⟩ := Command.getResult_pieces hr hcode
  obtain ⟨hat, hunread, hres, hinside⟩ := hclean (of_decide_eq_true hwritten)
  have hincoming : s.incoming c = c.x.reply.map fun b => (s.results.length, b) := by
    rw [incoming, hunread, List.nil_append]
  have hreply : (s.incoming c).map Prod.snd = c.x.reply := by
    rw [hincoming, List.map_map]
    exact List.map_id' _
  have hreceived := received_pieces hpayload hcount
  refine ⟨?_, fun b hb => ?_, ?_, pieces, ?_, fun redis hmemsz => ?_⟩
  · refine (own_or_silent hserved hat).resolve_right fun hnone => hne ?_
    rw [← hreceived, hincoming, hnone, List.map_nil, List.take_nil, List.map_nil]
  · have hmem := List.mem_of_mem_take hb
    rw [hincoming] at hmem
    obtain ⟨byte, -, rfl⟩ := List.mem_map.mp hmem
    rfl
  · simp only [List.map_take, hreply]
    exact List.take_prefix _ _
  · exact hreceived.symm
  · have hnew : Command.resultOf (Command.new c.cmd.vec) redis pieces =
        Command.resultOf c.cmd redis pieces := by
      rw [Command.resultOf, Command.resultOf, Command.getResult, Command.getResult, Command.new,
        hres]
    rw [hreply] at halone
    exact hnew.trans (halone hinside redis hmemsz)

/-- Every result so far is paired with its reply. -/
def AllPaired (memsz : Nat) (s : RedisSession) : Prop := ∀ r ∈ s.results, r.Paired memsz

/-- What is left over answers earlier calls. -/
def Numbered (s : RedisSession) : Prop := ∀ b ∈ s.unread, b.1 < s.results.length

theorem exec_numbered (hlevel : s.Level) (hs : s.Numbered) (h : s.exec c = .ok t) :
    t.Numbered := by
  obtain ⟨r, count, -, -, -, -, -, hunread, hresults⟩ := exec_ok hlevel h
  intro b hb
  rw [hunread] at hb
  rw [hresults, List.length_append, List.length_singleton]
  cases List.mem_append.mp (List.mem_of_mem_drop hb) with
  | inl hold => exact Nat.lt_succ_of_lt (hs b hold)
  | inr hnew =>
      obtain ⟨byte, -, rfl⟩ := List.mem_map.mp hnew
      exact Nat.lt_succ_self _

/-- A call that starts with something left over, and returns without error, has taken it
for its own reply. -/
theorem unread_mispaired (hlevel : s.Level) (hs : s.Numbered) (hunread : s.unread ≠ [])
    (h : s.exec c = .ok t) :
    ∃ r, t.results = s.results ++ [r] ∧
      (0 ≤ r.answer.code → ∃ b ∈ r.received, b.1 ≠ r.number) := by
  obtain ⟨r, count, hr, hcount, -, -, -, -, hresults⟩ := exec_ok hlevel h
  refine ⟨_, hresults, fun hcode => ?_⟩
  obtain ⟨-, pieces, hne, hpayload, -⟩ := Command.getResult_pieces hr hcode
  have hreceived := received_pieces hpayload hcount
  obtain ⟨b, rest, hrest⟩ := List.exists_cons_of_ne_nil hunread
  refine ⟨b, ?_, Nat.ne_of_lt (hs b (by rw [hrest]; exact List.mem_cons_self))⟩
  cases hzero : count with
  | zero =>
      rw [hzero] at hreceived
      exact absurd hreceived.symm hne
  | succ count =>
      rw [incoming, hrest, List.cons_append, List.take_succ_cons]
      exact List.mem_cons_self

theorem sent_whole (hsize : c.cmd.toString.length ≤ intMax)
    (hcode : 0 ≤ (Link.written c.cmd c.x).code) :
    Link.sent c.cmd c.x = commandText c.cmd.vec := by
  have hcount : (Link.written c.cmd c.x).sent = c.cmd.toString.length := by
    have hcomplete : ((Link.written c.cmd c.x).sent : Int) = toInt c.cmd.toString.length :=
      write_complete (toInt_of_le hsize ▸ Int.natCast_nonneg _) hcode
    rw [toInt_of_le hsize] at hcomplete
    exact Int.ofNat_inj.mp hcomplete
  rw [Link.sent, hcount, List.take_length]
  rfl

/-- A call that starts inside an unfinished command, and returns without error, has got the
reply to what the server took the two for. -/
theorem cut_mispaired (hlevel : s.Level) (hcut : ¬ s.AtCommand)
    (hsize : c.cmd.toString.length ≤ intMax) (h : s.exec c = .ok t) :
    ∃ r, t.results = s.results ++ [r] ∧ (0 ≤ r.answer.code → ¬ r.Own) := by
  obtain ⟨r, count, hr, -, -, -, -, -, hresults⟩ := exec_ok hlevel h
  refine ⟨_, hresults, fun hcode => ?_⟩
  obtain ⟨hwritten, -⟩ := Command.getResult_pieces hr hcode
  rintro ⟨cmds, part, -, hframed⟩
  have hsent := sent_whole hsize (of_decide_eq_true hwritten)
  have heq := hframed.stream_eq
  simp only [hsent, List.flatMap_append, List.flatMap_singleton, List.append_nil] at heq
  refine hcut ⟨cmds, ?_, hframed.begun⟩
  rw [List.append_nil]
  exact List.append_cancel_right heq

theorem new_level (redis : RedisConnect) : (new redis).Level := rfl

theorem new_atCommand (redis : RedisConnect) : (new redis).AtCommand :=
  ⟨[], rfl, [], List.nil_prefix, by decide⟩

/-- Over every run of calls on one connection with a server that answers each command with
one reply: where each call is clean, a result without error is decoded from the reply to
its own call. After any run a call that starts with bytes of a reply left over, or inside
an unfinished command, returns no other result than an error or a wrong one. -/
theorem results_paired (redis : RedisConnect) {calls : List ExecuteCall}
    (hserved : Respects exec Served (new redis) calls) :
    (Respects exec Clean (new redis) calls →
      Always exec (AllPaired redis.memsz) (new redis) calls) ∧
    ∀ s c t, run exec (new redis) calls = .ok s → s.exec c = .ok t →
      (s.unread ≠ [] ∨ ¬ s.AtCommand ∧ c.cmd.toString.length ≤ intMax) →
      ∃ r, t.results = s.results ++ [r] ∧ (0 ≤ r.answer.code → ¬ r.Paired redis.memsz) := by
  constructor
  · intro hclean
    refine always_of_respects
      (I := fun s => s.Level ∧ s.link.redis.memsz = redis.memsz ∧ s.AllPaired redis.memsz)
      (fun s hs => hs.2.2) (fun s c t hs hcall ht => ?_)
      ⟨new_level redis, rfl, fun r hr => absurd hr List.not_mem_nil⟩ (hserved.and hclean)
    obtain ⟨hlevel, hmemsz, hpaired⟩ := hs
    refine ⟨exec_level hlevel ht, (exec_memsz hlevel ht).trans hmemsz, fun r hr => ?_⟩
    obtain ⟨last, hresults, hlast⟩ := exec_paired hlevel hcall.1 hcall.2 ht
    rw [hresults] at hr
    cases List.mem_append.mp hr with
    | inl hold => exact hpaired r hold
    | inr hnew =>
        rw [List.mem_singleton.mp hnew, ← hmemsz]
        exact hlast
  · intro s c t hrun ht hleft
    have hs : s.Level ∧ s.Numbered :=
      run_invariant_of_step (I := fun s => s.Level ∧ s.Numbered)
        (fun _ _ _ hs ht => ⟨exec_level hs.1 ht, exec_numbered hs.1 hs.2 ht⟩)
        ⟨new_level redis, fun b hb => absurd hb List.not_mem_nil⟩ hrun
    cases hleft with
    | inl hunread =>
        obtain ⟨r, hresults, hwrong⟩ := unread_mispaired hs.1 hs.2 hunread ht
        refine ⟨r, hresults, fun hcode hpaired => ?_⟩
        obtain ⟨b, hb, hne⟩ := hwrong hcode
        exact hne ((hpaired hcode).2.1 b hb)
    | inr hcut =>
        obtain ⟨r, hresults, hwrong⟩ := cut_mispaired hs.1 hcut.1 hcut.2 ht
        exact ⟨r, hresults, fun hcode hpaired => hwrong hcode (hpaired hcode).1⟩

/-- A server that answers what it has read with these bytes. -/
theorem served_of_framed {cmds : List (List Bytes)} {part part' : Bytes}
    (fresh : List (List Bytes)) (replies : List Bytes)
    (hbefore : Framed commandText s.link.wire cmds part)
    (hafter : Framed commandText (s.link.wire ++ Link.sent c.cmd c.x) (cmds ++ fresh) part')
    (hlen : replies.length = fresh.length) (hreply : c.x.reply = replies.flatten) :
    s.Served c := by
  intro cmds₀ part₀ cmds₁ part₁ h h'
  obtain ⟨rfl, -⟩ := h.unique commandText_selfDelimiting hbefore
  obtain ⟨rfl, -⟩ := h'.unique commandText_selfDelimiting hafter
  exact ⟨fresh, replies, rfl, hlen, hreply⟩

/-- A server that answers the command that it gets. -/
theorem served_of_whole (hat : s.AtCommand)
    (hwhole : Link.sent c.cmd c.x = commandText c.cmd.vec) : s.Served c := by
  obtain ⟨cmds, hframed⟩ := hat
  have hafter := hframed.whole c.cmd.vec
  rw [← hwhole] at hafter
  exact served_of_framed [c.cmd.vec] [c.x.reply] hframed hafter rfl List.flatten_singleton.symm

/-- Calls that each send their command whole. -/
theorem respects_of_whole {calls : List ExecuteCall} (hlevel : s.Level) (hat : s.AtCommand)
    (hwhole : ∀ c ∈ calls, Link.sent c.cmd c.x = commandText c.cmd.vec) :
    Respects exec (fun s c => s.Served c ∧ s.AtCommand) s calls := by
  induction calls generalizing s with
  | nil => trivial
  | cons c calls ih =>
      obtain ⟨hfirst, hrest⟩ := List.forall_mem_cons.mp hwhole
      refine ⟨⟨served_of_whole hat hfirst, hat⟩, fun t ht => ih (exec_level hlevel ht) ?_ hrest⟩
      obtain ⟨cmds, hframed⟩ := hat
      refine ⟨cmds ++ [c.cmd.vec], ?_⟩
      rw [exec_wire hlevel ht, hfirst]
      exact hframed.whole c.cmd.vec

/-- A connection with room for 64 bytes and a timeout of 30 ms. -/
def small : RedisConnect := ⟨0, 64, 0, 30, List.replicate 65 0, []⟩

/-- A set, and a get that is sent in two parts and whose reply comes in two pieces. -/
def cleanCalls : List ExecuteCall :=
  [⟨Command.new (Link.setArgs [107] [98]),
      [.took 99], (Reply.simple (bytesOf "OK".toList)).encode, [.nothing, .bytes 4]⟩,
    ⟨Command.new (Link.getArgs [107]),
      [.took 9, .nothing, .took 99], (Reply.bulk [98]).encode, [.bytes 2, .nothing, .bytes 9]⟩]

theorem results_paired_two : Always exec (AllPaired 64) (new small) cleanCalls := by
  have hwhole := respects_of_whole (new_level small) (new_atCommand small)
    (show ∀ c ∈ cleanCalls, Link.sent c.cmd c.x = commandText c.cmd.vec by decide +kernel)
  have htidy : Respects exec (fun s c => s.unread = [] ∧ s.Fresh c) (new small) cleanCalls := by
    decide +kernel
  exact (results_paired small (hwhole.imp fun _ _ h => h.1)).1
    ((hwhole.and htidy).imp fun _ _ h _ => ⟨h.1.2, h.2⟩)

/-- A get that times out before its reply has come, and another one. -/
def lateCalls : List ExecuteCall :=
  [⟨Command.new (Link.getArgs [106]),
      [.took 99], (Reply.bulk [97]).encode, [.nothing, .nothing, .nothing, .nothing]⟩,
    ⟨Command.new (Link.getArgs [107]), [.took 99], (Reply.bulk [98]).encode, [.bytes 6]⟩]

/-- A get whose key of 18 bytes is not sent. -/
def cutCall : ExecuteCall :=
  ⟨Command.new (Link.getArgs (List.replicate 18 106)), [.took 17, .failed], [], []⟩

/-- Another one, which the server takes for this key. -/
def takenForKey : ExecuteCall :=
  ⟨Command.new (Link.getArgs [107]), [.took 99], (Reply.bulk [97]).encode, [.bytes 6]⟩

/-- The command that the server reads. -/
def merged : List Bytes := Link.getArgs ((commandText (Link.getArgs [107])).take 18)

/-- With the first call the server gets no command, with the second it gets one. -/
theorem cutCalls_served : Respects exec Served (new small) [cutCall, takenForKey] := by
  have hnone : Framed commandText (new small).link.wire [] [] :=
    ⟨rfl, [], List.nil_prefix, by decide⟩
  have hcut : Framed commandText (Link.sent cutCall.cmd cutCall.x) []
      (Link.sent cutCall.cmd cutCall.x) := ⟨rfl, merged, by decide +kernel, by decide +kernel⟩
  have htaken : Framed commandText (Link.sent cutCall.cmd cutCall.x ++
      Link.sent takenForKey.cmd takenForKey.x) [merged] [] :=
    ⟨by decide +kernel, [], List.nil_prefix, by decide⟩
  refine ⟨served_of_framed [] [] hnone hcut rfl rfl, fun t ht => ⟨?_, fun _ _ => trivial⟩⟩
  have hwire : t.link.wire = Link.sent cutCall.cmd cutCall.x := exec_wire (new_level small) ht
  rw [← hwire] at hcut htaken
  exact served_of_framed [merged] [takenForKey.x.reply] hcut htaken rfl
    List.flatten_singleton.symm

/-- In the first run the second get returns the first one's element, in the second run it
returns that of another key. -/
theorem late_reply_mispaired :
    (Respects exec Served (new small) lateCalls ∧ ∃ t r, run exec (new small) lateCalls = .ok t ∧
      t.results.getLast? = some r ∧ r.answer = ⟨OK, 0, [], [[97]]⟩ ∧
      r.reply = (Reply.bulk [98]).encode ∧ ¬ r.Paired 64) ∧
    (Respects exec Served (new small) [cutCall, takenForKey] ∧
      ∃ t r, run exec (new small) [cutCall, takenForKey] = .ok t ∧
        t.results.getLast? = some r ∧ r.answer = ⟨OK, 0, [], [[97]]⟩ ∧
        r.vec = Link.getArgs [107] ∧ ¬ r.Paired 64) := by
  constructor
  · refine ⟨(respects_of_whole (new_level small) (new_atCommand small)
      (by decide +kernel)).imp fun _ _ h => h.1, ?_⟩
    obtain ⟨t, ht, hlast⟩ := resultHolds_iff.mp (show resultHolds (fun t : RedisSession =>
      t.results.getLast? = some ⟨1, Link.getArgs [107], commandText (Link.getArgs [106]),
        commandText (Link.getArgs [107]), (Reply.bulk [98]).encode,
        (Reply.bulk [97]).encode.map fun b => (0, b), ⟨OK, 0, [], [[97]]⟩⟩)
      (run exec (new small) lateCalls) = true by decide +kernel)
    refine ⟨t, _, ht, hlast, rfl, rfl, fun hpaired => ?_⟩
    exact absurd ((hpaired (by decide)).2.1 (0, 36) (by decide)) (by decide)
  · refine ⟨cutCalls_served, ?_⟩
    obtain ⟨t, ht, hlast⟩ := resultHolds_iff.mp (show resultHolds (fun t : RedisSession =>
      t.results.getLast? = some ⟨1, Link.getArgs [107], Link.sent cutCall.cmd cutCall.x,
        commandText (Link.getArgs [107]), (Reply.bulk [97]).encode,
        (Reply.bulk [97]).encode.map fun b => (1, b), ⟨OK, 0, [], [[97]]⟩⟩)
      (run exec (new small) [cutCall, takenForKey]) = true by decide +kernel)
    refine ⟨t, _, ht, hlast, rfl, rfl, fun hpaired => ?_⟩
    obtain ⟨cmds, part, -, hframed⟩ := (hpaired (by decide)).1
    have htaken : Framed commandText (Link.sent cutCall.cmd cutCall.x ++
        commandText (Link.getArgs [107])) [merged] [] :=
      ⟨by decide +kernel, [], List.nil_prefix, by decide⟩
    have hlast := congrArg List.getLast? (hframed.unique commandText_selfDelimiting htaken).1
    rw [List.getLast?_concat] at hlast
    exact absurd (Option.some.inj hlast) (by decide +kernel)

end RedisSession
end TAlib
