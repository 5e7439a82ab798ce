import Mathlib.Data.List.Forall2
import TAlib.Redis.Link
import TAlib.Redis.NilElements

/-!
How a command ends. The loops of Socket::write and of doWork are bounded, whatever
the network does. And with a server that answers a get or a set as it may, a
connection on which no command has failed stays in order: the server has read whole
commands only, nothing is left in the socket, and the next command gets its own reply.
-/

namespace TAlib

open Foundation

namespace RedisConnect

variable {count : Int} {sends : List Send} {times writed : Nat}

end RedisConnect

namespace Command

open RedisConnect Reply

variable {memsz : Nat} {timeout delay : Int} {buffer : Bytes}

/-- A reply that the parser waits for and then decides in one way only. -/
structure Decided (reply : Bytes) (code : Int) (res : List Bytes) : Prop where
  waits : ∀ q, q <+: reply → q ≠ reply → q ≠ [] → ∀ buffer cmd,
    parse (loaded buffer q) 0 q.length cmd = .ok (TIMEOUT, cmd)
  whole : ∀ buffer cmd, ∃ cmd', parse (loaded buffer reply) 0 reply.length cmd = .ok (code, cmd') ∧
    cmd'.res = cmd.res ++ res
  ne_timeout : code ≠ TIMEOUT
  ne_nil : reply ≠ []

theorem Decided.unique {reply : Bytes} {code code' : Int} {res res' : List Bytes}
    (h : Decided reply code res) (h' : Decided reply code' res') : code = code' ∧ res = res' := by
  obtain ⟨cmd, hparse, hres⟩ := h.whole [] (new [])
  obtain ⟨cmd', hparse', hres'⟩ := h'.whole [] (new [])
  cases hparse.symm.trans hparse'
  exact ⟨rfl, hres.symm.trans hres'⟩

theorem decided_bulk {x : Bytes} (hsize : (bulkText x).length ≤ intMax) :
    Decided (bulkText x) OK [x] :=
  ⟨fun _ hq hproper hne _ _ => @waits_line (.bulk x) trivial hsize _ hq hproper hne nofun _ _,
    fun buffer cmd => ⟨_, parse_bulk hsize buffer cmd, rfl⟩, by decide, List.cons_ne_nil _ _⟩

/-- A status line or an error line. -/
theorem parse_line {mark : UInt8} (hmark : mark = 43 ∨ mark = 45) {s : Bytes} (h0 : 0 ∉ s)
    (h13 : 13 ∉ s) (buffer : Bytes) (cmd : Command) :
    parse (loaded buffer (lineText mark s)) 0 (lineText mark s).length cmd =
      .ok (if mark = 43 then OK else FAIL, { cmd with status := OK, msg := s }) := by
  have hmem : loaded buffer (lineText mark s) =
      [mark] ++ (s ++ 13 :: 10 :: 0 :: buffer.drop ((lineText mark s).length + 1)) := by
    simp only [loaded, lineText, List.append_assoc, List.cons_append, List.nil_append]
  have hbyte : byteAt (loaded buffer (lineText mark s)) 0 = .ok mark := byteAt_append [] mark _
  have hline := strstr_line [mark] h0 h13
    (List.mem_cons_self (a := (0 : UInt8)) (l := buffer.drop ((lineText mark s).length + 1)))
  rw [← hmem] at hline
  have hone : (0 : Int) + 1 = ([mark] : Bytes).length := rfl
  have htext : text (loaded buffer (lineText mark s)) ([mark] : Bytes).length
      (([mark] : Bytes).length + s.length) = s := by
    have hend : (([mark] : Bytes).length : Int) + s.length =
        (([mark].length + s.length : Nat) : Int) :=
      rfl
    rw [Command.text, hend, Int.toNat_natCast, Int.toNat_natCast]
    exact slice_of_eq [mark] (13 :: 10 :: 0 :: buffer.drop ((lineText mark s).length + 1))
      (by rw [hmem, List.append_assoc]) rfl rfl
  cases hmark with
  | inl h =>
      subst h
      simp only [parse, parseLevel, hbyte, ok_bind, hone, kCRLF, hline, htext]
      rfl
  | inr h =>
      subst h
      simp only [parse, parseLevel, hbyte, ok_bind, hone, kCRLF, hline, htext]
      rfl

theorem decided_line {mark : UInt8} (hmark : mark = 43 ∨ mark = 45) {s : Bytes} (h0 : 0 ∉ s)
    (h13 : 13 ∉ s) (h10 : 10 ∉ s) :
    Decided (lineText mark s) (if mark = 43 then OK else FAIL) [] := by
  have hbulk : mark ≠ 36 := by
    rintro rfl
    revert hmark
    decide
  refine ⟨fun q hq hproper hne buffer cmd => parse_part_line hbulk h10 hq hproper hne _,
    fun buffer cmd => ⟨_, parse_line hmark h0 h13 buffer cmd, (List.append_nil _).symm⟩, ?_,
    List.cons_ne_nil _ _⟩
  split
  · decide
  · decide

theorem decided_nil : Decided nilText NOTFOUND [] := by
  refine ⟨fun q hq hproper hne buffer cmd => ?_, fun buffer cmd => ⟨cmd, ?_, ?_⟩, by decide,
    List.cons_ne_nil _ _⟩
  · obtain ⟨b, q, rfl⟩ := List.exists_cons_of_ne_nil hne
    obtain ⟨rfl, hq'⟩ := List.cons_prefix_cons.mp hq
    have h10 : 10 ∉ q := @prefix_no_line [45, 49] q (by decide) hq'
      fun heq => hproper (by rw [heq]; rfl)
    have hbyte : byteAt (loaded buffer (36 :: q)) 0 = .ok 36 := byteAt_append [] 36 _
    have hnode := @parseNode_no_line [] (buffer.drop ((36 :: q : Bytes).length + 1))
      (0 + (36 :: q : Bytes).length) cmd.res q h10
    simp only [List.nil_append, List.length_nil, Int.natCast_zero] at hnode
    simp only [parse, parseLevel, hbyte, ok_bind]
    rw [if_pos trivial, loaded, hnode, ok_bind]
    exact if_pos rfl
  · have hbyte : byteAt (loaded buffer nilText) 0 = .ok 36 := byteAt_append [] 36 _
    have hnode := @parseNode_nil [] (0 :: buffer.drop (nilText.length + 1)) (0 + nilText.length)
      cmd.res List.mem_cons_self
    simp only [List.nil_append, List.length_nil, Int.natCast_zero] at hnode
    simp only [parse, parseLevel, hbyte, ok_bind]
    rw [if_pos trivial, loaded, hnode, ok_bind]
    rfl
  · exact (List.append_nil _).symm

variable {reply : Bytes} {code : Int} {res : List Bytes}

/-- How the loop of doWork ends while such a reply is coming: without the whole of
it, and the command is untouched, or with nothing left over. -/
inductive Ends (reply : Bytes) (code : Int) (res : List Bytes) (received : Bytes) (cmd : Command)
    (r : Received) : Prop where
  | early (hcmd : r.cmd = cmd) (hcode : r.code = TIMEOUT ∨ r.code = NETERR ∨ r.code = NETCLOSE)
  | whole (hall : received = reply) (hrest : payload r.rest = []) (hcode : r.code = code)
      (hres : r.cmd.res = cmd.res ++ res)

theorem readReply_ends (hreply : Decided reply code res) (hfits : reply.length ≤ memsz)
    (htimeout : timeout + SOCKET_TIMEOUT ≤ intMax) (hdelay : delay ≤ max 0 timeout)
    {sock : List Recv} {p mem : Bytes} {cmd : Command} (hmem : Holding buffer p mem)
    (hproper : p ≠ reply) (hsock : p ++ payload sock <+: reply) :
    ∃ r, readReply memsz timeout sock delay p.length mem cmd = .ok r ∧
      Ends reply code res (p ++ payload sock) cmd r := by
  have hroom : ∀ {q : Bytes}, q <+: reply → q ≠ reply → q.length < memsz := fun hq hne =>
    Nat.lt_of_lt_of_le (Nat.lt_of_le_of_ne hq.length_le fun heq => hne (hq.eq_of_length heq)) hfits
  induction sock generalizing delay p mem with
  | nil =>
      have hlt := hroom ((List.prefix_append _ _).trans hsock) hproper
      rw [readReply_silent htimeout hdelay]
      exact ⟨_, rfl, .early rfl (.inl (if_pos hlt))⟩
  | cons a sock ih =>
      have hlt := hroom ((List.prefix_append _ _).trans hsock) hproper
      cases a with
      | failed =>
          rw [readReply, if_pos hlt]
          exact ⟨_, rfl, .early rfl (.inr (.inl rfl))⟩
      | nothing =>
          rw [readReply_nothing htimeout hdelay hlt]
          split
          · exact ⟨_, rfl, .early rfl (.inl rfl)⟩
          · exact ih (by omega) hmem hproper hsock
      | data b =>
          by_cases hb : b = []
          · rw [readReply, if_pos hlt]
            simp only [if_pos hb]
            exact ⟨_, rfl, .early rfl (.inr (.inr rfl))⟩
          · rw [payload_cons_data, ← List.append_assoc] at hsock ⊢
            have hp : p ++ b <+: reply := (List.prefix_append _ _).trans hsock
            have hlen : p.length + b.length ≤ memsz := by
              rw [← List.length_append]
              exact Nat.le_trans hp.length_le hfits
            have hagain : readReply memsz timeout (.data b :: sock) delay p.length mem cmd =
                readReply memsz timeout (.data b :: sock) 0 p.length mem cmd := by
              rw [readReply, readReply]
            rw [hagain, readReply_data hb hlen (hmem b)]
            by_cases hwhole : p ++ b = reply
            · obtain ⟨cmd', hparse, hres⟩ := hreply.whole buffer cmd
              rw [hwhole, hparse, ok_bind, if_pos hreply.ne_timeout]
              rw [hwhole] at hsock
              have hnone : payload sock = [] :=
                List.append_right_eq_self.mp (hsock.eq_of_length_le (by simp))
              exact ⟨_, rfl, .whole (by rw [hnone, List.append_nil]) hnone rfl hres⟩
            · rw [hreply.waits _ hp hwhole (fun h => hb (List.append_eq_nil_iff.mp h).2), ok_bind,
                if_neg (not_not.mpr rfl)]
              exact ih (Int.le_max_left 0 timeout) (holding_loaded buffer (p ++ b)) hwhole hsock

end Command
/-- What a server may answer to a get or a set; to any command, an error. -/
inductive MayAnswer : List Bytes → Bytes → Prop
  | found (key val : Bytes) : MayAnswer (Link.getArgs key) (Reply.bulkText val)
  | missing (key : Bytes) : MayAnswer (Link.getArgs key) Command.nilText
  | stored (key val : Bytes) {status : Bytes} (h0 : 0 ∉ status) (h13 : 13 ∉ status)
      (h10 : 10 ∉ status) : MayAnswer (Link.setArgs key val) (Reply.lineText 43 status)
  | refused (vec : List Bytes) {text : Bytes} (h0 : 0 ∉ text) (h13 : 13 ∉ text) (h10 : 10 ∉ text) :
      MayAnswer vec (Reply.lineText 45 text)

theorem MayAnswer.of_get {key reply : Bytes} (h : MayAnswer (Link.getArgs key) reply) :
    (∃ val, reply = Reply.bulkText val) ∨ reply = Command.nilText ∨
      ∃ text, 0 ∉ text ∧ 13 ∉ text ∧ 10 ∉ text ∧ reply = Reply.lineText 45 text := by
  generalize hargs : Link.getArgs key = args at h
  cases h with
  | found key val => exact .inl ⟨val, rfl⟩
  | missing key => exact .inr (.inl rfl)
  | stored key val h0 h13 h10 => cases hargs
  | refused vec h0 h13 h10 => exact .inr (.inr ⟨_, h0, h13, h10, rfl⟩)

theorem MayAnswer.decided {vec : List Bytes} {reply : Bytes} (h : MayAnswer vec reply)
    (hsize : reply.length ≤ intMax) :
    ∃ code res, Command.Decided reply code res ∧ code ≠ RedisConnect.PARAMERR := by
  cases h with
  | found key val => exact ⟨_, _, Command.decided_bulk hsize, by decide⟩
  | missing key => exact ⟨_, _, Command.decided_nil, by decide⟩
  | stored key val h0 h13 h10 => exact ⟨_, _, Command.decided_line (.inl rfl) h0 h13 h10, by decide⟩
  | refused vec h0 h13 h10 => exact ⟨_, _, Command.decided_line (.inr rfl) h0 h13 h10, by decide⟩

namespace Link

variable {l : Link} {cmd : Command} {x : Exchange} {vec : List Bytes}

/-- The server sends one reply for each command that is complete with these bytes,
and it fits into the buffer. -/
def Served (l : Link) (vec : List Bytes) (x : Exchange) : Prop :=
  ∀ cmds part cmds' part', Framed commandText l.wire cmds part →
    Framed commandText (l.wire ++ sent (Command.new vec) x) cmds' part' →
    ∃ fresh replies, cmds' = cmds ++ fresh ∧
      List.Forall₂ (fun vec reply => MayAnswer vec reply ∧ reply.length ≤ l.redis.memsz) fresh
        replies ∧
      x.reply = replies.flatten

/-- A server that answers the command that it gets. -/
theorem served_whole (hframed : Framed commandText l.wire l.issued [])
    (hsent : sent (Command.new vec) x = commandText vec) (hanswer : MayAnswer vec x.reply)
    (hfits : x.reply.length ≤ l.redis.memsz) : l.Served vec x := by
  intro cmds part cmds' part' h h'
  have hframed' := hframed.whole vec
  rw [← hsent] at hframed'
  obtain ⟨rfl, -⟩ := h.unique commandText_selfDelimiting hframed
  obtain ⟨rfl, -⟩ := h'.unique commandText_selfDelimiting hframed'
  exact ⟨[vec], [x.reply], rfl, .cons ⟨hanswer, hfits⟩ .nil, List.flatten_singleton.symm⟩

/-- On the wire there are whole commands and perhaps the beginning of another one. As
long as no command has failed there is no such beginning, and no reply is left. -/
structure Orderly (l : Link) : Prop where
  room : Command.nilText.length ≤ l.redis.memsz
  memsz : l.redis.memsz ≤ intMax
  timeout : l.redis.timeout + RedisConnect.SOCKET_TIMEOUT ≤ intMax
  framed : ∃ part, Framed commandText l.wire l.issued part
  clean : 0 ≤ l.redis.code → Framed commandText l.wire l.issued [] ∧ l.unread = []

theorem connect_orderly {memsz : Nat} (hroom : Command.nilText.length ≤ memsz)
    (hmemsz : memsz ≤ intMax) {timeout : Int}
    (htimeout : timeout + RedisConnect.SOCKET_TIMEOUT ≤ intMax) (buffer : Bytes) :
    (connect memsz timeout buffer).Orderly := by
  have hnone : Framed commandText [] [] [] := ⟨rfl, [], List.nil_prefix, by decide⟩
  exact ⟨hroom, hmemsz, htimeout, ⟨[], hnone⟩, fun _ => ⟨hnone, rfl⟩⟩

/-- What an execute does whose reply, or the part of it that comes, is of this kind. -/
theorem execute_ends {reply : Bytes} {code : Int} {res : List Bytes}
    (hreply : Command.Decided reply code res) (hfits : reply.length ≤ l.redis.memsz)
    (htimeout : l.redis.timeout + RedisConnect.SOCKET_TIMEOUT ≤ intMax) (hunread : l.unread = [])
    (hx : x.reply <+: reply) :
    ∃ cmd' l', l.execute cmd x = .ok (cmd', l') ∧
      (l'.redis.memsz = l.redis.memsz ∧ l'.redis.timeout = l.redis.timeout) ∧
      l'.wire = l.wire ++ sent cmd x ∧
      l'.issued = (if sent cmd x = cmd.toString then l.issued ++ [cmd.vec] else l.issued) ∧
      ((l'.redis.code = RedisConnect.TIMEOUT ∨ l'.redis.code = RedisConnect.NETERR ∨
          l'.redis.code = RedisConnect.NETCLOSE) ∨
        x.reply = reply ∧ l'.unread = [] ∧ l'.redis.code = code ∧ cmd'.res = cmd.res ++ res) := by
  have hdelivered := payload_deliver x.arrivals x.reply
  by_cases hwritten : 0 ≤ (written cmd x).code
  · have hread : ∃ r, Command.readReply l.redis.memsz l.redis.timeout
      (deliver x.arrivals x.reply) 0 0
        l.redis.buffer { cmd with status := 0, msg := [] } = .ok r ∧
        Command.Ends reply code res (payload (deliver x.arrivals x.reply))
          { cmd with status := 0, msg := [] } r :=
      Command.readReply_ends hreply hfits htimeout (Int.le_max_left 0 l.redis.timeout)
        (Command.holding_start l.redis.buffer) (Ne.symm hreply.ne_nil) (hdelivered.trans hx)
    obtain ⟨r, hread, hends⟩ := hread
    simp only [execute, hunread, List.nil_append, Command.getResult, hwritten, decide_true, if_true,
      hread, ok_bind]
    refine ⟨_, _, rfl, ⟨rfl, rfl⟩, rfl, rfl, ?_⟩
    cases hends with
    | early hcmd hcode => exact .inl hcode
    | whole hall hrest hcode hres =>
        rw [hall] at hdelivered
        have hxreply : x.reply = reply :=
          hx.eq_of_length (Nat.le_antisymm hx.length_le hdelivered.length_le)
        refine .inr ⟨hxreply, ?_, hcode, ?_⟩
        · dsimp only
          rw [hall, hrest, hxreply, List.length_nil, Nat.sub_zero, List.drop_length]
        · dsimp only
          split
          · exact hres
          · exact hres
  · simp only [execute, hunread, List.nil_append, Command.getResult, hwritten, decide_false,
      Bool.false_eq_true, if_false, ok_bind]
    exact ⟨_, _, rfl, ⟨rfl, rfl⟩, rfl, rfl, .inl (.inr (.inl rfl))⟩

/-- The reply that a call may meet: to its own command, if that was sent whole; of
any other, only the empty beginning comes. -/
theorem Served.expected (hserved : l.Served vec x) (hl : l.Orderly)
    (hframed : Framed commandText l.wire l.issued []) :
    ∃ reply code res, Command.Decided reply code res ∧ code ≠ RedisConnect.PARAMERR ∧
      reply.length ≤ l.redis.memsz ∧ x.reply <+: reply ∧
      (x.reply = reply → sent (Command.new vec) x = commandText vec ∧ MayAnswer vec x.reply) := by
  have hsent : sent (Command.new vec) x <+: commandText vec := List.take_prefix _ _
  by_cases hwhole : sent (Command.new vec) x = commandText vec
  · have hframed' := hframed.whole vec
    rw [← hwhole] at hframed'
    obtain ⟨fresh, replies, hfresh, hfits, hreply⟩ := hserved _ _ _ _ hframed hframed'
    cases List.append_cancel_left hfresh
    cases hfits with
    | cons hanswers hrest =>
        cases hrest
        rw [List.flatten_singleton] at hreply
        obtain ⟨code, res, hdecided, hparam⟩ :=
          hanswers.1.decided (Nat.le_trans hanswers.2 hl.memsz)
        rw [hreply]
        exact ⟨_, code, res, hdecided, hparam, hanswers.2, List.prefix_refl _,
          fun _ => ⟨hwhole, hanswers.1⟩⟩
  · obtain ⟨fresh, replies, hfresh, hfits, hreply⟩ :=
      hserved _ _ _ _ hframed (hframed.started hsent hwhole)
    cases List.append_cancel_left ((List.append_nil _).trans hfresh)
    cases hfits
    rw [hreply]
    exact ⟨Command.nilText, _, _, Command.decided_nil, by decide, hl.room, List.nil_prefix,
      fun h => absurd h.symm (List.cons_ne_nil _ _)⟩

/-- What a command adds to the wire. -/
theorem framed_sent (hframed : Framed commandText l.wire l.issued []) :
    ∃ part, Framed commandText (l.wire ++ sent (Command.new vec) x)
        (if sent (Command.new vec) x = commandText vec then l.issued ++ [vec] else l.issued) part ∧
      (sent (Command.new vec) x = commandText vec → part = []) := by
  have hsent : sent (Command.new vec) x <+: commandText vec := List.take_prefix _ _
  by_cases hwhole : sent (Command.new vec) x = commandText vec
  · rw [if_pos hwhole, hwhole]
    exact ⟨[], hframed.whole vec, fun _ => rfl⟩
  · rw [if_neg hwhole]
    exact ⟨_, hframed.started hsent hwhole, fun h => absurd h hwhole⟩

/-- A command on a connection whose last one did not fail, whatever the network
does with it: it returns, the connection stays in order, and a code without error
comes from the reply to this very command. -/
theorem execute_orderly (hl : l.Orderly) (hcode : 0 ≤ l.redis.code) (hserved : l.Served vec x) :
    ∃ cmd l', l.execute (Command.new vec) x = .ok (cmd, l') ∧ l'.Orderly ∧
      l'.redis.memsz = l.redis.memsz ∧ l'.redis.code ≠ RedisConnect.PARAMERR ∧
      (0 ≤ l'.redis.code → sent (Command.new vec) x = commandText vec ∧ MayAnswer vec x.reply ∧
        x.reply.length ≤ intMax ∧ Command.Decided x.reply l'.redis.code cmd.res) := by
  obtain ⟨hframed, hunread⟩ := hl.clean hcode
  obtain ⟨reply, code, res, hdecided, hparam, hfits, hx, hown⟩ := hserved.expected hl hframed
  obtain ⟨part, hframed', hpart⟩ := @framed_sent l x vec hframed
  obtain ⟨cmd, l', hexecute, hsetup, hwire, hissued, hend⟩ :=
    @execute_ends l (Command.new vec) x _ _ _ hdecided hfits hl.timeout hunread hx
  have hframed'' : Framed commandText l'.wire l'.issued part := by
    rw [hwire, hissued]
    exact hframed'
  have horderly (hclean : 0 ≤ l'.redis.code → part = [] ∧ l'.unread = []) : l'.Orderly := by
    refine ⟨hsetup.1 ▸ hl.room, hsetup.1 ▸ hl.memsz, hsetup.2 ▸ hl.timeout, ⟨part, hframed''⟩,
      fun h => ?_⟩
    obtain ⟨rfl, hnone⟩ := hclean h
    exact ⟨hframed'', hnone⟩
  refine ⟨cmd, l', hexecute, ?_⟩
  rcases hend with hearly | ⟨hreply, hnone, rfl, hres⟩
  · have hneg : l'.redis.code < 0 ∧ l'.redis.code ≠ RedisConnect.PARAMERR := by
      rcases hearly with h | h | h
      · rw [h]
        decide
      · rw [h]
        decide
      · rw [h]
        decide
    exact ⟨horderly fun h => absurd h (Int.not_le.mpr hneg.1), hsetup.1, hneg.2,
      fun h => absurd h (Int.not_le.mpr hneg.1)⟩
  · obtain ⟨hwhole, hanswers⟩ := hown hreply
    refine ⟨horderly fun _ => ⟨hpart hwhole, hnone⟩, hsetup.1, hparam, fun _ =>
      ⟨hwhole, hanswers, ?_, ?_⟩⟩
    · rw [hreply]
      exact Nat.le_trans hfits hl.memsz
    · rw [hreply, hres]
      exact hdecided

theorem set_orderly {key val : Bytes} (hl : l.Orderly) (hcode : 0 ≤ l.redis.code)
    (hserved : l.Served (setArgs key val) x) :
    ∃ code l', l.set key val x = .ok (code, l') ∧ l'.Orderly ∧ code ≠ RedisConnect.PARAMERR := by
  obtain ⟨cmd, l', hexecute, hl', -, hparam, -⟩ := execute_orderly hl hcode hserved
  exact ⟨_, l', by simp only [set, hexecute, ok_bind]; rfl, hl', hparam⟩

/-- A get ends with the value in its own reply, or without one. -/
theorem get_orderly {key : Bytes} (hl : l.Orderly) (hcode : 0 ≤ l.redis.code)
    (hserved : l.Served (getArgs key) x) :
    ∃ code val l', l.get key x = .ok (code, val, l') ∧ l'.Orderly ∧
      (code = RedisConnect.OK ∧ (∃ v, val = some v ∧ x.reply = Reply.bulkText v ∧
          sent (Command.new (getArgs key)) x = commandText (getArgs key)) ∨
        code < 0 ∧ val = none) := by
  obtain ⟨cmd, l', hexecute, hl', -, -, hown⟩ := execute_orderly hl hcode hserved
  by_cases hneg : l'.redis.code < 0
  · refine ⟨_, none, l', ?_, hl', .inr ⟨hneg, rfl⟩⟩
    simp only [get, hexecute, ok_bind]
    exact if_pos (Int.le_of_lt hneg)
  · obtain ⟨hwhole, hanswers, hsize, hdecided⟩ := hown (Int.not_lt.mp hneg)
    rcases hanswers.of_get with ⟨v, hreply⟩ | hreply | ⟨text, h0, h13, h10, hreply⟩
    · rw [hreply] at hdecided hsize
      obtain ⟨hok, hres⟩ := hdecided.unique (Command.decided_bulk hsize)
      refine ⟨_, some v, l', ?_, hl', .inl ⟨hok, v, rfl, hreply, hwhole⟩⟩
      simp only [get, hexecute, ok_bind, hres]
      exact if_neg (by rw [hok]; decide)
    · rw [hreply] at hdecided
      obtain ⟨hcode', -⟩ := hdecided.unique Command.decided_nil
      rw [hcode'] at hneg
      exact absurd (by decide) hneg
    · rw [hreply] at hdecided
      obtain ⟨hcode', -⟩ := hdecided.unique (Command.decided_line (.inr rfl) h0 h13 h10)
      rw [hcode'] at hneg
      exact absurd (by decide) hneg

end Link
end TAlib
