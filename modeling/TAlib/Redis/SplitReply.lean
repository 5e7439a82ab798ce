import TAlib.Redis.Reply

/-!
Whether it matters how a reply is split into what recv returns. Until the whole
reply is there the parser runs on a beginning of it, followed by a NUL and by
whatever earlier replies left in the buffer. It stores the complete elements of
an array in every such run, and right behind the header of an array it looks
past the NUL.
-/

namespace TAlib

open Foundation RedisConnect

/-- The receive buffer when these bytes have come into it. -/
def loaded (buffer received : Bytes) : Bytes := received ++ 0 :: buffer.drop (received.length + 1)

namespace Command

open Reply

/-- What a caller sees of a reply. -/
structure Answer where
  code : Int
  status : Int
  msg : Bytes
  res : List Bytes
  deriving DecidableEq, Repr

def answer (r : Command × RedisConnect × List Recv) : Answer :=
  ⟨r.2.1.code, r.2.1.status, r.2.1.msg, r.1.res⟩

/-- What getResult makes of a reply that arrives in these pieces. -/
def resultOf (cmd : Command) (redis : RedisConnect) (chunks : List Bytes) :
    Except Fault Answer := do
  let r ← cmd.getResult redis true (chunks.map .data)
  return answer r

/-- A delay that stays within its int. -/
theorem lastDelay_le {timeout delay : Int} (htimeout : timeout + SOCKET_TIMEOUT ≤ intMax)
    (hdelay : delay ≤ max 0 timeout) : lastDelay timeout delay ≤ intMax := by
  have hten : SOCKET_TIMEOUT = 10 := rfl
  have hmax : intMax = 2 ^ 31 - 1 := rfl
  simp only [lastDelay, hten] at htimeout ⊢
  omega

theorem readReply_silent {memsz : Nat} {timeout delay : Int}
    (htimeout : timeout + SOCKET_TIMEOUT ≤ intMax) (hdelay : delay ≤ max 0 timeout)
    (readed : Nat) (buffer : Bytes) (cmd : Command) :
    readReply memsz timeout [] delay readed buffer cmd =
      .ok ⟨if readed < memsz then TIMEOUT else PARAMERR, cmd, buffer, []⟩ := by
  rw [readReply]
  split
  · exact if_neg (Int.not_lt.mpr (lastDelay_le htimeout hdelay))
  · rfl

theorem readReply_nothing {memsz : Nat} {timeout delay : Int}
    (htimeout : timeout + SOCKET_TIMEOUT ≤ intMax) (hdelay : delay ≤ max 0 timeout)
    {readed : Nat} (hroom : readed < memsz) (rest : List Recv) (buffer : Bytes) (cmd : Command) :
    readReply memsz timeout (.nothing :: rest) delay readed buffer cmd =
      if timeout < delay + SOCKET_TIMEOUT then .ok ⟨TIMEOUT, cmd, buffer, rest⟩
      else readReply memsz timeout rest (delay + SOCKET_TIMEOUT) readed buffer cmd := by
  have hten : SOCKET_TIMEOUT = 10 := rfl
  have hmax : intMax = 2 ^ 31 - 1 := rfl
  rw [readReply, if_pos hroom]
  exact if_neg (by omega)

theorem receive_first (buffer b : Bytes) : receive buffer 0 b = loaded buffer b := by
  rw [receive, loaded, List.take_zero, List.nil_append, Nat.zero_add]

theorem receive_next (buffer p b : Bytes) :
    receive (loaded buffer p) p.length b = loaded buffer (p ++ b) := by
  have hdrop : (p ++ 0 :: buffer.drop (p.length + 1)).drop (p.length + b.length + 1) =
      buffer.drop (p.length + b.length + 1) := by
    rw [List.drop_append, List.drop_eq_nil_of_le (by omega), List.nil_append,
      show p.length + b.length + 1 - p.length = b.length + 1 by omega, List.drop_succ_cons,
      List.drop_drop]
    congr 1
    omega
  rw [receive, loaded, loaded, List.take_left, hdrop, List.length_append]

variable {memsz : Nat} {timeout : Int} {buffer : Bytes}

/-- One piece arrives and the parser runs. -/
theorem readReply_data {p b mem : Bytes} {rest : List Recv} {cmd : Command} (hb : b ≠ [])
    (hroom : p.length + b.length ≤ memsz) (hmem : receive mem p.length b = loaded buffer (p ++ b)) :
    readReply memsz timeout (.data b :: rest) 0 p.length mem cmd =
      (parse (loaded buffer (p ++ b)) 0 (p ++ b).length cmd >>= fun r =>
        if r.1 ≠ TIMEOUT then .ok ⟨r.1, r.2, loaded buffer (p ++ b), rest⟩
        else readReply memsz timeout rest 0 (p ++ b).length (loaded buffer (p ++ b)) r.2) := by
  have hpos : 0 < b.length := List.length_pos_iff.mpr hb
  have htake : b.take (memsz - p.length) = b := List.take_of_length_le (by omega)
  rw [readReply, if_pos (by omega)]
  simp only [if_neg hb, htake, hmem, Nat.le_refl, if_true, unread, List.length_append]
  rfl

/-- The buffer in which the bytes `p` have been received. -/
def Holding (buffer p mem : Bytes) : Prop :=
  ∀ b, receive mem p.length b = loaded buffer (p ++ b)

theorem holding_start (buffer : Bytes) : Holding buffer [] buffer := fun b => receive_first buffer b

theorem holding_loaded (buffer p : Bytes) : Holding buffer p (loaded buffer p) :=
  fun b => receive_next buffer p b

/-- The end of readReply when the whole reply is there. -/
def finish (memsz : Nat) (timeout : Int) (buffer whole : Bytes) (r : Int × Command) :
    Except Fault Received :=
  if r.1 ≠ TIMEOUT then .ok ⟨r.1, r.2, loaded buffer whole, []⟩
  else readReply memsz timeout [] 0 whole.length (loaded buffer whole) r.2

/-- Pieces that the parser waits on, with a state of the command from which it
decides the whole reply in one way only. -/
theorem readReply_quiet {whole : Bytes} {K : Command → Prop} {Q : Bytes → Prop}
    {final : Except Fault (Int × Command)}
    (hfinal : ∀ cmd, K cmd → parse (loaded buffer whole) 0 whole.length cmd = final)
    (hquiet : ∀ q cmd, K cmd → q <+: whole → q ≠ whole → q ≠ [] → Q q →
      ∃ cmd', parse (loaded buffer q) 0 q.length cmd = .ok (TIMEOUT, cmd') ∧ K cmd')
    (hroom : whole.length ≤ memsz) {chunks : List Bytes} (hchunks : chunks ≠ [])
    (hne : ∀ b ∈ chunks, b ≠ []) {p mem : Bytes} (hmem : Holding buffer p mem)
    (hwhole : p ++ chunks.flatten = whole)
    (hQ : ∀ before after, chunks = before ++ after → before ≠ [] → after ≠ [] →
      Q (p ++ before.flatten))
    {cmd : Command} (hcmd : K cmd) :
    readReply memsz timeout (chunks.map .data) 0 p.length mem cmd =
      (final >>= finish memsz timeout buffer whole) := by
  induction chunks generalizing p mem cmd with
  | nil => exact absurd rfl hchunks
  | cons b rest ih =>
      have hb := hne b List.mem_cons_self
      have hlen := congrArg List.length hwhole
      rw [List.length_append, List.flatten_cons, List.length_append] at hlen
      rw [List.map_cons, readReply_data hb (by omega) (hmem b)]
      cases rest with
      | nil =>
          rw [List.flatten_cons, List.flatten_nil, List.append_nil] at hwhole
          rw [hwhole, hfinal cmd hcmd]
          rfl
      | cons b' rest =>
          have hb' := List.length_pos_iff.mpr (hne b' (List.mem_cons_of_mem _ List.mem_cons_self))
          rw [List.flatten_cons, ← List.append_assoc] at hwhole
          have hprefix : p ++ b <+: whole := ⟨_, hwhole⟩
          have hproper : p ++ b ≠ whole := by
            intro heq
            have := congrArg List.length heq
            rw [List.flatten_cons, List.length_append] at hlen
            rw [List.length_append] at this
            omega
          have hq : Q (p ++ b) := by
            have hq := hQ [b] (b' :: rest) rfl (List.cons_ne_nil _ _) (List.cons_ne_nil _ _)
            rwa [List.flatten_singleton] at hq
          obtain ⟨cmd', hparse, hcmd'⟩ := hquiet (p ++ b) cmd hcmd hprefix hproper
            (fun h => hb (List.append_eq_nil_iff.mp h).2) hq
          rw [hparse, ok_bind]
          refine (if_neg (not_not.mpr rfl)).trans ?_
          refine ih (List.cons_ne_nil _ _) (fun c hc => hne c (List.mem_cons_of_mem _ hc))
            (holding_loaded buffer (p ++ b)) hwhole
              (fun before after heq hbefore hafter => ?_) hcmd'
          have hq := hQ (b :: before) after (by rw [heq, List.cons_append])
            (List.cons_ne_nil _ _) hafter
          rwa [List.flatten_cons, ← List.append_assoc] at hq

end Command

namespace Reply

/-- A piece may end here without harm: not right behind the header of an array
with elements, and not behind its first element. -/
def Quiet : Reply → Nat → Prop
  | array (x :: xs), n => n ≠ (header (xs.length + 1)).length ∧
      n < (header (xs.length + 1)).length + (bulkText x).length
  | _, _ => True

theorem not_mem_intText {z : Int} {b : UInt8} (hb : isdigit b = false) (hne : b ≠ 45) :
    b ∉ intText z := by
  unfold intText
  split
  · rw [List.mem_cons, not_or]
    exact ⟨hne, not_mem_decimalText hb⟩
  · exact not_mem_decimalText hb

theorem length_lt_bulkText (x : Bytes) : x.length < (bulkText x).length := by
  simp only [bulkText, List.length_cons, List.length_append, List.length_nil]
  omega

theorem length_le_flatMap (xs : List Bytes) : xs.length ≤ (xs.flatMap bulkText).length := by
  induction xs with
  | nil => exact Nat.le_refl 0
  | cons x xs ih =>
      rw [List.flatMap_cons, List.length_append, List.length_cons]
      have := length_lt_bulkText x
      omega

theorem length_lt_flatMap {xs : List Bytes} {x : Bytes} (hx : x ∈ xs) :
    x.length < (xs.flatMap bulkText).length := by
  obtain ⟨before, after, rfl⟩ := List.append_of_mem hx
  rw [List.flatMap_append, List.flatMap_cons, List.length_append, List.length_append]
  have := length_lt_bulkText x
  omega

/-- What of an array can have arrived before it is whole. -/
theorem array_prefix {xs : List Bytes} {q : Bytes} (hq : q <+: xs.flatMap bulkText)
    (hproper : q ≠ xs.flatMap bulkText) :
    ∃ ys z zs r, xs = ys ++ z :: zs ∧ q = ys.flatMap bulkText ++ r ∧ r <+: bulkText z ∧
      r ≠ bulkText z := by
  induction xs generalizing q with
  | nil => exact absurd (List.prefix_nil.mp hq) hproper
  | cons x xs ih =>
      rw [List.flatMap_cons] at hq hproper
      by_cases hlen : q.length < (bulkText x).length
      · have hshort : q <+: bulkText x :=
          List.prefix_of_prefix_length_le hq (List.prefix_append _ _) (Nat.le_of_lt hlen)
        exact ⟨[], x, xs, q, rfl, rfl, hshort, fun heq => Nat.ne_of_lt hlen (by rw [heq])⟩
      · obtain ⟨q', rfl⟩ := List.prefix_of_prefix_length_le (List.prefix_append _ _) hq
          (Nat.le_of_not_lt hlen)
        obtain ⟨ys, z, zs, r, rfl, rfl, hr, hproper'⟩ := ih ((List.prefix_append_right_inj _).mp hq)
          fun heq => hproper (by rw [heq])
        exact ⟨x :: ys, z, zs, r, rfl, by rw [List.flatMap_cons, List.append_assoc], hr, hproper'⟩

end Reply

namespace Command

open Reply

/-- The parser waits for the rest of a reply that is no array, or of the header
of one, and leaves the command alone. -/
theorem waits_line {reply : Reply} (hwf : reply.WellFormed) (hsize : reply.encode.length ≤ intMax)
    {q : Bytes} (hq : q <+: reply.encode) (hproper : q ≠ reply.encode) (hne : q ≠ [])
    (hshort : ∀ xs, reply = .array xs → q.length < (header xs.length).length) (buffer : Bytes)
    (cmd : Command) : parse (loaded buffer q) 0 q.length cmd = .ok (TIMEOUT, cmd) := by
  cases reply with
  | simple s => exact parse_part_line (by decide) hwf.2 hq hproper hne _
  | error s => exact parse_part_line (by decide) hwf.2 hq hproper hne _
  | integer z =>
      exact parse_part_line (by decide) (not_mem_intText rfl (by decide)) hq hproper hne _
  | bulk x =>
      refine parse_part_bulk ?_ hq hproper hne
      exact Nat.le_trans (Nat.le_of_lt (length_lt_bulkText x)) hsize
  | array xs =>
      have hlen := hshort xs rfl
      have hq' : q <+: header xs.length :=
        List.prefix_of_prefix_length_le hq (List.prefix_append _ _) (Nat.le_of_lt hlen)
      exact parse_part_line (by decide) (not_mem_decimalText rfl) hq'
        (fun heq => Nat.ne_of_lt hlen (congrArg List.length heq)) hne _

/-- The parser waits for the rest of an array with the elements `ys` stored. -/
theorem waits_array {xs : List Bytes} (hsize : (Reply.array xs).encode.length ≤ intMax) {q : Bytes}
    (hq : q <+: (Reply.array xs).encode) (hproper : q ≠ (Reply.array xs).encode)
    (hlong : (header xs.length).length ≤ q.length) :
    ∃ ys z zs r, xs = ys ++ z :: zs ∧ q = header xs.length ++ (ys.flatMap bulkText ++ r) ∧
      r <+: bulkText z ∧ r ≠ bulkText z ∧ ∀ buffer cmd,
        (r = [] → (buffer.drop (q.length + 1)).head? = some 0) →
        parse (loaded buffer q) 0 q.length cmd =
          .ok (TIMEOUT, { cmd with vec := [], res := cmd.res ++ ys }) := by
  have hlen : xs.length ≤ intMax ∧ ∀ x ∈ xs, x.length ≤ intMax := by
    have hflat := length_le_flatMap xs
    rw [encode, List.length_append] at hsize
    refine ⟨by omega, fun x hx => ?_⟩
    have := length_lt_flatMap hx
    omega
  obtain ⟨q', rfl⟩ := List.prefix_of_prefix_length_le (List.prefix_append _ _) hq hlong
  obtain ⟨ys, z, zs, r, rfl, rfl, hr, hproper'⟩ := array_prefix
    ((List.prefix_append_right_inj _).mp hq) fun heq => hproper (by rw [heq]; rfl)
  refine ⟨ys, z, zs, r, rfl, rfl, hr, hproper', fun buffer cmd hend => ?_⟩
  have h : parse _ 0 _ cmd = _ := parse_part_array hlen.1 hlen.2 hr hproper' hend
  rw [loaded]
  simpa only [List.append_assoc] using h

theorem parse_whole_array {xs : List Bytes} (hsize : (Reply.array xs).encode.length ≤ intMax)
    (buffer : Bytes) (cmd : Command) :
    parse (loaded buffer (Reply.array xs).encode) 0 (Reply.array xs).encode.length cmd =
      .ok (toInt (cmd.res ++ xs).length, { cmd with vec := [], res := cmd.res ++ xs }) := by
  have hflat := length_le_flatMap xs
  rw [encode, List.length_append] at hsize
  refine parse_array (by omega) fun x hx => ?_
  have := length_lt_flatMap hx
  omega

variable {memsz : Nat} {timeout : Int} {buffer : Bytes} {reply : Reply} {chunks : List Bytes}

/-- Pieces that end without harm give what one piece gives. -/
theorem readReply_of_quiet (hwf : reply.WellFormed) (hfits : reply.encode.length ≤ memsz)
    (hsize : memsz ≤ intMax) (hne : ∀ b ∈ chunks, b ≠ []) (hwhole : chunks.flatten = reply.encode)
    (hquiet : ∀ before after, chunks = before ++ after → before ≠ [] → after ≠ [] →
      reply.Quiet before.flatten.length) (cmd : Command) :
    readReply memsz timeout (chunks.map .data) 0 0 buffer cmd =
      (parse (loaded buffer reply.encode) 0 reply.encode.length cmd >>=
        finish memsz timeout buffer reply.encode) := by
  have hint := Nat.le_trans hfits hsize
  have hchunks : chunks ≠ [] := by
    rintro rfl
    cases reply <;> cases hwhole
  by_cases harray : ∃ x xs, reply = .array (x :: xs)
  · obtain ⟨x, xs, rfl⟩ := harray
    refine readReply_quiet (K := fun cmd' => ∃ v, cmd' = { cmd with vec := v })
      (Q := fun q => Quiet (.array (x :: xs)) q.length) ?_ ?_ hfits hchunks hne
      (holding_start buffer) hwhole hquiet ⟨cmd.vec, rfl⟩
    · rintro _ ⟨v, rfl⟩
      rw [parse_whole_array hint, parse_whole_array hint]
    · rintro q _ ⟨v, rfl⟩ hq hproper hqne ⟨hnot, hlt⟩
      by_cases hlen : q.length < (header (xs.length + 1)).length
      · refine ⟨_, waits_line hwf hint hq hproper hqne (fun ys hys => ?_) buffer _, v, rfl⟩
        cases hys
        exact hlen
      · obtain ⟨ys, z, zs, r, heq, rfl, hr, -, hparse⟩ :=
          waits_array hint hq hproper (Nat.le_of_not_lt hlen)
        rw [List.length_append, List.length_append, List.length_cons] at hnot hlt
        cases ys with
        | nil =>
            refine ⟨_, hparse buffer _ fun hnil => ?_, [], ?_⟩
            · rw [hnil] at hnot
              exact absurd rfl hnot
            · rw [List.append_nil]
        | cons y ys =>
            cases heq
            rw [List.flatMap_cons, List.length_append] at hlt
            omega
  · refine readReply_quiet (K := fun cmd' => cmd' = cmd) (Q := fun _ => True) ?_ ?_ hfits hchunks
      hne (holding_start buffer) hwhole (fun _ _ _ _ _ => trivial) rfl
    · rintro _ rfl
      rfl
    · rintro q _ rfl hq hproper hqne -
      refine ⟨_, waits_line hwf hint hq hproper hqne (fun xs hxs => ?_) buffer _, rfl⟩
      cases xs with
      | nil =>
          subst hxs
          refine Nat.lt_of_le_of_ne hq.length_le fun heq => hproper (hq.eq_of_length ?_)
          exact heq.trans (by rw [encode, List.flatMap_nil, List.append_nil])
      | cons x xs => exact absurd ⟨x, xs, hxs⟩ harray

/-- Right behind the header of an array the parser looks for the size of the first
element past the NUL, where there may be no further NUL. -/
theorem parse_past_end {n : Nat} (hn : n + 1 ≤ intMax) (hnul : 0 ∉ buffer) (cmd : Command) :
    parse (loaded buffer (header (n + 1))) 0 (header (n + 1)).length cmd = .error .outOfBounds := by
  have hrest : 0 ∉ buffer.drop ((header (n + 1)).length + 1) :=
    fun h => hnul (List.mem_of_mem_drop h)
  have hstr : strstr (header (n + 1) ++ 0 :: buffer.drop ((header (n + 1)).length + 1))
      ((header (n + 1)).length + 1) kCRLF = .error .outOfBounds := by
    have hdrop : (header (n + 1) ++ 0 :: buffer.drop ((header (n + 1)).length + 1)).drop
        ((header (n + 1)).length + 1 : Int).toNat = buffer.drop ((header (n + 1)).length + 1) := by
      rw [show ((header (n + 1)).length + 1 : Int).toNat = (header (n + 1)).length + 1 by omega,
        ← List.drop_drop, List.drop_left, List.drop_succ_cons, List.drop_zero]
    rw [strstr, cString, hdrop, if_pos (.inr hrest)]
    rfl
  rw [parse, loaded, parseLevel_header hn List.mem_cons_self, parseItems, byteAt_append, ok_bind,
    if_neg (by decide), parseNode, hstr]
  rfl

theorem readReply_past_end {x : Bytes} {xs : List Bytes}
    (hsize : (Reply.array (x :: xs)).encode.length ≤ intMax) (hnul : 0 ∉ buffer)
    {before : List Bytes} (after : List Recv) (hbefore : before ≠ []) (hne : ∀ b ∈ before, b ≠ [])
    {p mem : Bytes} (hmem : Holding buffer p mem)
    (hheader : p ++ before.flatten = header (xs.length + 1))
    (hroom : (header (xs.length + 1)).length ≤ memsz) (cmd : Command) :
    readReply memsz timeout (before.map .data ++ after) 0 p.length mem cmd =
      .error .outOfBounds := by
  have hflat := length_le_flatMap (x :: xs)
  have henc := hsize
  rw [encode, List.length_append, List.length_cons] at henc
  rw [List.length_cons] at hflat
  induction before generalizing p mem cmd with
  | nil => exact absurd rfl hbefore
  | cons b rest ih =>
      have hb := hne b List.mem_cons_self
      have hlen := congrArg List.length hheader
      rw [List.length_append, List.flatten_cons, List.length_append] at hlen
      rw [List.map_cons, List.cons_append, readReply_data hb (by omega) (hmem b)]
      cases rest with
      | nil =>
          rw [List.flatten_cons, List.flatten_nil, List.append_nil] at hheader
          rw [hheader, parse_past_end (by omega) hnul]
          rfl
      | cons b' rest =>
          have hb' := List.length_pos_iff.mpr (hne b' (List.mem_cons_of_mem _ List.mem_cons_self))
          rw [List.flatten_cons, ← List.append_assoc] at hheader
          rw [List.flatten_cons, List.length_append] at hlen
          have hprefix : p ++ b <+: (Reply.array (x :: xs)).encode :=
            List.IsPrefix.trans ⟨_, hheader⟩ (List.prefix_append _ _)
          have hshort : (p ++ b).length < (header (xs.length + 1)).length := by
            rw [List.length_append]
            omega
          have hwait := waits_line (show (Reply.array (x :: xs)).WellFormed from trivial) hsize
            hprefix (fun heq => ?_)
            (fun h => hb (List.append_eq_nil_iff.mp h).2) (fun ys hys => by cases hys; exact hshort)
            buffer cmd
          · rw [hwait, ok_bind]
            refine (if_neg (not_not.mpr rfl)).trans ?_
            exact ih (List.cons_ne_nil _ _) (fun c hc => hne c (List.mem_cons_of_mem _ hc))
              (holding_loaded buffer (p ++ b)) hheader cmd
          · rw [heq, encode, List.length_append] at hshort
            exact absurd hshort (by rw [List.length_cons]; omega)

/-- With zeros in the buffer the parser waits, whatever part of the array is there. -/
theorem waits_zero {x : Bytes} {xs : List Bytes}
    (hfits : (Reply.array (x :: xs)).encode.length ≤ memsz) (hsize : memsz ≤ intMax)
    (hzero : buffer = List.replicate (memsz + 1) 0) {q : Bytes}
    (hq : q <+: (Reply.array (x :: xs)).encode) (hproper : q ≠ (Reply.array (x :: xs)).encode)
    (hne : q ≠ []) (cmd : Command) :
    ∃ cmd' ys, parse (loaded buffer q) 0 q.length cmd = .ok (TIMEOUT, cmd') ∧
      cmd'.res = cmd.res ++ ys ∧
      ((header (xs.length + 1)).length + (bulkText x).length ≤ q.length → ys ≠ []) := by
  have hint := Nat.le_trans hfits hsize
  by_cases hlen : q.length < (header (xs.length + 1)).length
  · refine ⟨cmd, [], waits_line (show (Reply.array (x :: xs)).WellFormed from trivial) hint hq
      hproper hne (fun ys hys => by cases hys; exact hlen) buffer cmd, (List.append_nil _).symm,
      fun h => ?_⟩
    omega
  · obtain ⟨ys, z, zs, r, heq, hqeq, hr, hproper', hparse⟩ :=
      waits_array hint hq hproper (Nat.le_of_not_lt hlen)
    refine ⟨_, ys, hparse buffer cmd fun _ => ?_, rfl, fun h hnil => ?_⟩
    · have hqlen : q.length < (Reply.array (x :: xs)).encode.length :=
        Nat.lt_of_le_of_ne hq.length_le fun heq => hproper (hq.eq_of_length heq)
      obtain ⟨k, hk⟩ := Nat.exists_eq_succ_of_ne_zero
        (show memsz + 1 - (q.length + 1) ≠ 0 by omega)
      rw [hzero, List.drop_replicate, hk, List.replicate_succ, List.head?_cons]
    · subst hnil
      cases heq
      have hrlen : r.length < (bulkText x).length :=
        Nat.lt_of_le_of_ne hr.length_le fun heq => hproper' (hr.eq_of_length heq)
      rw [hqeq, List.length_append, List.flatMap_nil, List.nil_append, List.length_cons] at h
      omega

/-- A piece behind the first element leaves it in the command, and the whole array
is added to it later. -/
theorem readReply_stores (htimeout : timeout + SOCKET_TIMEOUT ≤ intMax) {x : Bytes}
    {xs : List Bytes}
    (hfits : (Reply.array (x :: xs)).encode.length ≤ memsz) (hsize : memsz ≤ intMax)
    (hzero : buffer = List.replicate (memsz + 1) 0) (hchunks : chunks ≠ [])
    (hne : ∀ b ∈ chunks, b ≠ []) {p mem : Bytes} (hmem : Holding buffer p mem)
    (hwhole : p ++ chunks.flatten = (Reply.array (x :: xs)).encode) (cmd : Command) :
    ∃ r extra, readReply memsz timeout (chunks.map .data) 0 p.length mem cmd = .ok r ∧
      r.cmd.res = cmd.res ++ extra ++ (x :: xs) ∧
      ∀ before after, chunks = before ++ after → before ≠ [] → after ≠ [] →
        (header (xs.length + 1)).length + (bulkText x).length ≤ (p ++ before.flatten).length →
        extra ≠ [] := by
  induction chunks generalizing p mem cmd with
  | nil => exact absurd rfl hchunks
  | cons b rest ih =>
      have hb := hne b List.mem_cons_self
      have hlen := congrArg List.length hwhole
      rw [List.length_append, List.flatten_cons, List.length_append] at hlen
      rw [List.map_cons, readReply_data hb (by omega) (hmem b)]
      cases rest with
      | nil =>
          rw [List.flatten_cons, List.flatten_nil, List.append_nil] at hwhole
          rw [hwhole, parse_whole_array (Nat.le_trans hfits hsize), ok_bind]
          have hsplit : ∀ before after, [b] = before ++ after → before ≠ [] →
              after ≠ [] → False := by
            intro before after heq hbefore hafter
            have := congrArg List.length heq
            have hpos := List.length_pos_iff.mpr hbefore
            have hpos' := List.length_pos_iff.mpr hafter
            rw [List.length_append, List.length_singleton] at this
            omega
          by_cases hcode : toInt (cmd.res ++ x :: xs).length = TIMEOUT
          · refine ⟨_, [], (if_neg (not_not.mpr hcode)).trans
              (readReply_silent htimeout (Int.le_max_left 0 timeout) _ _ _),
              by rw [List.append_nil],
              fun before after heq h h' _ => (hsplit before after heq h h').elim⟩
          · exact ⟨_, [], if_pos hcode, by rw [List.append_nil],
              fun before after heq h h' _ => (hsplit before after heq h h').elim⟩
      | cons b' rest =>
          have hb' := List.length_pos_iff.mpr (hne b' (List.mem_cons_of_mem _ List.mem_cons_self))
          rw [List.flatten_cons, ← List.append_assoc] at hwhole
          rw [List.flatten_cons, List.length_append] at hlen
          have hproper : p ++ b ≠ (Reply.array (x :: xs)).encode := by
            intro heq
            have := congrArg List.length heq
            rw [List.length_append] at this
            omega
          obtain ⟨cmd', ys, hparse, hres, hys⟩ := waits_zero hfits hsize hzero ⟨_, hwhole⟩ hproper
            (fun h => hb (List.append_eq_nil_iff.mp h).2) cmd
          obtain ⟨r, extra, hread, hres', hextra⟩ := ih (List.cons_ne_nil _ _)
            (fun c hc => hne c (List.mem_cons_of_mem _ hc))
              (holding_loaded buffer (p ++ b)) hwhole cmd'
          refine ⟨r, ys ++ extra, ?_, ?_, fun before after heq hbefore hafter hlong hnil => ?_⟩
          · rw [hparse, ok_bind]
            exact (if_neg (not_not.mpr rfl)).trans hread
          · rw [hres', hres, ← List.append_assoc]
          · obtain ⟨hys', hextra'⟩ := List.append_eq_nil_iff.mp hnil
            obtain ⟨c, before, rfl⟩ := List.exists_cons_of_ne_nil hbefore
            have htail := (List.cons.inj heq).2
            rw [List.flatten_cons, ← List.append_assoc, ← (List.cons.inj heq).1] at hlong
            cases before with
            | nil =>
                rw [List.flatten_nil, List.append_nil] at hlong
                exact hys hlong hys'
            | cons d before =>
                exact hextra _ after htail (List.cons_ne_nil _ _) hafter hlong hextra'

/-- The reply and the pieces make the answer of one piece, whatever was left in the
buffer of the connection. -/
def SplitIndependent (cmd : Command) (memsz : Nat) (reply : Reply) (chunks : List Bytes) : Prop :=
  ∀ redis : RedisConnect, redis.memsz = memsz → redis.buffer.length = memsz + 1 →
    cmd.resultOf redis chunks = cmd.resultOf redis [reply.encode]

section ResultOf

variable (redis : RedisConnect) (cmd : Command)

theorem resultOf_congr {chunks' : List Bytes}
    (h : ∀ cmd, readReply redis.memsz redis.timeout (chunks.map .data) 0 0 redis.buffer cmd =
      readReply redis.memsz redis.timeout (chunks'.map .data) 0 0 redis.buffer cmd) :
    cmd.resultOf redis chunks = cmd.resultOf redis chunks' := by
  simp only [resultOf, getResult, if_true, h]

/-- The list of results is what readReply leaves. -/
theorem resultOf_res {r : Received}
    (h : readReply redis.memsz redis.timeout (chunks.map .data) 0 0 redis.buffer
      { cmd with status := 0, msg := [] } = .ok r) :
    ∃ a, cmd.resultOf redis chunks = .ok a ∧ a.res = r.cmd.res := by
  simp only [resultOf, getResult, if_true, h, ok_bind]
  refine ⟨_, rfl, ?_⟩
  simp only [answer]
  split
  · rfl
  · rfl

theorem resultOf_error {e : Fault}
    (h : readReply redis.memsz redis.timeout (chunks.map .data) 0 0 redis.buffer
      { cmd with status := 0, msg := [] } = .error e) : cmd.resultOf redis chunks = .error e := by
  simp only [resultOf, getResult, if_true, h]
  rfl

end ResultOf

/-- Pieces of one have no end inside. -/
theorem quiet_whole (reply reply' : Reply) (before after : List Bytes)
    (hsplit : [reply.encode] = before ++ after) (hbefore : before ≠ []) (hafter : after ≠ []) :
    reply'.Quiet before.flatten.length := by
  have := congrArg List.length hsplit
  have hpos := List.length_pos_iff.mpr hbefore
  have hpos' := List.length_pos_iff.mpr hafter
  rw [List.length_append, List.length_singleton] at this
  omega

theorem readReply_whole {reply : Reply} (hwf : reply.WellFormed)
    (hfits : reply.encode.length ≤ memsz) (hsize : memsz ≤ intMax) (timeout : Int) (buffer : Bytes)
    (cmd : Command) : readReply memsz timeout ([reply.encode].map .data) 0 0 buffer cmd =
      (parse (loaded buffer reply.encode) 0 reply.encode.length cmd >>=
        finish memsz timeout buffer reply.encode) := by
  refine readReply_of_quiet hwf hfits hsize (fun b hb => ?_) List.flatten_singleton
    (quiet_whole reply reply) cmd
  rw [List.mem_singleton.mp hb]
  cases reply <;> exact List.cons_ne_nil _ _

theorem resultOf_whole_array {x : Bytes} {xs : List Bytes} (redis : RedisConnect)
    (htimeout : redis.timeout + SOCKET_TIMEOUT ≤ intMax)
    (hfits : (Reply.array (x :: xs)).encode.length ≤ redis.memsz) (hsize : redis.memsz ≤ intMax)
    (cmd : Command) :
    ∃ a, cmd.resultOf redis [(Reply.array (x :: xs)).encode] = .ok a ∧
      a.res = cmd.res ++ (x :: xs) := by
  have hread := readReply_whole (show (Reply.array (x :: xs)).WellFormed from trivial) hfits hsize
    redis.timeout redis.buffer
  have hok : ∀ cmd : Command, ∃ r : Received, readReply redis.memsz redis.timeout
      ([(Reply.array (x :: xs)).encode].map .data) 0 0 redis.buffer cmd = .ok r ∧
        r.cmd.res = cmd.res ++ (x :: xs) := by
    intro cmd
    rw [hread, parse_whole_array (Nat.le_trans hfits hsize), ok_bind]
    by_cases hcode : toInt (cmd.res ++ x :: xs).length = TIMEOUT
    · exact ⟨_, (if_neg (not_not.mpr hcode)).trans
        (readReply_silent htimeout (Int.le_max_left 0 redis.timeout) _ _ _), rfl⟩
    · exact ⟨_, if_pos hcode, rfl⟩
  obtain ⟨r, hr, hres⟩ := hok { cmd with status := 0, msg := [] }
  obtain ⟨a, ha, hares⟩ := resultOf_res redis cmd hr
  exact ⟨a, ha, hares.trans hres⟩

theorem quiet_of_splitIndependent {x : Bytes} {xs : List Bytes}
    (hfits : (Reply.array (x :: xs)).encode.length ≤ memsz) (hsize : memsz ≤ intMax)
    (hne : ∀ b ∈ chunks, b ≠ []) (hwhole : chunks.flatten = (Reply.array (x :: xs)).encode)
    {cmd : Command} (h : SplitIndependent cmd memsz (.array (x :: xs)) chunks)
    {before after : List Bytes} (hsplit : chunks = before ++ after) (hbefore : before ≠ [])
    (hafter : after ≠ []) : Quiet (.array (x :: xs)) before.flatten.length := by
  constructor
  · intro hlen
    let redis : RedisConnect := ⟨0, memsz, 0, 0, List.replicate (memsz + 1) 1, []⟩
    have hnul : (0 : UInt8) ∉ List.replicate (memsz + 1) 1 :=
      fun hmem => absurd (List.eq_of_mem_replicate hmem) (by decide)
    have hheader : [] ++ before.flatten = header (xs.length + 1) := by
      have hprefix : before.flatten <+: (Reply.array (x :: xs)).encode :=
        ⟨after.flatten, by rw [← hwhole, hsplit, List.flatten_append]⟩
      exact (List.prefix_of_prefix_length_le hprefix (List.prefix_append _ _)
        (Nat.le_of_eq hlen)).eq_of_length hlen
    have hroom : (header (xs.length + 1)).length ≤ memsz := by
      rw [encode, List.length_append] at hfits
      exact Nat.le_trans (Nat.le_add_right _ _) hfits
    have herror : readReply memsz 0 (before.map .data ++ after.map .data) 0 0 redis.buffer
        { cmd with status := 0, msg := [] } = .error .outOfBounds :=
          readReply_past_end (Nat.le_trans hfits hsize) hnul
      (after.map .data) hbefore (fun b hb => hne b (hsplit ▸ List.mem_append_left _ hb))
      (holding_start (List.replicate (memsz + 1) 1)) hheader hroom
      { cmd with status := 0, msg := [] }
    rw [← List.map_append, ← hsplit] at herror
    have htimeout : (0 : Int) + SOCKET_TIMEOUT ≤ intMax := by decide
    obtain ⟨a, ha, -⟩ := resultOf_whole_array redis htimeout hfits hsize cmd
    have hsame := h redis rfl (List.length_replicate)
    rw [resultOf_error redis cmd herror, ha] at hsame
    cases hsame
  · by_contra hlong
    let redis : RedisConnect := ⟨0, memsz, 0, 0, List.replicate (memsz + 1) 0, []⟩
    have hchunks : chunks ≠ [] := by
      rw [hsplit]
      exact List.append_ne_nil_of_left_ne_nil hbefore _
    have htimeout : (0 : Int) + SOCKET_TIMEOUT ≤ intMax := by decide
    obtain ⟨r, extra, hread, hres, hextra⟩ := readReply_stores htimeout hfits hsize rfl hchunks
      hne (holding_start redis.buffer) hwhole { cmd with status := 0, msg := [] }
    obtain ⟨a, ha, hares⟩ := resultOf_res redis cmd hread
    obtain ⟨a', ha', hares'⟩ := resultOf_whole_array redis htimeout hfits hsize cmd
    have hsame := h redis rfl (List.length_replicate)
    rw [ha, ha'] at hsame
    cases hsame
    have hlen := congrArg List.length (hares'.symm.trans (hares.trans hres))
    have hpos := List.length_pos_iff.mpr
      (hextra before after hsplit hbefore hafter (Nat.le_of_not_lt hlong))
    simp only [List.length_append] at hlen
    omega

/-- A reply is decoded independently of how it arrives exactly when no piece ends
right behind the header of an array with elements, or behind its first element. -/
theorem split_independent_iff {reply : Reply} (hwf : reply.WellFormed) {memsz : Nat}
    (hfits : reply.encode.length ≤ memsz) (hsize : memsz ≤ intMax) {chunks : List Bytes}
    (hne : ∀ b ∈ chunks, b ≠ []) (hwhole : chunks.flatten = reply.encode) (cmd : Command) :
    SplitIndependent cmd memsz reply chunks ↔ ∀ before after, chunks = before ++ after →
      before ≠ [] → after ≠ [] → reply.Quiet before.flatten.length := by
  constructor
  · intro h before after hsplit hbefore hafter
    cases reply with
    | array xs =>
        cases xs with
        | nil => trivial
        | cons x xs =>
            exact quiet_of_splitIndependent hfits hsize hne hwhole h hsplit hbefore hafter
    | simple _ | error _ | integer _ | bulk _ => trivial
  · rintro hquiet redis rfl -
    refine resultOf_congr redis cmd fun cmd => ?_
    rw [readReply_of_quiet hwf hfits hsize hne hwhole hquiet, readReply_whole hwf hfits hsize]

theorem split_independent_iff_in_header :
    SplitIndependent (new []) 64 (.array [[97], [98]])
      [bytesOf "*2\r".toList, bytesOf "\n$1\r\na\r\n$1\r\nb\r\n".toList] ↔
    ∀ before after, [bytesOf "*2\r".toList, bytesOf "\n$1\r\na\r\n$1\r\nb\r\n".toList] =
      before ++ after → before ≠ [] → after ≠ [] →
        Reply.Quiet (.array [[97], [98]]) before.flatten.length :=
  @split_independent_iff (.array [[97], [98]]) trivial _ (by decide +kernel) (by decide) _
    (by decide +kernel) (by decide +kernel) _

/-- A piece that ends behind the first of two elements: the first one is stored
twice. -/
theorem split_dependent_behind_first_element :
    [bytesOf "*2\r\n$1\r\na\r\n".toList, bytesOf "$1\r\nb\r\n".toList].flatten =
        (Reply.array [[97], [98]]).encode ∧
      ¬ SplitIndependent (new []) 64 (.array [[97], [98]])
        [bytesOf "*2\r\n$1\r\na\r\n".toList, bytesOf "$1\r\nb\r\n".toList] := by
  refine ⟨by decide +kernel, fun h => ?_⟩
  have hsame := h ⟨0, 64, 0, 3000, List.replicate 65 0, []⟩ rfl (List.length_replicate)
  have hsplit : resultHolds (fun a : Answer => a.code = 3 ∧ a.res = [[97], [97], [98]])
      ((new []).resultOf ⟨0, 64, 0, 3000, List.replicate 65 0, []⟩
        [bytesOf "*2\r\n$1\r\na\r\n".toList, bytesOf "$1\r\nb\r\n".toList]) = true := by
    decide +kernel
  have hwhole : resultHolds (fun a : Answer => a.code = 2 ∧ a.res = [[97], [98]])
      ((new []).resultOf ⟨0, 64, 0, 3000, List.replicate 65 0, []⟩
        [(Reply.array [[97], [98]]).encode]) = true := by
    decide +kernel
  obtain ⟨a, ha, hcode, -⟩ := resultHolds_iff.mp hsplit
  obtain ⟨a', ha', hcode', -⟩ := resultHolds_iff.mp hwhole
  rw [hsame, ha'] at ha
  cases ha
  rw [hcode'] at hcode
  cases hcode

end Command
end TAlib
