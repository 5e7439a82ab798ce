import TAlib.Redis.Command

/-!
Replies as a server writes them, and what the parser makes of one that has
arrived in part: a proper beginning is not taken for a whole reply, but the
elements of an array that are complete are stored every time.
-/

namespace TAlib

open Foundation RedisConnect

inductive Reply where
  | simple (s : Bytes)
  | error (s : Bytes)
  | integer (z : Int)
  | bulk (x : Bytes)
  | array (xs : List Bytes)
  deriving DecidableEq, Repr

namespace Reply

def bulkText (x : Bytes) : Bytes := 36 :: (decimalText x.length ++ 13 :: 10 :: (x ++ [13, 10]))

def lineText (mark : UInt8) (s : Bytes) : Bytes := mark :: (s ++ [13, 10])

def intText (z : Int) : Bytes := if z < 0 then 45 :: decimalText z.natAbs else decimalText z.natAbs

def header (n : Nat) : Bytes := 42 :: (decimalText n ++ [13, 10])

def encode : Reply → Bytes
  | simple s => lineText 43 s
  | error s => lineText 45 s
  | integer z => lineText 58 (intText z)
  | bulk x => bulkText x
  | array xs => header xs.length ++ xs.flatMap bulkText

/-- The text of a simple string or an error is one line. -/
def WellFormed : Reply → Prop
  | simple s | error s => 13 ∉ s ∧ 10 ∉ s
  | integer _ | bulk _ | array _ => True

end Reply

namespace Command

open Reply

variable {before after : Bytes} {x : Bytes} {tail : Int} {res : List Bytes}

theorem parseNode_complete (hx : x.length ≤ intMax) (hafter : 0 ∈ after)
    (htail : (before.length + (bulkText x).length : Int) ≤ tail) :
    parseNode (before ++ (bulkText x ++ after)) before.length tail res =
      .ok (before.length + (bulkText x).length, res ++ [x]) := by
  have hmem : before ++ (bulkText x ++ after) = (before ++ [36]) ++
      (decimalText x.length ++ 13 :: 10 :: (x ++ [13, 10] ++ after)) := by
    simp only [bulkText, List.append_assoc, List.cons_append, List.nil_append]
  have hlen : ((before ++ [36]).length : Int) = before.length + 1 := by
    rw [List.length_append]
    rfl
  have hv : 0 ∈ x ++ [13, 10] ++ after := List.mem_append_right _ hafter
  have hstr := strstr_line (before ++ [36]) (not_mem_decimalText (n := x.length) rfl)
    (not_mem_decimalText rfl) hv
  have hatoi := atoi_decimal (before ++ [36]) hx (List.mem_cons_of_mem (10 : UInt8) hv)
  have hbulk : (bulkText x).length = 1 + (decimalText x.length).length + 2 + x.length + 2 := by
    simp only [bulkText, List.length_cons, List.length_append, List.length_nil]
    omega
  rw [hlen] at hstr hatoi
  rw [hmem, parseNode, kCRLF, hstr, ok_bind]
  simp only [hatoi, ok_bind]
  have htext : text (before ++ [36] ++
    (decimalText x.length ++ 13 :: 10 :: (x ++ [13, 10] ++ after)))
      (before.length + 1 + (decimalText x.length).length + 2)
      (before.length + 1 + (decimalText x.length).length + 2 + x.length) = x := by
    refine slice_of_eq (before ++ [36] ++ decimalText x.length ++ [13, 10]) ([13, 10] ++ after)
      ?_ ?_ ?_
    · simp only [List.append_assoc, List.cons_append, List.nil_append]
    · simp only [List.length_append, List.length_cons, List.length_nil]
      omega
    · simp only [List.length_append, List.length_cons, List.length_nil]
      omega
  rw [if_neg (by omega), if_neg (by omega), htext, hbulk]
  refine congrArg (fun n : Int => Except.ok (n, res ++ [x])) ?_
  omega

/-- Nothing is read while the line break after the size is not there. -/
theorem parseNode_no_line {q : Bytes} (h10 : 10 ∉ q) :
    parseNode (before ++ (36 :: q ++ 0 :: after)) before.length tail res =
      .ok (before.length, res) := by
  have hmem : before ++ (36 :: q ++ 0 :: after) = (before ++ [36]) ++ (q ++ 0 :: after) := by
    simp only [List.append_assoc, List.cons_append, List.nil_append]
  have hlen : ((before ++ [36]).length : Int) = before.length + 1 := by
    rw [List.length_append]
    rfl
  have hnone := strstr_none (before ++ [36]) h10 after
  rw [hlen] at hnone
  rw [hmem, parseNode, kCRLF, hnone, ok_bind]
  rfl

/-- Nothing is read while the element is longer than what has arrived. -/
theorem parseNode_short {w : Bytes} (hx : x.length ≤ intMax) (hafter : 0 ∈ after)
    (htail : tail < before.length + (bulkText x).length) :
    parseNode (before ++ (36 :: (decimalText x.length ++ 13 :: 10 :: w) ++ after)) before.length
      tail res = .ok (before.length, res) := by
  have hmem : before ++ (36 :: (decimalText x.length ++ 13 :: 10 :: w) ++ after) =
      (before ++ [36]) ++ (decimalText x.length ++ 13 :: 10 :: (w ++ after)) := by
    simp only [List.append_assoc, List.cons_append, List.nil_append]
  have hlen : ((before ++ [36]).length : Int) = before.length + 1 := by
    rw [List.length_append]
    rfl
  have hv : 0 ∈ w ++ after := List.mem_append_right _ hafter
  have hstr := strstr_line (before ++ [36]) (not_mem_decimalText (n := x.length) rfl)
    (not_mem_decimalText rfl) hv
  have hatoi := atoi_decimal (before ++ [36]) hx (List.mem_cons_of_mem (10 : UInt8) hv)
  have hbulk : (bulkText x).length = 1 + (decimalText x.length).length + 2 + x.length + 2 := by
    simp only [bulkText, List.length_cons, List.length_append, List.length_nil]
    omega
  rw [hlen] at hstr hatoi
  rw [hmem, parseNode, kCRLF, hstr, ok_bind]
  simp only [hatoi, ok_bind]
  rw [if_neg (by omega), if_pos (by omega)]
  rfl

/-- A proper beginning of a text with a line break in it ends before the line
break or goes past it. -/
theorem prefix_line {q line w : Bytes} (hq : q <+: line ++ 13 :: 10 :: w) (h10 : 10 ∉ line) :
    10 ∉ q ∨ ∃ w', q = line ++ 13 :: 10 :: w' ∧ w' <+: w := by
  by_cases hlen : q.length ≤ line.length + 1
  · left
    have hshort : q <+: line ++ [13] := by
      refine List.prefix_of_prefix_length_le hq ⟨10 :: w, ?_⟩ ?_
      · simp only [List.append_assoc, List.cons_append, List.nil_append]
      · rw [List.length_append]
        exact hlen
    intro hmem
    cases List.mem_append.mp (hshort.subset hmem) with
    | inl h => exact h10 h
    | inr h => exact absurd (List.mem_singleton.mp h) (by decide)
  · right
    have hlong : line ++ [13, 10] <+: q := by
      refine List.prefix_of_prefix_length_le ⟨w, ?_⟩ hq ?_
      · simp only [List.append_assoc, List.cons_append, List.nil_append]
      · rw [List.length_append, List.length_cons, List.length_singleton]
        omega
    obtain ⟨w', rfl⟩ := hlong
    refine ⟨w', ?_, ?_⟩
    · simp only [List.append_assoc, List.cons_append, List.nil_append]
    · rw [show line ++ 13 :: 10 :: w = (line ++ [13, 10]) ++ w by
        simp only [List.append_assoc, List.cons_append, List.nil_append]] at hq
      exact (List.prefix_append_right_inj _).mp hq

/-- A part of the element is not taken for the whole. -/
theorem parseNode_partial {q : Bytes} (hx : x.length ≤ intMax) (hq : q <+: bulkText x)
    (hproper : q ≠ bulkText x) (hne : q ≠ []) (htail : tail = before.length + q.length) :
    parseNode (before ++ (q ++ 0 :: after)) before.length tail res = .ok (before.length, res) := by
  have hlt : q.length < (bulkText x).length :=
    Nat.lt_of_le_of_ne hq.length_le fun heq => hproper (hq.eq_of_length heq)
  cases q with
  | nil => exact absurd rfl hne
  | cons b q =>
      obtain ⟨rfl, hq'⟩ := List.cons_prefix_cons.mp hq
      cases prefix_line hq' (not_mem_decimalText rfl) with
      | inl h => exact parseNode_no_line h
      | inr h =>
          obtain ⟨w, rfl, -⟩ := h
          refine parseNode_short hx List.mem_cons_self ?_
          rw [htail]
          exact Int.add_lt_add_left (Int.ofNat_lt.mpr hlt) _

/-- Nothing is read at the end of what has arrived, if a NUL follows its NUL. -/
theorem parseNode_end (before rest : Bytes) (tail : Int) (res : List Bytes) :
    parseNode (before ++ 0 :: 0 :: rest) before.length tail res = .ok (before.length, res) := by
  have hmem : before ++ 0 :: 0 :: rest = (before ++ [0]) ++ ([] ++ 0 :: rest) := by
    simp only [List.append_assoc, List.cons_append, List.nil_append]
  have hlen : ((before ++ [0]).length : Int) = before.length + 1 := by
    rw [List.length_append]
    rfl
  have hnone := strstr_none (before ++ [0]) (List.not_mem_nil (a := 10)) rest
  rw [hlen] at hnone
  rw [hmem, parseNode, kCRLF, hnone, ok_bind]
  rfl

variable {nested : Int → Command → Except Fault (Int × Command)} {cmd : Command} {ys : List Bytes}

variable (before cmd tail) in
/-- Elements that are complete are stored one after another. -/
theorem parseItems_complete (hys : ∀ y ∈ ys, y.length ≤ intMax) (hafter : 0 ∈ after)
    (htail : (before.length + (ys.flatMap bulkText).length : Int) ≤ tail) (cnt : Nat) :
    parseItems nested (before ++ (ys.flatMap bulkText ++ after)) tail
    (ys.length + cnt) before.length
        cmd =
      parseItems nested (before ++ (ys.flatMap bulkText ++ after)) tail cnt
        (before ++ ys.flatMap bulkText).length { cmd with res := cmd.res ++ ys } := by
  induction ys generalizing before cmd with
  | nil => simp
  | cons y ys ih =>
      have hmem : before ++ ((y :: ys).flatMap bulkText ++ after) =
          before ++ (bulkText y ++ (ys.flatMap bulkText ++ after)) := by
        rw [List.flatMap_cons, List.append_assoc]
      have hmem' : before ++ (bulkText y ++ (ys.flatMap bulkText ++ after)) =
          (before ++ bulkText y) ++ (ys.flatMap bulkText ++ after) := by
        rw [List.append_assoc]
      have hlen : ((y :: ys).flatMap bulkText).length =
          (bulkText y).length + (ys.flatMap bulkText).length := by
        rw [List.flatMap_cons, List.length_append]
      have hpos : 0 < (bulkText y).length := Nat.succ_pos _
      have hbyte : byteAt (before ++ (bulkText y ++ (ys.flatMap bulkText ++ after))) before.length =
          .ok 36 := by
        rw [bulkText, List.cons_append]
        exact byteAt_append _ _ _
      have hnode : parseNode
        (before ++ (bulkText y ++ (ys.flatMap bulkText ++ after))) before.length
          tail cmd.res = .ok (before.length + (bulkText y).length, cmd.res ++ [y]) :=
        parseNode_complete (hys y List.mem_cons_self)
          (List.mem_append_right (ys.flatMap bulkText) hafter) (by omega)
      rw [hmem, show (y :: ys).length + cnt = (ys.length + cnt) + 1 by
        rw [List.length_cons]; omega, parseItems, hbyte, ok_bind, if_neg (by decide), hnode,
          ok_bind]
      simp only
      rw [if_neg (by omega), hmem']
      have hnext := ih (before ++ bulkText y) { cmd with res := cmd.res ++ [y] }
        (fun z hz => hys z (List.mem_cons_of_mem _ hz)) (by rw [List.length_append]; omega)
      rw [List.length_append, Int.natCast_add] at hnext
      rw [hnext, List.flatMap_cons]
      simp only [List.append_assoc, List.singleton_append]

theorem parseLevel_header {n : Nat} (hn : n ≤ intMax) (hafter : 0 ∈ after) (level : Nat) :
    parseLevel (header n ++ after) tail (level + 1) 0 cmd =
      parseItems (parseLevel (header n ++ after) tail level) (header n ++ after) tail n
        (header n).length { cmd with vec := [] } := by
  have hmem : header n ++ after = [42] ++ (decimalText n ++ 13 :: 10 :: after) := by
    simp only [header, List.append_assoc, List.cons_append, List.nil_append]
  have hbyte : byteAt (header n ++ after) 0 = .ok 42 := byteAt_append [] 42 _
  have hstr := strstr_line [42] (not_mem_decimalText (n := n) rfl) (not_mem_decimalText rfl) hafter
  have hatoi := atoi_decimal [42] hn (List.mem_cons_of_mem (10 : UInt8) hafter)
  have hlen : (header n).length = 1 + (decimalText n).length + 2 := by
    simp only [header, List.length_cons, List.length_append, List.length_nil]
    omega
  have hone : (0 : Int) + 1 = ([42] : Bytes).length := rfl
  rw [← hmem] at hstr hatoi
  simp only [parseLevel, hbyte, ok_bind, kCRLF, hone, hstr, hatoi, Int.toNat_natCast]
  rw [if_neg (by decide), if_neg (by decide), if_pos trivial, hlen]
  refine congrArg (fun p : Int => parseItems _ _ _ _ p _) ?_
  simp only [List.length_singleton]
  omega

/-- The items of an array that has arrived as far as the elements `ys` and a part
of a further one. -/
theorem parseItems_part {q z : Bytes} (hys : ∀ y ∈ ys, y.length ≤ intMax) (hz : z.length ≤ intMax)
    (hq : q <+: bulkText z) (hproper : q ≠ bulkText z) (hend : q = [] → after.head? = some 0)
    (htail : tail = before.length + (ys.flatMap bulkText).length + q.length) (cnt : Nat) :
    parseItems nested (before ++ (ys.flatMap bulkText ++ (q ++ 0 :: after))) tail
        (ys.length + (cnt + 1)) before.length cmd =
      .ok (TIMEOUT, { cmd with res := cmd.res ++ ys }) := by
  have hafter : 0 ∈ q ++ 0 :: after := List.mem_append_right _ List.mem_cons_self
  rw [parseItems_complete before tail cmd hys hafter (by omega) (cnt + 1)]
  have hmem : before ++ (ys.flatMap bulkText ++ (q ++ 0 :: after)) =
      (before ++ ys.flatMap bulkText) ++ (q ++ 0 :: after) := by rw [List.append_assoc]
  have htail' : tail = (before ++ ys.flatMap bulkText).length + q.length := by
    rw [List.length_append]
    omega
  rw [hmem, parseItems]
  cases q with
  | nil =>
      obtain ⟨rest, rfl⟩ : ∃ rest, after = 0 :: rest := by
        cases after with
        | nil => exact nomatch hend rfl
        | cons b rest => exact ⟨rest, by rw [Option.some.inj (hend rfl)]⟩
      rw [List.nil_append, byteAt_append, ok_bind, if_neg (by decide), parseNode_end, ok_bind]
      exact if_pos rfl
  | cons b q =>
      have hb : b = 36 := (List.cons_prefix_cons.mp hq).1
      have hbyte : byteAt ((before ++ ys.flatMap bulkText) ++ (b :: q ++ 0 :: after))
          (before ++ ys.flatMap bulkText).length = .ok b := byteAt_append _ _ _
      rw [hbyte, ok_bind, if_neg (by rw [hb]; decide),
        parseNode_partial hz hq hproper (List.cons_ne_nil _ _) htail', ok_bind]
      exact if_pos rfl

/-- Nothing is decided while the line break of the first line is not there. -/
theorem parse_no_line {mark : UInt8} {q : Bytes} (hmark : mark ≠ 36) (h10 : 10 ∉ q) (len : Int) :
    parse (mark :: q ++ 0 :: after) 0 len cmd = .ok (TIMEOUT, cmd) := by
  have hbyte : byteAt (mark :: q ++ 0 :: after) 0 = .ok mark := byteAt_append [] mark _
  have hnone := strstr_none [mark] h10 after
  have hone : (0 : Int) + 1 = ([mark] : Bytes).length := rfl
  rw [List.singleton_append, ← List.cons_append, ← hone] at hnone
  simp only [parse, parseLevel, hbyte, ok_bind, kCRLF, hnone]
  exact if_neg hmark

theorem parse_part_bulk {q : Bytes} (hx : x.length ≤ intMax) (hq : q <+: bulkText x)
    (hproper : q ≠ bulkText x) (hne : q ≠ []) :
    parse (q ++ 0 :: after) 0 q.length cmd = .ok (TIMEOUT, cmd) := by
  obtain ⟨b, q, rfl⟩ := List.exists_cons_of_ne_nil hne
  obtain ⟨rfl, -⟩ := List.cons_prefix_cons.mp hq
  have hbyte : byteAt (36 :: q ++ 0 :: after) 0 = .ok 36 := byteAt_append [] 36 _
  have hnode : parseNode ([] ++ (36 :: q ++ 0 :: after)) ([] : Bytes).length (0 + (36 :: q).length)
      cmd.res = .ok (0, cmd.res) := parseNode_partial hx hq hproper hne rfl
  simp only [parse, parseLevel, hbyte, ok_bind]
  rw [if_pos trivial]
  rw [List.nil_append] at hnode
  simp only [List.length_nil, Int.natCast_zero] at hnode
  rw [hnode, ok_bind]
  exact if_pos rfl

theorem parse_array {xs : List Bytes} (hlen : xs.length ≤ intMax)
    (hxs : ∀ x ∈ xs, x.length ≤ intMax) :
    parse ((Reply.array xs).encode ++ 0 :: after) 0 (Reply.array xs).encode.length cmd =
      .ok (toInt (cmd.res ++ xs).length, { cmd with vec := [], res := cmd.res ++ xs }) := by
  have hafter : 0 ∈ xs.flatMap bulkText ++ 0 :: after := List.mem_append_right _ List.mem_cons_self
  rw [parse, encode, List.append_assoc, parseLevel_header hlen hafter]
  refine (parseItems_complete (header xs.length) _ { cmd with vec := [] } hxs List.mem_cons_self
    ?_ 0).trans rfl
  rw [List.length_append, Int.natCast_add]
  omega

/-- A line that has not ended is not taken for a whole one. -/
theorem prefix_no_line {line q : Bytes} (h10 : 10 ∉ line) (hq : q <+: line ++ [13, 10])
    (hproper : q ≠ line ++ [13, 10]) : 10 ∉ q := by
  cases prefix_line hq h10 with
  | inl h => exact h
  | inr h =>
      obtain ⟨w, rfl, hw⟩ := h
      rw [List.prefix_nil.mp hw] at hproper
      exact absurd rfl hproper

theorem parse_part_line {mark : UInt8} (hmark : mark ≠ 36) {line q : Bytes} (hline : 10 ∉ line)
    (hq : q <+: lineText mark line) (hproper : q ≠ lineText mark line) (hne : q ≠ []) (len : Int) :
    parse (q ++ 0 :: after) 0 len cmd = .ok (TIMEOUT, cmd) := by
  obtain ⟨b, q, rfl⟩ := List.exists_cons_of_ne_nil hne
  obtain ⟨rfl, hq'⟩ := List.cons_prefix_cons.mp hq
  exact parse_no_line hmark (prefix_no_line hline hq' fun heq => hproper (by rw [heq]; rfl)) len

/-- The elements of an array that are complete are stored, although the call
reports that the reply is not there yet. -/
theorem parse_part_array {ys zs : List Bytes} {z q : Bytes}
    (hlen : (ys ++ z :: zs).length ≤ intMax) (hxs : ∀ x ∈ ys ++ z :: zs, x.length ≤ intMax)
    (hq : q <+: bulkText z) (hproper : q ≠ bulkText z) (hend : q = [] → after.head? = some 0) :
    parse (header (ys ++ z :: zs).length ++ (ys.flatMap bulkText ++ (q ++ 0 :: after))) 0
        (header (ys ++ z :: zs).length ++ (ys.flatMap bulkText ++ q)).length cmd =
      .ok (TIMEOUT, { cmd with vec := [], res := cmd.res ++ ys }) := by
  have hafter : 0 ∈ ys.flatMap bulkText ++ (q ++ 0 :: after) :=
    List.mem_append_right _ (List.mem_append_right _ List.mem_cons_self)
  have hcnt : (ys ++ z :: zs).length = ys.length + (zs.length + 1) := by
    rw [List.length_append, List.length_cons]
  rw [parse, parseLevel_header hlen hafter, hcnt]
  refine parseItems_part (fun y hy => hxs y (List.mem_append_left _ hy))
    (hxs z (List.mem_append_right _ List.mem_cons_self)) hq hproper hend ?_ zs.length
  rw [List.length_append, List.length_append]
  omega

end Command
end TAlib
