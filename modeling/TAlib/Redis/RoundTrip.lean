import TAlib.Redis.SplitReply

/-!
The text of a command has the form of an array reply, and parsing it gives the
arguments back. The bytes of an argument are skipped by its length, so what they
are does not matter.
-/

namespace TAlib

open Foundation RedisConnect

namespace Command

open Reply

variable {x : Bytes} {xs : List Bytes} {vec : List Bytes}

theorem toString_eq_encode (xs : List Bytes) : (new xs).toString = (Reply.array xs).encode := by
  have hitem : (fun item : Bytes => [36] ++ decimalText item.length ++ kCRLF ++ item ++ kCRLF) =
      bulkText := by
    funext item
    simp only [bulkText, kCRLF, List.append_assoc, List.cons_append, List.nil_append]
  rw [toString, hitem]
  simp only [new, encode, header, kCRLF, List.append_assoc, List.cons_append, List.nil_append]

theorem parse_bulk (hx : (bulkText x).length ≤ intMax) (buffer : Bytes) (cmd : Command) :
    parse (loaded buffer (bulkText x)) 0 (bulkText x).length cmd =
      .ok (OK, { cmd with res := cmd.res ++ [x] }) := by
  have hlen := length_lt_bulkText x
  have hbyte : byteAt (loaded buffer (bulkText x)) 0 = .ok 36 := byteAt_append [] 36 _
  have hnode : parseNode (loaded buffer (bulkText x)) 0 (0 + (bulkText x).length) cmd.res =
      .ok (0 + (bulkText x).length, cmd.res ++ [x]) :=
    @parseNode_complete [] _ x _ _ (by omega) List.mem_cons_self (Int.le_of_eq rfl)
  have hpos : 0 < (bulkText x).length := Nat.succ_pos _
  simp only [parse, parseLevel, hbyte, ok_bind]
  rw [if_pos trivial, hnode, ok_bind, if_neg (by omega), if_neg (by omega)]
  rfl

/-- A fresh command that parses the text of a command holds its arguments, and
one that parses a single bulk holds its bytes. -/
theorem parse_undoes_encode :
    (∀ xs : List Bytes, (new xs).toString.length < 2 ^ 31 → ∀ buffer vec,
      parse (loaded buffer (new xs).toString) 0 (new xs).toString.length (new vec) =
        .ok (xs.length, { new [] with res := xs })) ∧
    ∀ x : Bytes, (bulkText x).length < 2 ^ 31 → ∀ buffer vec,
      parse (loaded buffer (bulkText x)) 0 (bulkText x).length (new vec) =
        .ok (OK, { new vec with res := [x] }) := by
  refine ⟨fun xs hsize buffer vec => ?_, fun x hsize buffer vec => ?_⟩
  · rw [toString_eq_encode] at hsize ⊢
    have hcount : xs.length ≤ intMax := by
      have hflat := length_le_flatMap xs
      rw [encode, List.length_append] at hsize
      unfold intMax
      omega
    rw [parse_whole_array (Nat.le_sub_one_of_lt hsize), new, List.nil_append, toInt_of_le hcount]
    rfl
  · exact parse_bulk (Nat.le_sub_one_of_lt hsize) buffer (new vec)

/-- Line breaks, marks and NUL bytes inside the arguments. -/
theorem parse_undoes_encode_marks :
    parse (loaded [36, 10] (new [[42, 13, 10], [], [0, 36]]).toString) 0
        (new [[42, 13, 10], [], [0, 36]]).toString.length (new []) =
      .ok (3, { new [] with res := [[42, 13, 10], [], [0, 36]] }) :=
  parse_undoes_encode.1 [[42, 13, 10], [], [0, 36]] (by decide) [36, 10] []

end Command
end TAlib
