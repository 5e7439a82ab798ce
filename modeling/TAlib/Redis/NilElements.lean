import TAlib.Redis.Cursor
import TAlib.Redis.RoundTrip

/-!
Arrays with nil elements. For a nil parseNode reports the place in front of its
start, and the loop over the elements takes this for the next one; it reads the
nil again, as an empty string. Only behind the last element nobody looks.
-/

namespace TAlib

open Foundation RedisConnect

namespace Command

open Reply

def nilText : Bytes := [36, 45, 49, 13, 10]

def itemText : Option Bytes → Bytes
  | none => nilText
  | some x => bulkText x

def encodeItems (items : List (Option Bytes)) : Bytes :=
  header items.length ++ items.flatMap itemText

/-- Where the element behind these ones starts. -/
def offset (n : Nat) (before : List (Option Bytes)) : Int :=
  (header n).length + (before.flatMap itemText).length

/-- The array is consumed element by element, and the elements that are not nil
are stored. -/
structure Aligned (items : List (Option Bytes)) (buffer : Bytes) (vec : List Bytes) : Prop where
  start : Moves (loaded buffer (encodeItems items)) (encodeItems items).length (.value 0)
    (.items items.length (offset items.length []))
  next : ∀ before item after, items = before ++ item :: after → after ≠ [] →
    Moves (loaded buffer (encodeItems items)) (encodeItems items).length
      (.items (after.length + 1) (offset items.length before))
      (.items after.length (offset items.length (before ++ [item])))
  stored : ∃ code cmd, parse (loaded buffer (encodeItems items)) 0 (encodeItems items).length
    (new vec) = .ok (code, cmd) ∧ cmd.res = items.filterMap id

variable {before after : Bytes} {tail : Int} {res : List Bytes}

/-- The place of a nil is one in front of its start. -/
theorem parseNode_nil (hafter : 0 ∈ after) :
    parseNode (before ++ (nilText ++ after)) before.length tail res =
      .ok (before.length - 1, res) := by
  have hmem : before ++ (nilText ++ after) = (before ++ [36]) ++
      ([45, 49] ++ 13 :: 10 :: after) := by
    simp only [nilText, List.append_assoc, List.cons_append, List.nil_append]
  have hlen : ((before ++ [36]).length : Int) = before.length + 1 := by
    rw [List.length_append]
    rfl
  have hstr := strstr_line (before ++ [36]) (by decide : (0 : UInt8) ∉ [45, 49]) (by decide) hafter
  have hstring := cString_append (before ++ [36]) (by decide : (0 : UInt8) ∉ [45, 49])
    (List.mem_cons_of_mem (13 : UInt8) (List.mem_cons_of_mem (10 : UInt8) hafter))
  have hlead : leadingInt ([45, 49] ++ (13 :: 10 :: after).takeWhile (· ≠ 0)) = -1 := by
    rw [List.takeWhile_cons_of_pos (by decide)]
    rfl
  have hatoi : atoi ((before ++ [36]) ++ ([45, 49] ++ 13 :: 10 :: after)) (before ++ [36]).length =
      .ok (-1) := by
    rw [atoi, hstring, ok_bind, hlead]
    exact if_pos (by decide)
  rw [hlen] at hstr hatoi
  rw [hmem, parseNode, kCRLF, hstr, ok_bind]
  simp only [hatoi, ok_bind]
  rw [if_pos (by decide)]
  rfl

variable {items : List (Option Bytes)} {buffer : Bytes}

theorem offset_nil (n : Nat) : offset n [] = (header n).length := by
  rw [offset, List.flatMap_nil, List.length_nil, Int.natCast_zero, Int.add_zero]

theorem encodeItems_split {before after : List (Option Bytes)} {item : Option Bytes}
    (h : items = before ++ item :: after) : encodeItems items =
      header items.length ++ before.flatMap itemText ++
      (itemText item ++ after.flatMap itemText) := by
  rw [encodeItems, List.append_assoc, ← List.flatMap_cons, ← List.flatMap_append, ← h]

/-- The bytes of the buffer at an element. -/
theorem loaded_at (buffer : Bytes) {before after : List (Option Bytes)} {item : Option Bytes}
    (h : items = before ++ item :: after) :
    loaded buffer (encodeItems items) = (header items.length ++ before.flatMap itemText) ++
      (itemText item ++ (after.flatMap itemText ++
        0 :: buffer.drop ((encodeItems items).length + 1))) := by
  refine (congrArg (· ++ 0 :: buffer.drop ((encodeItems items).length + 1))
    (encodeItems_split h)).trans ?_
  simp only [List.append_assoc]

theorem length_at {before after : List (Option Bytes)} {item : Option Bytes}
    (h : items = before ++ item :: after) :
    ((encodeItems items).length : Int) = offset items.length before + (itemText item).length +
      (after.flatMap itemText).length := by
  rw [encodeItems_split h, offset]
  simp only [List.length_append]
  omega

theorem offset_step (n : Nat) (before : List (Option Bytes)) (item : Option Bytes) :
    offset n (before ++ [item]) = offset n before + (itemText item).length := by
  simp only [offset, List.flatMap_append, List.flatMap_cons, List.flatMap_nil, List.append_nil,
    List.length_append]
  omega

/-- An element that is not nil leads to the next one. -/
theorem moves_some {before : List (Option Bytes)} {x : Bytes} {after : List (Option Bytes)}
    (hx : x.length ≤ intMax) (h : items = before ++ some x :: after) :
    Moves (loaded buffer (encodeItems items)) (encodeItems items).length
      (.items (after.length + 1) (offset items.length before))
      (.items after.length (offset items.length (before ++ [some x]))) := by
  have hlen := length_at h
  have hpos : 0 < (bulkText x).length := Nat.succ_pos _
  have hplace : ((header items.length ++ before.flatMap itemText).length : Int) =
      offset items.length before := by
    rw [List.length_append, offset, Int.natCast_add]
  have hnul : 0 ∈ after.flatMap itemText ++ 0 :: buffer.drop ((encodeItems items).length + 1) :=
    List.mem_append_right _ List.mem_cons_self
  have hnode := @parseNode_complete (header items.length ++ before.flatMap itemText) _ x
    (encodeItems items).length [] hx hnul (by
      simp only [itemText] at hlen
      omega)
  have hbyte : byteAt (loaded buffer (encodeItems items))
      (offset items.length before) = .ok 36 := by
    rw [loaded_at buffer h, ← hplace, itemText, bulkText, List.cons_append]
    exact byteAt_append _ _ _
  rw [hplace] at hnode
  rw [offset_step]
  have hload := loaded_at buffer h
  rw [itemText] at hload
  rw [← hload, List.nil_append] at hnode
  exact .element hbyte (by decide) hnode (by simp only [itemText]; omega)

/-- A nil leads back by one byte. -/
theorem moves_nil_back {before after : List (Option Bytes)} (h : items = before ++ none :: after)
    {stop : Int} (hmoves : Moves (loaded buffer (encodeItems items)) (encodeItems items).length
      (.items (after.length + 1) (offset items.length before)) (.items after.length stop)) :
    stop = offset items.length before - 1 := by
  have hplace : ((header items.length ++ before.flatMap itemText).length : Int) =
      offset items.length before := by
    rw [List.length_append, offset, Int.natCast_add]
  have hnul : 0 ∈ after.flatMap itemText ++ 0 :: buffer.drop ((encodeItems items).length + 1) :=
    List.mem_append_right _ List.mem_cons_self
  have hnode := @parseNode_nil (header items.length ++ before.flatMap itemText) _
    (encodeItems items).length [] hnul
  rw [hplace] at hnode
  cases hmoves with
  | element hbyte hc hstop hne =>
      rw [loaded_at buffer h] at hstop
      cases hstop.symm.trans hnode
      rfl

theorem moves_start (hcount : items.length ≤ intMax) :
    Moves (loaded buffer (encodeItems items)) (encodeItems items).length (.value 0)
      (.items items.length (offset items.length [])) := by
  have hnul : 0 ∈ items.flatMap itemText ++ 0 :: buffer.drop ((encodeItems items).length + 1) :=
    List.mem_append_right _ List.mem_cons_self
  have hmem : loaded buffer (encodeItems items) = [42] ++ (decimalText items.length ++
      13 :: 10 :: (items.flatMap itemText ++
        0 :: buffer.drop ((encodeItems items).length + 1))) := by
    simp only [loaded, encodeItems, header, List.append_assoc, List.cons_append, List.nil_append]
  have hstr := strstr_line [42] (not_mem_decimalText (n := items.length) rfl)
    (not_mem_decimalText rfl) hnul
  have hatoi := atoi_decimal [42] hcount (List.mem_cons_of_mem (10 : UInt8) hnul)
  have hbyte : byteAt (loaded buffer (encodeItems items)) 0 = .ok 42 := byteAt_append [] 42 _
  rw [← hmem] at hstr hatoi
  have hplace : offset items.length [] =
      (([42] : Bytes).length + (decimalText items.length).length : Int) + 2 := by
    rw [offset_nil]
    simp only [header, List.length_cons, List.length_append, List.length_nil]
    omega
  rw [hplace]
  exact .header hbyte hstr hatoi

theorem length_le_items (items : List (Option Bytes)) :
    items.length ≤ (items.flatMap itemText).length := by
  induction items with
  | nil => exact Nat.le_refl 0
  | cons item items ih =>
      have hpos : 0 < (itemText item).length := by
        cases item with
        | none => exact Nat.succ_pos _
        | some x => exact Nat.succ_pos _
      rw [List.flatMap_cons, List.length_append, List.length_cons]
      omega

theorem flatMap_some (xs : List Bytes) : (xs.map some).flatMap itemText = xs.flatMap bulkText := by
  rw [List.flatMap_map]
  rfl

/-- The elements of an array whose only nil is the last one are stored. -/
theorem parse_last_nil {xs : List Bytes}
    (hsize : (encodeItems (xs.map some ++ [none])).length < 2 ^ 31)
    (buffer : Bytes) (cmd : Command) :
    parse (loaded buffer (encodeItems (xs.map some ++ [none]))) 0
        (encodeItems (xs.map some ++ [none])).length cmd =
      .ok (toInt (cmd.res ++ xs).length, { cmd with vec := [], res := cmd.res ++ xs }) := by
  have htext : encodeItems (xs.map some ++ [none]) =
      header (xs.length + 1) ++ (xs.flatMap bulkText ++ nilText) := by
    rw [encodeItems, List.flatMap_append, flatMap_some, List.length_append, List.length_map]
    rfl
  rw [htext] at hsize ⊢
  simp only [List.length_append] at hsize
  have hcount : xs.length + 1 ≤ intMax := by
    have hle := length_le_flatMap xs
    have hnil : nilText.length = 5 := rfl
    unfold intMax
    omega
  have hxs (x : Bytes) (hx : x ∈ xs) : x.length ≤ intMax := by
    have hlt := length_lt_flatMap hx
    unfold intMax
    omega
  obtain ⟨rest, hrest⟩ : ∃ rest, loaded buffer (header (xs.length + 1) ++
      (xs.flatMap bulkText ++ nilText)) = header (xs.length + 1) ++
        (xs.flatMap bulkText ++ (nilText ++ 0 :: rest)) :=
    ⟨_, by simp only [loaded, List.append_assoc]; rfl⟩
  have hnul : 0 ∈ nilText ++ 0 :: rest := List.mem_append_right _ List.mem_cons_self
  rw [hrest, parse, parseLevel_header hcount (List.mem_append_right _ hnul),
    parseItems_complete (header (xs.length + 1)) _ { cmd with vec := [] } hxs hnul (by
      simp only [List.length_append]
      omega) 1]
  have hmem : header (xs.length + 1) ++ (xs.flatMap bulkText ++ (nilText ++ 0 :: rest)) =
      (header (xs.length + 1) ++ xs.flatMap bulkText) ++ (nilText ++ 0 :: rest) := by
    rw [List.append_assoc]
  have hbyte : byteAt ((header (xs.length + 1) ++ xs.flatMap bulkText) ++ (nilText ++ 0 :: rest))
      (header (xs.length + 1) ++ xs.flatMap bulkText).length = .ok 36 := byteAt_append _ _ _
  rw [hmem, parseItems, hbyte, ok_bind, if_neg (by decide), parseNode_nil List.mem_cons_self,
    ok_bind]
  simp only
  rw [if_neg (by omega)]
  rfl

/-- A list without nil in front of its last element, which is nil. -/
theorem eq_some_append_none (hnil : none ∈ items) (hlast : none ∉ items.dropLast) :
    ∃ xs : List Bytes, items = xs.map some ++ [none] := by
  have hne : items ≠ [] := List.ne_nil_of_mem hnil
  have hsplit := List.dropLast_append_getLast hne
  have hend : items.getLast hne = none := by
    rw [← hsplit] at hnil
    cases List.mem_append.mp hnil with
    | inl h => exact absurd h hlast
    | inr h => exact (List.mem_singleton.mp h).symm
  refine ⟨items.dropLast.filterMap id, ?_⟩
  have hall : (items.dropLast.filterMap id).map some = items.dropLast := by
    rw [List.map_filterMap]
    refine (List.filterMap_congr fun x hx => ?_).trans List.filterMap_some
    cases x with
    | none => exact absurd hx hlast
    | some x => rfl
  rw [hall, ← hend, hsplit]

/-- An array with a nil is consumed as it should be exactly when no other element
follows the nil. -/
theorem nil_array_aligned_iff {items : List (Option Bytes)} (hnil : none ∈ items)
    (hsize : (encodeItems items).length < 2 ^ 31) (buffer : Bytes) (vec : List Bytes) :
    Aligned items buffer vec ↔ none ∉ items.dropLast := by
  have hcount : items.length ≤ intMax := by
    have hle := length_le_items items
    rw [encodeItems, List.length_append] at hsize
    unfold intMax
    omega
  constructor
  · intro h hmem
    obtain ⟨before, after', hsplit⟩ := List.append_of_mem hmem
    have hne : items ≠ [] := List.ne_nil_of_mem hnil
    have hitems : items = before ++ none :: (after' ++ [items.getLast hne]) := by
      conv_lhs => rw [← List.dropLast_append_getLast hne, hsplit]
      simp only [List.append_assoc, List.cons_append]
    have hback := moves_nil_back hitems (h.next before none _ hitems (by simp))
    rw [offset_step] at hback
    have hlen : (itemText none).length = 5 := rfl
    omega
  · intro hlast
    obtain ⟨xs, rfl⟩ := eq_some_append_none hnil hlast
    refine ⟨moves_start hcount, fun before item after heq hafter => ?_, ?_⟩
    · have hmem : item ∈ (xs.map some ++ [none]).dropLast := by
        rw [heq, List.dropLast_append_of_ne_nil (List.cons_ne_nil _ _),
          List.dropLast_cons_of_ne_nil hafter]
        exact List.mem_append_right _ List.mem_cons_self
      rw [List.dropLast_concat] at hmem
      obtain ⟨x, hx, rfl⟩ := List.mem_map.mp hmem
      refine moves_some ?_ heq
      rw [encodeItems, List.flatMap_append, flatMap_some] at hsize
      simp only [List.length_append] at hsize
      have hlt := length_lt_flatMap hx
      unfold intMax
      omega
    · refine ⟨_, _, parse_last_nil hsize buffer (new vec), ?_⟩
      rw [List.filterMap_append, List.filterMap_map]
      simp [new]

/-- The only nil is the last element. -/
theorem nil_array_aligned_iff_last : Aligned [some [97], none] [] [] :=
  (nil_array_aligned_iff (by decide) (by decide) [] []).mpr (by decide)

/-- A nil in front of an element is stored as an empty string, in its place. -/
theorem nil_array_not_aligned :
    ¬ Aligned [none, some [97]] [] [] ∧
      parse (loaded [] (encodeItems [none, some [97]])) 0 (encodeItems [none, some [97]]).length
        (new []) = .ok (1, { new [] with res := [[]] }) := by
  have hparse : parse (loaded [] (encodeItems [none, some [97]])) 0
      (encodeItems [none, some [97]]).length (new []) =
        .ok (1, { new [] with res := [[]] }) := by decide +kernel
  refine ⟨fun h => ?_, hparse⟩
  obtain ⟨code, cmd, hstored, hres⟩ := h.stored
  cases hparse.symm.trans hstored
  exact absurd hres (by decide)

end Command
end TAlib
