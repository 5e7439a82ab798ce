import TAlib.Redis.ParseBounds

/-!
What follows the received bytes and their NUL does not matter to a parser that
stays inside them. So an answer that is decoded inside the received bytes does
not depend on what earlier replies left in the buffer.
-/

namespace TAlib

open Foundation RedisConnect

section Memory

variable {mem more : Bytes}

theorem byteAt_extend {p : Int} {b : UInt8} (h : byteAt mem p = .ok b) :
    byteAt (mem ++ more) p = .ok b := by
  rw [byteAt] at h ⊢
  split at h
  · cases h
  · rename_i hp
    rw [if_neg hp]
    cases hget : mem[p.toNat]? with
    | none =>
        rw [hget] at h
        cases h
    | some c =>
        rw [hget] at h
        rw [List.getElem?_append_left (List.getElem?_eq_some_iff.mp hget).1, hget]
        exact h

/-- A string ends at its NUL. -/
theorem cString_extend {p : Int} {s : Bytes} (h : cString mem p = .ok s) :
    cString (mem ++ more) p = .ok s := by
  rw [cString] at h ⊢
  split at h
  · cases h
  · rename_i hstring
    obtain ⟨hp, hmem⟩ := not_or.mp hstring
    have hnul := not_not.mp hmem
    have hlt : p.toNat < mem.length := by
      by_contra hge
      rw [List.drop_eq_nil_of_le (Nat.le_of_not_lt hge)] at hnul
      cases hnul
    have hdrop : (mem ++ more).drop p.toNat = mem.drop p.toNat ++ more :=
      List.drop_append_of_le_length (Nat.le_of_lt hlt)
    have hshort : ¬ ((mem.drop p.toNat).takeWhile (· ≠ 0)).length = (mem.drop p.toNat).length := by
      intro heq
      have hall := List.takeWhile_eq_self_iff.mp
        ((List.takeWhile_prefix _).eq_of_length heq) 0 hnul
      exact absurd hall (by decide)
    rw [hdrop, if_neg (not_or.mpr ⟨hp, not_not.mpr (List.mem_append_left _ hnul)⟩),
      List.takeWhile_append, if_neg hshort]
    exact h

theorem strstr_extend {str : Int} {needle : Bytes} {r : Option Int}
    (h : strstr mem str needle = .ok r) : strstr (mem ++ more) str needle = .ok r := by
  obtain ⟨s, hs, h⟩ := bind_eq_ok.mp h
  rw [strstr, cString_extend hs]
  exact h

theorem atoi_extend {str n : Int} (h : atoi mem str = .ok n) : atoi (mem ++ more) str = .ok n := by
  obtain ⟨s, hs, h⟩ := bind_eq_ok.mp h
  rw [atoi, cString_extend hs]
  exact h

end Memory

namespace Command

variable {mem more : Bytes} {tail : Int}

/-- A line break that is found is in the memory. -/
theorem strstr_toNat_le {str stop : Int} (h : strstr mem str kCRLF = .ok (some stop)) :
    stop.toNat ≤ mem.length := by
  obtain ⟨s, i, hs, hi, hstop⟩ := strstr_some h
  rw [cString] at hs
  split at hs
  · cases hs
  · rename_i hstring
    cases hs
    have hstr := Int.not_lt.mp (not_or.mp hstring).1
    have hend := search_add_length_le (by decide) hi
    have hlen := (List.takeWhile_prefix (l := mem.drop str.toNat) (· ≠ 0)).length_le
    have htwo : kCRLF.length = 2 := rfl
    rw [List.length_drop] at hlen
    omega

theorem text_extend {str stop : Int} (h : stop.toNat ≤ mem.length) :
    text (mem ++ more) str stop = text mem str stop := slice_append_left _ _ h

theorem parseNode_extend (htail : tail ≤ mem.length) {msg : Int} {res : List Bytes}
    {r : Int × List Bytes} (h : parseNode mem msg tail res = .ok r) :
    parseNode (mem ++ more) msg tail res = .ok r := by
  obtain ⟨found, hfound, h⟩ := bind_eq_ok.mp h
  rw [parseNode, strstr_extend hfound, ok_bind]
  cases found with
  | none => exact h
  | some stop =>
      obtain ⟨sz, hsz, h⟩ := bind_eq_ok.mp h
      simp only [atoi_extend hsz, ok_bind]
      by_cases hneg : sz < 0
      · rwa [if_pos hneg] at h ⊢
      · rw [if_neg hneg] at h ⊢
        by_cases hshort : tail < stop + 2 + sz + 2
        · rwa [if_pos hshort] at h ⊢
        · rw [if_neg hshort] at h ⊢
          rw [text_extend (by omega)]
          exact h

/-- The elements of an array, with what a nested one gives. -/
theorem parseItems_extend {nested nested' : Int → Command → Except Fault (Int × Command)}
    (hnested : ∀ str cmd r, nested str cmd = .ok r → nested' str cmd = .ok r)
    (htail : tail ≤ mem.length) {cnt : Nat} {str : Int} {cmd : Command} {r : Int × Command}
    (h : parseItems nested mem tail cnt str cmd = .ok r) :
    parseItems nested' (mem ++ more) tail cnt str cmd = .ok r := by
  induction cnt generalizing str cmd with
  | zero => exact h
  | succ cnt ih =>
      obtain ⟨c, hc, h⟩ := bind_eq_ok.mp h
      rw [parseItems, byteAt_extend hc, ok_bind]
      by_cases harray : c = 42
      · rw [if_pos harray] at h ⊢
        exact hnested str cmd r h
      · rw [if_neg harray] at h ⊢
        obtain ⟨⟨stop, res⟩, hnode, h⟩ := bind_eq_ok.mp h
        rw [parseNode_extend htail hnode, ok_bind]
        simp only at h ⊢
        by_cases hstop : stop = str
        · rwa [if_pos hstop] at h ⊢
        · rw [if_neg hstop] at h ⊢
          exact ih h

theorem parseLevel_extend (htail : tail ≤ mem.length) {level level' : Nat} (hle : level ≤ level')
    {msg : Int} {cmd : Command} {r : Int × Command}
    (h : parseLevel mem tail level msg cmd = .ok r) :
    parseLevel (mem ++ more) tail level' msg cmd = .ok r := by
  induction level generalizing level' msg cmd r with
  | zero => cases h
  | succ level ih =>
      obtain ⟨level', rfl⟩ := Nat.exists_eq_succ_of_ne_zero
        (Nat.ne_of_gt (Nat.lt_of_lt_of_le level.succ_pos hle))
      have hnested (str : Int) (cmd : Command) (r : Int × Command)
          (h : parseLevel mem tail level str cmd = .ok r) :
          parseLevel (mem ++ more) tail level' str cmd = .ok r := ih (Nat.le_of_succ_le_succ hle) h
      obtain ⟨c, hc, h⟩ := bind_eq_ok.mp h
      rw [parseLevel, byteAt_extend hc, ok_bind]
      by_cases hbulk : c = 36
      · rw [if_pos hbulk] at h ⊢
        obtain ⟨node, hnode, h⟩ := bind_eq_ok.mp h
        rw [parseNode_extend htail hnode, ok_bind]
        exact h
      · rw [if_neg hbulk] at h ⊢
        obtain ⟨found, hfound, h⟩ := bind_eq_ok.mp h
        simp only [strstr_extend hfound, ok_bind]
        cases found with
        | none => exact h
        | some stop =>
            by_cases hline : c = 43 ∨ c = 45 ∨ c = 58
            · simp only [if_pos hline, text_extend (strstr_toNat_le hfound)] at h ⊢
              by_cases hsimple : c = 43
              · rwa [if_pos hsimple] at h ⊢
              · rw [if_neg hsimple] at h ⊢
                by_cases herror : c = 45
                · rwa [if_pos herror] at h ⊢
                · rw [if_neg herror] at h ⊢
                  obtain ⟨status, hstatus, h⟩ := bind_eq_ok.mp h
                  rw [atoi_extend hstatus]
                  exact h
            · simp only [if_neg hline] at h ⊢
              by_cases harray : c = 42
              · rw [if_pos harray] at h ⊢
                obtain ⟨cnt, hcnt, h⟩ := bind_eq_ok.mp h
                rw [atoi_extend hcnt, ok_bind]
                exact parseItems_extend hnested htail h
              · rwa [if_neg harray] at h ⊢

/-- A parser that stays inside the received bytes gives the same in every buffer. -/
theorem parse_loaded {received : Bytes} {cmd : Command} {r : Int × Command}
    (h : parse (received ++ [0]) 0 received.length cmd = .ok r) (buffer : Bytes) :
    parse (loaded buffer received) 0 received.length cmd = .ok r := by
  have hmem : loaded buffer received = received ++ [0] ++ buffer.drop (received.length + 1) := by
    rw [loaded, List.append_assoc, List.singleton_append]
  rw [hmem]
  refine parseLevel_extend ?_ ?_ h
  · rw [List.length_append]
    omega
  · exact Nat.succ_le_succ (List.prefix_append _ _).length_le

end Command
end TAlib
