import TAlib.Redis.Cursor

/-!
On the receive buffer the parser stays inside the received bytes as long as the
headers it comes to are sane, and it then goes forward with every element. So no
place is visited twice and the recursion ends.
-/

namespace TAlib

open Foundation RedisConnect

namespace Command

variable {buffer received : Bytes}

/-- Behind the received bytes there is a NUL. -/
theorem byteAt_tail (buffer received : Bytes) :
    byteAt (loaded buffer received) received.length = .ok 0 := byteAt_append received 0 _

theorem byteAt_inside {p : Int} (h : 0 ≤ p ∧ p ≤ received.length) :
    ∃ c, byteAt (loaded buffer received) p = .ok c := by
  have hlt : p.toNat < (loaded buffer received).length := by
    rw [loaded, List.length_append, List.length_cons]
    omega
  refine ⟨(loaded buffer received)[p.toNat], ?_⟩
  rw [byteAt, if_neg (by omega), List.getElem?_eq_getElem hlt]

/-- A mark is in front of the NUL. -/
theorem lt_tail {p : Int} {c : UInt8} (h : p ≤ received.length)
    (hbyte : byteAt (loaded buffer received) p = .ok c) (hc : c ≠ 0) : p < received.length := by
  refine Int.lt_iff_le_and_ne.mpr ⟨h, fun heq => ?_⟩
  rw [heq, byteAt_tail] at hbyte
  exact hc (Except.ok.inj hbyte).symm

/-- A string in front of the NUL ends at it. -/
theorem cString_length {p : Int} (hp : 0 ≤ p ∧ p ≤ received.length) {s : Bytes}
    (h : cString (loaded buffer received) p = .ok s) : p + s.length ≤ received.length := by
  rw [cString] at h
  split at h
  · cases h
  · cases h
    have hdrop : (loaded buffer received).drop p.toNat =
        received.drop p.toNat ++ 0 :: buffer.drop (received.length + 1) := by
      rw [loaded, List.drop_append_of_le_length (by omega)]
    have hlen : ((received.drop p.toNat ++ 0 :: buffer.drop (received.length + 1)).takeWhile
        (· ≠ 0)).length ≤ (received.drop p.toNat).length := by
      rw [List.takeWhile_append]
      split
      · rw [List.takeWhile_cons_of_neg (by simp), List.append_nil]
      · exact (List.takeWhile_prefix _).length_le
    rw [hdrop]
    rw [List.length_drop] at hlen
    omega

theorem strstr_some {mem : Bytes} {p stop : Int} (h : strstr mem p kCRLF = .ok (some stop)) :
    ∃ s i, cString mem p = .ok s ∧ search kCRLF s = some i ∧ p + (i : Nat) = stop := by
  obtain ⟨s, hs, h⟩ := bind_eq_ok.mp h
  obtain ⟨i, hi, hstop⟩ := Option.map_eq_some_iff.mp (Except.ok.inj h)
  obtain ⟨k, hk, heq⟩ := Option.bind_eq_some_iff.mp hi
  cases heq
  exact ⟨s, k, hs, hk, hstop⟩

/-- A line break that is found is not in front of where the search starts. -/
theorem strstr_le {mem : Bytes} {p stop : Int} (h : strstr mem p kCRLF = .ok (some stop)) :
    p ≤ stop := by
  obtain ⟨s, i, -, -, hstop⟩ := strstr_some h
  omega

/-- A line break that is found from the received bytes on is one of them. -/
theorem strstr_inside {p stop : Int} (hp : 0 ≤ p ∧ p ≤ received.length)
    (h : strstr (loaded buffer received) p kCRLF = .ok (some stop)) :
    stop + 2 ≤ received.length := by
  obtain ⟨s, i, hs, hi, hstop⟩ := strstr_some h
  have hlen := cString_length hp hs
  have hend := search_add_length_le (by decide) hi
  have htwo : kCRLF.length = 2 := rfl
  omega

/-- What a sane header leads to. -/
theorem SizeReads.node {mem : Bytes} {p : Int} (h : SizeReads mem p) (tail : Int) :
    ∃ stop res, parseNode mem p tail [] = .ok (stop, res) ∧
      (stop = p ∨ p < stop ∧ stop ≤ tail) := by
  obtain ⟨line, hline, hsize⟩ := h
  cases line with
  | none =>
      refine ⟨p, [], ?_, .inl rfl⟩
      rw [parseNode, hline, ok_bind]
      rfl
  | some stop =>
      obtain ⟨n, hn, hnonneg⟩ := hsize (Option.some_ne_none _)
      have hle := strstr_le hline
      by_cases hshort : tail < stop + 2 + n + 2
      · refine ⟨p, [], ?_, .inl rfl⟩
        rw [parseNode, hline, ok_bind]
        simp only [hn, ok_bind]
        rw [if_neg (by omega), if_pos hshort]
        rfl
      · refine ⟨stop + 2 + n + 2, [text mem (stop + 2) (stop + 2 + n)], ?_,
          .inr ⟨by omega, by omega⟩⟩
        rw [parseNode, hline, ok_bind]
        simp only [hn, ok_bind]
        rw [if_neg (by omega), if_neg hshort]
        rfl

/-- On the received bytes, and sane from there on. -/
structure Safe (buffer received : Bytes) (c : Cursor) : Prop where
  inside : 0 ≤ c.position ∧ c.position ≤ received.length
  sane : ∀ c', Relation.ReflTransGen (Moves (loaded buffer received) received.length) c c' →
    Sane (loaded buffer received) c'

/-- The pointer does not leave the received bytes, and steps over an element go
forward. -/
theorem Safe.moves {c c' : Cursor} (h : Safe buffer received c)
    (hmoves : Moves (loaded buffer received) received.length c c') :
    Safe buffer received c' ∧
      (∀ cnt str stop, c = .items (cnt + 1) str → c' = .items cnt stop → str < stop) := by
  have hsane (c'' : Cursor) (hreached : Relation.ReflTransGen
      (Moves (loaded buffer received) received.length) c' c'') :
      Sane (loaded buffer received) c'' := h.sane c'' (.head hmoves hreached)
  have hinside := h.inside
  have hhere := h.sane c .refl
  cases hmoves with
  | @header msg _ _ hbyte hline hcnt =>
      have hlt : msg < received.length := lt_tail hinside.2 hbyte (by decide)
      have hpos : 0 ≤ msg := hinside.1
      have hle := strstr_le hline
      have hstop := strstr_inside ⟨by omega, by omega⟩ hline
      refine ⟨⟨⟨?_, hstop⟩, hsane⟩, fun _ _ _ heq => nomatch heq⟩
      simp only [Cursor.position]
      omega
  | nested hbyte => exact ⟨⟨hinside, hsane⟩, fun _ _ _ _ heq => nomatch heq⟩
  | @element cnt str stop c res hbyte hc hnode hne =>
      have hmark : byteAt (loaded buffer received) str ≠ .ok 42 := by
        rw [hbyte]
        exact fun heq => hc (Except.ok.inj heq)
      obtain ⟨stop', res', hnode', hor⟩ := (hhere hmark).node (received.length : Int)
      cases hnode.symm.trans hnode'
      have hforward := hor.resolve_left hne
      have hpos : 0 ≤ str := hinside.1
      refine ⟨⟨⟨?_, hforward.2⟩, hsane⟩, ?_⟩
      · simp only [Cursor.position]
        omega
      · rintro _ _ _ ⟨⟩ ⟨⟩
        exact hforward.1

theorem Safe.reached {c c' : Cursor} (h : Safe buffer received c)
    (hreached : Relation.ReflTransGen (Moves (loaded buffer received) received.length) c c') :
    Safe buffer received c' := by
  induction hreached with
  | refl => exact h
  | tail _ hmoves ih => exact (ih.moves hmoves).1

/-- parse returns from a safe place that is not the header of an array. -/
theorem Safe.returns_flat {msg : Int} (h : Safe buffer received (.value msg))
    (hmark : byteAt (loaded buffer received) msg ≠ .ok 42) (level : Nat) (cmd : Command) :
    ∃ r, parseLevel (loaded buffer received) received.length (level + 1) msg cmd = .ok r := by
  obtain ⟨c, hbyte⟩ : ∃ c, byteAt (loaded buffer received) msg = .ok c := byteAt_inside h.inside
  have hsane := h.sane _ .refl
  rw [Sane] at hsane
  rw [parseLevel, hbyte, ok_bind]
  by_cases h36 : c = 36
  · rw [if_pos (.inl (h36 ▸ hbyte))] at hsane
    obtain ⟨line, hline, hnumber⟩ := hsane
    have hnode : ∃ r, parseNode (loaded buffer received) msg received.length [] = .ok r := by
      rw [parseNode, hline, ok_bind]
      cases line with
      | none => exact ⟨_, rfl⟩
      | some stop =>
          obtain ⟨n, hn⟩ := hnumber (Option.some_ne_none _)
          simp only [hn, ok_bind]
          split
          · exact ⟨_, rfl⟩
          · split
            · exact ⟨_, rfl⟩
            · exact ⟨_, rfl⟩
    obtain ⟨r, hr⟩ := hnode
    rw [if_pos h36, parseNode_res, hr, ok_bind, ok_bind]
    simp only
    split
    · exact ⟨_, rfl⟩
    · split
      · exact ⟨_, rfl⟩
      · exact ⟨_, rfl⟩
  · have hline : ∃ line, strstr (loaded buffer received) (msg + 1) kCRLF = .ok line := by
      split at hsane
      · exact ⟨_, hsane.choose_spec.1⟩
      · exact hsane
    obtain ⟨line, hline⟩ := hline
    have hc : c ≠ 42 := fun heq => hmark (heq ▸ hbyte)
    rw [if_neg h36]
    simp only [hline, ok_bind, if_neg hc]
    cases line with
    | none => exact ⟨_, rfl⟩
    | some stop =>
        simp only
        by_cases h58 : c = 58
        · rw [if_pos (.inr (.inr (h58 ▸ hbyte)))] at hsane
          obtain ⟨line', hline', hnumber⟩ := hsane
          cases hline.symm.trans hline'
          obtain ⟨n, hn⟩ := hnumber (Option.some_ne_none _)
          rw [if_pos (.inr (.inr h58)), if_neg (by rw [h58]; decide), if_neg (by rw [h58]; decide),
            hn, ok_bind]
          exact ⟨_, rfl⟩
        · split
          · split
            · exact ⟨_, rfl⟩
            · split
              · exact ⟨_, rfl⟩
              · rename_i hor h43 h45
                exact absurd hor (not_or.mpr ⟨h43, not_or.mpr ⟨h45, h58⟩⟩)
          · exact ⟨_, rfl⟩

/-- The loop returns when parse does from every later place. -/
theorem Safe.returns_items {level : Nat}
    (hvalue : ∀ msg, Safe buffer received (.value msg) → received.length - msg < level →
      ∀ cmd, ∃ r, parseLevel (loaded buffer received) received.length level msg cmd = .ok r)
    (cnt : Nat) {str : Int} (h : Safe buffer received (.items cnt str))
    (hlevel : received.length - str < level) (cmd : Command) :
    ∃ r, parseItems (parseLevel (loaded buffer received) received.length level)
      (loaded buffer received) received.length cnt str cmd = .ok r := by
  induction cnt generalizing str cmd with
  | zero => exact ⟨_, rfl⟩
  | succ cnt ih =>
      obtain ⟨c, hbyte⟩ : ∃ c, byteAt (loaded buffer received) str = .ok c :=
        byteAt_inside h.inside
      rw [parseItems, hbyte, ok_bind]
      by_cases hc : c = 42
      · rw [if_pos hc]
        exact hvalue str (h.moves (.nested (hc ▸ hbyte))).1 hlevel cmd
      · have hmark : byteAt (loaded buffer received) str ≠ .ok 42 := by
          rw [hbyte]
          exact fun heq => hc (Except.ok.inj heq)
        obtain ⟨stop, res, hnode, hor⟩ := (h.sane _ .refl hmark).node (received.length : Int)
        rw [if_neg hc, parseNode_res, hnode, ok_bind, ok_bind]
        simp only
        by_cases hne : stop = str
        · rw [if_pos hne]
          exact ⟨_, rfl⟩
        · rw [if_neg hne]
          have hforward := hor.resolve_left hne
          exact ih (h.moves (.element hbyte hc hnode hne)).1 (by omega) _

/-- As many levels as there are bytes to come are enough. -/
theorem Safe.returns {level : Nat} {msg : Int} (h : Safe buffer received (.value msg))
    (hlevel : received.length - msg < level) (cmd : Command) :
    ∃ r, parseLevel (loaded buffer received) received.length level msg cmd = .ok r := by
  induction level generalizing msg cmd with
  | zero =>
      have hle : msg ≤ received.length := h.inside.2
      omega
  | succ level ih =>
      by_cases hmark : byteAt (loaded buffer received) msg = .ok 42
      · have hsane := h.sane _ .refl
        rw [Sane, if_pos (.inr (.inl hmark))] at hsane
        obtain ⟨line, hline, hnumber⟩ := hsane
        rw [parseLevel, hmark, ok_bind, if_neg (by decide)]
        simp only [hline, ok_bind]
        cases line with
        | none => exact ⟨_, rfl⟩
        | some stop =>
            obtain ⟨n, hn⟩ := hnumber (Option.some_ne_none _)
            have hle := strstr_le hline
            simp only [hn, ok_bind]
            rw [if_neg (by decide), if_pos trivial]
            exact Safe.returns_items (fun msg h hlt cmd => ih h hlt cmd) n.toNat
              (h.moves (.header hmark hline hn)).1 (by omega) _
      · exact h.returns_flat hmark level cmd

/-- The parser stays inside what it received exactly when every header it comes
to is sane. -/
theorem parse_stays_inside_iff (received buffer : Bytes) (cmd : Command) :
    StaysInside (loaded buffer received) received.length cmd ↔
      ∀ c, Reached (loaded buffer received) received.length c →
        Sane (loaded buffer received) c := by
  constructor
  · intro h c hreached
    obtain ⟨r, hr⟩ := h.returns
    have hstart : Returns (loaded buffer received) received.length (.value 0) :=
      ⟨_, cmd, r, by rw [parse, Int.zero_add] at hr; exact hr⟩
    refine (hstart.reached hreached).sane ?_
    rintro cnt str stop rfl hmoves
    exact h.forward cnt str stop hreached hmoves
  · intro h
    have hsafe : Safe buffer received (.value 0) := ⟨⟨Int.le_of_eq rfl, Int.natCast_nonneg _⟩, h⟩
    refine ⟨?_, fun c hreached => (hsafe.reached hreached).inside,
      fun cnt str stop hreached hmoves => ?_⟩
    · rw [parse, Int.zero_add]
      refine hsafe.returns ?_ cmd
      rw [loaded, List.length_append, List.length_cons]
      omega
    · exact ((hsafe.reached hreached).moves hmoves).2 cnt str stop rfl rfl

/-- A size of -4 leads back to the header of the array, over and over. -/
theorem parse_spins_on_negative_size :
    parse (loaded [] [42, 50, 13, 10, 36, 45, 52, 13, 10]) 0 9 (new []) = .error .spins ∧
      ¬ StaysInside (loaded [] [42, 50, 13, 10, 36, 45, 52, 13, 10]) 9 (new []) := by
  have hspins : parse (loaded [] [42, 50, 13, 10, 36, 45, 52, 13, 10]) 0 9 (new []) =
      .error .spins := faultOf_eq_some.mp (by decide +kernel)
  refine ⟨hspins, fun h => ?_⟩
  obtain ⟨r, hr⟩ := h.returns
  exact nomatch hspins.symm.trans hr

end Command
end TAlib
