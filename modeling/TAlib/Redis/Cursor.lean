import Mathlib.Logic.Relation
import TAlib.Redis.SplitReply

/-!
The pointer with which parse goes through a reply. It starts at a value; the
header of an array leads to its elements, and an element to the next one or, when
it is an array itself, back to a value. What is stored on the way plays no part
in where the pointer goes.
-/

namespace TAlib

open Foundation RedisConnect

namespace Command

/-- At a value, or in an array with this many elements to come. -/
inductive Cursor where
  | value (msg : Int)
  | items (cnt : Nat) (str : Int)
  deriving DecidableEq

def Cursor.position : Cursor → Int
  | value msg => msg
  | items _ str => str

inductive Moves (mem : Bytes) (tail : Int) : Cursor → Cursor → Prop
  | header {msg stop cnt : Int} (hbyte : byteAt mem msg = .ok 42)
      (hline : strstr mem (msg + 1) kCRLF = .ok (some stop)) (hcnt : atoi mem (msg + 1) = .ok cnt) :
      Moves mem tail (.value msg) (.items cnt.toNat (stop + 2))
  | nested {cnt : Nat} {str : Int} (hbyte : byteAt mem str = .ok 42) :
      Moves mem tail (.items (cnt + 1) str) (.value str)
  | element {cnt : Nat} {str stop : Int} {c : UInt8} {res : List Bytes}
      (hbyte : byteAt mem str = .ok c) (hc : c ≠ 42)
      (hnode : parseNode mem str tail [] = .ok (stop, res)) (hne : stop ≠ str) :
      Moves mem tail (.items (cnt + 1) str) (.items cnt stop)

/-- The places that parse comes to when it is called at the start. -/
def Reached (mem : Bytes) (tail : Int) : Cursor → Prop :=
  Relation.ReflTransGen (Moves mem tail) (.value 0)

variable {mem : Bytes} {tail : Int}

/-- What was stored before is only kept. -/
theorem parseNode_res (mem : Bytes) (msg tail : Int) (res : List Bytes) :
    parseNode mem msg tail res =
      (parseNode mem msg tail [] >>= fun r => .ok (r.1, res ++ r.2)) := by
  rw [parseNode, parseNode]
  cases strstr mem (msg + 1) kCRLF with
  | error e => rfl
  | ok line =>
      cases line with
      | none =>
          simp only [ok_bind]
          exact congrArg (fun l => Except.ok (msg, l)) (List.append_nil res).symm
      | some stop =>
          simp only [ok_bind]
          cases atoi mem (msg + 1) with
          | error e => rfl
          | ok sz =>
              simp only [ok_bind]
              split
              · exact congrArg (fun l => Except.ok (msg + sz, l)) (List.append_nil res).symm
              · split
                · exact congrArg (fun l => Except.ok (msg, l)) (List.append_nil res).symm
                · rfl

/-- parse or its loop, called at this place, returns. -/
def Returns (mem : Bytes) (tail : Int) : Cursor → Prop
  | .value msg => ∃ level cmd r, parseLevel mem tail level msg cmd = .ok r
  | .items cnt str =>
      ∃ level cmd r, parseItems (parseLevel mem tail level) mem tail cnt str cmd = .ok r

/-- A call that returns has returned from everything it went on with. -/
theorem Returns.moves {c c' : Cursor} (h : Returns mem tail c) (hmoves : Moves mem tail c c') :
    Returns mem tail c' := by
  cases hmoves with
  | header hbyte hline hcnt =>
      obtain ⟨level, cmd, r, hr⟩ := h
      cases level with
      | zero => cases hr
      | succ level =>
          refine ⟨level, { cmd with vec := [] }, r, ?_⟩
          simp only [parseLevel, hbyte, hline, hcnt, ok_bind] at hr
          rw [if_neg (by decide), if_neg (by decide), if_pos trivial] at hr
          exact hr
  | nested hbyte =>
      obtain ⟨level, cmd, r, hr⟩ := h
      refine ⟨level, cmd, r, ?_⟩
      rw [parseItems, hbyte, ok_bind, if_pos rfl] at hr
      exact hr
  | element hbyte hc hnode hne =>
      obtain ⟨level, cmd, r, hr⟩ := h
      rw [parseItems, hbyte, ok_bind, if_neg hc, parseNode_res, hnode, ok_bind, ok_bind] at hr
      simp only [if_neg hne] at hr
      exact ⟨level, _, r, hr⟩

theorem Returns.reached {c c' : Cursor} (h : Returns mem tail c)
    (hreached : Relation.ReflTransGen (Moves mem tail) c c') : Returns mem tail c' := by
  induction hreached with
  | refl => exact h
  | tail _ hmoves ih => exact ih.moves hmoves

/-- The header at `p` is a string, and the number in a complete one is an int. -/
def HeaderReads (mem : Bytes) (p : Int) : Prop :=
  ∃ line, strstr mem (p + 1) kCRLF = .ok line ∧ (line ≠ none → ∃ n, atoi mem (p + 1) = .ok n)

/-- The size in a complete header is not negative. -/
def SizeReads (mem : Bytes) (p : Int) : Prop :=
  ∃ line, strstr mem (p + 1) kCRLF = .ok line ∧
    (line ≠ none → ∃ n, atoi mem (p + 1) = .ok n ∧ 0 ≤ n)

/-- The branches that go wrong are not taken: the text behind the mark is there,
its number is an int, and the size of an element is not negative. -/
def Sane (mem : Bytes) : Cursor → Prop
  | .value msg =>
      if byteAt mem msg = .ok 36 ∨ byteAt mem msg = .ok 42 ∨ byteAt mem msg = .ok 58 then
        HeaderReads mem msg
      else ∃ line, strstr mem (msg + 1) kCRLF = .ok line
  | .items 0 _ => True
  | .items (_ + 1) str => byteAt mem str ≠ .ok 42 → SizeReads mem str

/-- parse returns, its pointer stays on the received bytes, and every element it
steps over ends behind its start. -/
structure StaysInside (mem : Bytes) (len : Int) (cmd : Command) : Prop where
  returns : ∃ r, parse mem 0 len cmd = .ok r
  inside : ∀ c, Reached mem len c → 0 ≤ c.position ∧ c.position ≤ len
  forward : ∀ cnt str stop, Reached mem len (.items (cnt + 1) str) →
    Moves mem len (.items (cnt + 1) str) (.items cnt stop) → str < stop

theorem parseNode_ok {p : Int} {r : Int × List Bytes} (h : parseNode mem p tail [] = .ok r) :
    HeaderReads mem p := by
  obtain ⟨line, hline, h⟩ := bind_eq_ok.mp h
  refine ⟨line, hline, fun hne => ?_⟩
  cases line with
  | none => exact absurd rfl hne
  | some stop =>
      obtain ⟨n, hn, -⟩ := bind_eq_ok.mp h
      exact ⟨n, hn⟩

/-- A negative size leads backwards. -/
theorem parseNode_negative {p stop n : Int} (hline : strstr mem (p + 1) kCRLF = .ok (some stop))
    (hn : atoi mem (p + 1) = .ok n) (hneg : n < 0) (tail : Int) :
    parseNode mem p tail [] = .ok (p + n, []) := by
  rw [parseNode, hline, ok_bind]
  simp only [hn, ok_bind]
  rw [if_pos hneg]
  rfl

theorem parseItems_node {level cnt : Nat} {str : Int} {cmd : Command} {r : Int × Command}
    {c : UInt8} (h : parseItems (parseLevel mem tail level) mem tail (cnt + 1) str cmd = .ok r)
    (hbyte : byteAt mem str = .ok c) (hc : c ≠ 42) : ∃ r', parseNode mem str tail [] = .ok r' := by
  rw [parseItems, hbyte, ok_bind, if_neg hc, parseNode_res] at h
  obtain ⟨r', hr', -⟩ := bind_eq_ok.mp h
  obtain ⟨r'', hr'', -⟩ := bind_eq_ok.mp hr'
  exact ⟨r'', hr''⟩

/-- A place from which the parser returns is sane, if the elements there end
behind their start. -/
theorem Returns.sane {c : Cursor} (h : Returns mem tail c)
    (hforward : ∀ cnt str stop, c = .items (cnt + 1) str →
      Moves mem tail (.items (cnt + 1) str) (.items cnt stop) → str < stop) : Sane mem c := by
  cases c with
  | value msg =>
      obtain ⟨level, cmd, r, hr⟩ := h
      cases level with
      | zero => cases hr
      | succ level =>
          obtain ⟨c, hbyte, hr⟩ := bind_eq_ok.mp hr
          rw [Sane, hbyte]
          by_cases h36 : c = 36
          · rw [if_pos h36, parseNode_res] at hr
            obtain ⟨r', hr', -⟩ := bind_eq_ok.mp hr
            obtain ⟨r'', hr'', -⟩ := bind_eq_ok.mp hr'
            rw [if_pos (.inl (congrArg _ h36))]
            exact parseNode_ok hr''
          · rw [if_neg h36] at hr
            obtain ⟨line, hline, hr⟩ := bind_eq_ok.mp hr
            split
            · refine ⟨line, hline, fun hne => ?_⟩
              rename_i hmark
              obtain ⟨stop, rfl⟩ := Option.ne_none_iff_exists'.mp hne
              rcases hmark with hmark | hmark | hmark
              · exact absurd (Except.ok.inj hmark) h36
              · cases Except.ok.inj hmark
                simp only at hr
                rw [if_neg (by decide), if_pos trivial] at hr
                obtain ⟨n, hn, -⟩ := bind_eq_ok.mp hr
                exact ⟨n, hn⟩
              · cases Except.ok.inj hmark
                simp only at hr
                rw [if_pos (by decide), if_neg (by decide), if_neg (by decide)] at hr
                obtain ⟨n, hn, -⟩ := bind_eq_ok.mp hr
                exact ⟨n, hn⟩
            · exact ⟨line, hline⟩
  | items cnt str =>
      cases cnt with
      | zero => trivial
      | succ cnt =>
          intro hmark
          obtain ⟨level, cmd, r, hr⟩ := h
          obtain ⟨c, hbyte, -⟩ := bind_eq_ok.mp hr
          have hc : c ≠ 42 := fun heq => hmark (heq ▸ hbyte)
          obtain ⟨r', hr'⟩ := parseItems_node hr hbyte hc
          obtain ⟨line, hline, hnumber⟩ := parseNode_ok hr'
          refine ⟨line, hline, fun hne => ?_⟩
          obtain ⟨n, hn⟩ := hnumber hne
          obtain ⟨stop, rfl⟩ := Option.ne_none_iff_exists'.mp hne
          refine ⟨n, hn, ?_⟩
          by_contra hneg
          have hback := hforward cnt str (str + n) rfl
            (.element hbyte hc (parseNode_negative hline hn (by omega) tail) (by omega))
          omega

end Command
end TAlib
