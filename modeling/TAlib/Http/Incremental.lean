import TAlib.Http.ParseBytes

/-!
Parsing a request in pieces. What the parser leaves behind after a prefix of
the input is enough to resume: a parse of the whole input is a parse of the
prefix followed by a parse of what remains (`parseBytes_append`). The receive
time is the only part of a request that depends on the call, and the parser
never reads it.
-/

namespace TAlib

open Foundation

namespace HttpContext

/-- The context with the receive time of its request replaced. -/
def withTime (c : HttpContext) (t : TimeStamp) : HttpContext :=
  { c with request := c.request.setReceiveTime t }

/-- Equality of contexts, the receive time aside. -/
def SameButTime (c d : HttpContext) : Prop := ∃ t, d = c.withTime t

theorem SameButTime.refl (c : HttpContext) : SameButTime c c := ⟨c.request.receiveTime, rfl⟩

theorem SameButTime.live {c d : HttpContext} (h : SameButTime c d) (hc : c.Live) : d.Live := by
  obtain ⟨t, rfl⟩ := h
  exact hc

/-- The parser stops in a state that can resume, or with a whole request. -/
theorem iterationBytes_state {t : TimeStamp} {c : HttpContext} {s : Bytes} {i : Iteration Bytes}
    (hc : c.Live) (h : iterationBytes t c s = .ok i) :
    i.context.Live ∨ (i.context.gotAll = true ∧ i.ok = true) := by
  by_cases hmore : i.hasMore = true
  · exact .inl (iterationBytes_more hc h hmore).1
  · unfold iterationBytes at h
    rcases hc with hc | hc
    · rw [hc] at h
      cases hfind : search kCRLF s with
      | none =>
          simp only [hfind] at h
          cases h
          exact .inl (.inl hc)
      | some k =>
          simp only [hfind, bind_eq_ok] at h
          obtain ⟨⟨ok, r⟩, -, h⟩ := h
          cases ok with
          | false =>
              cases h
              exact .inl (.inl rfl)
          | true =>
              cases h
              exact absurd rfl hmore
    · rw [hc] at h
      cases hfind : search kCRLF s with
      | none =>
          simp only [hfind] at h
          cases h
          exact .inl (.inr hc)
      | some k =>
          simp only [hfind] at h
          split at h
          · cases h
            exact absurd rfl hmore
          · cases h
            exact .inr ⟨rfl, rfl⟩

/-- Induction over the iterations of a parse from a live state. -/
theorem parseBytes_induction {t : TimeStamp} {motive : HttpContext → Bytes → Prop}
    (step : ∀ c s, c.Live →
      (∀ i, iterationBytes t c s = .ok i → i.hasMore = true → i.context.Live →
        motive i.context i.rest) → motive c s)
    {c : HttpContext} (hc : c.Live) (s : Bytes) : motive c s := by
  induction hn : s.length using Nat.strong_induction_on generalizing c s with
  | _ n ih =>
      refine step c s hc fun i hi hmore hlive => ?_
      obtain ⟨-, hlen⟩ := iterationBytes_more hc hi hmore
      exact ih i.rest.length (by omega) hlive i.rest rfl

theorem parseBytes_state {t : TimeStamp} {c c' : HttpContext} {s rest : Bytes} {ok : Bool}
    (hc : c.Live) (h : parseBytes t c s = .ok (ok, c', rest)) :
    c'.Live ∨ (c'.gotAll = true ∧ ok = true) := by
  revert h
  refine parseBytes_induction (t := t)
    (motive := fun c s => parseBytes t c s = .ok (ok, c', rest) →
      c'.Live ∨ (c'.gotAll = true ∧ ok = true)) ?_ hc s
  intro c s hc ih h
  rw [parseBytes_step t hc, bind_eq_ok] at h
  obtain ⟨i, hi, h⟩ := h
  split at h
  · rename_i hmore
    exact ih i hi hmore (iterationBytes_more hc hi hmore).1 h
  · cases h
    exact iterationBytes_state hc hi

/-- A complete line is read in the same way whatever follows it. -/
theorem iterationBytes_append (t : TimeStamp) (c : HttpContext) (s x : Bytes)
    (hfind : search kCRLF s ≠ none) :
    iterationBytes t c (s ++ x) =
      (iterationBytes t c s).map fun i => { i with rest := i.rest ++ x } := by
  obtain ⟨k, hk⟩ := Option.ne_none_iff_exists'.mp hfind
  have hlen := search_add_length_le (show kCRLF ≠ [] by decide) hk
  have hlen' : k + 2 ≤ s.length := hlen
  have hk' := search_append (show kCRLF ≠ [] by decide) hk x
  have htake : (s ++ x).take k = s.take k := List.take_append_of_le_length (by omega)
  have hdrop : (s ++ x).drop (k + 2) = s.drop (k + 2) ++ x :=
    List.drop_append_of_le_length hlen'
  unfold iterationBytes
  rw [hk, hk']
  cases c.state with
  | kExpectRequestLine =>
      simp only [htake, hdrop]
      cases processRequestLine c.request (s.take k) 0 k with
      | error e => rfl
      | ok p =>
          obtain ⟨ok, r⟩ := p
          cases ok <;> rfl
  | kExpectHeaders =>
      simp only [htake, hdrop]
      split <;> rfl
  | kExpectBody | kGotAll => rfl

theorem gotAll_of_live {c : HttpContext} (hc : c.Live) : c.gotAll = false := by
  rcases hc with hc | hc <;> simp [gotAll, hc]

/-- Without a complete line the parser waits. -/
theorem parseBytes_waiting (t : TimeStamp) {c : HttpContext} (hc : c.Live) {s : Bytes}
    (hfind : search kCRLF s = none) : parseBytes t c s = .ok (true, c, s) := by
  have hi : iterationBytes t c s = .ok ⟨true, false, c, s⟩ := by
    unfold iterationBytes
    rcases hc with hc | hc <;> simp only [hc, hfind]
  rw [parseBytes_step t hc, hi]
  rfl

/-- With a complete line an iteration fails, ends the request or goes on. -/
theorem iterationBytes_goesOn {t : TimeStamp} {c : HttpContext} {s : Bytes} {i : Iteration Bytes}
    (hc : c.Live) (hfind : search kCRLF s ≠ none) (h : iterationBytes t c s = .ok i)
    (hok : i.ok = true) (hgot : i.context.gotAll = false) : i.hasMore = true := by
  obtain ⟨k, hk⟩ := Option.ne_none_iff_exists'.mp hfind
  unfold iterationBytes at h
  rcases hc with hc | hc
  · simp only [hc, hk, bind_eq_ok] at h
    obtain ⟨⟨ok, r⟩, -, h⟩ := h
    cases ok with
    | false =>
        cases h
        cases hok
    | true =>
        cases h
        rfl
  · simp only [hc, hk] at h
    split at h
    · cases h
      rfl
    · cases h
      cases hgot

/-- A parse of the whole input resumes from what a parse of a prefix left. -/
theorem parseBytes_append (t : TimeStamp) {c : HttpContext} (hc : c.Live) (s x : Bytes) :
    parseBytes t c (s ++ x) = parseBytes t c s >>= fun p =>
      if p.1 = true ∧ p.2.1.gotAll = false then parseBytes t p.2.1 (p.2.2 ++ x)
      else .ok (p.1, p.2.1, p.2.2 ++ x) := by
  refine parseBytes_induction (t := t)
    (motive := fun c s => parseBytes t c (s ++ x) = parseBytes t c s >>= fun p =>
      if p.1 = true ∧ p.2.1.gotAll = false then parseBytes t p.2.1 (p.2.2 ++ x)
      else .ok (p.1, p.2.1, p.2.2 ++ x)) ?_ hc s
  intro c s hc ih
  by_cases hfind : search kCRLF s = none
  · rw [parseBytes_waiting t hc hfind, ok_bind]
    simp [gotAll_of_live hc]
  · rw [parseBytes_step t hc, parseBytes_step t hc s, iterationBytes_append t c s x hfind]
    cases hi : iterationBytes t c s with
    | error e => rfl
    | ok i =>
        simp only [Except.map, ok_bind]
        split
        · rename_i hmore
          exact ih i hi hmore (iterationBytes_more hc hi hmore).1
        · rename_i hmore
          rw [ok_bind, if_neg]
          -- an iteration that met a line stops with an error or with a whole request
          rintro ⟨hok, hgot⟩
          exact hmore (iterationBytes_goesOn hc hfind hi hok hgot)

/-- The outcomes of two parses, the receive time aside. -/
def SameOutcome (p q : Bool × HttpContext × Bytes) : Prop :=
  p.1 = q.1 ∧ SameButTime p.2.1 q.2.1 ∧ p.2.2 = q.2.2

theorem processRequestLine_time (r : HttpRequest) (u : TimeStamp) (mem : Bytes) (a b : Nat) :
    processRequestLine (r.setReceiveTime u) mem a b =
      (processRequestLine r mem a b).map fun p => (p.1, p.2.setReceiveTime u) := by
  have hversion (r : HttpRequest) (a b : Nat) : processVersion (r.setReceiveTime u) mem a b =
      ((processVersion r mem a b).1, (processVersion r mem a b).2.setReceiveTime u) := by
    unfold processVersion
    split_ifs <;> rfl
  have htarget (r : HttpRequest) (a b : Nat) : processTarget (r.setReceiveTime u) mem a b =
      ((processTarget r mem a b).1, (processTarget r mem a b).2.setReceiveTime u) := by
    unfold processTarget
    simp only
    split_ifs
    · exact hversion ((r.setPath mem a _).setQuery mem _ _) _ b
    · exact hversion (r.setPath mem a _) _ b
    · rfl
  unfold processRequestLine
  simp only
  split
  · by_cases hm : r.method = .kInvalid
    · rw [HttpRequest.setMethod_of_invalid hm,
        HttpRequest.setMethod_of_invalid (r := r.setReceiveTime u) hm]
      simp only [ok_bind]
      split
      · exact congrArg Except.ok (htarget { r with method := _ } _ b)
      · rfl
    · rw [HttpRequest.setMethod_of_known hm,
        HttpRequest.setMethod_of_known (r := r.setReceiveTime u) hm]
      rfl
  · rfl

theorem iterationBytes_time {c d : HttpContext} (h : SameButTime c d) (t u : TimeStamp)
    (s : Bytes) :
    Corresponds (fun i j => i.ok = j.ok ∧ i.hasMore = j.hasMore ∧
      SameButTime i.context j.context ∧ i.rest = j.rest)
      (iterationBytes t c s) (iterationBytes u d s) := by
  obtain ⟨v, rfl⟩ := h
  obtain ⟨state, r⟩ := c
  unfold iterationBytes
  simp only [withTime]
  cases state with
  | kExpectRequestLine =>
      cases search kCRLF s with
      | none => exact ⟨rfl, rfl, ⟨v, rfl⟩, rfl⟩
      | some k =>
          simp only [processRequestLine_time]
          cases processRequestLine r (s.take k) 0 k with
          | error e => rfl
          | ok p =>
              obtain ⟨ok, r⟩ := p
              cases ok with
              | false => exact ⟨rfl, rfl, ⟨v, rfl⟩, rfl⟩
              | true => exact ⟨rfl, rfl, ⟨u, rfl⟩, rfl⟩
  | kExpectHeaders =>
      cases search kCRLF s with
      | none => exact ⟨rfl, rfl, ⟨v, rfl⟩, rfl⟩
      | some k =>
          simp only
          split
          · exact ⟨rfl, rfl, ⟨v, rfl⟩, rfl⟩
          · exact ⟨rfl, rfl, ⟨v, rfl⟩, rfl⟩
  | kExpectBody | kGotAll => exact ⟨rfl, rfl, ⟨v, rfl⟩, rfl⟩

/-- The parser never reads a receive time. -/
theorem parseBytes_time {c d : HttpContext} (h : SameButTime c d) (t u : TimeStamp) (s : Bytes) :
    Corresponds SameOutcome (parseBytes t c s) (parseBytes u d s) := by
  unfold parseBytes
  generalize s.length + 1 = fuel
  induction fuel generalizing c d s with
  | zero => rfl
  | succ fuel ih =>
      refine Corresponds.bind (iterationBytes_time h t u s) ?_
      rintro i j ⟨hok, hmore, hctx, hrest⟩
      rw [hmore, hrest]
      cases j.hasMore with
      | true => exact ih hctx j.rest
      | false => exact ⟨hok, hctx, rfl⟩

/-- A context that waits for a request line holds no method yet. -/
def Ready (c : HttpContext) : Prop :=
  c.Live ∧ (c.state = .kExpectRequestLine → c.request.method = .kInvalid)

theorem new_ready : new.Ready := ⟨.inl rfl, fun _ => rfl⟩

theorem ready_of_headers {c : HttpContext} (h : c.state = .kExpectHeaders) : c.Ready := by
  refine ⟨.inr h, fun h' => ?_⟩
  rw [h] at h'
  cases h'

theorem processRequestLine_returns {r : HttpRequest} (h : r.method = .kInvalid) (mem : Bytes)
    (a b : Nat) : ∃ p, processRequestLine r mem a b = .ok p := by
  unfold processRequestLine
  simp only [HttpRequest.setMethod_of_invalid h, ok_bind]
  split
  · split
    · exact ⟨_, rfl⟩
    · exact ⟨_, rfl⟩
  · exact ⟨_, rfl⟩

theorem iterationBytes_ready {c : HttpContext} (hc : c.Ready) (t : TimeStamp) (s : Bytes) :
    ∃ i, iterationBytes t c s = .ok i ∧ (i.hasMore = true → i.context.Ready) := by
  unfold iterationBytes
  obtain ⟨hstate | hstate, hmethod⟩ := hc
  · simp only [hstate]
    cases search kCRLF s with
    | none => exact ⟨_, rfl, fun h => absurd h Bool.false_ne_true⟩
    | some k =>
        obtain ⟨⟨ok, r⟩, hp⟩ := processRequestLine_returns (hmethod hstate) (s.take k) 0 k
        simp only [hp, ok_bind]
        cases ok with
        | false => exact ⟨_, rfl, fun h => absurd h Bool.false_ne_true⟩
        | true => exact ⟨_, rfl, fun _ => ready_of_headers rfl⟩
  · simp only [hstate]
    cases search kCRLF s with
    | none => exact ⟨_, rfl, fun h => absurd h Bool.false_ne_true⟩
    | some k =>
        simp only
        split
        · exact ⟨_, rfl, fun _ => ready_of_headers rfl⟩
        · exact ⟨_, rfl, fun h => absurd h Bool.false_ne_true⟩

/-- From a ready context every parse returns. -/
theorem parseBytes_returns {c : HttpContext} (hc : c.Ready) (t : TimeStamp) (s : Bytes) :
    ∃ p, parseBytes t c s = .ok p := by
  refine parseBytes_induction (t := t)
    (motive := fun c s => c.Ready → ∃ p, parseBytes t c s = .ok p) ?_ hc.1 s hc
  intro c s hlive ih hc
  obtain ⟨i, hi, hready⟩ := iterationBytes_ready hc t s
  rw [parseBytes_step t hlive, hi, ok_bind]
  split
  · rename_i hmore
    exact ih i hi hmore (hready hmore).1 (hready hmore)
  · exact ⟨_, rfl⟩

end HttpContext
end TAlib
