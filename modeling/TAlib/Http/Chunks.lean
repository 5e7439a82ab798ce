import TAlib.Http.Incremental

/-!
A request that arrives in chunks. The chunks are appended to the buffer one by
one and parseRequest is called after each, until it fails or has the whole
request. The outcome is that of appending all the bytes and calling
parseRequest once: same verdict, state, request and unconsumed bytes.
-/

namespace TAlib

open Foundation

namespace HttpContext

/-- Appends the chunks one by one, each with the receive time of its call, and
parses after each; the result also holds the chunks that were not delivered. -/
def parseChunks : HttpContext → Buffer → List (Bytes × TimeStamp) →
    Except Fault (Bool × HttpContext × Buffer × List (Bytes × TimeStamp))
  | c, buf, [] => .ok (true, c, buf, [])
  | c, buf, (chunk, receiveTime) :: rest => do
      let buf ← buf.append chunk
      let (ok, c, buf) ← c.parseRequest receiveTime buf
      if ok = true ∧ c.gotAll = false then parseChunks c buf rest
      else return (ok, c, buf, rest)

/-- Appends everything and parses once. -/
def parseOnce (receiveTime : TimeStamp) (c : HttpContext) (buf : Buffer) (s : Bytes) :
    Except Fault (Bool × HttpContext × Buffer) := do
  let buf ← buf.append s
  c.parseRequest receiveTime buf

/-- The bytes of a list of chunks. -/
def bytesOfChunks (chunks : List (Bytes × TimeStamp)) : Bytes :=
  (chunks.map Prod.fst).flatten

theorem bytesOfChunks_cons (x : Bytes) (t : TimeStamp) (chunks : List (Bytes × TimeStamp)) :
    bytesOfChunks ((x, t) :: chunks) = x ++ bytesOfChunks chunks := rfl

/-- The chunked parse on byte strings; undelivered chunks count as unconsumed. -/
def feedBytes : HttpContext → Bytes → List (Bytes × TimeStamp) →
    Except Fault (Bool × HttpContext × Bytes)
  | c, s, [] => .ok (true, c, s)
  | c, s, (chunk, receiveTime) :: rest => do
      let p ← parseBytes receiveTime c (s ++ chunk)
      if p.1 = true ∧ p.2.1.gotAll = false then feedBytes p.2.1 p.2.2 rest
      else return (p.1, p.2.1, p.2.2 ++ bytesOfChunks rest)

/-- What a parse that waits for more has left cannot be parsed further. -/
theorem parseBytes_quiescent {t : TimeStamp} {c d : HttpContext} {s rest : Bytes} (hc : c.Live)
    (h : parseBytes t c s = .ok (true, d, rest)) (hd : d.gotAll = false) (u : TimeStamp) :
    Corresponds SameOutcome (parseBytes u d rest) (.ok (true, d, rest)) := by
  have happend := parseBytes_append t hc s []
  rw [List.append_nil, h, ok_bind, if_pos ⟨rfl, hd⟩, List.append_nil] at happend
  rw [happend]
  exact parseBytes_time (SameButTime.refl d) u t rest

theorem SameButTime.symm {c d : HttpContext} (h : SameButTime c d) : SameButTime d c := by
  obtain ⟨t, rfl⟩ := h
  exact ⟨c.request.receiveTime, rfl⟩

theorem SameButTime.trans {c d e : HttpContext} (h : SameButTime c d) (h' : SameButTime d e) :
    SameButTime c e := by
  obtain ⟨t, rfl⟩ := h
  obtain ⟨u, rfl⟩ := h'
  exact ⟨u, rfl⟩

theorem SameButTime.gotAll_eq {c d : HttpContext} (h : SameButTime c d) : d.gotAll = c.gotAll := by
  obtain ⟨t, rfl⟩ := h
  rfl

/-- Feeding chunks to a context with nothing left to parse is parsing all of
them at once. The induction is on the chunks; what one call leaves is again
such a context. -/
theorem feedBytes_corresponds (t : TimeStamp) {c d : HttpContext} {s : Bytes} (hc : c.Live)
    (hcd : SameButTime c d)
    (hquiet : ∀ u, Corresponds SameOutcome (parseBytes u c s) (.ok (true, c, s)))
    (chunks : List (Bytes × TimeStamp)) :
    Corresponds SameOutcome (feedBytes c s chunks)
    (parseBytes t d (s ++ bytesOfChunks chunks)) := by
  induction chunks generalizing c d s with
  | nil =>
      have hnil : s ++ bytesOfChunks [] = s := List.append_nil s
      rw [hnil]
      refine (hquiet t).trans_ok (parseBytes_time hcd t t s) ?_
      rintro p q ⟨hok, hctx, hrest⟩ ⟨hok', hctx', hrest'⟩
      exact ⟨hok.symm.trans hok', hctx.symm.trans hctx', hrest.symm.trans hrest'⟩
  | cons chunk chunks ih =>
      obtain ⟨x, u⟩ := chunk
      rw [bytesOfChunks_cons, ← List.append_assoc, parseBytes_append t (hcd.live hc)]
      refine (parseBytes_time hcd u t (s ++ x)).bind_of_ok ?_
      rintro ⟨ok, c', rest⟩ ⟨ok', d', rest'⟩ hp ⟨hok, hsame, hrest⟩
      simp only at hok hsame hrest
      subst hok
      subst hrest
      simp only [hsame.gotAll_eq]
      split
      · rename_i hgo
        obtain ⟨rfl, hgot⟩ := hgo
        have hlive : c'.Live := by
          rcases parseBytes_state hc hp with hlive | ⟨hall, -⟩
          · exact hlive
          · rw [hall] at hgot
            cases hgot
        exact ih hlive hsame (parseBytes_quiescent hc hp hgot)
      · exact ⟨rfl, hsame, rfl⟩

/-- What the chunked parse of a buffer returned is what the chunked parse of
its content returns. -/
theorem parseChunks_ok {c : HttpContext} {b : Buffer} (hv : b.Valid)
    {chunks : List (Bytes × TimeStamp)}
    {p : Bool × HttpContext × Buffer × List (Bytes × TimeStamp)}
    (h : parseChunks c b chunks = .ok p) :
    feedBytes c b.readable chunks =
      .ok (p.1, p.2.1, p.2.2.1.readable ++ bytesOfChunks p.2.2.2) := by
  induction chunks generalizing c b with
  | nil =>
      cases h
      exact congrArg (fun rest => Except.ok (true, c, rest)) (List.append_nil _).symm
  | cons chunk chunks ih =>
      obtain ⟨x, u⟩ := chunk
      simp only [parseChunks, bind_eq_ok] at h
      obtain ⟨m, hm, ⟨ok, d, n⟩, hparse, h⟩ := h
      obtain ⟨hmv, hread⟩ := Buffer.append_ok hv hm
      have hholds := parseRequest_holds u c ⟨hmv, hread, Nat.le_refl _⟩
      rw [hparse] at hholds
      obtain ⟨⟨ok', d', rest⟩, hbytes, hok, hctx, hn⟩ := hholds.of_ok_left
      simp only at hok hctx hn
      subst hok hctx
      simp only [feedBytes, hbytes, ok_bind]
      split
      · rename_i hgo
        rw [if_pos hgo] at h
        rw [← hn.readable_eq]
        exact ih hn.valid h
      · rename_i hgo
        rw [if_neg hgo] at h
        cases h
        rw [hn.readable_eq]
        rfl

/-- The chunked parse of a buffer returns when that of its content does and
the appends have room. -/
theorem parseChunks_returns {c : HttpContext} {b : Buffer} {s : Bytes} {limit : Nat}
    (hb : Holds b s limit) {chunks : List (Bytes × TimeStamp)}
    (hint : (bytesOfChunks chunks).length ≤ intMax)
    (hmax : limit + (bytesOfChunks chunks).length ≤ maxSize)
    {q : Bool × HttpContext × Bytes} (h : feedBytes c s chunks = .ok q) :
    ∃ p, parseChunks c b chunks = .ok p := by
  induction chunks generalizing c b s limit with
  | nil => exact ⟨_, rfl⟩
  | cons chunk chunks ih =>
      obtain ⟨x, u⟩ := chunk
      rw [bytesOfChunks_cons, List.length_append] at hint hmax
      have hw := hb.writer_le
      obtain ⟨m, hm, hmv, hread, hmw⟩ :=
        Buffer.append_spec hb.valid (show x.length ≤ intMax by omega) (by omega)
      rw [hb.readable_eq] at hread
      have hmHolds : Holds m (s ++ x) (limit + x.length) := ⟨hmv, hread, by omega⟩
      have hholds := parseRequest_holds u c hmHolds
      simp only [feedBytes, bind_eq_ok] at h
      obtain ⟨⟨ok, d, rest⟩, hbytes, h⟩ := h
      rw [hbytes] at hholds
      obtain ⟨⟨ok', d', n⟩, hparse, hok, hctx, hn⟩ := hholds.of_ok_right
      simp only at hok hctx hn
      subst hok hctx
      simp only [parseChunks, hm, hparse, ok_bind]
      split
      · rename_i hgo
        rw [if_pos hgo] at h
        exact ih hn (by omega) (by omega) h
      · exact ⟨_, rfl⟩

/-- What one-shot and chunked parsing have in common: verdict, state, every
field of the request but the receive time, and the unconsumed bytes. -/
def SameResult (p : Bool × HttpContext × Buffer × List (Bytes × TimeStamp))
    (q : Bool × HttpContext × Buffer) : Prop :=
  p.1 = q.1 ∧ p.2.1.state = q.2.1.state ∧
    p.2.1.request.method = q.2.1.request.method ∧
    p.2.1.request.version = q.2.1.request.version ∧
    p.2.1.request.path = q.2.1.request.path ∧
    p.2.1.request.query = q.2.1.request.query ∧
    p.2.1.request.headers = q.2.1.request.headers ∧
    p.2.2.1.readable ++ bytesOfChunks p.2.2.2 = q.2.2.readable

theorem feedBytes_new (t : TimeStamp) (chunks : List (Bytes × TimeStamp)) :
    Corresponds SameOutcome (feedBytes new [] chunks)
    (parseBytes t new (bytesOfChunks chunks)) := by
  refine feedBytes_corresponds t new_ready.1 (SameButTime.refl new) (fun u => ?_) chunks
  rw [parseBytes_waiting u new_ready.1 rfl]
  exact ⟨rfl, SameButTime.refl new, rfl⟩

theorem parseOnce_ok {t : TimeStamp} {c : HttpContext} {b : Buffer} (hv : b.Valid) {s : Bytes}
    {q : Bool × HttpContext × Buffer} (h : parseOnce t c b s = .ok q) :
    parseBytes t c (b.readable ++ s) = .ok (q.1, q.2.1, q.2.2.readable) := by
  simp only [parseOnce, bind_eq_ok] at h
  obtain ⟨m, hm, h⟩ := h
  obtain ⟨hmv, hread⟩ := Buffer.append_ok hv hm
  have hholds := parseRequest_holds t c ⟨hmv, hread, Nat.le_refl _⟩
  rw [h] at hholds
  obtain ⟨⟨ok, d, rest⟩, hbytes, hok, hctx, hn⟩ := hholds.of_ok_left
  rw [hbytes, hok, hctx, hn.readable_eq]

theorem parseOnce_returns {t : TimeStamp} {c : HttpContext} (hc : c.Ready) {b : Buffer}
    (hv : b.Valid) {s : Bytes} (hint : s.length ≤ intMax)
    (hmax : b.writerIndex + s.length ≤ maxSize) : ∃ q, parseOnce t c b s = .ok q := by
  obtain ⟨m, hm, hmv, hread, -⟩ := Buffer.append_spec hv hint hmax
  have hholds := parseRequest_holds t c ⟨hmv, hread, Nat.le_refl _⟩
  obtain ⟨p, hp⟩ := parseBytes_returns hc t (b.readable ++ s)
  rw [hp] at hholds
  obtain ⟨q, hq, -⟩ := hholds.of_ok_right
  exact ⟨q, by simp only [parseOnce, hm, ok_bind, hq]⟩

/-- From a fresh context and an empty buffer, parsing after every chunk and
parsing everything at once agree whenever both return, and both return when
the appends have room. -/
theorem parseChunks_same_as_parseOnce {b : Buffer} (hv : b.Valid) (hempty : b.readable = [])
    (chunks : List (Bytes × TimeStamp)) (t : TimeStamp) :
    (∀ p q, parseChunks new b chunks = .ok p →
      parseOnce t new b (bytesOfChunks chunks) = .ok q → SameResult p q) ∧
    ((bytesOfChunks chunks).length ≤ intMax →
      b.writerIndex + (bytesOfChunks chunks).length ≤ maxSize →
      (∃ p, parseChunks new b chunks = .ok p) ∧
        ∃ q, parseOnce t new b (bytesOfChunks chunks) = .ok q) := by
  have hfeed := feedBytes_new t chunks
  constructor
  · intro p q hp hq
    have hp' := parseChunks_ok hv hp
    have hq' := parseOnce_ok hv hq
    rw [hempty] at hp'
    rw [hempty, List.nil_append] at hq'
    rw [hp', hq'] at hfeed
    obtain ⟨hok, ⟨u, hctx⟩, hrest⟩ := hfeed
    simp only at hctx
    rw [SameResult, hctx]
    exact ⟨hok, rfl, rfl, rfl, rfl, rfl, rfl, hrest⟩
  · intro hint hmax
    refine ⟨?_, parseOnce_returns new_ready hv hint hmax⟩
    obtain ⟨q, hq⟩ := parseBytes_returns new_ready t (bytesOfChunks chunks)
    rw [hq] at hfeed
    obtain ⟨p, hp, -⟩ := hfeed.of_ok_right
    exact parseChunks_returns ⟨hv, hempty, Nat.le_refl _⟩ hint hmax hp

/-- A request cut inside its line ends, with a byte of the next one behind it. -/
theorem parseChunks_same_as_parseOnce_cut_crlf :
    ∃ b p q, Buffer.new kInitialSize = .ok b ∧
      parseChunks new b [(bytesOf "GET / HTTP/1.1\r".toList, 1), (bytesOf "\n\r".toList, 2),
        (bytesOf "\nX".toList, 3)] = .ok p ∧
      parseOnce 4 new b (bytesOf "GET / HTTP/1.1\r\n\r\nX".toList) = .ok q ∧ SameResult p q := by
  obtain ⟨b, hnew, hv, hempty, hw⟩ :=
    Buffer.new_spec (show kCheapPrepend + kInitialSize ≤ maxSize by decide)
  obtain ⟨hsame, hret⟩ := parseChunks_same_as_parseOnce hv hempty
    [(bytesOf "GET / HTTP/1.1\r".toList, 1), (bytesOf "\n\r".toList, 2),
      (bytesOf "\nX".toList, 3)] 4
  obtain ⟨⟨p, hp⟩, q, hq⟩ := hret (by decide) (by rw [hw]; decide)
  exact ⟨b, p, q, hnew, hp, hq, hsame p q hp hq⟩

end HttpContext
end TAlib
