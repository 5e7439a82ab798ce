import TAlib.Http.MethodAssert

/-!
The while loop of parseRequest over the messages of a connection. Two of its
four states have no branch that stops it; a call is shown to start in one of the
other two, whatever came before, and each iteration that is followed by another
takes a line out of the buffer.
-/

namespace TAlib

open Foundation

namespace HttpContext

/-- The loop reaches a further iteration with this context and this buffer. -/
inductive Reaches (t : TimeStamp) (c : HttpContext) (b : Buffer) : HttpContext → Buffer → Prop
  | start : Reaches t c b c b
  | again {c' : HttpContext} {b' : Buffer} {i : Iteration Buffer} : Reaches t c b c' b' →
      parseIteration t c' b' = .ok i → i.hasMore = true → Reaches t c b i.context i.rest

/-- A call that starts where the loop can stop, that stops, and that takes two bytes
or more for each further iteration. More fuel than the model gives it makes no
difference. -/
structure Stops (t : TimeStamp) (c : HttpContext) (b : Buffer) : Prop where
  starts : c.state = .kExpectRequestLine ∨ c.state = .kExpectHeaders
  terminates : parseRequest t c b ≠ .error .spins
  fuel_unused : ∀ fuel, b.readableBytes < fuel → parseLoop t fuel c b = parseRequest t c b
  consumes : ∀ c' b' i, Reaches t c b c' b' → parseIteration t c' b' = .ok i → i.hasMore = true →
    i.rest.readableBytes + 2 ≤ b'.readableBytes

theorem processRequestLine_avoids_spins (r : HttpRequest) (mem : Bytes) (start stop : Nat) :
    Avoids .spins (processRequestLine r mem start stop) := by
  refine Avoids.ite (fun _ => ?_) fun _ => .ok _ _
  refine Avoids.bind ?_ fun p _ => Avoids.ite (fun _ => .ok _ _) fun _ => .ok _ _
  have hsite : Fault.assertion .setMethodInvalid ≠ .spins := nofun
  exact (require_avoids hsite).bind fun _ _ => .ok _ _

theorem iterationBytes_avoids_spins (t : TimeStamp) (c : HttpContext) (s : Bytes) :
    Avoids .spins (iterationBytes t c s) := by
  unfold iterationBytes
  cases c.state with
  | kExpectRequestLine =>
      cases search kCRLF s with
      | none => exact .ok _ _
      | some i =>
          refine (processRequestLine_avoids_spins c.request _ _ _).bind fun p _ => ?_
          exact Avoids.ite (fun _ => .ok _ _) fun _ => .ok _ _
  | kExpectHeaders =>
      cases search kCRLF s with
      | none => exact .ok _ _
      | some i => exact Avoids.ite (fun _ => .ok _ _) fun _ => .ok _ _
  | kExpectBody | kGotAll => exact .ok _ _

theorem parseBytes_avoids_spins (t : TimeStamp) {c : HttpContext} (hc : c.Live) (s : Bytes) :
    Avoids .spins (parseBytes t c s) := by
  refine parseBytes_induction (t := t)
    (motive := fun c s => Avoids .spins (parseBytes t c s)) ?_ hc s
  intro c s hlive ih
  rw [parseBytes_step t hlive]
  refine (iterationBytes_avoids_spins t c s).bind fun i hi => ?_
  refine Avoids.ite (fun hmore => ?_) fun _ => .ok _ _
  exact ih i hi hmore (iterationBytes_more hlive hi hmore).1

/-- A buffer stands for its content. -/
theorem parseIteration_more {t : TimeStamp} {c : HttpContext} {b : Buffer} {i : Iteration Buffer}
    (hc : c.Live) (hv : b.Valid) (h : parseIteration t c b = .ok i) (hmore : i.hasMore = true) :
    i.context.Live ∧ i.rest.Valid ∧ i.rest.readableBytes + 2 ≤ b.readableBytes := by
  have hholds := parseIteration_holds t c ⟨hv, rfl, Nat.le_refl _⟩
  rw [h] at hholds
  obtain ⟨j, hj, -, hmore', hctx, hrest⟩ := hholds.of_ok_left
  obtain ⟨hlive, hlen⟩ := iterationBytes_more hc hj (hmore' ▸ hmore)
  rw [← hrest.readable_eq, hrest.valid.readable_length, hv.readable_length] at hlen
  exact ⟨hctx ▸ hlive, hrest.valid, hlen⟩

theorem reaches_live {t : TimeStamp} {c c' : HttpContext} {b b' : Buffer} (hc : c.Live)
    (hv : b.Valid) (h : Reaches t c b c' b') : c'.Live ∧ b'.Valid := by
  induction h with
  | start => exact ⟨hc, hv⟩
  | again _ hi hmore ih =>
      obtain ⟨hlive, hvalid, -⟩ := parseIteration_more ih.1 ih.2 hi hmore
      exact ⟨hlive, hvalid⟩

theorem parseLoop_fuel (t : TimeStamp) {c : HttpContext} {b : Buffer} (hc : c.Live) (hv : b.Valid)
    {n m : Nat} (hn : b.readableBytes < n) (hm : b.readableBytes < m) :
    parseLoop t n c b = parseLoop t m c b := by
  induction n generalizing c b m with
  | zero => omega
  | succ n ih =>
      cases m with
      | zero => omega
      | succ m =>
          refine bind_congr_ok fun i hi => ?_
          split
          · rename_i hmore
            obtain ⟨hlive, hvalid, hlen⟩ := parseIteration_more hc hv hi hmore
            exact ih hlive hvalid (by omega) (by omega)
          · rfl

/-- In a live state the loop stops. -/
theorem stops_of_live (t : TimeStamp) {c : HttpContext} {b : Buffer} (hc : c.Live) (hv : b.Valid) :
    Stops t c b := by
  refine ⟨hc, fun hspins => ?_, fun fuel hfuel => ?_, fun c' b' i hreach hi hmore => ?_⟩
  · have hholds := parseRequest_holds t c ⟨hv, rfl, Nat.le_refl _⟩
    have havoids := parseBytes_avoids_spins t hc b.readable
    rw [hspins] at hholds
    cases hparse : parseBytes t c b.readable with
    | ok p =>
        rw [hparse] at hholds
        exact hholds.elim
    | error e =>
        rw [hparse] at hholds
        obtain rfl : _ = e := hholds
        exact havoids hparse
  · exact parseLoop_fuel t hc hv hfuel (Nat.lt_succ_self _)
  · obtain ⟨hlive, hvalid⟩ := reaches_live hc hv hreach
    exact (parseIteration_more hlive hvalid hi hmore).2.2

end HttpContext

namespace Session

/-- Every message that is handled leaves the context where the loop can stop: a
complete request is the only other end of a parse, and it resets the context. -/
theorem receive_live {d : Delivery} {s s' : Session} {a : Arrival}
    (hs : s.context.Live ∧ s.input.Valid) (h : receive d s a = .ok s') :
    s'.context.Live ∧ s'.input.Valid := by
  obtain ⟨ok, c, hparse, hvalid, ⟨-, hnew, -⟩ | ⟨hgot, hctx, -⟩⟩ := receive_ok hs.2 h
  · rw [hnew]
    exact ⟨.inl rfl, hvalid⟩
  · rw [hctx]
    rcases HttpContext.parseBytes_state hs.1 hparse with hlive | ⟨hgot', -⟩
    · exact ⟨hlive, hvalid⟩
    · rw [hgot] at hgot'
      cases hgot'

/-- The loop does not spin in any call of parseRequest on a connection. -/
theorem parseRequest_stops {b : Buffer} (hv : b.Valid) (d : Delivery) {arrivals : List Arrival}
    {s : Session} (hrun : run (receive d) (start b) arrivals = .ok s) (next : Arrival)
    {buf : Buffer} (hbuf : d.into s.input next.bytes = .ok buf) :
    HttpContext.Stops next.receiveTime s.context buf := by
  obtain ⟨hlive, hvalid⟩ := run_invariant_of_step (I := fun s => s.context.Live ∧ s.input.Valid)
    (fun _ _ _ hs ht => receive_live hs ht) ⟨.inl rfl, hv⟩ hrun
  exact HttpContext.stops_of_live next.receiveTime hlive (d.into_ok hvalid hbuf).1

/-- The second half of a line comes after the first. -/
theorem parseRequest_stops_split_line :
    let halves : List Bytes := [bytesOf "GE".toList, bytesOf "T / HTTP/1.1\r\n".toList]
    ∃ b s buf, Buffer.new kInitialSize = .ok b ∧
      run (receive .append) (start b) [⟨halves.getD 0 [], 0, HttpServer.defaultHttpCallback⟩] =
        .ok s ∧
      s.input.append (halves.getD 1 []) = .ok buf ∧ HttpContext.Stops 0 s.context buf := by
  intro halves
  obtain ⟨b, hnew, hv, -, hw⟩ :=
    Buffer.new_spec (show kCheapPrepend + kInitialSize ≤ maxSize by decide)
  obtain ⟨s, hs, hsw⟩ := (start_sound hv).receive_returns
    (a := ⟨halves.getD 0 [], 0, HttpServer.defaultHttpCallback⟩)
    (show (halves.getD 0 []).length ≤ intMax by decide) (by rw [start, hw]; decide)
    HttpServer.defaultResponse_fits
  have hroom : s.input.writerIndex + (halves.getD 1 []).length ≤ maxSize := by
    have hshort : b.writerIndex + (halves.getD 0 []).length +
        (halves.getD 1 []).length ≤ maxSize := by
      rw [hw]
      decide
    exact Nat.le_trans (Nat.add_le_add_right hsw _) hshort
  obtain ⟨buf, hbuf, -⟩ := Buffer.append_spec (receive_live ⟨.inl rfl, hv⟩ hs).2
    (show (halves.getD 1 []).length ≤ intMax by decide) hroom
  have hrun : run (receive .append) (start b)
      [⟨halves.getD 0 [], 0, HttpServer.defaultHttpCallback⟩] = .ok s :=
    run_cons_ok.mpr ⟨s, hs, rfl⟩
  exact ⟨b, s, buf, hnew, hrun, hbuf,
    parseRequest_stops hv .append hrun ⟨halves.getD 1 [], 0, HttpServer.defaultHttpCallback⟩ hbuf⟩

end Session
end TAlib
