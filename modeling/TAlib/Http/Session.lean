import TAlib.Common.BufferFaults
import TAlib.Http.Chunks
import TAlib.Http.HttpServer

/-!
The messages of one connection. Each arrival puts some bytes into the input
buffer and calls onMessage; a session records the requests handed to onRequest
and the calls made on the connection. How the bytes get into the buffer is a
parameter: any operation that adds exactly these bytes to the content will do,
append and readFd among them.
-/

namespace TAlib

open Foundation

/-- An operation that brings a chunk into the input buffer. -/
structure Delivery where
  into : Buffer → Bytes → Except Fault Buffer
  into_ok : ∀ {b b' : Buffer} {chunk : Bytes}, b.Valid → into b chunk = .ok b' →
    b'.Valid ∧ b'.readable = b.readable ++ chunk
  into_fault : ∀ {b : Buffer} {chunk : Bytes}, into b chunk ≠ .error (.assertion .setMethodInvalid)

namespace Delivery

/-- The bytes are appended. -/
def append : Delivery where
  into b chunk := b.append chunk
  into_ok := fun hv h => Buffer.append_ok hv h
  into_fault := Buffer.append_avoids rfl _ _

/-- One call of readFd brings them all; more than it can take it cannot bring. -/
def readFd : Delivery where
  into b chunk :=
    if chunk.length ≤ b.readvCapacity then b.readFd (.data chunk) else .error .outOfBounds
  into_ok := by
    intro b b' chunk hv h
    split at h
    · rename_i hcap
      obtain ⟨hv', hread⟩ := Buffer.readFd_ok hv h
      exact ⟨hv', by rw [hread, Buffer.delivered, List.take_of_length_le hcap]⟩
    · cases h
  into_fault :=
    Avoids.ite (fun _ => Buffer.readFd_avoids rfl _ _) fun _ => .error nofun

end Delivery

/-- A call of onMessage: the bytes that came with it, its receive time, and
the user's callback as it behaves in this call. -/
structure Arrival where
  bytes : Bytes
  receiveTime : TimeStamp
  httpCallback : HttpCallback

structure Session where
  context : HttpContext
  input : Buffer
  calls : List ConnectionCall
  dispatched : List HttpRequest

namespace Session

/-- onConnection gives the connection a new context. -/
def start (input : Buffer) : Session := ⟨.new, input, [], []⟩

def receive (d : Delivery) (s : Session) (a : Arrival) : Except Fault Session := do
  let buf ← d.into s.input a.bytes
  let h ← HttpServer.onMessage a.httpCallback s.context buf a.receiveTime
  return ⟨h.context, h.input, s.calls ++ h.calls, s.dispatched ++ h.dispatched.toList⟩

theorem receive_ok {d : Delivery} {s s' : Session} {a : Arrival} (hv : s.input.Valid)
    (h : receive d s a = .ok s') :
    ∃ ok c, HttpContext.parseBytes a.receiveTime s.context (s.input.readable ++ a.bytes) =
        .ok (ok, c, s'.input.readable) ∧ s'.input.Valid ∧
      ((c.gotAll = true ∧ s'.context = .new ∧ s'.dispatched = s.dispatched ++ [c.request]) ∨
        (c.gotAll = false ∧ s'.context = c ∧ s'.dispatched = s.dispatched)) := by
  simp only [receive, HttpServer.onMessage, bind_eq_ok] at h
  obtain ⟨b, hb, r, ⟨⟨ok, c, b'⟩, hparse, hr⟩, h⟩ := h
  obtain ⟨hbv, hread⟩ := d.into_ok hv hb
  have hholds := HttpContext.parseRequest_holds a.receiveTime s.context ⟨hbv, hread, Nat.le_refl _⟩
  rw [hparse] at hholds
  obtain ⟨⟨ok', c', rest⟩, hbytes, hok, hctx, hrest⟩ := hholds.of_ok_left
  simp only at hok hctx hrest
  subst hok hctx
  cases h
  rw [hbytes]
  split at hr
  · rename_i hgot
    obtain ⟨calls, -, hr⟩ := bind_eq_ok.mp hr
    cases hr
    exact ⟨ok, c, by rw [hrest.readable_eq], hrest.valid, .inl ⟨hgot, rfl, rfl⟩⟩
  · rename_i hgot
    cases hr
    refine ⟨ok, c, by rw [hrest.readable_eq], hrest.valid, .inr ⟨?_, rfl, List.append_nil _⟩⟩
    simpa using hgot

/-- A message is handled when its bytes have room, they parse, and the
response to a complete request fits its buffer. -/
theorem receive_returns {d : Delivery} {s : Session} {a : Arrival} {b : Buffer} (hv : s.input.Valid)
    (hb : d.into s.input a.bytes = .ok b) {p : Bool × HttpContext × Bytes}
    (hparse : HttpContext.parseBytes a.receiveTime s.context (s.input.readable ++ a.bytes) = .ok p)
    (hfits : ∀ req, (HttpServer.respond a.httpCallback req).text.length ≤ intMax) :
    ∃ s', receive d s a = .ok s' ∧ s'.input.writerIndex ≤ b.writerIndex := by
  obtain ⟨hbv, hread⟩ := d.into_ok hv hb
  have hholds := HttpContext.parseRequest_holds a.receiveTime s.context ⟨hbv, hread, Nat.le_refl _⟩
  rw [hparse] at hholds
  obtain ⟨⟨ok, c, b'⟩, hreq, -, -, hrest⟩ := hholds.of_ok_right
  simp only [receive, HttpServer.onMessage, hb, hreq, ok_bind]
  split
  · simp only [HttpServer.onRequest_spec (hfits c.request), ok_bind]
    exact ⟨_, rfl, hrest.writer_le⟩
  · exact ⟨_, rfl, hrest.writer_le⟩

end Session
end TAlib
