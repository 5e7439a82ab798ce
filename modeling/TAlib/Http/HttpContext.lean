import TAlib.Common.BufferRefinement
import TAlib.Http.HttpRequest

/-!
The request parser of src/Http/HttpContext.h and HttpContext.cpp, over the
buffer of src/common. One iteration of the while loop of parseRequest is
`parseIteration`; the loop is bounded by the number of readable bytes, and a
loop that is still running then has reached a state in which no branch can
stop it, which is the fault `spins`.
-/

namespace TAlib

open Foundation

inductive HttpRequestParseState where
  | kExpectRequestLine
  | kExpectHeaders
  | kExpectBody
  | kGotAll
  deriving DecidableEq, Repr

structure HttpContext where
  state : HttpRequestParseState
  request : HttpRequest
  deriving DecidableEq

namespace HttpContext

def new : HttpContext := ⟨.kExpectRequestLine, .new⟩

def gotAll (c : HttpContext) : Bool := c.state = .kGotAll

/-- The state returns to the request line and the request is swapped with a
fresh one. -/
def reset (_ : HttpContext) : HttpContext := ⟨.kExpectRequestLine, .new⟩

/-- The tail of processRequestLine: the eight characters of the version. -/
def processVersion (r : HttpRequest) (mem : Bytes) (start stop : Nat) : Bool × HttpRequest :=
  if stop - start = 8 ∧
    slice mem start (stop - 1) = bytesOf ['H', 'T', 'T', 'P', '/', '1', '.'] then
    if mem.getD (stop - 1) 0 = 49 then (true, r.setVersion .kHttp11)
    else if mem.getD (stop - 1) 0 = 48 then (true, r.setVersion .kHttp10)
    else (false, r)
  else (false, r)

/-- The middle of processRequestLine: path and query up to the next blank. -/
def processTarget (r : HttpRequest) (mem : Bytes) (start stop : Nat) : Bool × HttpRequest :=
  let space := find mem start stop 32
  if space ≠ stop then
    let question := find mem start space 63
    let r :=
      if question ≠ space then (r.setPath mem start question).setQuery mem question space
      else r.setPath mem start space
    processVersion r mem (space + 1) stop
  else (false, r)

def processRequestLine (r : HttpRequest) (mem : Bytes) (start stop : Nat) :
    Except Fault (Bool × HttpRequest) :=
  let space := find mem start stop 32
  if space ≠ stop then do
    let (known, r) ← r.setMethod mem start space
    if known then return processTarget r mem (space + 1) stop else return (false, r)
  else .ok (false, r)

/-- What one iteration of the while loop leaves behind. -/
structure Iteration (β : Type) where
  ok : Bool
  hasMore : Bool
  context : HttpContext
  rest : β
  deriving DecidableEq

def parseIteration (receiveTime : TimeStamp) (c : HttpContext) (buf : Buffer) :
    Except Fault (Iteration Buffer) :=
  match c.state with
  | .kExpectRequestLine =>
      match buf.findCRLF with
      | some crlf => do
          let (ok, r) ← processRequestLine c.request buf.buffer buf.readerIndex crlf
          if ok then do
            let buf ← buf.retrieveUntil (crlf + 2)
            return ⟨true, true, ⟨.kExpectHeaders, r.setReceiveTime receiveTime⟩, buf⟩
          else return ⟨false, false, ⟨c.state, r⟩, buf⟩
      | none => .ok ⟨true, false, c, buf⟩
  | .kExpectHeaders =>
      match buf.findCRLF with
      | some crlf =>
          let colon := find buf.buffer buf.readerIndex crlf 58
          if colon ≠ crlf then do
            let r := c.request.addHeader buf.buffer buf.readerIndex colon crlf
            let buf ← buf.retrieveUntil (crlf + 2)
            return ⟨true, true, ⟨c.state, r⟩, buf⟩
          else do
            -- empty line, end of header
            let buf ← buf.retrieveUntil (crlf + 2)
            return ⟨true, false, ⟨.kGotAll, c.request⟩, buf⟩
      | none => .ok ⟨true, false, c, buf⟩
  -- no branch of the source touches hasMore in the other two states
  | .kExpectBody | .kGotAll => .ok ⟨true, true, c, buf⟩

/-- The while loop, for at most `fuel` iterations. -/
def parseLoop (receiveTime : TimeStamp) : Nat → HttpContext → Buffer →
    Except Fault (Bool × HttpContext × Buffer)
  | 0, _, _ => .error .spins
  | fuel + 1, c, buf => do
      let i ← parseIteration receiveTime c buf
      if i.hasMore then parseLoop receiveTime fuel i.context i.rest
      else return (i.ok, i.context, i.rest)

def parseRequest (receiveTime : TimeStamp) (c : HttpContext) (buf : Buffer) :
    Except Fault (Bool × HttpContext × Buffer) :=
  parseLoop receiveTime (buf.readableBytes + 1) c buf

end HttpContext
end TAlib
