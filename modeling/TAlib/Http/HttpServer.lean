import TAlib.Http.HttpContext
import TAlib.Http.HttpResponse

/-!
The handlers of src/Http/HttpServer.cpp. What a handler asks of the connection it returns as a
list of calls, in their order; the connection itself is modelled elsewhere.
The user's callback is a parameter, given anew for each call of onMessage, so
that it may depend on anything but this connection.
-/

namespace TAlib

open Foundation

/-- A call made on the connection. -/
inductive ConnectionCall where
  | send (message : Bytes)
  | shutdown
  deriving DecidableEq, Repr

abbrev HttpCallback := HttpRequest → HttpResponse → HttpResponse

namespace HttpServer

def defaultHttpCallback : HttpCallback := fun _ resp =>
  ((resp.setStatusCode .k404NotFound).setStatusMessage
    (bytesOf "Not Found".toList)).setCloseConnection
    true

def badRequest : Bytes := bytesOf "HTTP/1.1 400 Bad Request\r\n\r\n".toList

/-- The flag that the response is created with. -/
def closeRequested (req : HttpRequest) : Bool :=
  let connection := req.getHeader (bytesOf "Connection".toList)
  connection = bytesOf "close".toList ||
    (req.version = .kHttp10 && connection ≠ bytesOf "Keep-Alive".toList)

def onRequest (httpCallback : HttpCallback) (req : HttpRequest) :
    Except Fault (List ConnectionCall) := do
  let response := httpCallback req (HttpResponse.new (closeRequested req))
  let buf ← Buffer.new kInitialSize
  let buf ← response.appendToBuffer buf
  return .send buf.readable :: if response.closeConnection then [.shutdown] else []

/-- The response that a callback gives to a request. -/
def respond (httpCallback : HttpCallback) (req : HttpRequest) : HttpResponse :=
  httpCallback req (HttpResponse.new (closeRequested req))

/-- A response that fits a buffer is sent as its text. -/
theorem onRequest_spec {httpCallback : HttpCallback} {req : HttpRequest}
    (h : (respond httpCallback req).text.length ≤ intMax) :
    onRequest httpCallback req = .ok (.send (respond httpCallback req).text ::
      if (respond httpCallback req).closeConnection then [.shutdown] else []) := by
  obtain ⟨b₀, hnew, hv, hempty, hw⟩ :=
    Buffer.new_spec (show kCheapPrepend + kInitialSize ≤ maxSize by decide)
  have hmax : b₀.writerIndex + (respond httpCallback req).text.length ≤ maxSize := by
    have : kCheapPrepend + intMax ≤ maxSize := by decide
    omega
  obtain ⟨b, hb, -, hread, -⟩ := HttpResponse.appendToBuffer_fills _ b₀ hv h hmax
  rw [hempty, List.nil_append] at hread
  unfold respond at hb hread
  simp only [onRequest, respond, hnew, ok_bind, hb, hread]
  rfl

theorem defaultResponse_fits (req : HttpRequest) :
    (respond defaultHttpCallback req).text.length ≤ intMax := by
  have hconst : respond defaultHttpCallback req = respond defaultHttpCallback .new := rfl
  rw [hconst]
  decide

/-- What a call of onMessage leaves behind: the context, the input buffer, the
calls on the connection and the request handed to onRequest, if any. -/
structure Handled where
  context : HttpContext
  input : Buffer
  calls : List ConnectionCall
  dispatched : Option HttpRequest

def onMessage (httpCallback : HttpCallback) (context : HttpContext) (buf : Buffer)
    (receiveTime : TimeStamp) : Except Fault Handled := do
  let (ok, context, buf) ← context.parseRequest receiveTime buf
  let refusal := if ok then [] else [.send badRequest, .shutdown]
  if context.gotAll then do
    let calls ← onRequest httpCallback context.request
    return ⟨context.reset, buf, refusal ++ calls, some context.request⟩
  else return ⟨context, buf, refusal, none⟩

end HttpServer
end TAlib
