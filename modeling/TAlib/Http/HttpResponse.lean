import TAlib.Common.BufferRefinement
import TAlib.Http.HttpRequest

/-!
The response of src/Http/HttpResponse.h and HttpResponse.cpp. appendToBuffer is
a sequence of appends; `appendToBuffer_fills` says what text they add up to.
-/

namespace TAlib

open Foundation

inductive HttpStatusCode where
  | kUnknown
  | k200Ok
  | k301MovedPermanently
  | k400BadRequest
  | k404NotFound
  deriving DecidableEq, Repr

/-- The value of the enumerator. -/
def HttpStatusCode.value : HttpStatusCode → Nat
  | .kUnknown => 0
  | .k200Ok => 200
  | .k301MovedPermanently => 301
  | .k400BadRequest => 400
  | .k404NotFound => 404

structure HttpResponse where
  headers : OrderedMap Bytes Bytes
  statusCode : HttpStatusCode
  statusMessage : Bytes
  closeConnection : Bool
  body : Bytes
  deriving DecidableEq

namespace HttpResponse

def new (close : Bool) : HttpResponse := ⟨.empty, .kUnknown, [], close, []⟩

def setStatusCode (r : HttpResponse) (code : HttpStatusCode) : HttpResponse :=
  { r with statusCode := code }

def setStatusMessage (r : HttpResponse) (message : Bytes) : HttpResponse :=
  { r with statusMessage := message }

def setCloseConnection (r : HttpResponse) (on : Bool) : HttpResponse :=
  { r with closeConnection := on }

/-- `headers_[key] = value` -/
def addHeader (r : HttpResponse) (key value : Bytes) : HttpResponse :=
  { r with headers := r.headers.insert key value }

def setContentType (r : HttpResponse) (contentType : Bytes) : HttpResponse :=
  r.addHeader (bytesOf "Content-Type".toList) contentType

def setBody (r : HttpResponse) (body : Bytes) : HttpResponse := { r with body := body }

/-- The decimal digits that snprintf writes. -/
def decimal (n : Nat) : Bytes := bytesOf (Nat.toDigits 10 n)

/-- The string in the 32 byte array after snprintf. -/
def snprintf (text : Bytes) : Bytes := text.take 31

def appendHeaders : List (Bytes × Bytes) → Buffer → Except Fault Buffer
  | [], output => .ok output
  | (field, value) :: headers, output => do
      let output ← output.append field
      let output ← output.append (bytesOf [':', ' '])
      let output ← output.append value
      let output ← output.append kCRLF
      appendHeaders headers output

/-- The lines that say whether the connection stays open. -/
def appendConnection (r : HttpResponse) (output : Buffer) : Except Fault Buffer :=
  if r.closeConnection then output.append (bytesOf "Connection: close\r\n".toList)
  else do
    let output ← output.append
      (snprintf (bytesOf "Content-Length: ".toList ++ decimal r.body.length ++ kCRLF))
    output.append (bytesOf "Connection: Keep-Alive\r\n".toList)

def appendToBuffer (r : HttpResponse) (output : Buffer) : Except Fault Buffer := do
  let output ← output.append
    (snprintf (bytesOf "HTTP/1.1 ".toList ++ decimal r.statusCode.value ++ [32]))
  let output ← output.append r.statusMessage
  let output ← output.append kCRLF
  let output ← r.appendConnection output
  let output ← appendHeaders r.headers.entries output
  let output ← output.append kCRLF
  output.append r.body

/-- The text of the header map, in the order of the map. -/
def headersText (headers : List (Bytes × Bytes)) : Bytes :=
  headers.flatMap fun h => h.1 ++ bytesOf [':', ' '] ++ h.2 ++ kCRLF

def connectionText (r : HttpResponse) : Bytes :=
  if r.closeConnection then bytesOf "Connection: close\r\n".toList
  else snprintf (bytesOf "Content-Length: ".toList ++ decimal r.body.length ++ kCRLF) ++
    bytesOf "Connection: Keep-Alive\r\n".toList

/-- The response as it goes over the wire. -/
def text (r : HttpResponse) : Bytes :=
  snprintf (bytesOf "HTTP/1.1 ".toList ++ decimal r.statusCode.value ++ [32]) ++ r.statusMessage ++
    kCRLF ++ r.connectionText ++ headersText r.headers.entries ++ kCRLF ++ r.body

/-- The computation fills a buffer with further bytes, of which there are
fewer than the limits allow. -/
def Fills (fill : Buffer → Except Fault Buffer) (data : Bytes) : Prop :=
  ∀ b : Buffer, b.Valid → data.length ≤ intMax → b.writerIndex + data.length ≤ maxSize →
    ∃ b', fill b = .ok b' ∧ b'.Valid ∧ b'.readable = b.readable ++ data ∧
      b'.writerIndex ≤ b.writerIndex + data.length

theorem fills_append (data : Bytes) : Fills (fun b => b.append data) data :=
  fun _ hv hint hmax => Buffer.append_spec hv hint hmax

theorem Fills.bind {f g : Buffer → Except Fault Buffer} {x y : Bytes} (hf : Fills f x)
    (hg : Fills g y) : Fills (fun b => f b >>= g) (x ++ y) := by
  intro b hv hint hmax
  rw [List.length_append] at hint hmax
  obtain ⟨m, hm, hmv, hmr, hmw⟩ := hf b hv (by omega) (by omega)
  obtain ⟨b', hb', hv', hr', hw'⟩ := hg m hmv (by omega) (by omega)
  refine ⟨b', by simp only [hm, ok_bind, hb'], hv', ?_, ?_⟩
  · rw [hr', hmr, List.append_assoc]
  · rw [List.length_append]
    omega

theorem appendHeaders_fills (headers : List (Bytes × Bytes)) :
    Fills (appendHeaders headers) (headersText headers) := by
  induction headers with
  | nil =>
      intro b hv _ _
      exact ⟨b, rfl, hv, (List.append_nil _).symm, Nat.le_add_right _ _⟩
  | cons h headers ih =>
      obtain ⟨field, value⟩ := h
      have htext : headersText ((field, value) :: headers) =
          field ++ (bytesOf [':', ' '] ++ (value ++ (kCRLF ++ headersText headers))) := by
        simp [headersText]
      rw [htext]
      exact (fills_append field).bind ((fills_append _).bind ((fills_append value).bind
        ((fills_append kCRLF).bind ih)))

theorem appendConnection_fills (r : HttpResponse) :
    Fills r.appendConnection r.connectionText := by
  unfold connectionText
  intro b
  unfold appendConnection
  split
  · exact fills_append _ b
  · exact (fills_append _).bind (fills_append _) b

/-- appendToBuffer adds the text of the response to the buffer. -/
theorem appendToBuffer_fills (r : HttpResponse) : Fills r.appendToBuffer r.text := by
  have htext : r.text =
      snprintf (bytesOf "HTTP/1.1 ".toList ++ decimal r.statusCode.value ++ [32]) ++
        (r.statusMessage ++ (kCRLF ++ (r.connectionText ++ (headersText r.headers.entries ++
          (kCRLF ++ r.body))))) := by
    simp [text]
  rw [htext]
  exact (fills_append _).bind ((fills_append _).bind ((fills_append _).bind
    ((appendConnection_fills r).bind ((appendHeaders_fills _).bind
      ((fills_append _).bind (fills_append _))))))

end HttpResponse

end TAlib
