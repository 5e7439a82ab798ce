import TAlib.Foundation.MachineInt
import TAlib.Foundation.ByteSearch
import TAlib.Common.Outcome

/-!
The network buffer of src/common/Buffer.h and Buffer.cpp: a vector of bytes
with a reader and a writer index. Positions are offsets from begin(), sizes
have the width of size_t, and makeSpace takes its argument through an int, as
the source declares it. The vector keeps its stale bytes: only the range
between the two indices is content.
-/

namespace TAlib

open Foundation

def kCheapPrepend : Nat := 8

def kInitialSize : Nat := 4096

/-- The size of the stack buffer that readFd falls back to. -/
def kExtraBufferSize : Nat := 10240

/-- std::vector<char>::max_size() of the 64-bit standard library. -/
def maxSize : Nat := 2 ^ 63 - 1

def kCRLF : Bytes := [13, 10]

structure Buffer where
  buffer : Bytes
  readerIndex : Nat
  writerIndex : Nat
  deriving DecidableEq, Repr

/-- What a readv call gives: the bytes it delivers (none at end of file), or
a negative count with its errno. -/
inductive ReadResult where
  | data (bytes : Bytes)
  | error (errno : Nat)
  deriving DecidableEq, Repr

/-- std::copy into the vector from position `pos` on. -/
def overwrite (mem : Bytes) (pos : Nat) (bytes : Bytes) : Except Fault Bytes :=
  if pos + bytes.length ≤ mem.length then
    .ok (mem.take pos ++ bytes ++ mem.drop (pos + bytes.length))
  else .error .outOfBounds

namespace Buffer

def readableBytes (b : Buffer) : Nat := sizeSub b.writerIndex b.readerIndex

def writableBytes (b : Buffer) : Nat := sizeSub b.buffer.length b.writerIndex

def prependableBytes (b : Buffer) : Nat := b.readerIndex

/-- The content: the range from peek() to beginWrite(). -/
def readable (b : Buffer) : Bytes := slice b.buffer b.readerIndex b.writerIndex

/-- The constructor with its three asserts. -/
def new (initialSize : Nat) : Except Fault Buffer := do
  if maxSize < sizeAdd kCheapPrepend initialSize then .error .lengthError
  else
    let b : Buffer :=
      ⟨List.replicate (sizeAdd kCheapPrepend initialSize) 0, kCheapPrepend, kCheapPrepend⟩
    require (b.readableBytes = 0) .bufferCtor
    require (b.writableBytes = initialSize) .bufferCtor
    require (b.prependableBytes = kCheapPrepend) .bufferCtor
    return b

def hasWritten (b : Buffer) (len : Nat) : Except Fault Buffer := do
  require (len ≤ b.writableBytes) .hasWrittenLen
  return { b with writerIndex := sizeAdd b.writerIndex len }

/-- The offset of the first CRLF of the content, none for NULL. -/
def findCRLF (b : Buffer) : Option Nat :=
  (search kCRLF b.readable).map (b.readerIndex + ·)

def unwrite (b : Buffer) (len : Nat) : Except Fault Buffer := do
  require (len ≤ b.readableBytes) .unwriteLen
  return { b with writerIndex := sizeSub b.writerIndex len }

def retrieveAll (b : Buffer) : Buffer :=
  { b with readerIndex := kCheapPrepend, writerIndex := kCheapPrepend }

def retrieve (b : Buffer) (len : Nat) : Except Fault Buffer := do
  require (len ≤ b.readableBytes) .retrieveLen
  if len < b.readableBytes then
    return { b with readerIndex := sizeAdd b.readerIndex len }
  else
    return b.retrieveAll

def retrieveUntil (b : Buffer) (stop : Nat) : Except Fault Buffer := do
  require (b.readerIndex ≤ stop) .retrieveUntilPeek
  require (stop ≤ b.writerIndex) .retrieveUntilEnd
  b.retrieve (stop - b.readerIndex)

def retrieveAsString (b : Buffer) (len : Nat) : Except Fault (Bytes × Buffer) := do
  require (len ≤ b.readableBytes) .retrieveAsStringLen
  let result := slice b.buffer b.readerIndex (b.readerIndex + len)
  let b ← b.retrieve len
  return (result, b)

/-- std::vector::resize: truncates, or pads with zero bytes. -/
def resize (b : Buffer) (n : Nat) : Except Fault Buffer :=
  if n ≤ maxSize then
    .ok { b with buffer := b.buffer.take n ++ List.replicate (n - b.buffer.length) 0 }
  else .error .lengthError

def makeSpace (b : Buffer) (len : Int) : Except Fault Buffer := do
  if sizeAdd b.writableBytes b.prependableBytes < sizeAdd (ofInt len) kCheapPrepend then
    b.resize (sizeAdd b.writerIndex (ofInt len))
  else
    -- move readable data to the front, make space inside buffer
    require (kCheapPrepend < b.readerIndex) .makeSpaceReader
    let readable := b.readableBytes
    let mem ← overwrite b.buffer kCheapPrepend (slice b.buffer b.readerIndex b.writerIndex)
    let b' : Buffer := ⟨mem, kCheapPrepend, sizeAdd kCheapPrepend readable⟩
    require (readable = b'.readableBytes) .makeSpaceReadable
    return b'

/-- The first statement of append: the length goes through makeSpace's int. -/
def ensureWritable (b : Buffer) (len : Nat) : Except Fault Buffer :=
  if b.writableBytes < len then b.makeSpace (toInt len) else .ok b

def append (b : Buffer) (data : Bytes) : Except Fault Buffer := do
  let b ← b.ensureWritable data.length
  require (data.length ≤ b.writableBytes) .appendWritable
  let mem ← overwrite b.buffer b.writerIndex data
  hasWritten { b with buffer := mem } data.length

/-- How many bytes the iovecs of readFd can take. -/
def readvCapacity (b : Buffer) : Nat :=
  if b.writableBytes < kExtraBufferSize then b.writableBytes + kExtraBufferSize
  else b.writableBytes

/-- The bytes a readv call brings: never more than the iovecs can take, and
none when it fails. -/
def delivered (b : Buffer) : ReadResult → Bytes
  | .data bytes => bytes.take b.readvCapacity
  | .error _ => []

/-- The kernel fills the writable area first and the extra buffer after it. -/
def readFd (b : Buffer) : ReadResult → Except Fault Buffer
  | .error _ => .ok b
  | .data bytes => do
    let delivered := b.delivered (.data bytes)
    let writable := b.writableBytes
    let mem ← overwrite b.buffer b.writerIndex (delivered.take writable)
    let b := { b with buffer := mem }
    if delivered.length ≤ writable then
      return { b with writerIndex := sizeAdd b.writerIndex delivered.length }
    else
      append { b with writerIndex := b.buffer.length } (delivered.drop writable)

/-- The iovecs can always take a byte, so a read of no bytes is the end of the
input. -/
theorem delivered_eq_nil {b : Buffer} {bytes : Bytes} :
    b.delivered (.data bytes) = [] ↔ bytes = [] := by
  have hcap : b.readvCapacity ≠ 0 := by
    have hextra : 0 < kExtraBufferSize := by decide
    simp only [readvCapacity]
    split
    · omega
    · omega
  simp only [delivered, List.take_eq_nil_iff, hcap, false_or]

end Buffer
end TAlib
