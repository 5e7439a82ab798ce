import TAlib.Foundation.ByteSearch
import TAlib.Foundation.OrderedMap
import TAlib.Common.CString
import TAlib.Common.TimeStamp
import Mathlib.Data.List.DropRight

/-!
The request object of src/Http/HttpRequest.h. Character ranges are given as in
the source, by a memory and two positions in it; a std::string built from one
is the slice between them.
-/

namespace TAlib

open Foundation

/-- std::find over the range from `start` to `stop`; `stop` when absent. -/
def find (mem : Bytes) (start stop : Nat) (c : UInt8) : Nat :=
  start + (slice mem start stop).idxOf c

inductive Method where
  | kInvalid
  | kGet
  | kPost
  | kHead
  | kPut
  | kDelete
  deriving DecidableEq, Repr

inductive Version where
  | kUnknown
  | kHttp10
  | kHttp11
  deriving DecidableEq, Repr

structure HttpRequest where
  method : Method
  version : Version
  path : Bytes
  query : Bytes
  receiveTime : TimeStamp
  headers : OrderedMap Bytes Bytes
  deriving DecidableEq

namespace Method

/-- The comparisons of setMethod, in their order. -/
def ofText (m : Bytes) : Method :=
  if m = bytesOf ['G', 'E', 'T'] then .kGet
  else if m = bytesOf ['P', 'O', 'S', 'T'] then .kPost
  else if m = bytesOf ['H', 'E', 'A', 'D'] then .kHead
  else if m = bytesOf ['P', 'U', 'T'] then .kPut
  else if m = bytesOf ['D', 'E', 'L', 'E', 'T', 'E'] then .kDelete
  else .kInvalid

/-- The texts of methodString. -/
def text : Method → Bytes
  | .kGet => bytesOf ['G', 'E', 'T']
  | .kPost => bytesOf ['P', 'O', 'S', 'T']
  | .kHead => bytesOf ['H', 'E', 'A', 'D']
  | .kPut => bytesOf ['P', 'U', 'T']
  | .kDelete => bytesOf ['D', 'E', 'L', 'E', 'T', 'E']
  | .kInvalid => bytesOf ['U', 'N', 'K', 'N', 'O', 'W', 'N']

/-- Reading the text of a method gives the method back; "UNKNOWN" is none. -/
theorem ofText_text (m : Method) : ofText m.text = m := by
  cases m <;> decide

/-- Only the five method texts are recognised. -/
theorem text_of_ofText {t : Bytes} (h : ofText t ≠ .kInvalid) : t = (ofText t).text := by
  unfold ofText at h ⊢
  split
  · assumption
  · split
    · assumption
    · split
      · assumption
      · split
        · assumption
        · split
          · assumption
          · rename_i h1 h2 h3 h4 h5
            simp [h1, h2, h3, h4, h5] at h

end Method

namespace HttpRequest

def new : HttpRequest := ⟨.kInvalid, .kUnknown, [], [], 0, .empty⟩

def setVersion (r : HttpRequest) (v : Version) : HttpRequest := { r with version := v }

def setMethod (r : HttpRequest) (mem : Bytes) (start stop : Nat) :
    Except Fault (Bool × HttpRequest) := do
  require (r.method = .kInvalid) .setMethodInvalid
  let m := Method.ofText (slice mem start stop)
  return (m ≠ .kInvalid, { r with method := m })

def setPath (r : HttpRequest) (mem : Bytes) (start stop : Nat) : HttpRequest :=
  { r with path := slice mem start stop }

def setQuery (r : HttpRequest) (mem : Bytes) (start stop : Nat) : HttpRequest :=
  { r with query := slice mem start stop }

def setReceiveTime (r : HttpRequest) (t : TimeStamp) : HttpRequest := { r with receiveTime := t }

/-- The two loops of addHeader: white space is skipped after the colon and
cut off the end. -/
def trim (value : Bytes) : Bytes := (value.dropWhile isspace).rdropWhile isspace

def addHeader (r : HttpRequest) (mem : Bytes) (start colon stop : Nat) : HttpRequest :=
  { r with headers :=
      r.headers.insert (slice mem start colon) (trim (slice mem (colon + 1) stop)) }

def getHeader (r : HttpRequest) (field : Bytes) : Bytes := (r.headers.find? field).getD []

theorem setMethod_of_invalid {r : HttpRequest} (h : r.method = .kInvalid) (mem : Bytes)
    (start stop : Nat) : r.setMethod mem start stop =
      .ok (Method.ofText (slice mem start stop) ≠ .kInvalid,
        { r with method := Method.ofText (slice mem start stop) }) := by
  unfold setMethod
  rw [require_of_true h]
  rfl

theorem setMethod_of_known {r : HttpRequest} (h : r.method ≠ .kInvalid) (mem : Bytes)
    (start stop : Nat) :
    r.setMethod mem start stop = .error (.assertion .setMethodInvalid) := by
  unfold setMethod
  rw [require_of_false h]
  rfl

/-- A value without white space at its ends is kept as it is. -/
theorem trim_eq_self {value : Bytes} (hfirst : ∀ b, value.head? = some b → ¬ isspace b)
    (hlast : ∀ b, value.getLast? = some b → ¬ isspace b) : trim value = value := by
  unfold trim
  have hdrop : value.dropWhile isspace = value := by
    cases value with
    | nil => rfl
    | cons b rest => exact List.dropWhile_cons_of_neg (by simpa using hfirst b rfl)
  rw [hdrop]
  refine List.rdropWhile_eq_self_iff.mpr fun hne => ?_
  simpa using hlast _ (List.getLast?_eq_some_getLast hne)

/-- The blank of the canonical form before a value is skipped. -/
theorem trim_cons_blank (value : Bytes) : trim (32 :: value) = trim value := by
  unfold trim
  rw [List.dropWhile_cons_of_pos (by decide)]

end HttpRequest
end TAlib
