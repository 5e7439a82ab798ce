import TAlib.Common.Outcome

/-!
The containers that the log lines pass through: the buffer of
src/Logger/LogStream.h and the owning vector of src/Logger/ptr_vector.h. A
unique_ptr, and the pointer it releases, is an option. The size of a ptr_vector
is an unsigned int in the source; that many large buffers fit no address space,
so it is a natural number here.
-/

namespace TAlib

def kSmallBuffer : Nat := 4096

def kLargeBuffer : Nat := 4096 * 1000

/-- The bytes of m_data before m_cur. What lies behind them is never read. -/
structure LogBuffer (size : Nat) where
  data : Bytes
  fits : data.length ≤ size
  deriving DecidableEq

namespace LogBuffer

variable {size : Nat}

def new : LogBuffer size := ⟨[], Nat.zero_le _⟩

def length (b : LogBuffer size) : Nat := b.data.length

def avail (b : LogBuffer size) : Nat := size - b.length

/-- A line that does not fit is dropped. -/
def append (b : LogBuffer size) (line : Bytes) : LogBuffer size :=
  if h : b.avail > line.length then
    ⟨b.data ++ line, by
      simp only [avail, length] at h
      rw [List.length_append]
      omega⟩
  else b

/-- Writes a text and the NUL behind it at current(), and adds the text. -/
def write (b : LogBuffer size) (text : Bytes) : Except Fault (LogBuffer size) :=
  if h : text.length + 1 ≤ b.avail then
    .ok ⟨b.data ++ text, by
      simp only [avail, length] at h
      rw [List.length_append]
      omega⟩
  else .error .outOfBounds

def reset (_ : LogBuffer size) : LogBuffer size := new

theorem append_data {b : LogBuffer size} {line : Bytes} (h : b.avail > line.length) :
    (b.append line).data = b.data ++ line := by
  rw [append, dif_pos h]

/-- A line is appended whole or not at all. -/
theorem append_whole (b : LogBuffer size) (line : Bytes) :
    (b.append line).data = b.data ++ if b.avail > line.length then line else [] := by
  by_cases h : b.avail > line.length
  · rw [append_data h, if_pos h]
  · rw [append, dif_neg h, if_neg h, List.append_nil]

/-- An empty buffer drops a line only when no buffer is long enough for it. -/
theorem append_data_of_empty {b : LogBuffer size} {line : Bytes} (hb : b.data = []) :
    (b.append line).data = if line.length < size then line else [] := by
  have havail : b.avail = size := by
    simp only [avail, length, hb, List.length_nil, Nat.sub_zero]
  by_cases h : line.length < size
  · rw [append_data (havail.symm ▸ h), hb, if_pos h, List.nil_append]
  · rw [append, dif_neg (havail.symm ▸ h), hb, if_neg h]

/-- The bytes of the buffer behind a unique_ptr. -/
def dataOf : Option (LogBuffer size) → Bytes
  | some b => b.data
  | none => []

/-- The bytes of several buffers, one after the other. -/
def contents (v : List (LogBuffer size)) : Bytes := v.flatMap data

@[simp] theorem contents_nil : contents ([] : List (LogBuffer size)) = [] := rfl

@[simp] theorem contents_append (v w : List (LogBuffer size)) :
    contents (v ++ w) = contents v ++ contents w := List.flatMap_append

@[simp] theorem contents_cons (b : LogBuffer size) (v : List (LogBuffer size)) :
    contents (b :: v) = b.data ++ contents v := rfl

end LogBuffer

/-- The objects that the pointers of the vector own. -/
abbrev PtrVector (α : Type) := List α

namespace PtrVector

variable {α : Type}

def pushBack (v : PtrVector α) : Option α → Except Fault (PtrVector α)
  | some a => .ok (v ++ [a])
  | none => .error (.assertion .ptrVectorPushBack)

def popBack (v : PtrVector α) : Except Fault (α × PtrVector α) :=
  match v.getLast? with
  | some a => .ok (a, v.dropLast)
  | none => .error (.assertion .ptrVectorPopBack)

def get (v : PtrVector α) (n : Nat) : Except Fault α :=
  match v[n]? with
  | some a => .ok a
  | none => .error (.assertion .ptrVectorIndex)

/-- `new` is what the default constructor of the element gives. -/
def resize (new : α) (v : PtrVector α) (s : Nat) : Except Fault (PtrVector α) := do
  let v :=
    if s < v.length then v.take s
    else v ++ List.replicate (s - v.length) new
  require (s = v.length) .ptrVectorResize
  return v

theorem popBack_ok {v : PtrVector α} (h : v ≠ []) :
    ∃ a, popBack v = .ok (a, v.dropLast) := by
  refine ⟨v.getLast h, ?_⟩
  rw [popBack, List.getLast?_eq_getLast_of_ne_nil h]

theorem get_ok {v : PtrVector α} {n : Nat} (h : n < v.length) : get v n = .ok v[n] := by
  rw [get, List.getElem?_eq_getElem h]

theorem resize_of_lt {new : α} {v : PtrVector α} {s : Nat} (h : s < v.length) :
    resize new v s = .ok (v.take s) := by
  have hlen : s = (v.take s).length := by
    rw [List.length_take, Nat.min_eq_left (Nat.le_of_lt h)]
  rw [resize, if_pos h, require_of_true hlen]
  rfl

end PtrVector
end TAlib
