import TAlib.Common.Buffer

/-!
Which faults the buffer can raise. A fault of any other part of the code is
not raised by a call of a buffer operation, whatever the buffer holds.
-/

namespace TAlib

open Foundation

/-- The faults of the buffer: its asserts, and the limits of its vector. -/
def Fault.ofBuffer : Fault → Bool
  | .lengthError | .outOfBounds => true
  | .assertion site =>
      match site with
      | .bufferCtor | .hasWrittenLen | .unwriteLen | .retrieveLen | .retrieveUntilPeek
      | .retrieveUntilEnd | .retrieveAsStringLen | .makeSpaceReader | .makeSpaceReadable
      | .appendWritable => true
      | _ => false
  | .spins | .dangling | .nullPointer | .overflow => false

namespace Buffer

variable {e : Fault} (he : e.ofBuffer = false)
include he

theorem ne_of_ofBuffer {f : Fault} (hf : f.ofBuffer = true) : f ≠ e := by
  rintro rfl
  rw [hf] at he
  cases he

theorem overwrite_avoids (mem : Bytes) (pos : Nat) (bytes : Bytes) :
    Avoids e (overwrite mem pos bytes) :=
  Avoids.ite (fun _ => .ok e _) fun _ => .error (ne_of_ofBuffer he rfl)

theorem new_avoids (initialSize : Nat) : Avoids e (new initialSize) := by
  refine Avoids.ite (fun _ => .error (ne_of_ofBuffer he rfl)) fun _ => ?_
  refine (require_avoids (ne_of_ofBuffer he rfl)).bind fun _ _ => ?_
  refine (require_avoids (ne_of_ofBuffer he rfl)).bind fun _ _ => ?_
  exact (require_avoids (ne_of_ofBuffer he rfl)).bind fun _ _ => .ok e _

theorem hasWritten_avoids (b : Buffer) (len : Nat) : Avoids e (b.hasWritten len) :=
  (require_avoids (ne_of_ofBuffer he rfl)).bind fun _ _ => .ok e _

theorem retrieve_avoids (b : Buffer) (len : Nat) : Avoids e (b.retrieve len) :=
  (require_avoids (ne_of_ofBuffer he rfl)).bind fun _ _ =>
    Avoids.ite (fun _ => .ok e _) fun _ => .ok e _

theorem resize_avoids (b : Buffer) (n : Nat) : Avoids e (b.resize n) :=
  Avoids.ite (fun _ => .ok e _) fun _ => .error (ne_of_ofBuffer he rfl)

theorem makeSpace_avoids (b : Buffer) (len : Int) : Avoids e (b.makeSpace len) := by
  refine Avoids.ite (fun _ => resize_avoids he b _) fun _ => ?_
  refine (require_avoids (ne_of_ofBuffer he rfl)).bind fun _ _ => ?_
  refine (overwrite_avoids he _ _ _).bind fun _ _ => ?_
  exact (require_avoids (ne_of_ofBuffer he rfl)).bind fun _ _ => .ok e _

theorem append_avoids (b : Buffer) (data : Bytes) : Avoids e (b.append data) := by
  refine Avoids.bind (Avoids.ite (fun _ => makeSpace_avoids he b _) fun _ => .ok e b) fun _ _ => ?_
  refine (require_avoids (ne_of_ofBuffer he rfl)).bind fun _ _ => ?_
  exact (overwrite_avoids he _ _ _).bind fun _ _ => hasWritten_avoids he _ _

theorem readFd_avoids (b : Buffer) (r : ReadResult) : Avoids e (b.readFd r) := by
  cases r with
  | error _ => exact .ok e b
  | data bytes =>
      refine (overwrite_avoids he _ _ _).bind fun _ _ => ?_
      exact Avoids.ite (fun _ => .ok e _) fun _ => append_avoids he _ _

end Buffer
end TAlib
