import TAlib.Foundation.Runs

/-!
How a call of the modelled code can end other than by returning. The asserts
of the source are active (no build file defines NDEBUG), so a failed one stops
the process; each is named by the function that holds it. An access outside
the object it is made to has no meaning in the language and stops the model.
-/

namespace TAlib

/-- The contents of a std::string, of a char range or of a vector of char. -/
abbrev Bytes := List UInt8

inductive Assertion where
  | bufferCtor
  | hasWrittenLen
  | unwriteLen
  | retrieveLen
  | retrieveUntilPeek
  | retrieveUntilEnd
  | retrieveAsStringLen
  | makeSpaceReader
  | makeSpaceReadable
  | appendWritable
  | setMethodInvalid
  | connectEstablishedState
  | sendInLoopRemaining
  | handleCloseState
  | removeNoneEvent
  | epollEventsPresent
  | fillEventsPositive
  | fillChannelPresent
  | fillChannelFd
  | updateChannelAbsent
  | updateChannelPresent
  | updateChannelSame
  | removeChannelPresent
  | removeChannelSame
  | removeChannelNoneEvent
  | removeChannelErased
  | pollUpdateIndex
  | pollUpdateFd
  | pollRemoveIndex
  | pollRemoveFd
  | removeConnectionErased
  | ptrVectorPushBack
  | ptrVectorPopBack
  | ptrVectorIndex
  | ptrVectorResize
  | threadJoinStarted
  | threadJoinOnce
  | threadRoutineRunning
  | buffersToWriteEmpty
  | buffersToWriteFilled
  | backupBuffer1Source
  | backupBuffer2Source
  | rollFileRemoved
  | getExpiredBound
  | getExpiredErased
  | getExpiredSizes
  | cancelSizesBefore
  | cancelErased
  | cancelSizesAfter
  | insertSizesBefore
  | insertTimers
  | insertActiveTimers
  | insertSizesAfter
  | fmtLength
  | formatTimeSeconds
  | formatTimeMicroseconds
  deriving DecidableEq, Repr

inductive Fault where
  | assertion (site : Assertion)
  /-- std::vector::resize beyond max_size throws, and nothing catches it. -/
  | lengthError
  /-- An access outside the vector it is made to. -/
  | outOfBounds
  /-- A while loop whose condition can no longer change. -/
  | spins
  /-- A use of a pointer to no object. -/
  | dangling
  | nullPointer
  /-- An int beyond its range, which the language leaves undefined. -/
  | overflow
  deriving DecidableEq, Repr

/-- An assert of the source. -/
def require (p : Prop) [Decidable p] (site : Assertion) : Except Fault Unit :=
  if p then .ok () else .error (.assertion site)

@[simp] theorem require_eq_ok {p : Prop} [Decidable p] {site : Assertion} {u : Unit} :
    require p site = .ok u ↔ p := by
  unfold require
  split
  · rename_i hp
    simp [hp]
  · rename_i hp
    simp [hp]

theorem require_avoids {p : Prop} [Decidable p] {site : Assertion} {e : Fault}
    (h : .assertion site ≠ e) : Foundation.Avoids e (require p site) :=
  Foundation.Avoids.ite (fun _ => Foundation.Avoids.ok e ()) fun _ => Foundation.Avoids.error h

theorem require_of_true {p : Prop} [Decidable p] (h : p) (site : Assertion) :
    require p site = .ok () := if_pos h

theorem require_of_false {p : Prop} [Decidable p] (h : ¬ p) (site : Assertion) :
    require p site = .error (.assertion site) := if_neg h

end TAlib
