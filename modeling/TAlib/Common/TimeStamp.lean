import TAlib.Common.Outcome
import TAlib.Foundation.MachineInt

/-!
Points in time as src/common/TimeStamp.h has them: microseconds since the epoch
in an int64_t, whose arithmetic must stay within its range.
-/

namespace TAlib

/-- Microseconds since the epoch. -/
abbrev TimeStamp := Int

def kMicroSecondsPerSecond : Int := 1000 * 1000

/-- The range of int64_t. -/
def FitsInt64 (x : Int) : Prop := -2 ^ 63 ≤ x ∧ x < 2 ^ 63

instance (x : Int) : Decidable (FitsInt64 x) := inferInstanceAs (Decidable (_ ∧ _))

/-- A result of type int64_t. -/
def int64 (x : Int) : Except Fault Int := if FitsInt64 x then .ok x else .error .overflow

theorem int64_ok {x : Int} (h : FitsInt64 x) : int64 x = .ok x := if_pos h

theorem int64_overflow {x : Int} (h : ¬ FitsInt64 x) : int64 x = .error .overflow := if_neg h

/-- What the code asks of a double that counts seconds: whether it is greater
than zero, and how many microseconds it is, rounded towards zero. -/
structure Seconds where
  positive : Bool
  microSeconds : Int
  sign : positive = true → 0 ≤ microSeconds
  deriving DecidableEq

/-- The default interval 0.0. -/
def Seconds.zero : Seconds := ⟨false, 0, nofun⟩

namespace TimeStamp

def invalid : TimeStamp := 0

def valid (t : TimeStamp) : Bool := 0 < t

def addTime (timestamp : TimeStamp) (seconds : Seconds) : Except Fault TimeStamp := do
  let delta ← int64 seconds.microSeconds
  int64 (timestamp + delta)

/-- The sum that addTime computes is a time. -/
def Adds (timestamp : TimeStamp) (seconds : Seconds) : Prop :=
  FitsInt64 seconds.microSeconds ∧ FitsInt64 (timestamp + seconds.microSeconds)

instance (t : TimeStamp) (seconds : Seconds) : Decidable (Adds t seconds) :=
  inferInstanceAs (Decidable (_ ∧ _))

theorem addTime_ok {t : TimeStamp} {seconds : Seconds} (h : Adds t seconds) :
    addTime t seconds = .ok (t + seconds.microSeconds) := by
  rw [addTime, int64_ok h.1]
  exact int64_ok h.2

theorem addTime_overflow {t : TimeStamp} {seconds : Seconds} (h : ¬ Adds t seconds) :
    addTime t seconds = .error .overflow := by
  rw [addTime]
  by_cases hdelta : FitsInt64 seconds.microSeconds
  · rw [int64_ok hdelta]
    exact int64_overflow fun hsum => h ⟨hdelta, hsum⟩
  · rw [int64_overflow hdelta]
    rfl

end TimeStamp
end TAlib
