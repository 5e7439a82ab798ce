import Mathlib.Algebra.Group.Int.Defs
import Mathlib.Algebra.Group.Nat.Defs
import Mathlib.Data.Nat.Basic
import Mathlib.Data.Int.Basic

/-!
The fixed-width arithmetic of a 64-bit target, on natural numbers. A value of
type size_t is a number below 2^64 and its operations wrap; converting it to
int keeps the low 32 bits as a signed number, and converting an int back
extends the sign. Within range the operations are the ordinary ones.
-/

namespace TAlib.Foundation

def sizeAdd (a b : Nat) : Nat := (a + b) % 2 ^ 64

def sizeSub (a b : Nat) : Nat := (a + (2 ^ 64 - b % 2 ^ 64)) % 2 ^ 64

/-- The largest value of type int. -/
def intMax : Nat := 2 ^ 31 - 1

/-- Conversion of a size_t to int. -/
def toInt (n : Nat) : Int :=
  if n % 2 ^ 32 < 2 ^ 31 then (n % 2 ^ 32 : Nat) else (n % 2 ^ 32 : Nat) - 2 ^ 32

/-- Conversion of an int to size_t. -/
def ofInt (z : Int) : Nat := (z % 2 ^ 64).toNat

theorem sizeAdd_of_lt {a b : Nat} (h : a + b < 2 ^ 64) : sizeAdd a b = a + b :=
  Nat.mod_eq_of_lt h

theorem sizeSub_of_le {a b : Nat} (hb : b ≤ a) (ha : a < 2 ^ 64) : sizeSub a b = a - b := by
  unfold sizeSub
  omega

theorem toInt_of_le {n : Nat} (h : n ≤ intMax) : toInt n = n := by
  unfold intMax at h
  unfold toInt
  rw [Nat.mod_eq_of_lt (by omega), if_pos (by omega)]

theorem ofInt_natCast {n : Nat} (h : n < 2 ^ 64) : ofInt n = n := by
  unfold ofInt
  omega

/-- Through an int the low 32 bits of a size_t are left, with their sign extended. -/
theorem ofInt_toInt_eq (n : Nat) :
    ofInt (toInt n) = if n % 2 ^ 32 < 2 ^ 31 then n % 2 ^ 32 else 2 ^ 64 - 2 ^ 32 + n % 2 ^ 32 := by
  unfold toInt
  split
  · exact ofInt_natCast (by omega)
  · unfold ofInt
    omega

/-- A length that fits an int survives the round trip through it. -/
theorem ofInt_toInt {n : Nat} (h : n ≤ intMax) : ofInt (toInt n) = n := by
  rw [toInt_of_le h, ofInt_natCast]
  unfold intMax at h
  omega

end TAlib.Foundation
