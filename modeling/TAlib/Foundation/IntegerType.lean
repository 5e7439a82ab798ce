import TAlib.Foundation.MachineInt

/-!
The integer types of the machine as a template sees them: any of them, signed or
unsigned, with its own quotient and remainder, which round towards zero. What is
proved for the class holds of every one of them.
-/

namespace TAlib.Foundation

class IntegerType (T : Type) extends Div T, Mod T where
  /-- The number that a value of the type stands for. -/
  toInt : T → Int
  /-- A small literal of the type. -/
  ofNat : Nat → T
  natAbs_lt (a : T) : (toInt a).natAbs < 2 ^ 64
  toInt_ofNat {n : Nat} (h : n < 128) : toInt (ofNat n) = n
  toInt_div (a : T) {b : T} (h : 0 < toInt b) : toInt (a / b) = (toInt a).tdiv (toInt b)
  toInt_mod (a b : T) : toInt (a % b) = (toInt a).tmod (toInt b)

namespace IntegerType

instance int16 : IntegerType Int16 where
  toInt := Int16.toInt
  ofNat := Int16.ofNat
  natAbs_lt a := by
    have := a.le_toInt
    have := a.toInt_lt
    omega
  toInt_ofNat h := Int16.toInt_ofNat_of_lt (by omega)
  toInt_div a b h := Int16.toInt_div_of_ne_right a b (by rintro rfl; exact absurd h (by decide))
  toInt_mod := Int16.toInt_mod

instance int32 : IntegerType Int32 where
  toInt := Int32.toInt
  ofNat := Int32.ofNat
  natAbs_lt a := by
    have := a.le_toInt
    have := a.toInt_lt
    omega
  toInt_ofNat h := Int32.toInt_ofNat_of_lt (by omega)
  toInt_div a b h := Int32.toInt_div_of_ne_right a b (by rintro rfl; exact absurd h (by decide))
  toInt_mod := Int32.toInt_mod

instance int64 : IntegerType Int64 where
  toInt := Int64.toInt
  ofNat := Int64.ofNat
  natAbs_lt a := by
    have := a.le_toInt
    have := a.toInt_lt
    omega
  toInt_ofNat h := Int64.toInt_ofNat_of_lt (by omega)
  toInt_div a b h := Int64.toInt_div_of_ne_right a b (by rintro rfl; exact absurd h (by decide))
  toInt_mod := Int64.toInt_mod

instance uint16 : IntegerType UInt16 where
  toInt a := a.toNat
  ofNat := UInt16.ofNat
  natAbs_lt a := by
    have := a.toNat_lt
    omega
  toInt_ofNat h := congrArg Nat.cast (UInt16.toNat_ofNat_of_lt' (Nat.lt_trans h (by decide)))
  toInt_div a b _ := (congrArg Nat.cast (UInt16.toNat_div a b)).trans (Int.ofNat_tdiv _ _)
  toInt_mod a b := (congrArg Nat.cast (UInt16.toNat_mod a b)).trans (Int.ofNat_tmod _ _)

instance uint32 : IntegerType UInt32 where
  toInt a := a.toNat
  ofNat := UInt32.ofNat
  natAbs_lt a := by
    have := a.toNat_lt
    omega
  toInt_ofNat h := congrArg Nat.cast (UInt32.toNat_ofNat_of_lt' (Nat.lt_trans h (by decide)))
  toInt_div a b _ := (congrArg Nat.cast (UInt32.toNat_div a b)).trans (Int.ofNat_tdiv _ _)
  toInt_mod a b := (congrArg Nat.cast (UInt32.toNat_mod a b)).trans (Int.ofNat_tmod _ _)

instance uint64 : IntegerType UInt64 where
  toInt a := a.toNat
  ofNat := UInt64.ofNat
  natAbs_lt a := by
    have := a.toNat_lt
    omega
  toInt_ofNat h := congrArg Nat.cast (UInt64.toNat_ofNat_of_lt' (Nat.lt_trans h (by decide)))
  toInt_div a b _ := (congrArg Nat.cast (UInt64.toNat_div a b)).trans (Int.ofNat_tdiv _ _)
  toInt_mod a b := (congrArg Nat.cast (UInt64.toNat_mod a b)).trans (Int.ofNat_tmod _ _)

variable {T : Type} [IntegerType T]

/-- static_cast<int> -/
def toInt32 (a : T) : Int32 := Int32.ofInt (toInt a)

/-- A small remainder survives the conversion. -/
theorem toInt32_mod (a : T) {base : Nat} (hpos : 0 < base) (hbase : base < 128) :
    (toInt32 (a % ofNat base)).toInt = (toInt a).tmod base := by
  have hlt : ((toInt a).tmod base).natAbs < base := by
    rw [Int.natAbs_tmod]
    exact Nat.mod_lt _ hpos
  rw [toInt32, toInt_mod, toInt_ofNat hbase]
  exact Int32.toInt_ofInt_of_le (by omega) (by omega)

theorem toInt_div_ofNat (a : T) {base : Nat} (hpos : 0 < base) (hbase : base < 128) :
    toInt (a / ofNat base) = (toInt a).tdiv base := by
  have hb : toInt (ofNat base : T) = base := toInt_ofNat hbase
  rw [toInt_div a (by omega), hb]

end IntegerType
end TAlib.Foundation
