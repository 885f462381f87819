import Mathlib.Data.Nat.Init
import Mathlib.Data.Int.Init

/-! Unsigned and signed 32-bit arithmetic on natural numbers. -/
namespace AdamOS.Word

def wrap (n : Nat) : Nat := n % 4294967296

@[irreducible] def sub32 (a b : Nat) : Nat := wrap (a + (4294967296 - wrap b))

def toInt32 (n : Nat) : Int :=
  if wrap n < 2147483648 then (wrap n : Int) else (wrap n : Int) - 4294967296

def ofInt32 (i : Int) : Nat := (i % 4294967296).toNat

/- The value of an int expression; an overflow wraps around. -/
def int32 (i : Int) : Int := toInt32 (ofInt32 i)

/- (uint32_t)-1, the error result of every system call. -/
def minusOne : Nat := 4294967295

theorem wrap_eq {n : Nat} (h : n < 4294967296) : wrap n = n := Nat.mod_eq_of_lt h

theorem wrap_lt (n : Nat) : wrap n < 4294967296 := Nat.mod_lt n (by decide)

theorem sub32_eq {a b : Nat} (hb : b ≤ a) (ha : a < 4294967296) : sub32 a b = a - b := by
  unfold sub32 wrap
  omega

theorem toInt32_eq {n : Nat} (h : n < 2147483648) : toInt32 n = n := by
  have hw : wrap n = n := wrap_eq (by omega)
  rw [toInt32, hw, if_pos h]

theorem toInt32_neg {n : Nat} (h : 2147483648 ≤ n) (h' : n < 4294967296) : toInt32 n < 0 := by
  rw [toInt32, wrap_eq h', if_neg (by omega)]
  omega

theorem ofInt32_eq {i : Int} (h : 0 ≤ i) (h' : i < 4294967296) : ofInt32 i = i.toNat := by
  unfold ofInt32
  omega

theorem toInt32_bounds (n : Nat) : -2147483648 ≤ toInt32 n ∧ toInt32 n < 2147483648 := by
  have h := wrap_lt n
  unfold toInt32
  split <;> omega

theorem int32_bounds (i : Int) : -2147483648 ≤ int32 i ∧ int32 i < 2147483648 := toInt32_bounds _

theorem int32_eq {i : Int} (h : -2147483648 ≤ i) (h' : i < 2147483648) : int32 i = i := by
  unfold int32 toInt32 ofInt32 wrap
  omega

theorem int32_int32 (i : Int) : int32 (int32 i) = int32 i :=
  int32_eq (int32_bounds i).1 (int32_bounds i).2

/-- What is added in 32 bits is added to the whole number. -/
theorem int32_add_int32 (a b : Int) : int32 (int32 a + b) = int32 (a + b) := by
  unfold int32 toInt32 ofInt32 wrap
  omega

/-- A difference taken from the number it was formed with. -/
theorem int32_sub_sub (a b : Int) : int32 (a - int32 (a - b)) = int32 b := by
  unfold int32 toInt32 ofInt32 wrap
  omega

end AdamOS.Word
