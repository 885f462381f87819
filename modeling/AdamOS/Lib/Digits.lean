import Mathlib.Algebra.GroupWithZero.Nat

/-! The digits of a number as a loop takes them off: the remainders by the base, the last digit first. -/
namespace AdamOS.Digits
variable {b k n : Nat}

def remainders (b : Nat) : Nat → Nat → List Nat
  | 0, _ => []
  | k+1, n => n % b :: if 0 < n / b then remainders b k (n / b) else []

theorem remainders_lt (hb : 0 < b) (k n : Nat) : ∀ d ∈ remainders b k n, d < b := by
  induction k generalizing n with
  | zero => exact fun _ h => absurd h List.not_mem_nil
  | succ k ih =>
    intro d hd
    rw [remainders, List.mem_cons] at hd
    rcases hd with rfl | hd
    · exact Nat.mod_lt n hb
    · split at hd
      · exact ih _ d hd
      · exact absurd hd List.not_mem_nil

theorem remainders_le (b k n : Nat) : (remainders b k n).length ≤ k := by
  induction k generalizing n with
  | zero => exact Nat.le_refl 0
  | succ k ih =>
    rw [remainders, List.length_cons]
    split
    · exact Nat.succ_le_succ (ih _)
    · exact Nat.succ_le_succ (Nat.zero_le _)

/-- Enough rounds take off all digits. -/
theorem remainders_toDigits (hb : 1 < b) (hk : n < b ^ (k + 1)) :
    (remainders b (k + 1) n).reverse.map Nat.digitChar = Nat.toDigits b n := by
  have hone : ∀ {n : Nat}, n < b → [Nat.digitChar (n % b)] = Nat.toDigits b n := fun {n} hlt => by
    rw [Nat.mod_eq_of_lt hlt, Nat.toDigits_of_lt_base hlt]
  induction k generalizing n with
  | zero =>
    have hlt : n < b := by rwa [Nat.zero_add, Nat.pow_one] at hk
    rw [remainders, Nat.div_eq_of_lt hlt, if_neg (Nat.lt_irrefl 0)]
    exact hone hlt
  | succ k ih =>
    rw [remainders]
    by_cases hpos : 0 < n / b
    · have hlt : n / b < b ^ (k + 1) := Nat.div_lt_of_lt_mul (by rwa [Nat.mul_comm, ← Nat.pow_succ])
      have hle : b ≤ n := (Nat.div_pos_iff.mp hpos).2
      rw [if_pos hpos, List.reverse_cons, List.map_append, ih hlt, Nat.toDigits_of_base_le hb hle]
      rfl
    · rw [if_neg hpos]
      exact hone (Nat.lt_of_not_le fun hle => hpos (Nat.div_pos hle (Nat.lt_of_succ_lt hb)))

end AdamOS.Digits
