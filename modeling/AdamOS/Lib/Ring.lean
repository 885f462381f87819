import Mathlib.Data.Nat.ModEq
import Mathlib.Data.List.Range

/-! A ring of `cap` cells read as a list: the k cells from r on, round the end of the array. -/
namespace AdamOS.Ring
variable {α : Type*} {cap r k j : Nat} {buf : Nat → α}

def contents (cap : Nat) (buf : Nat → α) (r k : Nat) : List α :=
  (List.range k).map fun i => buf ((r + i) % cap)

@[simp] theorem contents_zero : contents cap buf r 0 = [] := rfl

@[simp] theorem contents_length : (contents cap buf r k).length = k := by simp [contents]

theorem contents_append (a b : Nat) :
    contents cap buf r (a + b) = contents cap buf r a ++ contents cap buf ((r + a) % cap) b := by
  rw [contents, List.range_add, List.map_append, List.map_map]
  congr 1
  refine List.map_congr_left fun i _ => ?_
  rw [Function.comp, Nat.mod_add_mod, Nat.add_assoc]

theorem contents_succ (hr : r < cap) :
    contents cap buf r (k + 1) = buf r :: contents cap buf ((r + 1) % cap) k := by
  rw [Nat.add_comm k 1, contents_append]
  simp [contents, Nat.mod_eq_of_lt hr]

theorem contents_last :
    contents cap buf r (k + 1) = contents cap buf r k ++ [buf ((r + k) % cap)] := by
  simp [contents, List.range_succ]

/-- A cell outside the k ones may hold anything. -/
theorem contents_write (hk : k ≤ j) (hj : j < cap) (c : α) :
    contents cap (fun i => if i = (r + j) % cap then c else buf i) r k = contents cap buf r k := by
  refine List.map_congr_left fun i hi => if_neg fun he => ?_
  have hik : i < k := List.mem_range.mp hi
  have hmod : i ≡ j [MOD cap] := Nat.ModEq.add_left_cancel' r he
  have hij := Nat.ModEq.eq_of_lt_of_lt hmod (by omega) hj
  omega

end AdamOS.Ring
