import Mathlib.Data.Nat.Init

/-! Bits in an array of words of width w: bit i is bit i % w of word i / w. A bit is tested, set and
cleared through the mask 1 << i % w, and the other bits stay. -/
namespace AdamOS.BitArray
variable {w : Nat} {a : Nat → BitVec w} {i j : Nat}

def bit (a : Nat → BitVec w) (i : Nat) : Bool := (a (i / w)).getLsbD (i % w)

def mask (w i : Nat) : BitVec w := 1#w <<< (i % w)

def modify (a : Nat → BitVec w) (i : Nat) (f : BitVec w → BitVec w) : Nat → BitVec w :=
  fun k => if k = i / w then f (a k) else a k

theorem mask_getLsbD (hw : 0 < w) (i : Nat) : (mask w i).getLsbD (j % w) = decide (j % w = i % w) := by
  rw [mask, ← BitVec.twoPow_eq, BitVec.getLsbD_twoPow, decide_eq_true (Nat.mod_lt i hw), Bool.true_and]
  exact decide_eq_decide.mpr eq_comm

theorem mask_ne_zero (hw : 0 < w) (i : Nat) : mask w i ≠ 0#w := by
  intro h
  have hbit := mask_getLsbD hw i (j := i)
  rw [h, BitVec.getLsbD_zero, decide_eq_true rfl] at hbit
  cases hbit

theorem and_mask (hw : 0 < w) (i : Nat) : (a (i / w) &&& mask w i != 0#w) = bit a i := by
  have hmask := mask_ne_zero hw i
  rw [mask, ← BitVec.twoPow_eq] at *
  rw [BitVec.and_twoPow]
  unfold bit
  cases (a (i / w)).getLsbD (i % w) with
  | false => exact bne_self_eq_false _
  | true => exact bne_iff_ne.mpr hmask

/-- Another number is in another word or at another place of the word. -/
theorem index_ne (h : j ≠ i) (hj : j / w = i / w) : j % w ≠ i % w := fun hmod =>
  h (by rw [← Nat.div_add_mod j w, ← Nat.div_add_mod i w, hj, hmod])

theorem bit_modify_self (f : BitVec w → BitVec w) :
    bit (modify a i f) i = (f (a (i / w))).getLsbD (i % w) := by
  rw [bit, modify, if_pos rfl]

/-- What keeps the other bits of the word keeps all others. -/
theorem bit_modify_ne {f : BitVec w → BitVec w} (h : j ≠ i)
    (hf : ∀ x, j % w ≠ i % w → (f x).getLsbD (j % w) = x.getLsbD (j % w)) :
    bit (modify a i f) j = bit a j := by
  rw [bit, modify]
  split
  · exact hf _ (index_ne h ‹_›)
  · rfl

theorem bit_or (hw : 0 < w) :
    bit (modify a i (· ||| mask w i)) j = if j = i then true else bit a j := by
  split
  · rw [‹j = i›, bit_modify_self, BitVec.getLsbD_or, mask_getLsbD hw, decide_eq_true rfl, Bool.or_true]
  · refine bit_modify_ne ‹_› fun x hne => ?_
    rw [BitVec.getLsbD_or, mask_getLsbD hw, decide_eq_false hne, Bool.or_false]

theorem bit_andNot (hw : 0 < w) :
    bit (modify a i (· &&& ~~~mask w i)) j = if j = i then false else bit a j := by
  have hnot : ∀ x : BitVec w, (x &&& ~~~mask w i).getLsbD (j % w) =
      (x.getLsbD (j % w) && !decide (j % w = i % w)) := by
    intro x
    rw [BitVec.getLsbD_and, BitVec.getLsbD_not, mask_getLsbD hw, decide_eq_true (Nat.mod_lt j hw),
      Bool.true_and]
  split
  · subst j
    rw [bit_modify_self, hnot, decide_eq_true rfl, Bool.not_true, Bool.and_false]
  · refine bit_modify_ne ‹_› fun x hne => ?_
    rw [hnot, decide_eq_false hne, Bool.not_false, Bool.and_true]

end AdamOS.BitArray
