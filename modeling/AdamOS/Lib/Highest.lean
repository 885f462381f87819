import Mathlib.Data.List.Basic

/-! The element with the highest key among those that pass a test: as a fold over any list and as
the last hit in a sorted one. -/
namespace AdamOS.Highest
variable {α : Type*} {key : α → Nat} {p q : α → Bool} {xs ys : List α} {r r' acc : Option α}

structure IsHighest (key : α → Nat) (p : α → Bool) (xs : List α) (r : Option α) : Prop where
  mem : ∀ x ∈ r, x ∈ xs ∧ p x = true
  top : ∀ x ∈ xs, p x = true → ∃ y ∈ r, key x ≤ key y

theorem IsHighest.unique (h : IsHighest key p xs r) (h' : IsHighest key p xs r')
    (hinj : ∀ x ∈ xs, ∀ y ∈ xs, key x = key y → x = y) : r = r' := by
  refine Option.ext fun x => ?_
  have hone : ∀ {r r' : Option α}, IsHighest key p xs r → IsHighest key p xs r' →
      ∀ {x}, x ∈ r → x ∈ r' := fun {r r'} h h' {x} hx => by
    obtain ⟨hmem, hp⟩ := h.mem x hx
    obtain ⟨y, hy, hle⟩ := h'.top x hmem hp
    obtain ⟨hymem, hpy⟩ := h'.mem y hy
    obtain ⟨z, hz, hge⟩ := h.top y hymem hpy
    cases Option.mem_unique hx hz
    exact hinj x hmem y hymem (Nat.le_antisymm hle hge) ▸ hy
  exact ⟨hone h h', hone h' h⟩

theorem IsHighest.congr (h : IsHighest key p xs r) (hpq : ∀ x ∈ xs, p x = q x) :
    IsHighest key q xs r :=
  ⟨fun x hx => ⟨(h.mem x hx).1, hpq x (h.mem x hx).1 ▸ (h.mem x hx).2⟩,
    fun x hx hq => h.top x hx ((hpq x hx).trans hq)⟩

/-! ### Folds -/

def pick (key : α → Nat) (p : α → Bool) (acc : Option α) (x : α) : Option α :=
  if p x && decide (key x ≥ (acc.map key).getD 0) then some x else acc

theorem pick_le {x y : α} (hy : y ∈ acc) : ∃ z ∈ pick key p acc x, key y ≤ key z := by
  cases hy
  unfold pick
  split
  · rename_i hx
    exact ⟨x, rfl, of_decide_eq_true (Bool.and_eq_true_iff.mp hx).2⟩
  · exact ⟨y, rfl, Nat.le_refl _⟩

theorem pick_self {x : α} (hx : p x = true) : ∃ z ∈ pick key p acc x, key x ≤ key z := by
  unfold pick
  split
  · exact ⟨x, rfl, Nat.le_refl _⟩
  · rename_i hlow
    rw [hx, Bool.true_and, decide_eq_true_iff] at hlow
    cases acc with
    | none => exact absurd (Nat.zero_le _) hlow
    | some y => exact ⟨y, rfl, Nat.le_of_not_le hlow⟩

theorem foldl_pick_mem {x : α} (hx : x ∈ xs.foldl (pick key p) acc) :
    x ∈ acc ∨ x ∈ xs ∧ p x = true := by
  induction xs generalizing acc with
  | nil => exact .inl hx
  | cons y xs ih =>
    rcases ih hx with h | ⟨hmem, hp⟩
    · unfold pick at h
      split at h
      · rename_i hy
        cases h
        exact .inr ⟨List.mem_cons_self, (Bool.and_eq_true_iff.mp hy).1⟩
      · exact .inl h
    · exact .inr ⟨List.mem_cons_of_mem _ hmem, hp⟩

theorem foldl_pick_le {y : α} (hy : y ∈ acc ∨ y ∈ xs ∧ p y = true) :
    ∃ z ∈ xs.foldl (pick key p) acc, key y ≤ key z := by
  induction xs generalizing acc y with
  | nil =>
    rcases hy with hy | ⟨hy, -⟩
    · exact ⟨y, hy, Nat.le_refl _⟩
    · cases hy
  | cons x xs ih =>
    have hcarry : ∀ {z}, z ∈ pick key p acc x → key y ≤ key z →
        ∃ z' ∈ xs.foldl (pick key p) (pick key p acc x), key y ≤ key z' := fun hz hle => by
      obtain ⟨z', hz', hle'⟩ := ih (.inl hz)
      exact ⟨z', hz', Nat.le_trans hle hle'⟩
    rcases hy with hy | ⟨hy, hp⟩
    · obtain ⟨z, hz, hle⟩ := pick_le (x := x) hy
      exact hcarry hz hle
    · rcases List.mem_cons.mp hy with rfl | hy
      · obtain ⟨z, hz, hle⟩ : ∃ z ∈ pick key p acc y, key y ≤ key z := pick_self hp
        exact hcarry hz hle
      · exact ih (.inr ⟨hy, hp⟩)

theorem isHighest_foldl (key : α → Nat) (p : α → Bool) (xs : List α) :
    IsHighest key p xs (xs.foldl (pick key p) none) := by
  refine ⟨fun x hx => ?_, fun x hx hp => foldl_pick_le (.inr ⟨hx, hp⟩)⟩
  rcases foldl_pick_mem hx with h | h
  · cases h
  · exact h

/-! ### Sorted lists -/

/-- In a list in increasing order it is the last hit. -/
theorem isHighest_last (hs : xs.Pairwise fun x y => key x < key y) :
    IsHighest key p xs (xs.reverse.find? p) := by
  refine ⟨fun x hx => ⟨List.mem_reverse.mp (List.mem_of_find?_eq_some hx), List.find?_some hx⟩,
    fun x hx hp => ?_⟩
  induction xs with
  | nil => cases hx
  | cons y xs ih =>
    rw [List.reverse_cons, List.find?_append]
    obtain ⟨hy, hs⟩ := List.pairwise_cons.mp hs
    cases hf : xs.reverse.find? p with
    | some z =>
      refine ⟨z, rfl, ?_⟩
      rcases List.mem_cons.mp hx with rfl | hx
      · exact Nat.le_of_lt (hy z (List.mem_reverse.mp (List.mem_of_find?_eq_some hf)))
      · obtain ⟨z', hz', hle⟩ := ih hs hx
        cases Option.mem_unique hz' hf
        exact hle
    | none =>
      rcases List.mem_cons.mp hx with rfl | hx
      · refine ⟨x, ?_, Nat.le_refl _⟩
        rw [List.find?_cons, hp]
        rfl
      · exact absurd hp (List.find?_eq_none.mp hf x (List.mem_reverse.mpr hx))

end AdamOS.Highest
