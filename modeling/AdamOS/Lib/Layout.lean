import Mathlib.Data.List.Basic
import Mathlib.Data.List.Pairwise

/-! Segments of an address range laid out in order. Gaps between neighbours are allowed;
overlaps are not. -/
namespace AdamOS.Layout
variable {α : Type*} {first last : α → Nat} {lo hi : Nat}

/- `Laid first last lo hi xs`: the segments [first x, last x) follow each other inside [lo, hi). -/
def Laid (first last : α → Nat) (lo hi : Nat) : List α → Prop
  | [] => lo ≤ hi
  | x :: xs => lo ≤ first x ∧ first x ≤ last x ∧ Laid first last (last x) hi xs

theorem laid_cons {x : α} {xs : List α} : Laid first last lo hi (x :: xs) ↔
    lo ≤ first x ∧ first x ≤ last x ∧ Laid first last (last x) hi xs := Iff.rfl

theorem Laid.le {xs : List α} (h : Laid first last lo hi xs) : lo ≤ hi := by
  induction xs generalizing lo with
  | nil => exact h
  | cons x xs ih => exact Nat.le_trans h.1 (Nat.le_trans h.2.1 (ih h.2.2))

theorem Laid.lower {lo' : Nat} {xs : List α} (h : Laid first last lo hi xs) (hlo : lo' ≤ lo) :
    Laid first last lo' hi xs := by
  cases xs with
  | nil => exact Nat.le_trans hlo h
  | cons x xs => exact ⟨Nat.le_trans hlo h.1, h.2⟩

theorem laid_append {xs ys : List α} : Laid first last lo hi (xs ++ ys) ↔
    ∃ mid, Laid first last lo mid xs ∧ Laid first last mid hi ys := by
  induction xs generalizing lo with
  | nil => exact ⟨fun h => ⟨lo, Nat.le_refl lo, h⟩, fun ⟨_, hlo, h⟩ => h.lower hlo⟩
  | cons x xs ih =>
    constructor
    · rintro ⟨h1, h2, h3⟩
      obtain ⟨mid, hxs, hys⟩ := ih.mp h3
      exact ⟨mid, ⟨h1, h2, hxs⟩, hys⟩
    · rintro ⟨mid, ⟨h1, h2, hxs⟩, hys⟩
      exact ⟨h1, h2, ih.mpr ⟨mid, hxs, hys⟩⟩

/-- There are no more segments than addresses, if none is empty. -/
theorem Laid.length_le {xs : List α} (h : Laid first last lo hi xs)
    (hpos : ∀ x, first x < last x) : xs.length ≤ hi - lo := by
  induction xs generalizing lo with
  | nil => exact Nat.zero_le _
  | cons x xs ih =>
    obtain ⟨h1, -, h3⟩ := h
    have hlen := ih h3
    have hlast := h3.le
    have hx := hpos x
    rw [List.length_cons]
    omega

theorem Laid.bounds {xs : List α} (h : Laid first last lo hi xs) {x : α} (hx : x ∈ xs) :
    lo ≤ first x ∧ first x ≤ last x ∧ last x ≤ hi := by
  induction xs generalizing lo with
  | nil => cases hx
  | cons y ys ih =>
    obtain ⟨h1, h2, h3⟩ := h
    rcases List.mem_cons.mp hx with rfl | hx
    · exact ⟨h1, h2, h3.le⟩
    · have := ih h3 hx
      omega

/-- Of two segments the one listed first ends before the other begins. -/
theorem Laid.pairwise {xs : List α} (h : Laid first last lo hi xs) :
    xs.Pairwise fun x y => last x ≤ first y := by
  induction xs generalizing lo with
  | nil => exact .nil
  | cons x xs ih => exact .cons (fun y hy => (h.2.2.bounds hy).1) (ih h.2.2)

/-- Two segments of one layout coincide or are apart. -/
theorem Laid.apart {xs : List α} (h : Laid first last lo hi xs) {x y : α}
    (hx : x ∈ xs) (hy : y ∈ xs) : x = y ∨ last x ≤ first y ∨ last y ≤ first x := by
  induction xs generalizing lo with
  | nil => cases hx
  | cons z zs ih =>
    rcases List.mem_cons.mp hx with hxz | hx <;> rcases List.mem_cons.mp hy with hyz | hy
    · exact .inl (hxz.trans hyz.symm)
    · exact .inr (.inl (hxz ▸ (h.2.2.bounds hy).1))
    · exact .inr (.inr (hyz ▸ (h.2.2.bounds hx).1))
    · exact ih h.2.2 hx hy

def Filled (first last : α → Nat) (lo hi : Nat) : List α → Prop
  | [] => lo = hi
  | x :: xs => lo = first x ∧ first x ≤ last x ∧ Filled first last (last x) hi xs

theorem filled_cons {x : α} {xs : List α} : Filled first last lo hi (x :: xs) ↔
    lo = first x ∧ first x ≤ last x ∧ Filled first last (last x) hi xs := Iff.rfl

theorem Filled.laid {xs : List α} (h : Filled first last lo hi xs) : Laid first last lo hi xs := by
  induction xs generalizing lo with
  | nil => exact Nat.le_of_eq h
  | cons x xs ih => exact ⟨Nat.le_of_eq h.1, h.2.1, ih h.2.2⟩

/-- A layout may be rewritten segment by segment as long as no segment grows. -/
theorem Laid.map {f : α → α} {xs : List α} (h : Laid first last lo hi xs)
    (hf : ∀ x, first (f x) = first x ∧ last (f x) = last x) :
    Laid first last lo hi (xs.map f) := by
  induction xs generalizing lo with
  | nil => exact h
  | cons x xs ih =>
    obtain ⟨h1, h2, h3⟩ := h
    refine ⟨?_, ?_, ?_⟩
    · rw [(hf x).1]; exact h1
    · rw [(hf x).1, (hf x).2]; exact h2
    · rw [(hf x).2]; exact ih h3

end AdamOS.Layout
