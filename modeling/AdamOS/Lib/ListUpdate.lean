import Mathlib.Algebra.GroupWithZero.Nat
import Mathlib.Data.List.Basic
import Mathlib.Data.List.Nodup
import Mathlib.Data.List.Perm.Basic

/-! Changes to the first element of a list that meets a test. Where every element has a key of
its own, a change in place is a map and a removal is a filter. -/
namespace AdamOS.ListUpdate
variable {α β : Type*}

def updateFirst (q : α → Bool) (f : α → α) : List α → List α
  | [] => []
  | x :: xs => if q x then f x :: xs else x :: updateFirst q f xs

def firstKey (key : α → β) (q : α → Bool) (xs : List α) : Option β := (xs.find? q).map key

theorem firstKey_mem {key : α → β} {q : α → Bool} {xs : List α} {k : β}
    (h : firstKey key q xs = some k) : ∃ x ∈ xs, key x = k ∧ q x := by
  obtain ⟨x, hx, rfl⟩ := Option.map_eq_some_iff.mp h
  exact ⟨x, List.mem_of_find?_eq_some hx, rfl, List.find?_some hx⟩

theorem firstKey_map {key : α → β} {q : α → Bool} {f : α → α} {xs : List α}
    (h : ∀ x ∈ xs, key (f x) = key x ∧ q (f x) = q x) :
    firstKey key q (xs.map f) = firstKey key q xs := by
  induction xs with
  | nil => rfl
  | cons x xs ih =>
    have hx := h x List.mem_cons_self
    by_cases hq : q x
    · simp [firstKey, hq, hx]
    · simpa [firstKey, hq, hx] using ih fun y hy => h y (List.mem_cons_of_mem _ hy)

theorem updateFirst_field {key : α → β} {q : α → Bool} {f : α → α} (h : ∀ x, key (f x) = key x)
    (xs : List α) : (updateFirst q f xs).map key = xs.map key := by
  induction xs with
  | nil => rfl
  | cons x xs ih =>
    rw [updateFirst]
    split
    · rw [List.map_cons, List.map_cons, h]
    · rw [List.map_cons, List.map_cons, ih]

/-- An update that finds an element it keeps, or finds none. -/
theorem updateFirst_same {q : α → Bool} {f : α → α} {xs : List α} :
    updateFirst q f xs = xs ↔ ∀ x, xs.find? q = some x → f x = x := by
  induction xs with
  | nil => exact iff_of_true rfl fun _ h => by cases h
  | cons x xs ih =>
    rw [updateFirst]
    by_cases hq : q x
    · rw [if_pos hq, List.find?_cons_of_pos hq, List.cons_eq_cons, and_iff_left rfl]
      exact ⟨fun h y hy => Option.some.inj hy ▸ h, fun h => h x rfl⟩
    · rw [if_neg hq, List.find?_cons_of_neg hq, List.cons_eq_cons, and_iff_right rfl]
      exact ih

/-- A sum over the list changes by what the element found changes. -/
theorem updateFirst_sum {q : α → Bool} {f : α → α} {g : α → Nat} {xs : List α} {x : α}
    (h : xs.find? q = some x) :
    ((updateFirst q f xs).map g).sum + g x = (xs.map g).sum + g (f x) := by
  induction xs with
  | nil => cases h
  | cons y ys ih =>
    rw [updateFirst]
    by_cases hq : q y
    · rw [List.find?_cons_of_pos hq] at h
      cases h
      rw [if_pos hq, List.map_cons, List.map_cons, List.sum_cons, List.sum_cons]
      omega
    · rw [List.find?_cons_of_neg hq] at h
      have hrest := ih h
      rw [if_neg hq, List.map_cons, List.map_cons, List.sum_cons, List.sum_cons]
      omega

theorem map_of_forall {f : α → α} {xs : List α} (h : ∀ x ∈ xs, f x = x) : xs.map f = xs :=
  (List.map_congr_left h).trans (List.map_id xs)

/-- With distinct keys a test that only one key passes is passed at most once. -/
theorem countP_le_one {key : α → β} {q : α → Bool} {xs : List α} (hn : (xs.map key).Nodup)
    (h : ∀ x ∈ xs, ∀ y ∈ xs, q x → q y → key x = key y) : xs.countP q ≤ 1 := by
  have hpassed : ((xs.filter q).map key).Nodup := hn.sublist (List.filter_sublist.map key)
  rw [List.countP_eq_length_filter]
  cases hf : xs.filter q with
  | nil => exact Nat.zero_le 1
  | cons x ys =>
    cases ys with
    | nil => exact Nat.le_refl 1
    | cons y zs =>
      rw [hf] at hpassed
      have hx := List.mem_filter.mp (hf ▸ List.mem_cons_self : x ∈ xs.filter q)
      have hy := List.mem_filter.mp
        (hf ▸ List.mem_cons_of_mem x List.mem_cons_self : y ∈ xs.filter q)
      have hkey := h x hx.1 y hy.1 hx.2 hy.2
      exact absurd (hkey ▸ List.mem_cons_self) (List.nodup_cons.mp hpassed).1

theorem eraseP_perm {q : α → Bool} {xs : List α} {x : α} (h : xs.find? q = some x) :
    xs.Perm (x :: xs.eraseP q) := by
  induction xs with
  | nil => cases h
  | cons y ys ih =>
    by_cases hq : q y
    · rw [List.find?_cons_of_pos hq] at h
      cases h
      rw [List.eraseP_cons_of_pos hq]
    · rw [List.find?_cons_of_neg hq] at h
      rw [List.eraseP_cons_of_neg hq]
      exact ((ih h).cons y).trans (.swap x y _)

/-- Replacing an element exchanges what the two contribute. -/
theorem flatMap_set_perm (f : α → List β) {xs : List α} {i : Nat} {x : α} (h : xs[i]? = some x) (y : α) :
    (f y ++ xs.flatMap f).Perm (f x ++ (xs.set i y).flatMap f) := by
  induction xs generalizing i with
  | nil => cases h
  | cons z zs ih =>
    cases i with
    | zero =>
      cases h
      exact List.perm_append_comm_assoc ..
    | succ i =>
      calc (f y ++ (f z ++ zs.flatMap f)).Perm (f z ++ (f y ++ zs.flatMap f)) :=
            List.perm_append_comm_assoc ..
        _ |>.Perm (f z ++ (f x ++ (zs.set i y).flatMap f)) := (ih h).append_left _
        _ |>.Perm (f x ++ (f z ++ (zs.set i y).flatMap f)) := List.perm_append_comm_assoc ..

theorem firstKey_cons_pos {key : α → β} {q : α → Bool} {x : α} (xs : List α) (h : q x) :
    firstKey key q (x :: xs) = some (key x) := by simp [firstKey, h]

theorem firstKey_cons_neg {key : α → β} {q : α → Bool} {x : α} (xs : List α) (h : ¬q x) :
    firstKey key q (x :: xs) = firstKey key q xs := by simp [firstKey, h]

theorem firstKey_ne {key : α → β} {q : α → Bool} {xs : List α} {k : β} (h : ∀ x ∈ xs, k ≠ key x) :
    firstKey key q xs ≠ some k := by
  intro he
  obtain ⟨x, hx, hxk, -⟩ := firstKey_mem he
  exact h x hx hxk.symm

section Key
variable [DecidableEq β] {key : α → β}

/-- With distinct keys a search by key finds the element that has it. -/
theorem find?_key {xs : List α} (hn : (xs.map key).Nodup) {x : α} (hx : x ∈ xs) :
    xs.find? (fun y => decide (key y = key x)) = some x := by
  cases hf : xs.find? (fun y => decide (key y = key x)) with
  | none => simpa using List.find?_eq_none.mp hf x hx
  | some y =>
    have hk : key y = key x := by simpa using List.find?_some hf
    rw [List.inj_on_of_nodup_map hn (List.mem_of_find?_eq_some hf) hx hk]

/-- With distinct keys an update of the first match is an update by key. -/
theorem updateFirst_eq_map {q : α → Bool} {f : α → α} {xs : List α}
    (hn : (xs.map key).Nodup) : updateFirst q f xs =
      xs.map fun x => if firstKey key q xs = some (key x) then f x else x := by
  induction xs with
  | nil => rfl
  | cons y ys ih =>
    have hy : key y ∉ ys.map key := (List.nodup_cons.mp hn).1
    have hne : ∀ x ∈ ys, key y ≠ key x := fun x hx he => hy (he ▸ List.mem_map_of_mem hx)
    by_cases h : q y
    · rw [updateFirst, if_pos h, firstKey_cons_pos ys h, List.map_cons, if_pos rfl,
        map_of_forall fun x hx => if_neg fun he => hne x hx (Option.some.inj he)]
    · rw [updateFirst, if_neg h, firstKey_cons_neg ys h, List.map_cons, if_neg (firstKey_ne hne),
        ih (List.nodup_cons.mp hn).2]

/-- With distinct keys removing the first match is removing a key. -/
theorem eraseP_eq_filter {q : α → Bool} {xs : List α} (hn : (xs.map key).Nodup) :
    xs.eraseP q = xs.filter fun x => decide (firstKey key q xs ≠ some (key x)) := by
  induction xs with
  | nil => rfl
  | cons y ys ih =>
    have hy : key y ∉ ys.map key := (List.nodup_cons.mp hn).1
    have hne : ∀ x ∈ ys, key y ≠ key x := fun x hx he => hy (he ▸ List.mem_map_of_mem hx)
    by_cases h : q y
    · rw [List.eraseP_cons_of_pos h, firstKey_cons_pos ys h, List.filter_cons_of_neg (by simp)]
      exact (List.filter_eq_self.mpr fun x hx => by simp [hne x hx]).symm
    · have hkept : firstKey key q ys ≠ some (key y) := firstKey_ne hne
      rw [List.eraseP_cons_of_neg h, firstKey_cons_neg ys h, List.filter_cons_of_pos (by simpa using hkept),
        ih (List.nodup_cons.mp hn).2]

/-- With distinct keys an element can be taken out by its key. -/
theorem filter_key_perm {xs : List α} (hn : (xs.map key).Nodup) {x : α} (hx : x ∈ xs) :
    xs.Perm (x :: xs.filter fun y => decide (key y ≠ key x)) := by
  have hfind := find?_key hn hx
  have hkey : firstKey key (fun y => decide (key y = key x)) xs = some (key x) := by
    rw [firstKey, hfind, Option.map_some]
  have hp := eraseP_perm hfind
  rw [eraseP_eq_filter hn, hkey] at hp
  refine hp.trans (List.Perm.of_eq (congrArg (List.cons x) (List.filter_congr fun y _ => ?_)))
  simp [eq_comm]

/-- With distinct keys a removal by key shortens the list by one. -/
theorem length_filter_key {xs : List α} (hn : (xs.map key).Nodup) {x : α} (hx : x ∈ xs) :
    (xs.filter fun y => decide (some (key x) ≠ some (key y))).length + 1 = xs.length := by
  induction xs with
  | nil => cases hx
  | cons y ys ih =>
    have hy : key y ∉ ys.map key := (List.nodup_cons.mp hn).1
    cases List.mem_cons.mp hx with
    | inl he =>
      subst he
      have hall : ∀ z ∈ ys, decide (some (key x) ≠ some (key z)) := by
        intro z hz
        have hne : key x ≠ key z := fun h => hy (h ▸ List.mem_map_of_mem hz)
        simpa using hne
      rw [List.filter_cons_of_neg (by simp), List.filter_eq_self.mpr hall, List.length_cons]
    | inr hm =>
      have hne : key x ≠ key y := fun h => hy (h ▸ List.mem_map_of_mem hm)
      rw [List.filter_cons_of_pos (by simpa using hne), List.length_cons, List.length_cons,
        ih (List.nodup_cons.mp hn).2 hm]

end Key
end AdamOS.ListUpdate
