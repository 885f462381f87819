import Mathlib.Data.List.Nodup
import Mathlib.Data.List.Perm.Subperm
import Mathlib.Logic.Function.Iterate

/-! The orbit of a number under a function. An orbit that stays below a bound for as many steps
as there are numbers below it runs in a circle and stays there for good. -/
namespace AdamOS.Orbit
variable {f : Nat → Nat} {c n i j : Nat}

/-- Among n + 1 numbers below n two are the same. -/
theorem iterate_repeats (h : ∀ k ≤ n, f^[k] c < n) : ∃ i j, i < j ∧ j ≤ n ∧ f^[i] c = f^[j] c := by
  by_contra hne
  have hinj : ∀ i j, i < j → j ≤ n → f^[i] c ≠ f^[j] c := fun i j hij hj he =>
    hne ⟨i, j, hij, hj, he⟩
  have hnodup : ((List.range (n + 1)).map fun k => f^[k] c).Nodup := by
    refine List.Nodup.map_on (fun i hi j hj he => ?_) List.nodup_range
    have hi := List.mem_range.mp hi
    have hj := List.mem_range.mp hj
    rcases Nat.lt_trichotomy i j with hij | hij | hij
    · exact absurd he (hinj i j hij (by omega))
    · exact hij
    · exact absurd he.symm (hinj j i hij (by omega))
  have hsub : ((List.range (n + 1)).map fun k => f^[k] c) ⊆ List.range n := fun x hx => by
    obtain ⟨k, hk, rfl⟩ := List.mem_map.mp hx
    exact List.mem_range.mpr (h k (Nat.le_of_lt_succ (List.mem_range.mp hk)))
  have hlen := (hnodup.subperm hsub).length_le
  rw [List.length_map, List.length_range, List.length_range] at hlen
  omega

/-- After a repetition nothing new comes. -/
theorem iterate_confined (hij : i < j) (h : f^[i] c = f^[j] c) (k : Nat) :
    ∃ m < j, f^[k] c = f^[m] c := by
  induction k with
  | zero => exact ⟨0, Nat.zero_lt_of_lt hij, rfl⟩
  | succ k ih =>
    obtain ⟨m, hm, he⟩ := ih
    have hstep : f^[k + 1] c = f^[m + 1] c := by
      rw [Function.iterate_succ_apply', he, Function.iterate_succ_apply']
    rcases Nat.lt_or_eq_of_le (Nat.succ_le_of_lt hm) with hlt | hlast
    · exact ⟨m + 1, hlt, hstep⟩
    · exact ⟨i, hij, by rw [hstep, h, ← hlast]⟩

/-- An orbit that leaves the bound leaves it within n steps. -/
theorem iterate_lt (h : ∀ k ≤ n, f^[k] c < n) (k : Nat) : f^[k] c < n := by
  obtain ⟨i, j, hij, hj, he⟩ := iterate_repeats h
  obtain ⟨m, hm, hk⟩ := iterate_confined hij he k
  rw [hk]
  exact h m (by omega)

end AdamOS.Orbit
