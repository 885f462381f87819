import Mathlib.Data.List.Nodup
import Mathlib.Data.List.Perm.Subperm

/-! Lists of n different ranks from 1 to n: adding a rank on top, taking one out and moving one to
the top keep them so. -/
namespace AdamOS.Ranking
variable {rs : List Nat} {k : Nat}

structure Ranked (rs : List Nat) : Prop where
  nodup : rs.Nodup
  pos : ∀ r ∈ rs, 0 < r
  le : ∀ r ∈ rs, r ≤ rs.length

/-- Such a list is a permutation of 1, ..., n. -/
theorem Ranked.perm (h : Ranked rs) : rs.Perm (List.range' 1 rs.length) := by
  have hsub : rs ⊆ List.range' 1 rs.length := fun r hr => by
    have h1 := h.pos r hr
    have h2 := h.le r hr
    exact List.mem_range'_1.mpr ⟨h1, by omega⟩
  exact (h.nodup.subperm hsub).perm_of_length_le (Nat.le_of_eq List.length_range')

theorem Ranked.nil : Ranked [] :=
  ⟨List.nodup_nil, fun _ h => absurd h List.not_mem_nil, fun _ h => absurd h List.not_mem_nil⟩

theorem Ranked.mem (h : Ranked rs) {i : Nat} (h1 : 0 < i) (hi : i ≤ rs.length) : i ∈ rs :=
  h.perm.mem_iff.mpr (List.mem_range'_1.mpr ⟨h1, by omega⟩)

theorem Ranked.push (h : Ranked rs) : Ranked (rs ++ [rs.length + 1]) := by
  have hlen : (rs ++ [rs.length + 1]).length = rs.length + 1 := List.length_append
  refine ⟨List.nodup_append.mpr ⟨h.nodup, List.nodup_singleton _, ?_⟩, fun r hr => ?_, fun r hr => ?_⟩
  · intro a ha b hb
    have := h.le a ha
    have := List.mem_singleton.mp hb
    omega
  · rcases List.mem_append.mp hr with hr | hr
    · exact h.pos r hr
    · rw [List.mem_singleton.mp hr]
      exact Nat.succ_pos _
  · rw [hlen]
    rcases List.mem_append.mp hr with hr | hr
    · exact Nat.le_succ_of_le (h.le r hr)
    · exact Nat.le_of_eq (List.mem_singleton.mp hr)

def lower (k r : Nat) : Nat := if r > k then r - 1 else r

/-- Taking a rank out leaves the ranks of a shorter list. -/
theorem Ranked.remove (h : Ranked rs) (hk : k ∈ rs) :
    Ranked ((rs.filter fun r => decide (r ≠ k)).map (lower k)) := by
  have hne : ∀ {r}, r ∈ rs.filter (fun r => decide (r ≠ k)) → r ∈ rs ∧ r ≠ k := fun hr => by
    simpa using List.mem_filter.mp hr
  have hkpos := h.pos k hk
  have hkle := h.le k hk
  have hlen : (rs.filter fun r => decide (r ≠ k)).length + 1 = rs.length := by
    have herase : rs.erase k = rs.filter fun r => decide (r ≠ k) := by
      rw [h.nodup.erase_eq_filter]
      congr 1
      funext r
      by_cases hr : r = k <;> simp [hr]
    rw [← herase, List.length_erase_of_mem hk]
    omega
  refine ⟨List.Nodup.map_on (fun a ha b hb he => ?_) (h.nodup.filter _), fun r hr => ?_, fun r hr => ?_⟩
  · have := (hne ha).2
    have := (hne hb).2
    unfold lower at he
    split at he <;> split at he <;> omega
  · obtain ⟨a, ha, rfl⟩ := List.mem_map.mp hr
    have := h.pos a (hne ha).1
    unfold lower
    split <;> omega
  · obtain ⟨a, ha, rfl⟩ := List.mem_map.mp hr
    have := h.le a (hne ha).1
    have := (hne ha).2
    rw [List.length_map]
    unfold lower
    split <;> omega

/-- The rank k goes to the top. -/
theorem Ranked.raise (h : Ranked rs) (hk : k ∈ rs) :
    Ranked (rs.map fun r => if r = k then rs.length else lower k r) := by
  have hkpos := h.pos k hk
  have hkle := h.le k hk
  refine ⟨List.Nodup.map_on (fun a ha b hb he => ?_) h.nodup, fun r hr => ?_, fun r hr => ?_⟩
  · have hale := h.le a ha
    have hble := h.le b hb
    by_cases hak : a = k <;> by_cases hbk : b = k <;>
      simp only [hak, hbk, if_true, if_false, lower] at he
    · rw [hak, hbk]
    · split at he <;> omega
    · split at he <;> omega
    · split at he <;> split at he <;> omega
  · obtain ⟨a, ha, rfl⟩ := List.mem_map.mp hr
    have := h.pos a ha
    unfold lower
    split
    · omega
    · split <;> omega
  · obtain ⟨a, ha, rfl⟩ := List.mem_map.mp hr
    have := h.le a ha
    rw [List.length_map]
    unfold lower
    split
    · exact Nat.le_refl _
    · split <;> omega

end AdamOS.Ranking
