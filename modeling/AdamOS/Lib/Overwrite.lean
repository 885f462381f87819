import AdamOS.Lib.Loop

/-! Programs that give the cells of a set one value, or each a value of its own, and leave every other
cell alone. -/
namespace AdamOS.Overwrite
open AdamOS.Loop
variable {σ ι β : Type*} {valid : σ → Prop} {read : σ → ι → β} {v : β} {S T : ι → Prop} {f g : σ → σ}

structure Overwrites (valid : σ → Prop) (read : σ → ι → β) (v : β) (S : ι → Prop) (f : σ → σ) :
    Prop where
  keeps {s : σ} : valid s → valid (f s)
  inside {s : σ} {i : ι} : valid s → S i → read (f s) i = v
  outside {s : σ} {i : ι} : valid s → ¬S i → read (f s) i = read s i

theorem overwrites_nothing : Overwrites valid read v (fun _ => False) fun s => s where
  keeps hs := hs
  inside _ h := h.elim
  outside _ _ := rfl

theorem Overwrites.of_iff (h : Overwrites valid read v S f) (hST : ∀ i, S i ↔ T i) :
    Overwrites valid read v T f where
  keeps := h.keeps
  inside hs hT := h.inside hs ((hST _).mpr hT)
  outside hs hT := h.outside hs fun hS => hT ((hST _).mp hS)

theorem Overwrites.of_eq (h : Overwrites valid read v S g) (hfg : ∀ s, valid s → f s = g s) :
    Overwrites valid read v S f where
  keeps hs := hfg _ hs ▸ h.keeps hs
  inside hs hS := hfg _ hs ▸ h.inside hs hS
  outside hs hS := hfg _ hs ▸ h.outside hs hS

theorem Overwrites.after (h : Overwrites valid read v S f) (hkeep : ∀ s, valid s → valid (g s))
    (hsame : ∀ s, valid s → ∀ i, read (g s) i = read s i) :
    Overwrites valid read v S fun s => f (g s) where
  keeps hs := h.keeps (hkeep _ hs)
  inside hs hS := h.inside (hkeep _ hs) hS
  outside hs hS := (h.outside (hkeep _ hs) hS).trans (hsame _ hs _)

theorem overwrites_of_empty (hS : ∀ i, ¬S i) : Overwrites valid read v S fun s => s :=
  overwrites_nothing.of_iff fun i => iff_of_false id (hS i)

/-- The rounds of a loop overwrite the union of what each of them overwrites. -/
theorem overwrites_loop {n : Nat} {body : Nat → σ → σ} {S : Nat → ι → Prop}
    (h : ∀ k < n, Overwrites valid read v (S k) (body k)) :
    Overwrites valid read v (fun i => ∃ k < n, S k i) (loop n body) := by
  induction n with
  | zero => exact overwrites_of_empty fun i ⟨k, hk, _⟩ => Nat.not_lt_zero k hk
  | succ n ih =>
    have hn := ih fun k hk => h k (Nat.lt_succ_of_lt hk)
    have hlast := h n (Nat.lt_succ_self n)
    refine ⟨fun hs => hlast.keeps (hn.keeps hs), fun {s i} hs hS => ?_, fun {s i} hs hS => ?_⟩
    · rw [loop_succ]
      by_cases hnow : S n i
      · exact hlast.inside (hn.keeps hs) hnow
      · rw [hlast.outside (hn.keeps hs) hnow]
        obtain ⟨k, hk, hSk⟩ := hS
        have hne : k ≠ n := fun he => hnow (he ▸ hSk)
        exact hn.inside hs ⟨k, Nat.lt_of_le_of_ne (Nat.le_of_lt_succ hk) hne, hSk⟩
    · rw [loop_succ, hlast.outside (hn.keeps hs) fun hnow => hS ⟨n, Nat.lt_succ_self n, hnow⟩]
      exact hn.outside hs fun ⟨k, hk, hSk⟩ => hS ⟨k, Nat.lt_succ_of_lt hk, hSk⟩

/-- Two programs agree on every state if and only if they overwrite the same cells; one state
without the value tells them apart. -/
theorem Overwrites.agree_iff (hf : Overwrites valid read v S f) (hg : Overwrites valid read v T g)
    {blank : σ} (hblank : valid blank) (hv : ∀ i, read blank i ≠ v) :
    (∀ s, valid s → ∀ i, read (f s) i = read (g s) i) ↔ ∀ i, S i ↔ T i := by
  constructor
  · intro hagree i
    have hi := hagree blank hblank i
    constructor
    · intro hS
      refine Classical.byContradiction fun hT => ?_
      rw [hf.inside hblank hS, hg.outside hblank hT] at hi
      exact hv i hi.symm
    · intro hT
      refine Classical.byContradiction fun hS => ?_
      rw [hf.outside hblank hS, hg.inside hblank hT] at hi
      exact hv i hi
  · intro hST s hs i
    by_cases hS : S i
    · rw [hf.inside hs hS, hg.inside hs ((hST i).mp hS)]
    · rw [hf.outside hs hS, hg.outside hs fun hT => hS ((hST i).mpr hT)]

/-! ### Cells with values of their own -/

/- The cells of S get values that do not depend on the state. -/
def Stamps (read : σ → ι → β) (S : ι → Prop) (f : σ → σ) : Prop :=
  ∃ v : ι → β, ∀ s i, (S i → read (f s) i = v i) ∧ (¬S i → read (f s) i = read s i)

theorem Stamps.of_iff (h : Stamps read S f) (hST : ∀ i, S i ↔ T i) : Stamps read T f := by
  obtain ⟨v, hv⟩ := h
  exact ⟨v, fun s i => ⟨fun hT => (hv s i).1 ((hST i).mpr hT), fun hT => (hv s i).2 fun hS => hT ((hST i).mp hS)⟩⟩

theorem Stamps.of_eq (h : Stamps read S g) (hfg : ∀ s i, read (f s) i = read (g s) i) : Stamps read S f := by
  obtain ⟨v, hv⟩ := h
  exact ⟨v, fun s i => by rw [hfg]; exact hv s i⟩

theorem stamps_nothing (β₀ : β) : Stamps read (fun _ : ι => False) fun s => s :=
  ⟨fun _ => β₀, fun _ _ => ⟨False.elim, fun _ => rfl⟩⟩

/-- A second program adds its cells to those of the first. -/
theorem Stamps.andThen (hf : Stamps read S f) (hg : Stamps read T g) :
    Stamps read (fun i => S i ∨ T i) fun s => g (f s) := by
  classical
  obtain ⟨v, hv⟩ := hf
  obtain ⟨w, hw⟩ := hg
  refine ⟨fun i => if T i then w i else v i, fun s i => ⟨fun hST => ?_, fun hST => ?_⟩⟩
  · dsimp only
    by_cases hT : T i
    · rw [if_pos hT, (hw _ i).1 hT]
    · rw [if_neg hT, (hw _ i).2 hT, (hv s i).1 (hST.resolve_right hT)]
  · dsimp only
    rw [(hw _ i).2 fun hT => hST (.inr hT), (hv s i).2 fun hS => hST (.inl hS)]

/-- What a second program overwrites may lie inside the cells of the first. -/
theorem Stamps.over (hf : Stamps read S f) (hg : Stamps read T g) (hTS : ∀ i, T i → S i) :
    Stamps read S fun s => g (f s) :=
  (hf.andThen hg).of_iff fun i => ⟨fun h => h.elim id (hTS i), .inl⟩

theorem stamps_loop (β₀ : β) {n : Nat} {body : Nat → σ → σ} {S : Nat → ι → Prop}
    (h : ∀ k < n, Stamps read (S k) (body k)) :
    Stamps read (fun i => ∃ k < n, S k i) (loop n body) := by
  induction n with
  | zero => exact (stamps_nothing β₀).of_iff fun i => by simp
  | succ n ih =>
    refine ((ih fun k hk => h k (Nat.lt_succ_of_lt hk)).andThen (h n (Nat.lt_succ_self n))).of_iff fun i => ?_
    constructor
    · rintro (⟨k, hk, hS⟩ | hS)
      · exact ⟨k, Nat.lt_succ_of_lt hk, hS⟩
      · exact ⟨n, Nat.lt_succ_self n, hS⟩
    · rintro ⟨k, hk, hS⟩
      rcases Nat.lt_succ_iff_lt_or_eq.mp hk with hlt | rfl
      · exact .inl ⟨k, hlt, hS⟩
      · exact .inr hS

/-- Two states that differ in a cell agree there afterwards if and only if the cell was overwritten. -/
theorem Stamps.agree_at_iff (h : Stamps read S f) {a b : σ} {i : ι} (hne : read a i ≠ read b i) :
    read (f a) i = read (f b) i ↔ S i := by
  obtain ⟨v, hv⟩ := h
  constructor
  · intro he
    refine Classical.byContradiction fun hS => ?_
    rw [(hv a i).2 hS, (hv b i).2 hS] at he
    exact hne he
  · intro hS
    rw [(hv a i).1 hS, (hv b i).1 hS]

end AdamOS.Overwrite
