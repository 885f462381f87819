import Mathlib.Data.Option.Basic

/-! Programs of operations and loops. `Runs` is the meaning of a run that ends, `step` the run
itself, one operation or one test of a loop at a time; both say the same of every program. -/
namespace AdamOS.Structured
variable {ι σ τ : Type*}

/-! Steps of a machine and of two machines side by side. -/

/- The state after n steps; none when the machine stops before. -/
def runFor (step : σ → Option σ) : Nat → σ → Option σ
  | 0, s => some s
  | n + 1, s => (step s).bind (runFor step n)

theorem runFor_succ {step : σ → Option σ} {n : Nat} {s t : σ} (h : step s = some t) :
    runFor step (n + 1) s = runFor step n t := by
  rw [runFor, h]
  rfl

theorem runFor_add {step : σ → Option σ} {m n : Nat} {s t : σ} (h : runFor step m s = some t) :
    runFor step (m + n) s = runFor step n t := by
  induction m generalizing s with
  | zero =>
    obtain rfl : s = t := Option.some.inj h
    rw [Nat.zero_add]
  | succ m ih =>
    obtain ⟨u, hu, ht⟩ := Option.bind_eq_some_iff.mp h
    rw [Nat.succ_add, runFor_succ hu, ih ht]

theorem rel_some {R : σ → τ → Prop} {s : σ} {y : Option τ} (h : Option.Rel R (some s) y) :
    ∃ t, y = some t ∧ R s t := by
  cases h with
  | some h => exact ⟨_, rfl, h⟩

theorem some_rel {R : σ → τ → Prop} {x : Option σ} {t : τ} (h : Option.Rel R x (some t)) :
    ∃ s, x = some s ∧ R s t := by
  cases h with
  | some h => exact ⟨_, rfl, h⟩

theorem rel_mono {R Q : σ → τ → Prop} {x : Option σ} {y : Option τ} (h : Option.Rel R x y)
    (hq : ∀ s t, R s t → Q s t) : Option.Rel Q x y := by
  cases h with
  | none => exact .none
  | some h => exact .some (hq _ _ h)

/-- Two machines that keep a relation step by step keep it after every number of steps, and
one stops when the other does. -/
theorem runFor_rel {R : σ → τ → Prop} {step : σ → Option σ} {step' : τ → Option τ}
    (hs : ∀ s t, R s t → Option.Rel R (step s) (step' t)) (n : Nat) {s : σ} {t : τ} (h : R s t) :
    Option.Rel R (runFor step n s) (runFor step' n t) := by
  induction n generalizing s t with
  | zero => exact .some h
  | succ n ih =>
    have hst := hs s t h
    rw [runFor, runFor]
    cases hu : step s with
    | none =>
      rw [hu] at hst
      cases hv : step' t with
      | none => exact .none
      | some v =>
        obtain ⟨u, hu, -⟩ := some_rel (hv ▸ hst)
        cases hu
    | some u =>
      rw [hu] at hst
      obtain ⟨v, hv, huv⟩ := rel_some hst
      rw [hv]
      exact ih huv

/-! The programs. -/

inductive Code (ι : Type*) where
  | nil
  | op (i : ι) (rest : Code ι)
  | loop (body rest : Code ι)
deriving DecidableEq, Repr

def Code.append : Code ι → Code ι → Code ι
  | .nil, k => k
  | .op i c, k => .op i (c.append k)
  | .loop b c, k => .loop b (c.append k)

theorem Code.append_nil (c : Code ι) : c.append .nil = c := by
  induction c with
  | nil => rfl
  | op i c ih => exact congrArg (Code.op i) ih
  | loop body c _ ih => exact congrArg (Code.loop body) ih

theorem Code.append_assoc (a b c : Code ι) : (a.append b).append c = a.append (b.append c) := by
  induction a with
  | nil => rfl
  | op i a ih => exact congrArg (Code.op i) ih
  | loop body a _ ih => exact congrArg (Code.loop body) ih

structure Language (ι σ : Type*) where
  exec : ι → σ → Option σ
  test : σ → Bool

variable {L : Language ι σ} {c k : Code ι} {s t : σ} {n : Nat}

/-- A loop repeats its body while the test holds. -/
inductive Runs (L : Language ι σ) : Code ι → σ → σ → Prop
  | nil (s : σ) : Runs L .nil s s
  | op {i : ι} {c : Code ι} {s t u : σ} :
      L.exec i s = some t → Runs L c t u → Runs L (.op i c) s u
  | leave {b c : Code ι} {s u : σ} :
      L.test s = false → Runs L c s u → Runs L (.loop b c) s u
  | again {b c : Code ι} {s t u : σ} :
      L.test s = true → Runs L b s t → Runs L (.loop b c) t u → Runs L (.loop b c) s u

def step (L : Language ι σ) : Code ι × σ → Option (Code ι × σ)
  | (.nil, _) => none
  | (.op i c, s) => (L.exec i s).map fun t => (c, t)
  | (.loop b c, s) => some (if L.test s then b.append (.loop b c) else c, s)

theorem step_again {b : Code ι} (h : L.test s = true) :
    step L (.loop b c, s) = some (b.append (.loop b c), s) := by
  rw [step, if_pos h]

theorem step_leave {b : Code ι} (h : L.test s = false) : step L (.loop b c, s) = some (c, s) := by
  rw [step, if_neg (by rw [h]; exact Bool.false_ne_true)]

/-- A step of the first part is a step of the whole. -/
theorem step_append {d : Code ι} (h : step L (c, s) = some (d, t)) :
    step L (c.append k, s) = some (d.append k, t) := by
  cases c with
  | nil => cases h
  | op i c =>
    obtain ⟨u, hu, he⟩ := Option.map_eq_some_iff.mp h
    obtain ⟨rfl, rfl⟩ := Prod.mk.inj he
    rw [Code.append, step, hu]
    rfl
  | loop b c =>
    cases ht : L.test s with
    | true =>
      rw [step_again ht] at h
      obtain ⟨rfl, rfl⟩ := Prod.mk.inj (Option.some.inj h)
      rw [Code.append, step_again ht, Code.append_assoc]
      rfl
    | false =>
      rw [step_leave ht] at h
      obtain ⟨rfl, rfl⟩ := Prod.mk.inj (Option.some.inj h)
      exact step_leave ht

theorem runFor_append (h : runFor (step L) n (c, s) = some (.nil, t)) :
    runFor (step L) n (c.append k, s) = some (k, t) := by
  induction n generalizing c s with
  | zero =>
    obtain ⟨rfl, rfl⟩ := Prod.mk.inj (Option.some.inj h)
    rfl
  | succ n ih =>
    obtain ⟨⟨d, u⟩, hu, ht⟩ := Option.bind_eq_some_iff.mp h
    rw [runFor_succ (step_append hu)]
    exact ih ht

/-- A run of two parts that ends has ended the first part on its way. -/
theorem runFor_split (h : runFor (step L) n (c.append k, s) = some (.nil, t)) :
    ∃ m ≤ n, ∃ u, runFor (step L) m (c, s) = some (.nil, u) ∧
      runFor (step L) (n - m) (k, u) = some (.nil, t) := by
  induction n generalizing c s with
  | zero =>
    cases c with
    | nil => exact ⟨0, Nat.le_refl 0, s, rfl, h⟩
    | op i c => cases h
    | loop b c => cases h
  | succ n ih =>
    by_cases hc : c = .nil
    · subst hc
      exact ⟨0, Nat.zero_le _, s, rfl, h⟩
    obtain ⟨⟨d, u⟩, hu, ht⟩ := Option.bind_eq_some_iff.mp h
    have hstep : ∃ d', step L (c, s) = some (d', u) ∧ d = d'.append k := by
      cases c with
      | nil => exact absurd rfl hc
      | op i c =>
        obtain ⟨v, hv, he⟩ := Option.map_eq_some_iff.mp hu
        obtain ⟨rfl, rfl⟩ := Prod.mk.inj he
        exact ⟨c, by rw [step, hv]; rfl, rfl⟩
      | loop b c =>
        obtain ⟨hd, rfl⟩ := Prod.mk.inj (Option.some.inj hu)
        refine ⟨if L.test s then b.append (.loop b c) else c, rfl, hd.symm.trans ?_⟩
        split
        · exact (Code.append_assoc b (.loop b c) k).symm
        · rfl
    obtain ⟨d', hd', rfl⟩ := hstep
    obtain ⟨m, hm, v, hv, hk⟩ := ih ht
    refine ⟨m + 1, Nat.succ_le_succ hm, v, ?_, ?_⟩
    · rw [runFor_succ hd', hv]
    · rwa [Nat.add_sub_add_right]

theorem Runs.ends (h : Runs L c s t) : ∃ n, runFor (step L) n (c, s) = some (.nil, t) := by
  induction h with
  | nil s => exact ⟨0, rfl⟩
  | op he _ ih =>
    obtain ⟨n, hn⟩ := ih
    exact ⟨n + 1, by rw [runFor_succ (t := (_, _)) (by rw [step, he]; rfl), hn]⟩
  | leave ht _ ih =>
    obtain ⟨n, hn⟩ := ih
    exact ⟨n + 1, by rw [runFor_succ (step_leave ht), hn]⟩
  | again ht _ _ ihb ih =>
    obtain ⟨m, hm⟩ := ihb
    obtain ⟨n, hn⟩ := ih
    exact ⟨m + n + 1, by rw [runFor_succ (step_again ht), runFor_add (runFor_append hm), hn]⟩

theorem Runs.of_ends (h : runFor (step L) n (c, s) = some (.nil, t)) :
    Runs L c s t := by
  induction n using Nat.strongRecOn generalizing c s t with
  | _ n ih =>
  cases n with
  | zero =>
    obtain ⟨rfl, rfl⟩ := Prod.mk.inj (Option.some.inj h)
    exact .nil s
  | succ n =>
    cases c with
    | nil => cases h
    | op i c =>
      obtain ⟨⟨d, u⟩, hu, ht⟩ := Option.bind_eq_some_iff.mp h
      obtain ⟨v, hv, he⟩ := Option.map_eq_some_iff.mp hu
      obtain ⟨rfl, rfl⟩ := Prod.mk.inj he
      exact .op hv (ih n (Nat.lt_succ_self n) ht)
    | loop b c =>
      cases htest : L.test s with
      | false =>
        rw [runFor_succ (step_leave htest)] at h
        exact .leave htest (ih n (Nat.lt_succ_self n) h)
      | true =>
        rw [runFor_succ (step_again htest)] at h
        obtain ⟨m, hm, u, hb, hl⟩ := runFor_split h
        exact .again htest (ih m (by omega) hb) (ih (n - m) (by omega) hl)

/-- The run of a program ends exactly in the states its meaning allows. -/
theorem runs_iff : Runs L c s t ↔ ∃ n, runFor (step L) n (c, s) = some (.nil, t) :=
  ⟨Runs.ends, fun ⟨_, h⟩ => Runs.of_ends h⟩

end AdamOS.Structured
