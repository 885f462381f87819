import Mathlib.Data.List.Basic

/-! Runs of a partial step function. A guard restricts the steps a run may take;
`none` is a step that does not return (the machine halts or leaves defined behaviour). -/
namespace AdamOS.Transition
variable {σ ε : Type*} {step : σ → ε → Option σ} {guard : σ → ε → Prop} {start : σ}

/-- The states reached by runs all of whose steps meet the guard. -/
inductive Reach (step : σ → ε → Option σ) (guard : σ → ε → Prop) (start : σ) : σ → Prop
  | refl : Reach step guard start start
  | tail {s t : σ} (e : ε) :
      Reach step guard start s → guard s e → step s e = some t → Reach step guard start t

def anyStep (_ : σ) (_ : ε) : Prop := True

instance (s : σ) (e : ε) : Decidable (anyStep s e) := .isTrue trivial

/-- What holds at the start and is kept by every guarded step holds in every reached state. -/
theorem Reach.invariant (inv : σ → Prop) {s : σ} (h : Reach step guard start s)
    (h0 : inv start)
    (hs : ∀ s e t, inv s → guard s e → step s e = some t → inv t) : inv s := by
  induction h with
  | refl => exact h0
  | tail e _ hg he ih => exact hs _ e _ ih hg he

theorem Reach.mono {guard' : σ → ε → Prop} {s : σ} (h : Reach step guard start s)
    (hg : ∀ s e, guard s e → guard' s e) : Reach step guard' start s := by
  induction h with
  | refl => exact .refl
  | tail e _ h he ih => exact .tail e ih (hg _ e h) he

/-- A run seen through a function that takes every step to a step or leaves nothing of it to see. -/
theorem Reach.image {τ δ : Type*} {step' : τ → δ → Option τ} {f : σ → τ} {s : σ}
    (h : Reach step guard start s)
    (hs : ∀ s e t, step s e = some t → f t = f s ∨ ∃ d, step' (f s) d = some (f t)) :
    Reach step' anyStep (f start) (f s) := by
  induction h with
  | refl => exact .refl
  | tail e _ _ he ih =>
    rcases hs _ e _ he with hsame | ⟨d, hd⟩
    · exact hsame ▸ ih
    · exact .tail d ih trivial hd

def run (step : σ → ε → Option σ) : List ε → σ → Option σ
  | [], s => some s
  | e :: es, s => (step s e).bind (run step es)

def Guarded (step : σ → ε → Option σ) (guard : σ → ε → Prop) : List ε → σ → Prop
  | [], _ => True
  | e :: es, s => guard s e ∧ ∀ t ∈ step s e, Guarded step guard es t

instance guardedDecidable [∀ s e, Decidable (guard s e)] :
    ∀ (es : List ε) (s : σ), Decidable (Guarded step guard es s)
  | [], _ => .isTrue trivial
  | e :: es, s =>
    have : Decidable (∀ t ∈ step s e, Guarded step guard es t) :=
      match step s e with
      | none => .isTrue (by simp)
      | some t => @decidable_of_iff _ (Guarded step guard es t) (by simp) (guardedDecidable es t)
    inferInstanceAs (Decidable (_ ∧ _))

theorem guarded_anyStep (es : List ε) (s : σ) : Guarded step anyStep es s := by
  induction es generalizing s with
  | nil => trivial
  | cons e es ih => exact ⟨trivial, fun t _ => ih t⟩

theorem guarded_of_forall {g : ε → Prop} (es : List ε) (h : ∀ e ∈ es, g e) (s : σ) :
    Guarded step (fun _ => g) es s := by
  induction es generalizing s with
  | nil => trivial
  | cons e es ih =>
    exact ⟨h e List.mem_cons_self, fun t _ => ih (fun e he => h e (List.mem_cons_of_mem _ he)) t⟩

/-- Two guards that agree where an invariant of the runs holds allow the same runs. -/
theorem guarded_iff {guard' : σ → ε → Prop} (inv : σ → Prop) (h : ∀ s e, inv s → (guard s e ↔ guard' s e))
    (hs : ∀ s e t, inv s → guard' s e → step s e = some t → inv t) (es : List ε) {s : σ} (h0 : inv s) :
    Guarded step guard es s ↔ Guarded step guard' es s := by
  induction es generalizing s with
  | nil => exact Iff.rfl
  | cons e es ih =>
    constructor
    · rintro ⟨hg, hrest⟩
      have hg' := (h s e h0).mp hg
      exact ⟨hg', fun t ht => (ih (hs s e t h0 hg' ht)).mp (hrest t ht)⟩
    · rintro ⟨hg', hrest⟩
      exact ⟨(h s e h0).mpr hg', fun t ht => (ih (hs s e t h0 hg' ht)).mpr (hrest t ht)⟩

theorem Reach.trans {s t : σ} (h : Reach step guard start s) (h' : Reach step guard s t) :
    Reach step guard start t := by
  induction h' with
  | refl => exact h
  | tail e _ hg he ih => exact .tail e ih hg he

theorem reach_of_run (es : List ε) {s t : σ} (hg : Guarded step guard es s)
    (h : run step es s = some t) : Reach step guard s t := by
  induction es generalizing s with
  | nil => cases h; exact .refl
  | cons e es ih =>
    obtain ⟨u, hu, ht⟩ := Option.bind_eq_some_iff.mp h
    exact (Reach.tail e .refl hg.1 hu).trans (ih (hg.2 u hu) ht)

/-- A test that holds where a run ends holds in a reachable state. -/
theorem reach_of_test {P : σ → Prop} [DecidablePred P] (es : List ε) {s : σ}
    (hg : Guarded step guard es s) (h : (run step es s).any fun t => decide (P t)) :
    ∃ t, Reach step guard s t ∧ P t := by
  obtain ⟨t, ht, hp⟩ := (Option.any_eq_true _ _).mp h
  exact ⟨t, reach_of_run es hg ht, of_decide_eq_true hp⟩

end AdamOS.Transition
