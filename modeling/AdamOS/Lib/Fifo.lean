import Mathlib.Data.List.Basic

/-! Bounded first-in first-out queues. An implementation is a function on states; it is one if every
operation delivers what the list of `cap` places delivers. -/
namespace AdamOS.Fifo
variable {α σ : Type*} {cap : Nat}

inductive Op (α : Type*) where
  | push (a : α)
  | pop

/- A full queue takes nothing, an empty one delivers nothing. -/
def bounded (cap : Nat) : Op α → List α → Option α × List α
  | .push a, q => (none, if q.length < cap then q ++ [a] else q)
  | .pop, q => (q.head?, q.tail)

def perform (f : Op α → σ → Option α × σ) : List (Op α) → σ → List α × σ
  | [], s => ([], s)
  | op :: ops, s =>
    let r := f op s
    let rest := perform f ops r.2
    (r.1.toList ++ rest.1, rest.2)

/- The pushes of a run that find room. -/
def accepted (f : Op α → σ → Option α × σ) (room : σ → Bool) : List (Op α) → σ → List α
  | [], _ => []
  | .push a :: ops, s => (if room s then [a] else []) ++ accepted f room ops (f (.push a) s).2
  | .pop :: ops, s => accepted f room ops (f .pop s).2

/-- What was in the queue and what it took is what it delivered and what is left. -/
theorem bounded_order (ops : List (Op α)) (q : List α) :
    (perform (bounded cap) ops q).1 ++ (perform (bounded cap) ops q).2 =
      q ++ accepted (bounded cap) (fun q => decide (q.length < cap)) ops q := by
  induction ops generalizing q with
  | nil => simp [perform, accepted]
  | cons op ops ih =>
    cases op with
    | push a =>
      rw [perform, accepted]
      by_cases hroom : q.length < cap
      · simp [bounded, hroom, ih]
      · simp [bounded, hroom, ih]
    | pop =>
      rw [perform, accepted]
      cases q with
      | nil => simp [bounded, ih]
      | cons x xs => simp [bounded, ih]

section Simulation
variable {f : Op α → σ → Option α × σ} {room : σ → Bool} {R : σ → List α → Prop}

/-- An implementation that agrees on every operation agrees on every run. -/
theorem perform_simulates
    (hstep : ∀ op s q, R s q → (f op s).1 = (bounded cap op q).1 ∧ R (f op s).2 (bounded cap op q).2)
    (ops : List (Op α)) {s : σ} {q : List α} (h : R s q) :
    (perform f ops s).1 = (perform (bounded cap) ops q).1 ∧
      R (perform f ops s).2 (perform (bounded cap) ops q).2 := by
  induction ops generalizing s q with
  | nil => exact ⟨rfl, h⟩
  | cons op ops ih =>
    obtain ⟨hout, hnext⟩ := hstep op s q h
    obtain ⟨hrest, hend⟩ := ih hnext
    rw [perform, perform]
    exact ⟨by rw [hout, hrest], hend⟩

theorem accepted_simulates
    (hstep : ∀ op s q, R s q → (f op s).1 = (bounded cap op q).1 ∧ R (f op s).2 (bounded cap op q).2)
    (hroom : ∀ s q, R s q → room s = decide (q.length < cap)) (ops : List (Op α)) {s : σ} {q : List α}
    (h : R s q) : accepted f room ops s =
      accepted (bounded cap) (fun q => decide (q.length < cap)) ops q := by
  induction ops generalizing s q with
  | nil => rfl
  | cons op ops ih =>
    have hrest := ih (hstep op s q h).2
    cases op with
    | push a => rw [accepted, accepted, hroom s q h, hrest]
    | pop => rw [accepted, accepted, hrest]

/-- What the implementation delivered, with what the list still holds, is what it took. -/
theorem delivers_accepted
    (hstep : ∀ op s q, R s q → (f op s).1 = (bounded cap op q).1 ∧ R (f op s).2 (bounded cap op q).2)
    (hroom : ∀ s q, R s q → room s = decide (q.length < cap)) (ops : List (Op α)) {s : σ}
    (h : R s []) : (perform f ops s).1 ++ (perform (bounded cap) ops []).2 = accepted f room ops s := by
  rw [(perform_simulates hstep ops h).1, bounded_order, List.nil_append,
    accepted_simulates hstep hroom ops h]

end Simulation
end AdamOS.Fifo
