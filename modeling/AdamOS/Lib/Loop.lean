import Mathlib.Data.Nat.Init

/-! A counting loop over a state, and the rule for its invariants. -/
namespace AdamOS.Loop
variable {α : Type*}

/- for (i = 0; i < n; i++) a = body i a -/
def loop : Nat → (Nat → α → α) → α → α
  | 0, _, a => a
  | n+1, body, a => body n (loop n body a)

@[simp] theorem loop_zero (body : Nat → α → α) (a : α) : loop 0 body a = a := rfl

theorem loop_succ (n : Nat) (body : Nat → α → α) (a : α) :
    loop (n + 1) body a = body n (loop n body a) := rfl

/-- What holds before the loop and is carried from each index to the next holds after it. -/
theorem loop_invariant (inv : Nat → α → Prop) {n : Nat} {body : Nat → α → α} {a : α}
    (h0 : inv 0 a) (hs : ∀ i < n, ∀ b, inv i b → inv (i + 1) (body i b)) :
    inv n (loop n body a) := by
  induction n with
  | zero => exact h0
  | succ n ih =>
    have hn := ih fun i hi => hs i (Nat.lt_succ_of_lt hi)
    exact hs n (Nat.lt_succ_self n) _ hn

theorem loop_keeps (inv : α → Prop) {n : Nat} {body : Nat → α → α} {a : α} (h0 : inv a)
    (hs : ∀ i < n, ∀ b, inv b → inv (body i b)) : inv (loop n body a) :=
  loop_invariant (fun _ => inv) h0 hs

/-- Two loops over different states go on in step. -/
theorem loop_relates {β : Type*} (rel : Nat → α → β → Prop) {n : Nat} {f : Nat → α → α}
    {g : Nat → β → β} {a : α} {b : β} (h0 : rel 0 a b)
    (hs : ∀ i < n, ∀ x y, rel i x y → rel (i + 1) (f i x) (g i y)) :
    rel n (loop n f a) (loop n g b) := by
  induction n with
  | zero => exact h0
  | succ n ih =>
    have hn := ih fun i hi => hs i (Nat.lt_succ_of_lt hi)
    exact hs n (Nat.lt_succ_self n) _ _ hn

/-- What each round establishes at its index and no round destroys holds at every index after the
loop. -/
theorem loop_each (inv : α → Prop) (post : Nat → α → Prop) {n : Nat} {body : Nat → α → α} {a : α}
    (h0 : inv a) (hinv : ∀ i < n, ∀ b, inv b → inv (body i b))
    (hset : ∀ i < n, ∀ b, inv b → post i (body i b))
    (hkeep : ∀ i < n, ∀ j < n, ∀ b, inv b → post i b → post i (body j b)) :
    inv (loop n body a) ∧ ∀ i < n, post i (loop n body a) := by
  have h := loop_invariant (fun k b => inv b ∧ ∀ i < k, i < n → post i b) (a := a)
    ⟨h0, fun i hi => absurd hi (Nat.not_lt_zero i)⟩ fun k hk b hb => by
      refine ⟨hinv k hk b hb.1, fun i hi hin => ?_⟩
      rcases Nat.lt_succ_iff_lt_or_eq.mp hi with hlt | he
      · exact hkeep i hin k hk b hb.1 (hb.2 i hlt hin)
      · exact he ▸ hset k hk b hb.1
  exact ⟨h.1, fun i hi => h.2 i hi hi⟩

theorem loop_each_cell (inv : α → Prop) (post : Nat → Nat → α → Prop) {m n : Nat}
    {body : Nat → Nat → α → α} {a : α} (h0 : inv a)
    (hinv : ∀ i < m, ∀ j < n, ∀ b, inv b → inv (body i j b))
    (hset : ∀ i < m, ∀ j < n, ∀ b, inv b → post i j (body i j b))
    (hkeep : ∀ i < m, ∀ j < n, ∀ i' < m, ∀ j' < n, ∀ b, inv b → post i j b → post i j (body i' j' b)) :
    inv (loop m (fun i => loop n (body i)) a) ∧
      ∀ i < m, ∀ j < n, post i j (loop m (fun i => loop n (body i)) a) := by
  have hrow := fun i hi b hb => @loop_each _ inv (post i) n (body i) b hb
    (hinv i hi) (hset i hi) fun j hj j' hj' => hkeep i hi j hj i hi j' hj'
  refine loop_each inv (fun i b => ∀ j < n, post i j b) h0 (fun i hi b hb => (hrow i hi b hb).1)
    (fun i hi b hb => (hrow i hi b hb).2) fun i hi i' hi' b hb hpost j hj => ?_
  have hboth := @loop_keeps _ (fun b => inv b ∧ post i j b) n (body i') b ⟨hb, hpost j hj⟩
    fun j' hj' b h => ⟨hinv i' hi' j' hj' b h.1, hkeep i hi j hj i' hi' j' hj' b h.1 h.2⟩
  exact hboth.2

theorem loop_first (n : Nat) (body : Nat → α → α) (a : α) :
    loop (n + 1) body a = loop n (fun i => body (i + 1)) (body 0 a) := by
  induction n with
  | zero => rfl
  | succ n ih => rw [loop_succ, ih, loop_succ]

/-- The last b rounds taken apart from the others. -/
theorem loop_add (a b : Nat) (body : Nat → α → α) (s : α) :
    loop (a + b) body s = loop b (fun i => body (a + i)) (loop a body s) := by
  induction b with
  | zero => rfl
  | succ b ih => rw [← Nat.add_assoc, loop_succ, ih, loop_succ]

end AdamOS.Loop
