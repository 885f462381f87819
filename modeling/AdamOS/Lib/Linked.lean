import Mathlib.Data.List.Basic

/-! Singly linked lists in a memory: nodes at addresses, each with the address of the next one; 0 ends
a list. -/
namespace AdamOS.Linked
variable {β : Type*} {addr : β → Nat} {next next' : Nat → Nat} {holds holds' : β → Prop}
  {p q : Nat} {xs ys : List β}

/- From p the links lead through the nodes xs, each of which is as described, to q. -/
def Segment (addr : β → Nat) (next : Nat → Nat) (holds : β → Prop) : Nat → List β → Nat → Prop
  | p, [], q => p = q
  | p, x :: xs, q => p = addr x ∧ p ≠ 0 ∧ holds x ∧ Segment addr next holds (next p) xs q

theorem segment_append : Segment addr next holds p (xs ++ ys) q ↔
    ∃ r, Segment addr next holds p xs r ∧ Segment addr next holds r ys q := by
  induction xs generalizing p with
  | nil => exact ⟨fun h => ⟨p, rfl, h⟩, fun ⟨_, hr, h⟩ => hr ▸ h⟩
  | cons x xs ih =>
    constructor
    · rintro ⟨hp, hp0, hx, h⟩
      obtain ⟨r, hxs, hys⟩ := ih.mp h
      exact ⟨r, ⟨hp, hp0, hx, hxs⟩, hys⟩
    · rintro ⟨r, ⟨hp, hp0, hx, hxs⟩, hys⟩
      exact ⟨hp, hp0, hx, ih.mpr ⟨r, hxs, hys⟩⟩

theorem Segment.forall (h : Segment addr next holds p xs q) : ∀ x ∈ xs, holds x := by
  induction xs generalizing p with
  | nil => exact fun x hx => absurd hx List.not_mem_nil
  | cons x xs ih =>
    intro y hy
    rcases List.mem_cons.mp hy with rfl | hy
    · exact h.2.2.1
    · exact ih h.2.2.2 y hy

theorem Segment.map {f : β → β} (h : Segment addr next holds p xs q)
    (hx : ∀ x ∈ xs, addr (f x) = addr x ∧ next' (addr x) = next (addr x) ∧
      (holds x → holds' (f x))) : Segment addr next' holds' p (xs.map f) q := by
  induction xs generalizing p with
  | nil => exact h
  | cons x xs ih =>
    obtain ⟨rfl, hp0, hhold, hrest⟩ := h
    obtain ⟨haddr, hnext, hhold'⟩ := hx x List.mem_cons_self
    refine ⟨haddr.symm, hp0, hhold' hhold, ?_⟩
    rw [hnext]
    exact ih hrest fun y hy => hx y (List.mem_cons_of_mem _ hy)

/-- A segment does not change with memory that is not its nodes'. -/
theorem Segment.congr (h : Segment addr next holds p xs q)
    (hx : ∀ x ∈ xs, next' (addr x) = next (addr x) ∧ (holds x → holds' x)) :
    Segment addr next' holds' p xs q := by
  have hmap := h.map (f := id) fun x hmem => ⟨rfl, hx x hmem⟩
  rwa [List.map_id] at hmap

inductive Reachable (next : Nat → Nat) (p : Nat) : Nat → Prop
  | first : p ≠ 0 → Reachable next p p
  | step {a : Nat} : Reachable next p a → next a ≠ 0 → Reachable next p (next a)

theorem Segment.reachable {head : Nat} (h : Segment addr next holds p xs q)
    (hp : p ≠ 0 → Reachable next head p) : ∀ x ∈ xs, Reachable next head (addr x) := by
  induction xs generalizing p with
  | nil => exact fun x hx => absurd hx List.not_mem_nil
  | cons x xs ih =>
    obtain ⟨rfl, hp0, -, hrest⟩ := h
    intro y hy
    rcases List.mem_cons.mp hy with rfl | hy
    · exact hp hp0
    · exact ih hrest (fun hnext => .step (hp hp0) hnext) y hy

theorem Segment.of_reachable {a : Nat} (h : Segment addr next holds p xs 0)
    (ha : Reachable next p a) : ∃ x ∈ xs, addr x = a := by
  suffices hsplit : ∃ ys x zs, xs = ys ++ x :: zs ∧ addr x = a by
    obtain ⟨ys, x, zs, rfl, hx⟩ := hsplit
    exact ⟨x, by simp, hx⟩
  induction ha with
  | first hp =>
    cases xs with
    | nil => exact absurd h hp
    | cons x xs => exact ⟨[], x, xs, rfl, h.1.symm⟩
  | step _ hnext ih =>
    obtain ⟨ys, x, zs, rfl, rfl⟩ := ih
    obtain ⟨r, -, hr, -, -, hrest⟩ := segment_append.mp h
    cases zs with
    | nil => exact absurd (hr ▸ hrest) hnext
    | cons z zs => exact ⟨ys ++ [x], z, zs, by simp, (hr ▸ hrest).1.symm⟩

/-! ### Walking a list -/

/- while (p && !stop(p)) { tail = p; p = p->next; }, with the last values of tail and p; none is a
   walk that takes more steps than there are. -/
def walk (next : Nat → Nat) (stop : Nat → Bool) : Nat → Nat → Nat → Option (Nat × Nat)
  | 0, _, _ => none
  | n + 1, tail, p =>
    if p = 0 ∨ stop p then some (tail, p) else walk next stop n p (next p)

/-- The walk ends at the first node that stops it, or behind the last node. -/
theorem Segment.walk {stop : Nat → Bool} {n tail : Nat} (h : Segment addr next holds p xs 0)
    (hn : xs.length < n) :
    (∃ ys x zs, xs = ys ++ x :: zs ∧ stop (addr x) = true ∧
        Linked.walk next stop n tail p = some ((ys.map addr).getLastD tail, addr x)) ∨
      (∀ x ∈ xs, stop (addr x) = false) ∧
        Linked.walk next stop n tail p = some ((xs.map addr).getLastD tail, 0) := by
  induction xs generalizing n tail p with
  | nil =>
    obtain rfl : p = 0 := h
    cases n with
    | zero => cases hn
    | succ n => exact .inr ⟨fun x hx => absurd hx List.not_mem_nil, if_pos (.inl rfl)⟩
  | cons x xs ih =>
    cases n with
    | zero => cases hn
    | succ n =>
      obtain ⟨rfl, hp0, -, hrest⟩ := h
      by_cases hstop : stop (addr x) = true
      · exact .inl ⟨[], x, xs, rfl, hstop, if_pos (.inr hstop)⟩
      · have hstep : ∀ r, Linked.walk next stop n (addr x) (next (addr x)) = r →
            Linked.walk next stop (n + 1) tail (addr x) = r := fun r hr => by
          rw [Linked.walk, if_neg (not_or.mpr ⟨hp0, hstop⟩), hr]
        rcases ih hrest (Nat.lt_of_succ_lt_succ hn) with ⟨ys, y, zs, rfl, hy, hw⟩ | ⟨hall, hw⟩
        · refine .inl ⟨x :: ys, y, zs, rfl, hy, hstep _ ?_⟩
          rw [hw, List.map_cons, List.getLastD_cons]
        · refine .inr ⟨fun y hy => ?_, hstep _ ?_⟩
          · rcases List.mem_cons.mp hy with rfl | hy
            · exact Bool.eq_false_iff.mpr hstop
            · exact hall y hy
          · rw [hw, List.map_cons, List.getLastD_cons]

/-- The walk ends at a node that stops it, if none before it does. -/
theorem Segment.walk_to {stop : Nat → Bool} {n tail : Nat} {x : β}
    (h : Segment addr next holds p (ys ++ x :: xs) q)
    (hys : ∀ y ∈ ys, stop (addr y) = false) (hx : stop (addr x) = true) (hn : ys.length < n) :
    ∃ t, Linked.walk next stop n tail p = some (t, addr x) := by
  induction ys generalizing n tail p with
  | nil =>
    obtain ⟨rfl, -, -, -⟩ := h
    cases n with
    | zero => cases hn
    | succ n => exact ⟨tail, if_pos (.inr hx)⟩
  | cons y ys ih =>
    obtain ⟨rfl, hp0, -, hrest⟩ := h
    cases n with
    | zero => cases hn
    | succ n =>
      have hy := hys y List.mem_cons_self
      obtain ⟨t, ht⟩ : ∃ t, Linked.walk next stop n (addr y) (next (addr y)) = some (t, addr x) :=
        ih hrest (fun z hz => hys z (List.mem_cons_of_mem _ hz)) (Nat.lt_of_succ_lt_succ hn)
      refine ⟨t, ?_⟩
      rw [Linked.walk, if_neg (not_or.mpr ⟨hp0, Bool.eq_false_iff.mp hy⟩), ht]

end AdamOS.Linked
