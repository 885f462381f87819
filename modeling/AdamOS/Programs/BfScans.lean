import AdamOS.Programs.Bf

/-! The searches for the matching bracket in any program. A search that comes to its end inside the program
has found the partner of the bracket it began at, so that a bracket without a partner sends it outside. -/
namespace AdamOS.Bf
open AdamOS.Structured AdamOS.Word
variable {p : List Nat} {room pc depth d e c : Nat}

def closingReads (program : List Nat) : Nat → Nat → Nat → List Nat
  | 0, _, _ => []
  | room + 1, pc, depth =>
    if depth = 0 then []
    else (pc + 1) :: closingReads program room (pc + 1)
      (nest opening closing (charAt program (pc + 1)) depth)

def openingReads (program : List Nat) : Nat → Nat → List Nat
  | 0, _ => []
  | pc + 1, depth =>
    if depth = 0 then []
    else pc :: openingReads program pc (nest closing opening (charAt program pc) depth)

/- The search that the round in state m makes, if it makes one, ends and looks at bytes of the program
   only. -/
structure ScansInside (p : List Nat) (m : Machine) : Prop where
  forward : charAt p m.pc = opening → m.tape m.ptr = 0 →
    (searchClosing p (programSize - (m.pc + 1)) m.pc 1).isSome = true ∧
      ∀ i ∈ closingReads p (programSize - (m.pc + 1)) m.pc 1, i < p.length
  backward : charAt p m.pc = closing → m.tape m.ptr ≠ 0 →
    (searchOpening p m.pc 1).isSome = true ∧ ∀ i ∈ openingReads p m.pc 1, i < p.length

/- The bracket that the round in state m has to jump from has its partner. -/
structure HasPartner (p : List Nat) (m : Machine) : Prop where
  opens : charAt p m.pc = opening → m.tape m.ptr = 0 → ∃ b, LoopAt p m.pc b
  closes : charAt p m.pc = closing → m.tape m.ptr ≠ 0 →
    ∃ pc b, LoopAt p pc b ∧ m.pc = pc + 1 + (text b).length

/-! ### What a search has passed over -/

theorem stands_char (h : pc < p.length) : Stands p pc [charAt p pc] := by
  refine ⟨p.drop (pc + 1), ?_⟩
  rw [charAt, List.getD_eq_getElem?_getD, List.getElem?_eq_getElem h, List.drop_eq_getElem_cons h]
  rfl

theorem Stands.append {l l' : List Nat} (h : Stands p pc l) (h' : Stands p (pc + l.length) l') :
    Stands p pc (l ++ l') := by
  obtain ⟨t, ht⟩ := h
  obtain ⟨t', ht'⟩ := h'
  refine ⟨t', ?_⟩
  rw [← List.drop_drop, ← ht, List.drop_left] at ht'
  rw [List.append_assoc, ht', ht]

theorem Stands.cons {l : List Nat} (hpc : pc < p.length) (hc : charAt p pc = c) (h : Stands p (pc + 1) l) :
    Stands p pc (c :: l) :=
  Stands.append (hc ▸ stands_char hpc) h

theorem text_append (b k : Code Op) : text (b.append k) = text b ++ text k := by
  induction b with
  | nil => rfl
  | op i b ih => exact congrArg (i.1 :: ·) ih
  | loop b b' _ ih =>
    rw [Code.append, text, text, ih, List.cons_append, List.append_assoc, List.cons_append]

def closed (bs : List (Code Op)) : List Nat := bs.flatMap fun b => text b ++ [closing]

def opened : List (Code Op) → List Nat
  | [] => []
  | b :: bs => opened bs ++ opening :: text b

/-- A search that ends inside the program has passed over as many pieces of code as it was deep. -/
theorem searchClosing_closed (h : searchClosing p room pc (d + 1) = some e)
    (hin : ∀ i ∈ closingReads p room pc (d + 1), i < p.length) :
    ∃ bs, bs.length = d + 1 ∧ Stands p (pc + 1) (closed bs) := by
  induction room generalizing pc d with
  | zero =>
    rw [searchClosing, if_neg (Nat.succ_ne_zero d)] at h
    cases h
  | succ room ih =>
    rw [searchClosing, if_neg (Nat.succ_ne_zero d)] at h
    rw [closingReads, if_neg (Nat.succ_ne_zero d)] at hin
    have hpc := hin (pc + 1) List.mem_cons_self
    have hin := fun i hi => hin i (List.mem_cons_of_mem _ hi)
    by_cases hc : charAt p (pc + 1) = closing
    · rw [hc, nest_closing.1, Nat.add_sub_cancel] at h hin
      cases d with
      | zero => exact ⟨[.nil], rfl, .cons hpc hc List.nil_prefix⟩
      | succ d =>
        obtain ⟨bs, hlen, hbs⟩ := ih h hin
        exact ⟨.nil :: bs, congrArg _ hlen, .cons hpc hc hbs⟩
    by_cases ho : charAt p (pc + 1) = opening
    · rw [ho, nest_opening.1] at h hin
      obtain ⟨bs, hlen, hbs⟩ := ih h hin
      obtain ⟨b, bs, rfl⟩ := List.exists_cons_of_length_eq_add_one hlen
      obtain ⟨k, bs, rfl⟩ := List.exists_cons_of_length_eq_add_one (Nat.succ.inj hlen)
      have hall : closed (.loop b k :: bs) = opening :: closed (b :: k :: bs) := by simp [closed, text]
      exact ⟨.loop b k :: bs, Nat.succ.inj hlen, hall ▸ .cons hpc ho hbs⟩
    · have hplain := @nest_plain (d + 1) ⟨charAt p (pc + 1), ho, hc⟩
      dsimp only at hplain
      rw [hplain.1] at h hin
      obtain ⟨bs, hlen, hbs⟩ := ih h hin
      obtain ⟨b, bs, rfl⟩ := List.exists_cons_of_length_eq_add_one hlen
      exact ⟨.op ⟨charAt p (pc + 1), ho, hc⟩ b :: bs, hlen, .cons hpc rfl hbs⟩

/-- The search downwards from a place of the program likewise. -/
theorem searchOpening_opened (hpc : pc ≤ p.length) (h : searchOpening p pc (d + 1) = some e) :
    ∃ bs, bs.length = d + 1 ∧ Stands p e (opened bs) ∧ e + (opened bs).length = pc := by
  induction pc generalizing d with
  | zero =>
    rw [searchOpening, if_neg (Nat.succ_ne_zero d)] at h
    cases h
  | succ pc ih =>
    rw [searchOpening, if_neg (Nat.succ_ne_zero d)] at h
    have hchar := stands_char (Nat.lt_of_succ_le hpc)
    have hle := Nat.le_of_succ_le hpc
    by_cases ho : charAt p pc = opening
    · rw [ho] at hchar
      rw [ho, nest_opening.2, Nat.add_sub_cancel] at h
      cases d with
      | zero =>
        rw [searchOpening_zero] at h
        cases h
        exact ⟨[.nil], rfl, hchar, rfl⟩
      | succ d =>
        obtain ⟨bs, hlen, hbs, he⟩ := ih hle h
        refine ⟨.nil :: bs, congrArg _ hlen, hbs.append (he ▸ hchar), ?_⟩
        rw [opened, List.length_append, ← Nat.add_assoc, he]
        rfl
    by_cases hc : charAt p pc = closing
    · rw [hc] at hchar
      rw [hc, nest_closing.2] at h
      obtain ⟨bs, hlen, hbs, he⟩ := ih hle h
      obtain ⟨k, bs, rfl⟩ := List.exists_cons_of_length_eq_add_one hlen
      obtain ⟨b, bs, rfl⟩ := List.exists_cons_of_length_eq_add_one (Nat.succ.inj hlen)
      have hall : opened (b.append (.loop k .nil) :: bs) = opened (k :: b :: bs) ++ [closing] := by
        simp [opened, text_append, text]
      rw [← he] at hchar
      refine ⟨b.append (.loop k .nil) :: bs, Nat.succ.inj hlen, ?_, ?_⟩
      · rw [hall]
        exact hbs.append hchar
      · rw [hall, List.length_append, ← Nat.add_assoc, he]
        rfl
    · have hplain := @nest_plain (d + 1) ⟨charAt p pc, ho, hc⟩
      dsimp only at hplain
      rw [hplain.2] at h
      obtain ⟨bs, hlen, hbs, he⟩ := ih hle h
      obtain ⟨b, bs, rfl⟩ := List.exists_cons_of_length_eq_add_one hlen
      have hall : opened (b.append (.op ⟨charAt p pc, ho, hc⟩ .nil) :: bs) =
          opened (b :: bs) ++ [charAt p pc] := by
        simp [opened, text_append, text]
      rw [← he] at hchar
      refine ⟨b.append (.op ⟨charAt p pc, ho, hc⟩ .nil) :: bs, hlen, ?_, ?_⟩
      · rw [hall]
        exact hbs.append (he ▸ hchar)
      · rw [hall, List.length_append, ← Nat.add_assoc, he]
        rfl

/-! ### Searches and partners -/

theorem closingReads_le (h : searchClosing p room pc depth = some e) :
    pc ≤ e ∧ ∀ i ∈ closingReads p room pc depth, i ≤ e := by
  induction room generalizing pc depth with
  | zero =>
    rw [searchClosing] at h
    split at h
    · cases h
      exact ⟨Nat.le_refl _, fun _ hi => absurd hi List.not_mem_nil⟩
    · cases h
  | succ room ih =>
    rw [searchClosing] at h
    rw [closingReads]
    split at h <;> rename_i hd
    · cases h
      rw [if_pos hd]
      exact ⟨Nat.le_refl _, fun _ hi => absurd hi List.not_mem_nil⟩
    · obtain ⟨hle, hall⟩ := ih h
      rw [if_neg hd]
      refine ⟨Nat.le_of_succ_le hle, fun i hi => ?_⟩
      rcases List.mem_cons.mp hi with rfl | hi
      · exact hle
      · exact hall i hi

theorem openingReads_lt : ∀ i ∈ openingReads p pc depth, i < pc := by
  induction pc generalizing depth with
  | zero => exact fun _ hi => absurd hi List.not_mem_nil
  | succ pc ih =>
    rw [openingReads]
    split
    · exact fun _ hi => absurd hi List.not_mem_nil
    · intro i hi
      rcases List.mem_cons.mp hi with rfl | hi
      · exact Nat.lt_succ_self _
      · exact Nat.lt_succ_of_lt (ih i hi)

/-- The search of a round stays inside the program just when its bracket has a partner. -/
theorem scansInside_iff {m : Machine} (hlen : p.length ≤ programSize) (hpc : m.pc < p.length) :
    ScansInside p m ↔ HasPartner p m := by
  constructor
  · intro h
    refine ⟨fun hc hz => ?_, fun hc hz => ?_⟩
    · obtain ⟨hends, hin⟩ := h.forward hc hz
      obtain ⟨e, he⟩ := Option.isSome_iff_exists.mp hends
      obtain ⟨bs, hbs, hstands⟩ := searchClosing_closed he hin
      obtain ⟨b, rfl⟩ := List.length_eq_one_iff.mp hbs
      rw [closed, List.flatMap_singleton] at hstands
      exact ⟨b, .cons hpc hc hstands⟩
    · obtain ⟨e, he⟩ := Option.isSome_iff_exists.mp (h.backward hc hz).1
      obtain ⟨bs, hbs, hstands, hend⟩ := searchOpening_opened (Nat.le_of_lt hpc) he
      obtain ⟨b, rfl⟩ := List.length_eq_one_iff.mp hbs
      rw [opened, opened, List.nil_append] at hstands hend
      rw [List.length_cons] at hend
      refine ⟨e, b, ?_, by omega⟩
      exact hstands.append (by rw [List.length_cons, hend]; exact hc ▸ stands_char hpc)
  · intro h
    refine ⟨fun hc hz => ?_, fun hc hz => ?_⟩
    · obtain ⟨b, hb⟩ := h.opens hc hz
      have hfound := hb.searchClosing hlen
      refine ⟨by rw [hfound]; rfl, fun i hi => ?_⟩
      exact Nat.lt_of_le_of_lt ((closingReads_le hfound).2 i hi) hb.bracket.head.1
    · obtain ⟨pc, b, hb, hat⟩ := h.closes hc hz
      have hfound := hb.searchOpening
      rw [← hat] at hfound
      exact ⟨by rw [hfound]; rfl, fun i hi => Nat.lt_trans (openingReads_lt i hi) hpc⟩

/-! ### Runs -/

theorem load_length (file : List Nat) : (load file).length ≤ programSize := by
  rw [load, List.length_take]
  exact Nat.min_le_left ..

/-- In a run of any program every search ends inside the program if and only if every bracket that the run
comes to and has to jump from has its partner. -/
theorem scans_inside_iff (file : List Nat) (input : Nat → Option (Fin 256)) :
    (∀ n m, runFor (cycle (load file) input) n start = some m → m.pc < (load file).length →
        ScansInside (load file) m) ↔
      ∀ n m, runFor (cycle (load file) input) n start = some m → m.pc < (load file).length →
        HasPartner (load file) m :=
  forall₄_congr fun _ _ _ hpc => scansInside_iff (load_length file) hpc

/-! ### A bracket without a partner -/

def lone : List Nat := [opening]

/-- The first search looks at byte 1 of a program of one byte. -/
theorem lone_scans_outside : ∃ n m, runFor (cycle (load lone) fun _ => none) n start = some m ∧
    m.pc < (load lone).length ∧ ¬ScansInside (load lone) m := by
  refine ⟨0, start, rfl, by decide, fun h => ?_⟩
  have hread := (h.forward rfl rfl).2 1 List.mem_cons_self
  exact absurd hread (by decide)

end AdamOS.Bf
