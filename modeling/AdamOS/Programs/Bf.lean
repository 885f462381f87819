import AdamOS.Lib.Structured
import AdamOS.Lib.Word
import Mathlib.Data.List.Infix
import Mathlib.Data.Fin.Basic
import Mathlib.Logic.Function.Basic

/-! bf.c: the loop over the program's bytes with its two searches for the matching bracket.
`input` is what ch holds after each sys_read of descriptor 0, none when that call does not
return; `written` are the bytes handed to sys_write. -/
namespace AdamOS.Bf
open AdamOS.Structured AdamOS.Word

def programSize : Nat := 4096

def opening : Nat := '['.toNat
def closing : Nat := ']'.toNat

structure Machine where
  pc : Nat
  ptr : Nat
  tape : Nat → Nat
  taken : Nat
  written : List Nat

/- The bytes of the file that sys_read puts into `program`; their number is `size`. -/
def load (file : List Nat) : List Nat := file.take programSize

/- program[pc]; the rest of the array is zero. -/
def charAt (program : List Nat) (pc : Nat) : Nat := program.getD pc 0

/- depth after one byte of a search that leaves a pair at `up` and enters one at `down`. -/
def nest (down up c depth : Nat) : Nat :=
  let depth := if c = down then depth + 1 else depth
  if c = up then depth - 1 else depth

/- The search of '[': pc stands on the last byte looked at, `room` bytes of the array follow.
   none is a read past the array. -/
def searchClosing (program : List Nat) : Nat → Nat → Nat → Option Nat
  | 0, pc, depth => if depth = 0 then some pc else none
  | room + 1, pc, depth =>
    if depth = 0 then some pc
    else searchClosing program room (pc + 1)
      (nest opening closing (charAt program (pc + 1)) depth)

/- The search of ']', downwards from pc; none is a read before the array. -/
def searchOpening (program : List Nat) : Nat → Nat → Option Nat
  | 0, depth => if depth = 0 then some 0 else none
  | pc + 1, depth =>
    if depth = 0 then some (pc + 1)
    else searchOpening program pc (nest closing opening (charAt program pc) depth)

def execute (program : List Nat) (input : Nat → Option (Fin 256)) (m : Machine) :
    Option Machine :=
  let c := charAt program m.pc
  if c = '>'.toNat then some { m with ptr := (m.ptr + 1) &&& 0xFF }
  else if c = '<'.toNat then some { m with ptr := sub32 m.ptr 1 &&& 0xFF }
  else if c = '+'.toNat then
    some { m with tape := Function.update m.tape m.ptr ((m.tape m.ptr + 1) % 256) }
  else if c = '-'.toNat then
    some { m with tape := Function.update m.tape m.ptr ((m.tape m.ptr + 255) % 256) }
  else if c = '.'.toNat then some { m with written := m.written ++ [m.tape m.ptr] }
  else if c = ','.toNat then
    (input m.taken).map fun ch =>
      { m with taken := m.taken + 1, tape := Function.update m.tape m.ptr ch.val }
  else if c = opening then
    if m.tape m.ptr = 0 then
      (searchClosing program (programSize - (m.pc + 1)) m.pc 1).map fun pc => { m with pc := pc }
    else some m
  else if c = closing then
    if m.tape m.ptr ≠ 0 then
      (searchOpening program m.pc 1).map fun pc => { m with pc := pc }
    else some m
  else some m

/- One round of the loop; none when the loop is over or the round does not come to its end. -/
def cycle (program : List Nat) (input : Nat → Option (Fin 256)) (m : Machine) :
    Option Machine :=
  if m.pc < program.length then
    (execute program input m).map fun m => { m with pc := m.pc + 1 }
  else none

def start : Machine := ⟨0, 0, fun _ => 0, 0, []⟩

def Machine.Finished (program : List Nat) (m : Machine) : Prop := program.length ≤ m.pc

instance (program : List Nat) (m : Machine) : Decidable (m.Finished program) :=
  inferInstanceAs (Decidable (_ ≤ _))

/- What has been printed; main ends with a newline. -/
def Machine.printed (program : List Nat) (m : Machine) : List Nat :=
  if m.Finished program then m.written ++ ['\n'.toNat] else m.written

/-! The language: operations on a tape of 256 cells that count modulo 256, and loops. A byte
that is no command is an operation that does nothing. -/

abbrev Op : Type := { c : Nat // c ≠ opening ∧ c ≠ closing }

structure State where
  ptr : Fin 256
  cells : Fin 256 → Fin 256
  taken : Nat
  written : List (Fin 256)

def State.start : State := ⟨0, fun _ => 0, 0, []⟩

def State.put (s : State) (v : Fin 256) : State :=
  { s with cells := Function.update s.cells s.ptr v }

def perform (input : Nat → Option (Fin 256)) (i : Op) (s : State) : Option State :=
  if i.1 = '>'.toNat then some { s with ptr := s.ptr + 1 }
  else if i.1 = '<'.toNat then some { s with ptr := s.ptr - 1 }
  else if i.1 = '+'.toNat then some (s.put (s.cells s.ptr + 1))
  else if i.1 = '-'.toNat then some (s.put (s.cells s.ptr - 1))
  else if i.1 = '.'.toNat then some { s with written := s.written ++ [s.cells s.ptr] }
  else if i.1 = ','.toNat then
    (input s.taken).map fun c => { s.put c with taken := s.taken + 1 }
  else some s

def language (input : Nat → Option (Fin 256)) : Language Op State where
  exec := perform input
  test s := s.cells s.ptr ≠ 0

def text : Code Op → List Nat
  | .nil => []
  | .op i k => i.1 :: text k
  | .loop b k => opening :: (text b ++ closing :: text k)

/- The code of a text read from its end: the code up to the next ']' and the codes after each of
   the brackets that are still to be opened. -/
def parseFrom : List Nat → Option (Code Op × List (Code Op))
  | [] => some (.nil, [])
  | c :: cs =>
    (parseFrom cs).bind fun r =>
      if hc : c = closing then some (.nil, r.1 :: r.2)
      else if ho : c = opening then
        match r.2 with
        | [] => none
        | k :: ks => some (.loop r.1 k, ks)
      else some (.op ⟨c, ho, hc⟩ r.1, r.2)

def parse (program : List Nat) : Option (Code Op) :=
  (parseFrom program).bind fun r => if r.2 = [] then some r.1 else none

def Balanced (program : List Nat) : Prop :=
  (∀ q ∈ program.inits, q.count closing ≤ q.count opening) ∧
    program.count closing = program.count opening

instance (program : List Nat) : Decidable (Balanced program) :=
  inferInstanceAs (Decidable (_ ∧ _))

theorem parseFrom_text {p : List Nat} {c : Code Op} {ks : List (Code Op)}
    (h : parseFrom p = some (c, ks)) : p = text c ++ ks.flatMap fun k => closing :: text k := by
  induction p generalizing c ks with
  | nil =>
    obtain ⟨rfl, rfl⟩ := Prod.mk.inj (Option.some.inj h)
    rfl
  | cons a p ih =>
    obtain ⟨⟨d, ds⟩, hd, hr⟩ := Option.bind_eq_some_iff.mp h
    have hp := ih hd
    split at hr
    · next ha =>
      obtain ⟨rfl, rfl⟩ := Prod.mk.inj (Option.some.inj hr)
      rw [ha, hp]
      rfl
    · split at hr
      · next ha =>
        cases ds with
        | nil => cases hr
        | cons k ds =>
          obtain ⟨rfl, rfl⟩ := Prod.mk.inj (Option.some.inj hr)
          rw [ha, hp]
          simp [text]
      · obtain ⟨rfl, rfl⟩ := Prod.mk.inj (Option.some.inj hr)
        rw [hp]
        rfl

theorem parse_text {p : List Nat} {c : Code Op} (h : parse p = some c) : text c = p := by
  obtain ⟨⟨d, ds⟩, hd, hr⟩ := Option.bind_eq_some_iff.mp h
  split at hr
  · next hds =>
    obtain rfl : d = c := Option.some.inj hr
    obtain rfl : ds = [] := hds
    simpa using (parseFrom_text hd).symm
  · cases hr

/-- The brackets left to be opened are counted by the list. -/
theorem parseFrom_some {p : List Nat}
    (h : ∀ q, q <:+ p → q.count opening ≤ q.count closing) :
    ∃ c ks, parseFrom p = some (c, ks) ∧ ks.length + p.count opening = p.count closing := by
  induction p with
  | nil => exact ⟨.nil, [], rfl, rfl⟩
  | cons a p ih =>
    obtain ⟨c, ks, hp, hlen⟩ := ih fun q hq => h q (hq.trans (List.suffix_cons a p))
    have hne : opening ≠ closing := by decide
    have hfull := h (a :: p) List.suffix_rfl
    by_cases hc : a = closing
    · subst hc
      refine ⟨.nil, c :: ks, by rw [parseFrom, hp]; simp, ?_⟩
      rw [List.count_cons_self, List.count_cons_of_ne hne.symm, List.length_cons]
      omega
    by_cases ho : a = opening
    · subst ho
      rw [List.count_cons_self, List.count_cons_of_ne hne] at hfull
      cases ks with
      | nil =>
        rw [List.length_nil] at hlen
        omega
      | cons k ks =>
        refine ⟨.loop c k, ks, by rw [parseFrom, hp]; simp [hne], ?_⟩
        rw [List.count_cons_self, List.count_cons_of_ne hne]
        rw [List.length_cons] at hlen
        omega
    · refine ⟨.op ⟨a, ho, hc⟩ c, ks, by rw [parseFrom, hp]; simp [hc, ho], ?_⟩
      rw [List.count_cons_of_ne ho, List.count_cons_of_ne hc, hlen]

/-- A balanced program is the text of a piece of code. -/
theorem Balanced.parse {p : List Nat} (h : Balanced p) : ∃ c, parse p = some c ∧ text c = p := by
  have hsuf : ∀ q, q <:+ p → q.count opening ≤ q.count closing := by
    rintro q ⟨r, rfl⟩
    have hr := h.1 r ((List.mem_inits _ _).mpr (List.prefix_append r q))
    have hall := h.2
    rw [List.count_append, List.count_append] at hall
    omega
  obtain ⟨c, ks, hp, hlen⟩ := parseFrom_some hsuf
  have hks : ks = [] := List.length_eq_zero_iff.mp (by have := h.2; omega)
  have hc : Bf.parse p = some c := by rw [Bf.parse, hp, hks]; rfl
  exact ⟨c, hc, parse_text hc⟩

/-! The searches find the partner of a bracket. -/

def Stands (p : List Nat) (pc : Nat) (l : List Nat) : Prop := l <+: p.drop pc

section
variable {p l l' : List Nat} {pc room depth c : Nat}

theorem Stands.head (h : Stands p pc (c :: l)) : pc < p.length ∧ charAt p pc = c := by
  obtain ⟨t, ht⟩ := h
  have hget : p[pc]? = some c := by
    rw [← Nat.add_zero pc, ← List.getElem?_drop, ← ht]
    rfl
  obtain ⟨hlt, -⟩ := List.getElem?_eq_some_iff.mp hget
  exact ⟨hlt, by rw [charAt, List.getD_eq_getElem?_getD, hget]; rfl⟩

theorem Stands.tail (h : Stands p pc (c :: l)) : Stands p (pc + 1) l := by
  obtain ⟨t, ht⟩ := h
  exact ⟨t, by rw [← List.drop_drop, ← ht]; rfl⟩

theorem Stands.left (h : Stands p pc (l ++ l')) : Stands p pc l :=
  (List.prefix_append l l').trans h

theorem Stands.right (h : Stands p pc (l ++ l')) : Stands p (pc + l.length) l' := by
  obtain ⟨t, ht⟩ := h
  refine ⟨t, ?_⟩
  rw [← List.drop_drop, ← ht, List.append_assoc, List.drop_left]

theorem nest_plain (i : Op) : nest opening closing i.1 depth = depth ∧
    nest closing opening i.1 depth = depth := by
  simp [nest, i.2.1, i.2.2]

theorem nest_opening : nest opening closing opening depth = depth + 1 ∧
    nest closing opening opening depth = depth - 1 := by
  simp [nest, show opening ≠ closing by decide]

theorem nest_closing : nest opening closing closing depth = depth - 1 ∧
    nest closing opening closing depth = depth + 1 := by
  simp [nest, show closing ≠ opening by decide]

theorem searchClosing_zero : searchClosing p room pc 0 = some pc := by
  cases room <;> rfl

theorem searchOpening_zero : searchOpening p pc 0 = some pc := by
  cases pc <;> rfl

theorem searchClosing_step (h : Stands p (pc + 1) (c :: l)) (hd : 0 < depth) :
    searchClosing p (room + 1) pc depth =
      searchClosing p room (pc + 1) (nest opening closing c depth) := by
  rw [searchClosing, if_neg (by omega), h.head.2]

theorem searchOpening_step (h : Stands p pc (c :: l)) (hd : 0 < depth) :
    searchOpening p (pc + 1) depth =
      searchOpening p pc (nest closing opening c depth) := by
  rw [searchOpening, if_neg (by omega), h.head.2]

/-- The search passes over a piece of code and is as deep after it as before. -/
theorem searchClosing_text (k : Code Op) (h : Stands p (pc + 1) (text k)) (hd : 0 < depth) :
    searchClosing p (room + (text k).length) pc depth =
      searchClosing p room (pc + (text k).length) depth := by
  induction k generalizing pc depth room with
  | nil => rfl
  | op i k ih =>
    have hstep : searchClosing p (room + (text k).length + 1) pc depth =
        searchClosing p (room + (text k).length) (pc + 1) (nest opening closing i.1 depth) :=
      searchClosing_step h hd
    rw [text, List.length_cons, ← Nat.add_assoc, hstep, (nest_plain i).1, ih h.tail hd,
      Nat.add_right_comm, Nat.add_assoc]
  | loop b k ihb ih =>
    have hb : Stands p (pc + 1 + 1) (text b) := h.tail.left
    have hc : Stands p (pc + 1 + (text b).length + 1) (closing :: text k) := by
      have := h.tail.right
      rwa [Nat.add_right_comm] at this
    have hd' : 0 < depth + 1 := Nat.succ_pos depth
    calc searchClosing p (room + (text (.loop b k)).length) pc depth
        = searchClosing p (room + (text k).length + 1 + (text b).length + 1) pc depth := by
          congr 1
          simp [text]
          omega
      _ = searchClosing p (room + (text k).length + 1 + (text b).length) (pc + 1)
            (depth + 1) := by rw [searchClosing_step h hd, nest_opening.1]
      _ = searchClosing p (room + (text k).length + 1) (pc + 1 + (text b).length)
            (depth + 1) := ihb hb hd'
      _ = searchClosing p (room + (text k).length) (pc + 1 + (text b).length + 1) depth := by
          rw [searchClosing_step hc hd', nest_closing.1, Nat.add_sub_cancel]
      _ = searchClosing p room (pc + 1 + (text b).length + 1 + (text k).length) depth :=
          ih hc.tail hd
      _ = searchClosing p room (pc + (text (.loop b k)).length) depth := by
          congr 1
          simp [text]
          omega

theorem searchOpening_text (k : Code Op) (h : Stands p pc (text k)) (hd : 0 < depth) :
    searchOpening p (pc + (text k).length) depth = searchOpening p pc depth := by
  induction k generalizing pc depth with
  | nil => rfl
  | op i k ih =>
    rw [text, List.length_cons, Nat.add_comm (text k).length, ← Nat.add_assoc, ih h.tail hd,
      searchOpening_step h hd, (nest_plain i).2]
  | loop b k ihb ih =>
    have hb : Stands p (pc + 1) (text b) := h.tail.left
    have hc : Stands p (pc + 1 + (text b).length) (closing :: text k) := h.tail.right
    have hd' : 0 < depth + 1 := Nat.succ_pos depth
    calc searchOpening p (pc + (text (.loop b k)).length) depth
        = searchOpening p (pc + 1 + (text b).length + 1 + (text k).length) depth := by
          congr 1
          simp [text]
          omega
      _ = searchOpening p (pc + 1 + (text b).length + 1) depth := ih hc.tail hd
      _ = searchOpening p (pc + 1 + (text b).length) (depth + 1) := by
          rw [searchOpening_step hc hd, nest_closing.2]
      _ = searchOpening p (pc + 1) (depth + 1) := ihb hb hd'
      _ = searchOpening p pc depth := by
          rw [searchOpening_step h hd', nest_opening.2, Nat.add_sub_cancel]

variable {b : Code Op}

def LoopAt (p : List Nat) (pc : Nat) (b : Code Op) : Prop :=
  Stands p pc (opening :: (text b ++ [closing]))

theorem LoopAt.body (h : LoopAt p pc b) : Stands p (pc + 1) (text b) := h.tail.left

theorem LoopAt.bracket (h : LoopAt p pc b) :
    Stands p (pc + 1 + (text b).length) [closing] := h.tail.right

theorem LoopAt.searchClosing (h : LoopAt p pc b) (hlen : p.length ≤ programSize) :
    searchClosing p (programSize - (pc + 1)) pc 1 = some (pc + 1 + (text b).length) := by
  have hlt := h.bracket.head.1
  have hc : Stands p (pc + (text b).length + 1) [closing] := by
    have := h.bracket
    rwa [Nat.add_right_comm] at this
  obtain ⟨room, hroom⟩ : ∃ room, programSize - (pc + 1) = room + 1 + (text b).length :=
    ⟨programSize - (pc + 1) - (text b).length - 1, by omega⟩
  rw [hroom, searchClosing_text b h.body Nat.one_pos, searchClosing_step hc Nat.one_pos,
    nest_closing.1, searchClosing_zero, Nat.add_right_comm]

theorem LoopAt.searchOpening (h : LoopAt p pc b) :
    searchOpening p (pc + 1 + (text b).length) 1 = some pc := by
  rw [searchOpening_text b h.body Nat.one_pos, searchOpening_step h Nat.one_pos,
    nest_opening.2, searchOpening_zero]

end

/-! The code still to be run. Inside a loop it ends with the loop itself, which pc meets again
at its ']'. -/

inductive Follows (p : List Nat) : Nat → Code Op → Prop
  | finish : Follows p p.length .nil
  | op {pc : Nat} (i : Op) {k : Code Op} :
      Stands p pc [i.1] → Follows p (pc + 1) k → Follows p pc (.op i k)
  | opens {pc : Nat} {b k : Code Op} :
      LoopAt p pc b → Follows p (pc + 1 + (text b).length + 1) k → Follows p pc (.loop b k)
  | closes {pc : Nat} {b k : Code Op} :
      LoopAt p pc b → Follows p (pc + 1 + (text b).length + 1) k →
        Follows p (pc + 1 + (text b).length) (.loop b k)

section
variable {p : List Nat} {pc : Nat} {b k : Code Op}

theorem Follows.enter (c : Code Op) (h : Stands p pc (text c))
    (hk : Follows p (pc + (text c).length) k) : Follows p pc (c.append k) := by
  induction c generalizing pc with
  | nil => exact hk
  | op i c ih =>
    refine .op i h.left (ih h.tail ?_)
    rw [text, List.length_cons, Nat.add_comm (text c).length, ← Nat.add_assoc] at hk
    exact hk
  | loop b c _ ih =>
    have hloop : LoopAt p pc b := by
      have hall : Stands p pc (opening :: (text b ++ [closing]) ++ text c) := by simpa [text] using h
      exact hall.left
    have hc : Stands p (pc + 1 + (text b).length + 1) (text c) := h.tail.right.tail
    refine .opens hloop (ih hc ?_)
    have he : pc + (text (.loop b c)).length =
        pc + 1 + (text b).length + 1 + (text c).length := by
      simp [text]
      omega
    rwa [he] at hk

theorem Follows.body (h : LoopAt p pc b) (hk : Follows p (pc + 1 + (text b).length + 1) k) :
    Follows p (pc + 1) (b.append (.loop b k)) :=
  .enter b h.body (.closes h hk)

theorem Follows.lt (h : Follows p pc k) (hk : k ≠ .nil) : pc < p.length := by
  cases h with
  | finish => exact absurd rfl hk
  | op i h _ => exact h.head.1
  | opens h _ => exact h.head.1
  | closes h _ => exact h.bracket.head.1

theorem Follows.finished_iff (h : Follows p pc k) : p.length ≤ pc ↔ k = .nil := by
  constructor
  · intro hle
    by_contra hk
    exact absurd (h.lt hk) (Nat.not_lt.mpr hle)
  · rintro rfl
    cases h
    exact Nat.le_refl _

end

/-! One round of main against one step of the language. -/

structure Machine.Shows (m : Machine) (s : State) : Prop where
  ptr : m.ptr = s.ptr
  tape : ∀ i : Fin 256, m.tape i = s.cells i
  taken : m.taken = s.taken
  written : m.written = s.written.map Fin.val

section
variable {p : List Nat} {input : Nat → Option (Fin 256)} {m : Machine} {s : State} {k : Code Op}

theorem Machine.Shows.cell (h : m.Shows s) : m.tape m.ptr = s.cells s.ptr := by
  rw [h.ptr, h.tape]

theorem Machine.Shows.test (h : m.Shows s) :
    (language input).test s = true ↔ m.tape m.ptr ≠ 0 := by
  have hz : (s.cells s.ptr : Nat) = 0 ↔ s.cells s.ptr = 0 := Fin.val_eq_zero_iff
  rw [h.cell, Ne, hz]
  exact decide_eq_true_iff

theorem Machine.Shows.put {n : Nat} {v : Fin 256} (h : m.Shows s) (hn : n = v) :
    Machine.Shows { m with tape := Function.update m.tape m.ptr n } (s.put v) where
  ptr := h.ptr
  tape i := by
    by_cases hi : i = s.ptr
    · simp [State.put, hi, h.ptr, hn]
    · have hv : (i : Nat) ≠ m.ptr := fun he => hi (Fin.ext (he.trans h.ptr))
      simp [State.put, hi, hv, h.tape]
  taken := h.taken
  written := h.written

theorem and_byte (n : Nat) : n &&& 0xFF = n % 256 := Nat.and_two_pow_sub_one_eq_mod n 8

theorem execute_plain (i : Op) (hc : charAt p m.pc = i.1) (h : m.Shows s) :
    Option.Rel (fun m' s' => m'.pc = m.pc ∧ m'.Shows s') (execute p input m)
      (perform input i s) := by
  unfold execute perform
  simp only [hc, i.2.1, i.2.2, if_false]
  split
  · refine .some ⟨rfl, ?_, h.tape, h.taken, h.written⟩
    rw [and_byte, h.ptr]
    rfl
  split
  · refine .some ⟨rfl, ?_, h.tape, h.taken, h.written⟩
    have hlt := s.ptr.isLt
    rw [and_byte, h.ptr, Fin.val_sub]
    unfold sub32 wrap
    simp only [Fin.val_one]
    omega
  split
  · refine .some ⟨rfl, h.put ?_⟩
    rw [h.cell]
    rfl
  split
  · refine .some ⟨rfl, h.put ?_⟩
    rw [h.cell, Fin.val_sub, Nat.add_comm]
    rfl
  split
  · refine .some ⟨rfl, h.ptr, h.tape, h.taken, ?_⟩
    rw [List.map_append, h.written, h.cell]
    rfl
  split
  · rw [h.taken]
    cases input s.taken with
    | none => exact .none
    | some c =>
      have hp := h.put (n := c) rfl
      exact .some ⟨rfl, hp.ptr, hp.tape, rfl, hp.written⟩
  · exact .some ⟨rfl, h⟩

theorem execute_opening (hc : charAt p m.pc = opening) :
    execute p input m = if m.tape m.ptr = 0 then
      (searchClosing p (programSize - (m.pc + 1)) m.pc 1).map fun pc => { m with pc := pc }
      else some m := by
  simp [execute, hc, opening]

theorem execute_closing (hc : charAt p m.pc = closing) :
    execute p input m = if m.tape m.ptr ≠ 0 then
      (searchOpening p m.pc 1).map fun pc => { m with pc := pc } else some m := by
  simp [execute, hc, opening, closing]

/-- A round at a loop's '[' goes on behind the '[' or, when the cell is zero, behind the ']'. -/
theorem cycle_opening {b : Code Op} (hlen : p.length ≤ programSize) (hl : LoopAt p m.pc b) :
    cycle p input m = some { m with
      pc := (if m.tape m.ptr = 0 then m.pc + 1 + (text b).length else m.pc) + 1 } := by
  rw [cycle, if_pos hl.head.1, execute_opening hl.head.2, hl.searchClosing hlen]
  split <;> rfl

theorem cycle_closing {b : Code Op} {pc : Nat} (hl : LoopAt p pc b)
    (hpc : m.pc = pc + 1 + (text b).length) :
    cycle p input m = some { m with
      pc := (if m.tape m.ptr = 0 then pc + 1 + (text b).length else pc) + 1 } := by
  have hb := hl.bracket.head
  have hfound := hl.searchOpening
  rw [← hpc] at hb hfound ⊢
  rw [cycle, if_pos hb.1, execute_closing hb.2, hfound]
  by_cases hz : m.tape m.ptr = 0
  · rw [if_neg (not_not.mpr hz), if_pos hz]
    rfl
  · rw [if_pos hz, if_neg hz]
    rfl

/-- Both machines at the same place with the same memory. -/
def Agree (p : List Nat) (m : Machine) (c : Code Op × State) : Prop :=
  Follows p m.pc c.1 ∧ m.Shows c.2

theorem Machine.Shows.withPc {pc : Nat} (h : m.Shows s) : Machine.Shows { m with pc := pc } s :=
  ⟨h.ptr, h.tape, h.taken, h.written⟩

theorem agree_op (i : Op) (hs : Stands p m.pc [i.1]) (hk : Follows p (m.pc + 1) k)
    (h : m.Shows s) :
    Option.Rel (Agree p) (cycle p input m) (step (language input) (.op i k, s)) := by
  have hx : Option.Rel (fun m' s' => m'.pc = m.pc ∧ m'.Shows s') (execute p input m)
      (perform input i s) := execute_plain i hs.head.2 h
  rw [cycle, if_pos hs.head.1]
  change Option.Rel _ _ ((perform input i s).map _)
  generalize execute p input m = x, perform input i s = y at hx
  cases hx with
  | none => exact .none
  | some hm =>
    obtain ⟨hpc, hshow⟩ := hm
    rw [← hpc] at hk
    exact .some ⟨hk, hshow.withPc⟩

theorem agree_loop {b : Code Op} {pc : Nat} (hl : LoopAt p pc b)
    (hk : Follows p (pc + 1 + (text b).length + 1) k) (h : m.Shows s)
    (hc : cycle p input m = some { m with
      pc := (if m.tape m.ptr = 0 then pc + 1 + (text b).length else pc) + 1 }) :
    Option.Rel (Agree p) (cycle p input m) (step (language input) (.loop b k, s)) := by
  rw [hc]
  by_cases hz : m.tape m.ptr = 0
  · have ht : (language input).test s = false := by
      rw [← Bool.not_eq_true, h.test]
      exact not_not.mpr hz
    rw [step_leave ht, if_pos hz]
    exact .some ⟨hk, h.withPc⟩
  · rw [step_again (h.test.mpr hz), if_neg hz]
    exact .some ⟨.body hl hk, h.withPc⟩

theorem agree_step (hlen : p.length ≤ programSize) (m : Machine) (c : Code Op × State)
    (h : Agree p m c) :
    Option.Rel (Agree p) (cycle p input m) (step (language input) c) := by
  obtain ⟨k, s⟩ := c
  obtain ⟨hf, hm⟩ := h
  dsimp only at hf hm
  generalize hpc : m.pc = pc at hf
  cases hf with
  | finish =>
    rw [cycle, if_neg (by omega)]
    exact .none
  | op i hs hk =>
    subst hpc
    exact agree_op i hs hk hm
  | opens hl hk =>
    subst hpc
    exact agree_loop hl hk hm (cycle_opening hlen hl)
  | closes hl hk => exact agree_loop hl hk hm (cycle_closing hl hpc)

theorem agree_start {c : Code Op} (h : text c = p) : Agree p start (c, .start) := by
  refine ⟨?_, rfl, fun _ => rfl, rfl, rfl⟩
  rw [← c.append_nil]
  refine .enter c ?_ ?_
  · rw [h]
    exact List.prefix_rfl
  · rw [h, show start.pc + p.length = p.length from Nat.zero_add _]
    exact .finish

theorem Machine.Shows.unique {s' : State} (h : m.Shows s) (h' : m.Shows s') : s = s' := by
  obtain ⟨ptr, cells, taken, written⟩ := s
  obtain ⟨ptr', cells', taken', written'⟩ := s'
  obtain rfl : ptr = ptr' := Fin.ext (h.ptr.symm.trans h'.ptr)
  obtain rfl : cells = cells' := funext fun i => Fin.ext ((h.tape i).symm.trans (h'.tape i))
  obtain rfl : taken = taken' := h.taken.symm.trans h'.taken
  obtain rfl : written = written' :=
    List.map_injective_iff.mpr Fin.val_injective (h.written.symm.trans h'.written)
  rfl

theorem Agree.finished_iff {c : Code Op × State} (h : Agree p m c) :
    m.Finished p ↔ c.1 = .nil := h.1.finished_iff

theorem Agree.printed {c : Code Op × State} (h : Agree p m c) :
    m.printed p = c.2.written.map Fin.val ++ if c.1 = .nil then ['\n'.toNat] else [] := by
  unfold Machine.printed
  by_cases hf : m.Finished p
  · rw [if_pos hf, if_pos (h.finished_iff.mp hf), h.2.written]
  · rw [if_neg hf, if_neg (mt h.finished_iff.mpr hf), h.2.written, List.append_nil]

theorem load_eq (h : p.length ≤ programSize) : load p = p := List.take_of_length_le h

/-- main runs a balanced program as the language says: round for step with the same memory and
the same output, and to an end exactly where the meaning of the program has one. -/
theorem main_runs_structured {file : List Nat} (hb : Balanced file)
    (hlen : file.length ≤ programSize) (input : Nat → Option (Fin 256)) :
    ∃ code, parse file = some code ∧ text code = file ∧
      (∀ n, Option.Rel (fun m c => m.Shows c.2 ∧ (m.Finished (load file) ↔ c.1 = .nil) ∧
          m.printed (load file) =
            c.2.written.map Fin.val ++ if c.1 = .nil then ['\n'.toNat] else [])
        (runFor (cycle (load file) input) n start)
        (runFor (step (language input)) n (code, .start))) ∧
      ∀ s, (∃ n m, runFor (cycle (load file) input) n start = some m ∧
          m.Finished (load file) ∧ m.Shows s) ↔ Runs (language input) code .start s := by
  obtain ⟨code, hparse, htext⟩ := hb.parse
  rw [load_eq hlen]
  have hrun : ∀ n, Option.Rel (Agree file) (runFor (cycle file input) n start)
      (runFor (step (language input)) n (code, .start)) := fun n =>
    runFor_rel (agree_step hlen) n (agree_start htext)
  refine ⟨code, hparse, htext, fun n => ?_, fun s => ?_⟩
  · exact rel_mono (hrun n) fun m c h => ⟨h.2, h.finished_iff, h.printed⟩
  rw [runs_iff]
  constructor
  · rintro ⟨n, m, hm, hfin, hs⟩
    have hn := hrun n
    rw [hm] at hn
    obtain ⟨⟨k, t⟩, hc, ha⟩ := rel_some hn
    obtain rfl : k = .nil := ha.finished_iff.mp hfin
    obtain rfl : t = s := ha.2.unique hs
    exact ⟨n, hc⟩
  · rintro ⟨n, hc⟩
    have hn := hrun n
    rw [hc] at hn
    obtain ⟨m, hm, ha⟩ := some_rel hn
    exact ⟨n, m, hm, ha.finished_iff.mpr rfl, ha.2⟩

/- Reads a byte and prints it and every smaller one above zero. -/
def countdown : List Nat := ",[.-]".toList.map Char.toNat

example : (runFor (cycle (load countdown) fun _ => some 2) 8 start).map
    (Machine.printed (load countdown)) = some [2, 1, 10] := by decide

theorem countdown_runs_structured :
    Balanced countdown ∧ ∃ code, parse countdown = some code ∧ ∀ s,
      (∃ n m, runFor (cycle (load countdown) fun _ => some 2) n start = some m ∧
        m.Finished (load countdown) ∧ m.Shows s) ↔
      Runs (language fun _ => some 2) code .start s := by
  have hb : Balanced countdown := by decide
  obtain ⟨code, hparse, -, -, hrun⟩ := main_runs_structured hb (by decide) fun _ => some 2
  exact ⟨hb, code, hparse, hrun⟩

end

end AdamOS.Bf
