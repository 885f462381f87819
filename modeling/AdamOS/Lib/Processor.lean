import Mathlib.Logic.Relation
import Mathlib.Data.List.Basic

/-! A 32-bit protected-mode processor as far as traps and calls need it: registers, byte memory, the
stack, and the delivery of an interrupt through a gate. Compiled functions are steps of their own. -/
namespace AdamOS.Processor

abbrev Word := BitVec 32
abbrev Memory := Word → BitVec 8

/- In the order in which pusha stores them. -/
inductive Reg where
  | eax | ecx | edx | ebx | esp | ebp | esi | edi
deriving DecidableEq, Repr

inductive Seg where
  | cs | ss | ds | es | fs | gs
deriving DecidableEq, Repr

structure Machine where
  gpr : Reg → Word
  seg : Seg → BitVec 16
  eip : Word
  eflags : Word
  /- the stack that the task state segment names for ring 0 -/
  ss0 : BitVec 16
  esp0 : Word
  mem : Memory

/-! ### Memory, little-endian -/

def load32 (m : Memory) (a : Word) : Word := m (a + 3) ++ m (a + 2) ++ m (a + 1) ++ m a

def store32 (a v : Word) (m : Memory) : Memory := fun i =>
  if (i - a).toNat < 4 then v.extractLsb' (8 * (i - a).toNat) 8 else m i

/-! ### Registers and the stack -/

namespace Machine

def setGpr (r : Reg) (v : Word) (m : Machine) : Machine :=
  { m with gpr := fun q => if q = r then v else m.gpr q }

def setSeg (s : Seg) (v : BitVec 16) (m : Machine) : Machine :=
  { m with seg := fun q => if q = s then v else m.seg q }

def esp (m : Machine) : Word := m.gpr .esp

/- The current privilege level. -/
def cpl (m : Machine) : Nat := (m.seg .cs).toNat % 4

def push (v : Word) (m : Machine) : Machine :=
  { m.setGpr .esp (m.esp - 4) with mem := store32 (m.esp - 4) v m.mem }

def goto (a : Word) (m : Machine) : Machine := { m with eip := a }

def word (m : Machine) (i : Nat) : Word := load32 m.mem (m.esp + BitVec.ofNat 32 (4 * i))

def top (m : Machine) : Word := load32 m.mem m.esp

def drop (n : Nat) (m : Machine) : Machine := m.setGpr .esp (m.esp + BitVec.ofNat 32 (4 * n))

end Machine

/-! ### Instructions -/

/- Instructions after which the next one in memory runs. -/
inductive Op where
  | push (imm : Word)
  | pushReg (r : Reg)
  | pushSeg (s : Seg)
  | pushLoad (base : Reg) (offset : Word)
  | pusha
  | popSeg (s : Seg)
  | popa
  | mov (r : Reg) (imm : Word)
  | mov16 (r : Reg) (imm : BitVec 16)
  | movReg (r q : Reg)
  | movSeg (s : Seg) (r : Reg)
  | load (r base : Reg) (offset : Word)
  | add (r : Reg) (imm : Word)
deriving DecidableEq, Repr

inductive Instr where
  | op (o : Op)
  | jmp (target : Word)
  | call (target : Word)
  | ret
  | int (n : BitVec 8)
  | iret
deriving DecidableEq, Repr

def pusha (m : Machine) : Machine :=
  [Reg.eax, .ecx, .edx, .ebx, .esp, .ebp, .esi, .edi].foldl (fun t r => t.push (m.gpr r)) m

/- The word stored for ESP is skipped. -/
def popa (m : Machine) : Machine :=
  (((((((m.setGpr .edi (m.word 0)).setGpr .esi (m.word 1)).setGpr .ebp (m.word 2)).setGpr .ebx
    (m.word 4)).setGpr .edx (m.word 5)).setGpr .ecx (m.word 6)).setGpr .eax (m.word 7)).drop 8

def Op.run : Op → Machine → Machine
  | .push imm, m => m.push imm
  | .pushReg r, m => m.push (m.gpr r)
  | .pushSeg s, m => m.push ((m.seg s).zeroExtend 32)
  | .pushLoad base offset, m => m.push (load32 m.mem (m.gpr base + offset))
  | .pusha, m => Processor.pusha m
  | .popSeg s, m => (m.setSeg s (m.top.truncate 16)).drop 1
  | .popa, m => Processor.popa m
  | .mov r imm, m => m.setGpr r imm
  | .mov16 r imm, m => m.setGpr r ((m.gpr r).extractLsb' 16 16 ++ imm)
  | .movReg r q, m => m.setGpr r (m.gpr q)
  | .movSeg s r, m => m.setSeg s ((m.gpr r).truncate 16)
  | .load r base offset, m => m.setGpr r (load32 m.mem (m.gpr base + offset))
  | .add r imm, m => m.setGpr r (m.gpr r + imm)

structure Gate where
  offset : Word
  selector : BitVec 16
  dpl : Nat
  present : Bool
deriving DecidableEq, Repr

/- What surrounds the registers: the code, the compiled functions by their address, the interrupt
   table and the privilege of each segment. -/
structure Platform where
  fetch : Machine → Option (Instr × Word)
  native : Word → Option (Machine → Machine)
  gate : BitVec 8 → Gate
  segmentDpl : BitVec 16 → Nat

/- TF, IF, NT, RF and VM are clear in the handler. -/
def maskedFlags (eflags : Word) : Word := eflags &&& 0xFFFCBCFF#32

/- Delivery through a gate: from an outer ring the stack of the task state segment is taken first. -/
def enter (segmentDpl : BitVec 16 → Nat) (g : Gate) (m : Machine) : Machine :=
  let outer := segmentDpl g.selector < m.cpl
  let t := if outer then
      (((m.setSeg .ss m.ss0).setGpr .esp m.esp0).push ((m.seg .ss).zeroExtend 32)).push m.esp
    else m
  let t := ((t.push m.eflags).push ((m.seg .cs).zeroExtend 32)).push m.eip
  { t.setSeg .cs g.selector with eip := g.offset, eflags := maskedFlags m.eflags }

def enterWith (segmentDpl : BitVec 16 → Nat) (g : Gate) (code : Option Word) (m : Machine) : Machine :=
  match code with
  | some e => (enter segmentDpl g m).push e
  | none => enter segmentDpl g m

def isData (s : Seg) : Bool := s = .ds || s = .es || s = .fs || s = .gs

/- A data segment register that the outer ring may not use is cleared. -/
def nulled (segmentDpl : BitVec 16 → Nat) (ring : Nat) (m : Machine) : Machine :=
  { m with seg := fun s => if isData s && segmentDpl (m.seg s) < ring then 0 else m.seg s }

def iret (segmentDpl : BitVec 16 → Nat) (m : Machine) : Machine :=
  let t := { m.setSeg .cs ((m.word 1).truncate 16) with eip := m.word 0, eflags := m.word 2 }
  if m.cpl < t.cpl then
    nulled segmentDpl t.cpl ((t.setGpr .esp (m.word 3)).setSeg .ss ((m.word 4).truncate 16))
  else t.drop 3

/- `eip` is already behind the instruction. -/
def exec (p : Platform) (i : Instr) (m : Machine) : Option Machine :=
  match i with
  | .op o => some (o.run m)
  | .jmp target => some (m.goto target)
  | .call target => some ((m.push m.eip).goto target)
  | .ret => some ((m.drop 1).goto m.top)
  | .int n =>
    let g := p.gate n
    if g.present && decide (m.cpl ≤ g.dpl) then some (enter p.segmentDpl g m) else none
  | .iret => some (iret p.segmentDpl m)

def step (p : Platform) (m : Machine) : Option Machine :=
  match p.native m.eip with
  | some f => some (f m)
  | none => (p.fetch m).bind fun r => exec p r.1 (m.goto (m.eip + r.2))

def Steps (p : Platform) : Machine → Machine → Prop :=
  Relation.ReflTransGen fun m m' => step p m = some m'

def CodeAt (p : Platform) : Word → List Instr → Prop
  | _, [] => True
  | a, i :: is => p.native a = none ∧
    ∃ n, (∀ m : Machine, m.eip = a → p.fetch m = some (i, n)) ∧ CodeAt p (a + n) is

/-! ### Fields -/

variable {p : Platform} {m t : Machine} {r q : Reg} {s : Seg} {v w a b : Word} {x : BitVec 16}
  {mem : Memory} {n : Nat} {is js : List Instr} {ws : List Word}

@[simp] theorem setGpr_self : (m.setGpr r v).gpr r = v := if_pos rfl

@[simp] theorem setGpr_other (h : q ≠ r) : (m.setGpr r v).gpr q = m.gpr q := if_neg h

@[simp] theorem gpr_esp : m.gpr .esp = m.esp := rfl

@[simp] theorem setGpr_esp_self : (m.setGpr .esp v).esp = v :=
  (setGpr_self : (m.setGpr .esp v).gpr .esp = v)

@[simp] theorem setGpr_esp (h : r ≠ .esp) : (m.setGpr r v).esp = m.esp :=
  (setGpr_other h.symm : (m.setGpr r v).gpr .esp = m.gpr .esp)

@[simp] theorem setGpr_seg : (m.setGpr r v).seg = m.seg := rfl
@[simp] theorem setGpr_mem : (m.setGpr r v).mem = m.mem := rfl
@[simp] theorem setGpr_eip : (m.setGpr r v).eip = m.eip := rfl
@[simp] theorem setGpr_eflags : (m.setGpr r v).eflags = m.eflags := rfl
@[simp] theorem setGpr_ss0 : (m.setGpr r v).ss0 = m.ss0 := rfl
@[simp] theorem setGpr_esp0 : (m.setGpr r v).esp0 = m.esp0 := rfl

@[simp] theorem setSeg_self : (m.setSeg s x).seg s = x := if_pos rfl

@[simp] theorem setSeg_other {s' : Seg} (h : s' ≠ s) : (m.setSeg s x).seg s' = m.seg s' := if_neg h

@[simp] theorem setSeg_esp : (m.setSeg s x).esp = m.esp := rfl
@[simp] theorem setSeg_gpr : (m.setSeg s x).gpr = m.gpr := rfl
@[simp] theorem setSeg_mem : (m.setSeg s x).mem = m.mem := rfl
@[simp] theorem setSeg_eip : (m.setSeg s x).eip = m.eip := rfl
@[simp] theorem setSeg_eflags : (m.setSeg s x).eflags = m.eflags := rfl
@[simp] theorem setSeg_ss0 : (m.setSeg s x).ss0 = m.ss0 := rfl
@[simp] theorem setSeg_esp0 : (m.setSeg s x).esp0 = m.esp0 := rfl

@[simp] theorem push_esp : (m.push v).esp = m.esp - 4 :=
  (setGpr_self : (m.setGpr .esp (m.esp - 4)).gpr .esp = m.esp - 4)

@[simp] theorem push_gpr (h : q ≠ .esp) : (m.push v).gpr q = m.gpr q :=
  (setGpr_other h : (m.setGpr .esp (m.esp - 4)).gpr q = m.gpr q)

@[simp] theorem push_mem : (m.push v).mem = store32 (m.esp - 4) v m.mem := rfl
@[simp] theorem push_seg : (m.push v).seg = m.seg := rfl
@[simp] theorem push_eip : (m.push v).eip = m.eip := rfl
@[simp] theorem push_eflags : (m.push v).eflags = m.eflags := rfl
@[simp] theorem push_ss0 : (m.push v).ss0 = m.ss0 := rfl
@[simp] theorem push_esp0 : (m.push v).esp0 = m.esp0 := rfl

@[simp] theorem goto_gpr : (m.goto a).gpr = m.gpr := rfl
@[simp] theorem goto_seg : (m.goto a).seg = m.seg := rfl
@[simp] theorem goto_mem : (m.goto a).mem = m.mem := rfl
@[simp] theorem goto_eip : (m.goto a).eip = a := rfl
@[simp] theorem goto_esp : (m.goto a).esp = m.esp := rfl
@[simp] theorem goto_goto : (m.goto a).goto b = m.goto b := rfl
theorem push_goto : (m.goto a).push v = (m.push v).goto a := rfl
@[simp] theorem goto_cpl : (m.goto a).cpl = m.cpl := rfl

@[simp] theorem drop_esp : (m.drop n).esp = m.esp + BitVec.ofNat 32 (4 * n) :=
  setGpr_esp_self

@[simp] theorem drop_gpr (h : q ≠ .esp) : (m.drop n).gpr q = m.gpr q := setGpr_other h

@[simp] theorem drop_mem : (m.drop n).mem = m.mem := rfl
@[simp] theorem drop_seg : (m.drop n).seg = m.seg := rfl

/-! ### Words in memory -/

theorem load32_store32 : load32 (store32 a v mem) a = v := by
  have hbyte : ∀ k : Nat, k < 4 → store32 a v mem (a + BitVec.ofNat 32 k) = v.extractLsb' (8 * k) 8 := by
    intro k hk
    have hoff : (a + BitVec.ofNat 32 k - a).toNat = k := by
      rw [BitVec.add_comm, BitVec.add_sub_cancel, BitVec.toNat_ofNat]
      omega
    rw [store32, hoff, if_pos hk]
  have h0 : store32 a v mem a = v.extractLsb' 0 8 := by simpa using hbyte 0 (by decide)
  have h1 := hbyte 1 (by decide)
  have h2 := hbyte 2 (by decide)
  have h3 := hbyte 3 (by decide)
  calc load32 (store32 a v mem) a
      = v.extractLsb' 24 8 ++ v.extractLsb' 16 8 ++ v.extractLsb' 8 8 ++ v.extractLsb' 0 8 := by
        rw [← h0, ← h1, ← h2, ← h3]
        rfl
    _ = v.extractLsb' 0 32 := by
        rw [BitVec.extractLsb'_append_extractLsb'_eq_extractLsb' (rfl : 24 = 16 + 8),
          BitVec.extractLsb'_append_extractLsb'_eq_extractLsb' (rfl : 16 = 8 + 8),
          BitVec.extractLsb'_append_extractLsb'_eq_extractLsb' (rfl : 8 = 0 + 8)]
    _ = v := BitVec.extractLsb'_eq_self

theorem store32_out (h : 4 ≤ (b - a).toNat) : store32 a v mem b = mem b := if_neg (Nat.not_lt.mpr h)

theorem add_sub_right_comm (a b k : Word) : b + k - a = b - a + k := by
  rw [BitVec.sub_eq_add_neg, BitVec.sub_eq_add_neg, BitVec.add_assoc, BitVec.add_comm k,
    ← BitVec.add_assoc]

theorem load32_congr {mem' : Memory} (h : ∀ k < 4, mem' (a + BitVec.ofNat 32 k) = mem (a + BitVec.ofNat 32 k)) :
    load32 mem' a = load32 mem a := by
  have h0 : mem' a = mem a := by simpa using h 0 (by decide)
  have h1 : mem' (a + 1) = mem (a + 1) := h 1 (by decide)
  have h2 : mem' (a + 2) = mem (a + 2) := h 2 (by decide)
  have h3 : mem' (a + 3) = mem (a + 3) := h 3 (by decide)
  rw [load32, load32, h0, h1, h2, h3]

theorem load32_store32_out (h : 4 ≤ (b - a).toNat) (h' : (b - a).toNat + 4 ≤ 4294967296) :
    load32 (store32 a v mem) b = load32 mem b := by
  refine load32_congr fun k hk => store32_out ?_
  rw [add_sub_right_comm, BitVec.toNat_add, BitVec.toNat_ofNat]
  omega

/-! ### Words on the stack -/

def Holds (mem : Memory) : Word → List Word → Prop
  | _, [] => True
  | a, w :: ws => load32 mem a = w ∧ Holds mem (a + 4) ws

theorem Holds.get (h : Holds mem a ws) {i : Nat} (hi : i < ws.length) :
    load32 mem (a + BitVec.ofNat 32 (4 * i)) = ws[i] := by
  induction ws generalizing a i with
  | nil => exact absurd hi (Nat.not_lt_zero i)
  | cons w ws ih =>
    cases i with
    | zero => exact (congrArg (load32 mem) (BitVec.add_zero a)).trans h.1
    | succ i =>
      have hoff : a + BitVec.ofNat 32 (4 * (i + 1)) = a + 4 + BitVec.ofNat 32 (4 * i) := by
        rw [BitVec.add_assoc, Nat.mul_succ, BitVec.ofNat_add, BitVec.add_comm (BitVec.ofNat 32 (4 * i))]
        rfl
      rw [hoff, ih h.2 (Nat.lt_of_succ_lt_succ hi)]
      rfl

theorem Holds.store (h : Holds mem b ws) (hgap : 4 ≤ (b - a).toNat)
    (hfit : (b - a).toNat + 4 * ws.length ≤ 4294967296) : Holds (store32 a v mem) b ws := by
  induction ws generalizing b with
  | nil => trivial
  | cons w ws ih =>
    rw [List.length_cons] at hfit
    refine ⟨(load32_store32_out hgap (by omega)).trans h.1, ?_⟩
    cases ws with
    | nil => trivial
    | cons w' ws =>
      rw [List.length_cons] at hfit ih
      have hoff : (b + 4 - a).toNat = (b - a).toNat + 4 := by
        rw [add_sub_right_comm, BitVec.toNat_add]
        exact Nat.mod_eq_of_lt (by change (b - a).toNat + 4 < 4294967296; omega)
      exact ih h.2 (by omega) (by omega)

/- The words `ws`, the last one pushed first, lie on a stack that began at `base`, and memory below
   and above them is still `mem`. -/
structure Pushed (base : Word) (mem : Memory) (ws : List Word) (m : Machine) : Prop where
  esp : m.esp = base - BitVec.ofNat 32 (4 * ws.length)
  holds : Holds m.mem m.esp ws
  rest : ∀ i, 4 * ws.length ≤ (i - m.esp).toNat → m.mem i = mem i

theorem pushed_nil (hesp : m.esp = b) : Pushed b m.mem [] m :=
  ⟨by rw [hesp]; exact (BitVec.sub_zero b).symm, trivial, fun _ _ => rfl⟩

theorem Pushed.push (h : Pushed b mem ws m) (hfit : 4 * ws.length + 4 ≤ 4294967296) :
    Pushed b mem (v :: ws) (m.push v) where
  esp := by
    have hsum : BitVec.ofNat 32 (4 * (ws.length + 1)) = BitVec.ofNat 32 (4 * ws.length) + 4 :=
      BitVec.ofNat_add ..
    rw [push_esp, h.esp, List.length_cons, BitVec.sub_sub, hsum]
  holds := by
    have hback : m.esp - 4 + 4 = m.esp := BitVec.sub_add_cancel _ _
    have hgap : m.esp - (m.esp - 4) = 4 := by bv_omega
    rw [push_esp, push_mem]
    refine ⟨load32_store32, ?_⟩
    rw [hback]
    refine h.holds.store ?_ ?_
    · rw [hgap]; decide
    · rw [hgap]
      change 4 + 4 * ws.length ≤ 4294967296
      omega
  rest := by
    intro i hi
    rw [push_esp] at hi
    rw [List.length_cons] at hi
    rw [push_mem, store32_out (by omega)]
    refine h.rest i ?_
    have hoff : i - m.esp = i - (m.esp - 4) - 4 := by
      rw [BitVec.sub_sub, BitVec.sub_add_cancel]
    rw [hoff, BitVec.toNat_sub_of_le (by rw [BitVec.le_def]; change 4 ≤ _; omega)]
    change _ ≤ _ - 4
    omega

theorem Pushed.of_eq (h : Pushed b mem ws m) (hesp : t.esp = m.esp) (hmem : t.mem = m.mem) :
    Pushed b mem ws t :=
  ⟨hesp.trans h.esp, by rw [hmem, hesp]; exact h.holds, by rw [hmem, hesp]; exact h.rest⟩

def pushAll (vs : List Word) (m : Machine) : Machine := vs.foldl (fun t v => t.push v) m

theorem Pushed.pushAll (h : Pushed b mem ws m) (vs : List Word)
    (hfit : 4 * (ws.length + vs.length) ≤ 4294967296) :
    Pushed b mem (vs.reverse ++ ws) (pushAll vs m) := by
  induction vs generalizing ws m with
  | nil => exact h
  | cons v vs ih =>
    rw [List.length_cons] at hfit
    have hrest := ih (h.push (v := v) (by omega)) (by rw [List.length_cons]; omega)
    rw [List.reverse_cons, List.append_assoc]
    exact hrest

theorem pushAll_gpr (vs : List Word) (hq : q ≠ .esp) : (pushAll vs m).gpr q = m.gpr q := by
  induction vs generalizing m with
  | nil => rfl
  | cons v vs ih => exact ih.trans (push_gpr hq)

theorem pushAll_seg (vs : List Word) : (pushAll vs m).seg = m.seg := by
  induction vs generalizing m with
  | nil => rfl
  | cons v vs ih => exact ih.trans push_seg

def Outside (b : Word) (n : Nat) (x : Word) : Prop :=
  ∀ k < 4, n ≤ (x + BitVec.ofNat 32 k - (b - BitVec.ofNat 32 n)).toNat

theorem Outside.mono {j : Nat} {x : Word} (h : Outside b n x) (hj : j ≤ n) (hn : n < 4294967296) :
    Outside b j x := by
  intro k hk
  have hd := h k hk
  have hnj : (BitVec.ofNat 32 (n - j)).toNat = n - j := by
    rw [BitVec.toNat_ofNat]
    omega
  have hsplit : x + BitVec.ofNat 32 k - (b - BitVec.ofNat 32 j) =
      x + BitVec.ofNat 32 k - (b - BitVec.ofNat 32 n) - BitVec.ofNat 32 (n - j) := by
    have hsum : BitVec.ofNat 32 n = BitVec.ofNat 32 j + BitVec.ofNat 32 (n - j) := by
      rw [← BitVec.ofNat_add, Nat.add_sub_cancel' hj]
    rw [hsum, ← BitVec.sub_sub, BitVec.sub_sub (x + BitVec.ofNat 32 k), BitVec.sub_add_cancel]
  rw [hsplit, BitVec.toNat_sub_of_le (by rw [BitVec.le_def, hnj]; omega), hnj]
  omega

theorem Pushed.load (h : Pushed b mem ws m) {x : Word} (hx : Outside b (4 * ws.length) x) :
    load32 m.mem x = load32 mem x :=
  load32_congr fun k hk => h.rest _ (by rw [h.esp]; exact hx k hk)

/-! ### Runs of code -/

def runOps (os : List Op) (m : Machine) : Machine := os.foldl (fun t o => o.run t) m

/-- Words pushed from memory that the pushes do not reach. -/
theorem Pushed.pushLoads (h : Pushed b mem ws m) (hr : r ≠ .esp) (offsets : List Word)
    (hfit : 4 * (ws.length + offsets.length) < 4294967296)
    (hfar : ∀ o ∈ offsets, Outside b (4 * (ws.length + offsets.length)) (m.gpr r + o)) :
    Pushed b mem ((offsets.map fun o => load32 mem (m.gpr r + o)).reverse ++ ws)
      (runOps (offsets.map (.pushLoad r)) m) := by
  induction offsets generalizing ws m with
  | nil => exact h
  | cons o os ih =>
    rw [List.length_cons] at hfit
    have hload : load32 m.mem (m.gpr r + o) = load32 mem (m.gpr r + o) :=
      h.load ((hfar o List.mem_cons_self).mono (by omega) hfit)
    have hgpr : (m.push (load32 mem (m.gpr r + o))).gpr r = m.gpr r := push_gpr hr
    have hrest := ih (h.push (v := load32 mem (m.gpr r + o)) (by omega))
      (by rw [List.length_cons]; omega) fun o' ho' => by
        rw [hgpr, List.length_cons, Nat.add_right_comm, Nat.add_assoc]
        exact hfar o' (List.mem_cons_of_mem _ ho')
    rw [hgpr] at hrest
    rw [List.map_cons, List.map_cons, List.reverse_cons, List.append_assoc]
    change Pushed b mem _ (runOps (os.map (.pushLoad r)) (m.push (load32 m.mem (m.gpr r + o))))
    rw [hload]
    exact hrest

theorem pushLoads_gpr (offsets : List Word) (hq : q ≠ .esp) :
    (runOps (offsets.map (.pushLoad r)) m).gpr q = m.gpr q := by
  induction offsets generalizing m with
  | nil => rfl
  | cons o os ih => exact ih.trans (push_gpr hq)

theorem pushLoads_seg (offsets : List Word) : (runOps (offsets.map (.pushLoad r)) m).seg = m.seg := by
  induction offsets generalizing m with
  | nil => rfl
  | cons o os ih => exact ih.trans push_seg

theorem run_goto (o : Op) (m : Machine) (a : Word) : o.run (m.goto a) = (o.run m).goto a := by
  cases o <;> rfl

theorem step_fetch {i : Instr} (h : CodeAt p a (i :: is)) (he : m.eip = a) :
    ∃ b, CodeAt p b is ∧ step p m = exec p i (m.goto b) := by
  obtain ⟨hn, n, hf, hrest⟩ := h
  refine ⟨a + n, hrest, ?_⟩
  rw [step, he, hn, hf m he]
  rfl

theorem runOps_goto (os : List Op) (m : Machine) (a : Word) :
    runOps os (m.goto a) = (runOps os m).goto a := by
  induction os generalizing m with
  | nil => rfl
  | cons o os ih =>
    change runOps os (o.run (m.goto a)) = _
    rw [run_goto, ih]
    rfl

/-- Straight-line code runs to its end. -/
theorem steps_ops (os : List Op) (h : CodeAt p a (os.map .op ++ is)) (he : m.eip = a) :
    ∃ b, CodeAt p b is ∧ Steps p m ((runOps os m).goto b) := by
  induction os generalizing a m with
  | nil => exact ⟨a, h, he ▸ Relation.ReflTransGen.refl⟩
  | cons o os ih =>
    obtain ⟨b, hrest, hstep⟩ := step_fetch h he
    rw [exec, run_goto] at hstep
    obtain ⟨c, hc, hrun⟩ := ih hrest (rfl : ((o.run m).goto b).eip = b)
    rw [runOps_goto] at hrun
    exact ⟨c, hc, Relation.ReflTransGen.head hstep hrun⟩

theorem steps_pushes (vs : List Word) (h : CodeAt p a (vs.map (fun v => .op (.push v)) ++ is))
    (he : m.eip = a) : ∃ b, CodeAt p b is ∧ Steps p m ((pushAll vs m).goto b) := by
  have hmap : vs.map (fun v => Instr.op (.push v)) = (vs.map Op.push).map .op := by
    rw [List.map_map]
    rfl
  have hrun : runOps (vs.map .push) m = pushAll vs m := by
    rw [runOps, List.foldl_map]
    rfl
  rw [hmap] at h
  exact hrun ▸ steps_ops (vs.map .push) h he

/- What a compiled function does to the control flow: it returns behind its call. -/
structure Returns (f : Machine → Machine) : Prop where
  eip : ∀ m, (f m).eip = m.top
  esp : ∀ m, (f m).esp = m.esp + 4
  seg : ∀ m, (f m).seg = m.seg

theorem steps_call {f : Machine → Machine} (h : CodeAt p a (.call v :: is)) (he : m.eip = a)
    (hf : p.native v = some f) (hret : Returns f) :
    ∃ b, CodeAt p b is ∧ (f ((m.push b).goto v)).eip = b ∧
      Steps p m (f ((m.push b).goto v)) := by
  obtain ⟨b, hrest, hstep⟩ := step_fetch h he
  have hcall : step p ((m.push b).goto v) = some (f ((m.push b).goto v)) := by
    rw [step, Machine.goto, hf]
  have htop : ((m.push b).goto v).top = b := by
    change load32 (m.push b).mem (m.push b).esp = b
    rw [push_mem, push_esp, load32_store32]
  exact ⟨b, hrest, (hret.eip _).trans htop,
    Relation.ReflTransGen.head hstep (Relation.ReflTransGen.single hcall)⟩

/-! ### Traps from an outer ring -/

def trapWords (m : Machine) : List Word :=
  [m.eip, (m.seg .cs).zeroExtend 32, m.eflags, m.esp, (m.seg .ss).zeroExtend 32]

variable {dpl : BitVec 16 → Nat} {g : Gate}

theorem enter_pushed (h : dpl g.selector < m.cpl) :
    Pushed m.esp0 m.mem (trapWords m) (enter dpl g m) := by
  have h0 : Pushed m.esp0 m.mem [] ((m.setSeg .ss m.ss0).setGpr .esp m.esp0) :=
    pushed_nil (m := (m.setSeg .ss m.ss0).setGpr .esp m.esp0) setGpr_self
  have h5 := h0.pushAll [(m.seg .ss).zeroExtend 32, m.esp, m.eflags, (m.seg .cs).zeroExtend 32, m.eip]
    (by simp)
  refine h5.of_eq ?_ ?_
  · rw [enter, if_pos h]; rfl
  · rw [enter, if_pos h]; rfl

theorem enter_gpr (h : dpl g.selector < m.cpl) (hr : r ≠ .esp) : (enter dpl g m).gpr r = m.gpr r := by
  rw [enter, if_pos h]
  simp [hr]

theorem enter_seg (hs : isData s = true) : (enter dpl g m).seg s = m.seg s := by
  by_cases h : dpl g.selector < m.cpl
  · rw [enter, if_pos h]
    cases s <;> first | rfl | simp [isData] at hs
  · rw [enter, if_neg h]
    cases s <;> first | rfl | simp [isData] at hs

theorem enter_cs : (enter dpl g m).seg .cs = g.selector := rfl

theorem enter_eip : (enter dpl g m).eip = g.offset := rfl

/-! ### Return to the outer ring -/

def outerSeg (dpl : BitVec 16 → Nat) (cs ss : BitVec 16) (seg : Seg → BitVec 16) : Seg → BitVec 16
  | .cs => cs
  | .ss => ss
  | s => if dpl (seg s) < cs.toNat % 4 then 0 else seg s

theorem iret_outer (dpl : BitVec 16 → Nat) {e c f x : Word} (h : Holds m.mem m.esp [e, c, f, v, x])
    (hring : m.cpl < (c.truncate 16).toNat % 4) :
    let u := iret dpl m
    u.gpr = (m.setGpr .esp v).gpr ∧ u.seg = outerSeg dpl (c.truncate 16) (x.truncate 16) m.seg ∧
      u.eip = e ∧ u.eflags = f ∧ u.mem = m.mem := by
  have h0 : m.word 0 = e := h.get (i := 0) (by simp)
  have h1 : m.word 1 = c := h.get (i := 1) (by simp)
  have h2 : m.word 2 = f := h.get (i := 2) (by simp)
  have h3 : m.word 3 = v := h.get (i := 3) (by simp)
  have h4 : m.word 4 = x := h.get (i := 4) (by simp)
  rw [iret, h0, h1, h2, h3, h4]
  dsimp only
  rw [if_pos (by exact hring)]
  refine ⟨rfl, funext fun s => ?_, rfl, rfl, rfl⟩
  cases s <;> simp [nulled, isData, outerSeg, Machine.cpl]

/-! ### Code in a read-only memory -/

/- Each instruction at an address of its own. -/
def rom (code : Word → Option Instr) (native : Word → Option (Machine → Machine))
    (gate : BitVec 8 → Gate) (segmentDpl : BitVec 16 → Nat) : Platform where
  fetch m := (code m.eip).map fun i => (i, 1)
  native := native
  gate := gate
  segmentDpl := segmentDpl

theorem codeAt_rom {code : Word → Option Instr} {native : Word → Option (Machine → Machine)}
    {gate : BitVec 8 → Gate}
    (h : ∀ i (hi : i < is.length), code (a + BitVec.ofNat 32 i) = some is[i])
    (hn : ∀ i < is.length, native (a + BitVec.ofNat 32 i) = none) :
    CodeAt (rom code native gate dpl) a is := by
  induction is generalizing a with
  | nil => trivial
  | cons i is ih =>
    have hnext : ∀ k, a + BitVec.ofNat 32 (k + 1) = a + 1 + BitVec.ofNat 32 k := fun k => by
      rw [BitVec.ofNat_add, BitVec.add_comm (BitVec.ofNat 32 k), BitVec.add_assoc]
      rfl
    have h0 : code a = some i := by simpa using h 0 (Nat.succ_pos _)
    have hn0 : native a = none := by simpa using hn 0 (Nat.succ_pos _)
    refine ⟨hn0, 1, fun m he => ?_, ih (fun k hk => ?_) fun k hk => ?_⟩
    · change (code m.eip).map _ = _
      rw [he, h0]
      rfl
    · rw [← hnext]
      exact h (k + 1) (Nat.succ_lt_succ hk)
    · rw [← hnext]
      exact hn (k + 1) (Nat.succ_lt_succ hk)

def returned (m : Machine) : Machine := (m.drop 1).goto m.top

theorem returned_esp : (returned m).esp = m.esp + 4 := drop_esp

end AdamOS.Processor
