import AdamOS.Lib.Processor

/-! Code as bytes of the memory it works on: an instruction is read where eip points, each time anew,
so a program may copy and overwrite itself. Segments are flat; what a table must hold for a segment
register to be loaded is a parameter. -/
namespace AdamOS.CodeBytes
open AdamOS.Processor

abbrev Byte := BitVec 8

/-! ### Bytes in memory -/

def le32 (v : Word) : List Byte :=
  [v.extractLsb' 0 8, v.extractLsb' 8 8, v.extractLsb' 16 8, v.extractLsb' 24 8]

def le16 (v : BitVec 16) : List Byte := [v.extractLsb' 0 8, v.extractLsb' 8 8]

def Bytes (mem : Memory) : Word → List Byte → Prop
  | _, [] => True
  | a, b :: bs => mem a = b ∧ Bytes mem (a + 1) bs

def moveBytes (dst src : Word) (n : Nat) (mem : Memory) : Memory := fun x =>
  if (x - dst).toNat < n then mem (src + (x - dst)) else mem x

/-! ### Instructions -/

/- Instructions that leave memory alone and go on behind themselves. -/
inductive Op where
  | mov (r : Reg) (imm : Word)
  | movAx (imm : BitVec 16)
  | movReg (r q : Reg)
  | movSeg (s : Seg)
  | cld
  | lgdt (a : Word)
deriving DecidableEq, Repr

inductive Instr where
  | op (o : Op)
  | repMovsd
  | jmpFar (selector : BitVec 16) (a : Word)
  | jmp (rel : Word)
  | jmpShort (rel : Byte)
  | call (r : Reg)
deriving DecidableEq, Repr

def regBits : Reg → BitVec 3
  | .eax => 0
  | .ecx => 1
  | .edx => 2
  | .ebx => 3
  | .esp => 4
  | .ebp => 5
  | .esi => 6
  | .edi => 7

def regOf (b : BitVec 3) : Reg :=
  if b = 0 then .eax else if b = 1 then .ecx else if b = 2 then .edx else if b = 3 then .ebx
  else if b = 4 then .esp else if b = 5 then .ebp else if b = 6 then .esi else .edi

def segBits : Seg → BitVec 3
  | .es => 0
  | .cs => 1
  | .ss => 2
  | .ds => 3
  | .fs => 4
  | .gs => 5

/- CS is not loaded by a mov. -/
def segOf (b : BitVec 3) : Option Seg :=
  if b = 0 then some .es else if b = 2 then some .ss else if b = 3 then some .ds
  else if b = 4 then some .fs else if b = 5 then some .gs else none

def modRm (reg rm : BitVec 3) : Byte := 0b11#2 ++ reg ++ rm

def Op.encode : Op → List Byte
  | .mov r imm => (0b10111#5 ++ regBits r) :: le32 imm
  | .movAx imm => 0x66 :: 0xB8 :: le16 imm
  | .movReg r q => [0x89, modRm (regBits q) (regBits r)]
  | .movSeg s => [0x8E, modRm (segBits s) (regBits .eax)]
  | .cld => [0xFC]
  | .lgdt a => 0x0F :: 0x01 :: 0x15 :: le32 a

def encode : Instr → List Byte
  | .op o => o.encode
  | .repMovsd => [0xF3, 0xA5]
  | .jmpFar selector a => 0xEA :: (le32 a ++ le16 selector)
  | .jmp rel => 0xE9 :: le32 rel
  | .jmpShort rel => [0xEB, rel]
  | .call r => [0xFF, modRm 2 (regBits r)]

def assemble (is : List Instr) : List Byte := is.flatMap encode

/- The instruction at `a` and its length. -/
def decode (mem : Memory) (a : Word) : Option (Instr × Nat) :=
  let b := mem a
  let b1 := mem (a + 1)
  let low := b1.extractLsb' 0 3
  let mid := b1.extractLsb' 3 3
  let registers := b1.extractLsb' 6 2 = 0b11#2
  if b.extractLsb' 3 5 = 0b10111#5 then
    some (.op (.mov (regOf (b.extractLsb' 0 3)) (load32 mem (a + 1))), 5)
  else if b = 0x66 ∧ b1 = 0xB8 then some (.op (.movAx (mem (a + 3) ++ mem (a + 2))), 4)
  else if b = 0x89 ∧ registers then some (.op (.movReg (regOf low) (regOf mid)), 2)
  else if b = 0x8E ∧ registers ∧ low = 0 then (segOf mid).map fun s => (.op (.movSeg s), 2)
  else if b = 0xFC then some (.op .cld, 1)
  else if b = 0x0F ∧ b1 = 0x01 ∧ mem (a + 2) = 0x15 then some (.op (.lgdt (load32 mem (a + 3))), 7)
  else if b = 0xF3 ∧ b1 = 0xA5 then some (.repMovsd, 2)
  else if b = 0xEA then some (.jmpFar (mem (a + 6) ++ mem (a + 5)) (load32 mem (a + 1)), 7)
  else if b = 0xE9 then some (.jmp (load32 mem (a + 1)), 5)
  else if b = 0xEB then some (.jmpShort b1, 2)
  else if b = 0xFF ∧ registers ∧ mid = 2 then some (.call (regOf low), 2)
  else none

/-! ### Running -/

structure Cpu where
  core : Machine
  gdtBase : Word
  gdtLimit : BitVec 16

namespace Cpu

def eip (c : Cpu) : Word := c.core.eip

def mem (c : Cpu) : Memory := c.core.mem

def map (f : Machine → Machine) (c : Cpu) : Cpu := { c with core := f c.core }

def goto (a : Word) (c : Cpu) : Cpu := c.map (·.goto a)

def descriptor (selector : BitVec 16) (c : Cpu) : BitVec 64 :=
  let a := c.gdtBase + BitVec.ofNat 32 (selector.toNat / 8 * 8)
  load32 c.mem (a + 4) ++ load32 c.mem a

end Cpu

/- The direction flag. -/
def df : Word := 0x400

def movsd (m : Machine) : Machine :=
  let stride : Word := if m.eflags &&& df = 0 then 4 else -4
  let t := ((m.setGpr .esi (m.gpr .esi + stride)).setGpr .edi (m.gpr .edi + stride)).setGpr .ecx
    (m.gpr .ecx - 1)
  { t with mem := store32 (m.gpr .edi) (load32 m.mem (m.gpr .esi)) m.mem }

section
variable (usable : Seg → BitVec 64 → Bool)

def selects (s : Seg) (selector : BitVec 16) (c : Cpu) : Bool :=
  selector.toNat / 4 % 2 = 0 && decide (selector.toNat / 8 * 8 + 7 ≤ c.gdtLimit.toNat) &&
    usable s (c.descriptor selector)

def Op.run : Op → Cpu → Option Cpu
  | .mov r imm, c => some (c.map (·.setGpr r imm))
  | .movAx imm, c => some (c.map fun m => m.setGpr .eax ((m.gpr .eax).extractLsb' 16 16 ++ imm))
  | .movReg r q, c => some (c.map fun m => m.setGpr r (m.gpr q))
  | .movSeg s, c =>
    let selector := (c.core.gpr .eax).truncate 16
    if selects usable s selector c then some (c.map (·.setSeg s selector)) else none
  | .cld, c => some (c.map fun m => { m with eflags := m.eflags &&& ~~~df })
  | .lgdt a, c => some { c with
      gdtLimit := c.mem (a + 1) ++ c.mem a
      gdtBase := load32 c.mem (a + 2) }

/- `eip` is already behind the instruction. -/
def exec (i : Instr) (c : Cpu) : Option Cpu :=
  match i with
  | .op o => o.run usable c
  | .repMovsd =>
    if c.core.gpr .ecx = 0 then some c else some ((c.map movsd).goto (c.eip - 2))
  | .jmpFar selector a =>
    if selects usable .cs selector c then some ((c.map (·.setSeg .cs selector)).goto a) else none
  | .jmp rel => some (c.goto (c.eip + rel))
  | .jmpShort rel => some (c.goto (c.eip + rel.signExtend 32))
  | .call r => some ((c.map (·.push c.eip)).goto (c.core.gpr r))

def step (c : Cpu) : Option Cpu :=
  (decode c.mem c.eip).bind fun r => exec usable r.1 (c.goto (c.eip + BitVec.ofNat 32 r.2))

def Steps : Cpu → Cpu → Prop := Relation.ReflTransGen fun c c' => step usable c = some c'

def runOps : List Op → Cpu → Option Cpu
  | [], c => some c
  | o :: os, c => (o.run usable c).bind (runOps os)

end

variable {usable : Seg → BitVec 64 → Bool} {c c' : Cpu} {mem mem' : Memory} {a dst src x : Word}
  {bs bs' : List Byte} {is : List Instr} {i : Instr} {n : Nat}

/-! ### What lies in memory -/

theorem add_succ (a : Word) (k : Nat) : a + BitVec.ofNat 32 (k + 1) = a + 1 + BitVec.ofNat 32 k := by
  rw [BitVec.ofNat_add, BitVec.add_comm (BitVec.ofNat 32 k), BitVec.add_assoc]
  rfl

theorem bytes_iff : Bytes mem a bs ↔ ∀ k (hk : k < bs.length), mem (a + BitVec.ofNat 32 k) = bs[k] := by
  induction bs generalizing a with
  | nil => exact ⟨fun _ k hk => absurd hk (Nat.not_lt_zero k), fun _ => trivial⟩
  | cons b bs ih =>
    have h0 : a + BitVec.ofNat 32 0 = a := BitVec.add_zero a
    rw [Bytes, ih]
    constructor
    · rintro ⟨hb, hbs⟩ (_ | k) hk
      · rw [h0]
        exact hb
      · rw [add_succ]
        exact hbs k (Nat.lt_of_succ_lt_succ hk)
    · intro h
      refine ⟨?_, fun k hk => ?_⟩
      · have hfirst := h 0 (Nat.succ_pos _)
        rw [h0] at hfirst
        exact hfirst
      · rw [← add_succ]
        exact h (k + 1) (Nat.succ_lt_succ hk)

theorem bytes_append :
    Bytes mem a (bs ++ bs') ↔ Bytes mem a bs ∧ Bytes mem (a + BitVec.ofNat 32 bs.length) bs' := by
  induction bs generalizing a with
  | nil =>
    have h0 : a + BitVec.ofNat 32 0 = a := BitVec.add_zero a
    rw [List.nil_append, List.length_nil, h0]
    exact ⟨fun h => ⟨trivial, h⟩, fun h => h.2⟩
  | cons b bs ih =>
    rw [List.cons_append, Bytes, Bytes, ih, List.length_cons, add_succ, and_assoc]

theorem Bytes.congr (h : Bytes mem a bs)
    (hsame : ∀ k < bs.length, mem' (a + BitVec.ofNat 32 k) = mem (a + BitVec.ofNat 32 k)) :
    Bytes mem' a bs :=
  bytes_iff.mpr fun k hk => (hsame k hk).trans (bytes_iff.mp h k hk)

theorem load_le32 {v : Word} (h : Bytes mem a (le32 v)) : load32 mem a = v := by
  obtain ⟨h0, h1, h2, h3, -⟩ := h
  have h2' : mem (a + 2) = v.extractLsb' 16 8 := by
    rw [← h2, BitVec.add_assoc]
    rfl
  have h3' : mem (a + 3) = v.extractLsb' 24 8 := by
    rw [← h3, BitVec.add_assoc, BitVec.add_assoc]
    rfl
  rw [load32, h0, h1, h2', h3', BitVec.extractLsb'_append_extractLsb'_eq_extractLsb' (rfl : 24 = 16 + 8),
    BitVec.extractLsb'_append_extractLsb'_eq_extractLsb' (rfl : 16 = 8 + 8),
    BitVec.extractLsb'_append_extractLsb'_eq_extractLsb' (rfl : 8 = 0 + 8)]
  exact BitVec.extractLsb'_eq_self

theorem load_le16 {v : BitVec 16} (h : Bytes mem a (le16 v)) : mem (a + 1) ++ mem a = v := by
  obtain ⟨h0, h1, -⟩ := h
  rw [h0, h1, BitVec.extractLsb'_append_extractLsb'_eq_extractLsb' (rfl : 8 = 0 + 8)]
  exact BitVec.extractLsb'_eq_self

/-- The distance of a byte of a block from an address below the block. -/
theorem sub_toNat {k : Nat} (hk : (a - dst).toNat + k < 4294967296) :
    (a + BitVec.ofNat 32 k - dst).toNat = (a - dst).toNat + k := by
  rw [Processor.add_sub_right_comm, BitVec.toNat_add, BitVec.toNat_ofNat]
  omega

theorem bytes_getD (hfit : bs.length ≤ 4294967296) : Bytes (fun x => bs.getD (x - a).toNat 0) a bs := by
  refine bytes_iff.mpr fun k hk => ?_
  have hself : (a - a).toNat = 0 := by rw [BitVec.sub_self]; rfl
  have hoff : (a + BitVec.ofNat 32 k - a).toNat = k := by
    rw [sub_toNat (by omega), hself, Nat.zero_add]
  rw [hoff, List.getD_eq_getElem?_getD, List.getElem?_eq_getElem hk, Option.getD_some]

/-- What is moved arrives. -/
theorem Bytes.moved (h : Bytes mem src bs) (hn : bs.length ≤ n) (hfit : n ≤ 4294967296) :
    Bytes (moveBytes dst src n mem) dst bs := by
  refine bytes_iff.mpr fun k hk => ?_
  have hself : (dst - dst).toNat = 0 := by rw [BitVec.sub_self]; rfl
  have hoff : (dst + BitVec.ofNat 32 k - dst).toNat = k := by
    rw [sub_toNat (by omega), hself, Nat.zero_add]
  have hback : dst + BitVec.ofNat 32 k - dst = BitVec.ofNat 32 k := by
    rw [BitVec.add_comm, BitVec.add_sub_cancel]
  rw [moveBytes, hoff, if_pos (by omega), hback]
  exact bytes_iff.mp h k hk

def Clear (a : Word) (n : Nat) (dst : Word) (m : Nat) : Prop :=
  m ≤ (a - dst).toNat ∧ (a - dst).toNat + n ≤ 4294967296

theorem Clear.head {k m : Nat} (h : Clear a n dst m) (hk : k ≤ n) : Clear a k dst m :=
  ⟨h.1, Nat.le_trans (Nat.add_le_add_left hk _) h.2⟩

theorem Bytes.kept {m : Nat} (h : Bytes mem a bs) (hfar : Clear a bs.length dst m) :
    Bytes (moveBytes dst src m mem) a bs := by
  refine h.congr fun k hk => ?_
  obtain ⟨hlow, hhigh⟩ := hfar
  rw [moveBytes, sub_toNat (by omega), if_neg (by omega)]

theorem Bytes.stored {v : Word} (h : Bytes mem a bs) (hfar : Clear a bs.length dst 4) :
    Bytes (store32 dst v mem) a bs := by
  refine h.congr fun k hk => store32_out ?_
  obtain ⟨hlow, hhigh⟩ := hfar
  rw [sub_toNat (by omega)]
  omega

/-! ### Decoding -/

theorem add_two (a : Word) : a + 1 + 1 = a + 2 := BitVec.add_assoc a 1 1

theorem add_three (a : Word) : a + 2 + 1 = a + 3 := BitVec.add_assoc a 2 1

/-- What was assembled is read back, whatever lies behind it. -/
theorem decode_encode (hcs : i ≠ .op (.movSeg .cs)) (h : Bytes mem a (encode i)) :
    decode mem a = some (i, (encode i).length) := by
  cases i with
  | op o =>
    cases o with
    | mov r imm =>
      obtain ⟨h0, himm⟩ := h
      have hop : (0b10111#5 ++ regBits r).extractLsb' 3 5 = 0b10111#5 := by cases r <;> decide
      have hreg : regOf ((0b10111#5 ++ regBits r).extractLsb' 0 3) = r := by cases r <;> decide
      rw [decode, h0, load_le32 himm, hreg]
      exact if_pos hop
    | movAx imm =>
      obtain ⟨h0, h1, himm⟩ := h
      rw [add_two] at himm
      have hword := load_le16 himm
      rw [add_three] at hword
      rw [decode, h0, h1, hword]
      rfl
    | movReg r q =>
      obtain ⟨h0, h1, -⟩ := h
      rw [decode, h0, h1]
      cases r <;> cases q <;> rfl
    | movSeg s =>
      obtain ⟨h0, h1, -⟩ := h
      rw [decode, h0, h1]
      cases s with
      | cs => exact absurd rfl hcs
      | _ => rfl
    | cld =>
      rw [decode, h.1]
      rfl
    | lgdt v =>
      obtain ⟨h0, h1, h2, himm⟩ := h
      rw [add_two a] at h2 himm
      rw [add_three] at himm
      rw [decode, h0, h1, h2, load_le32 himm]
      rfl
  | repMovsd =>
    obtain ⟨h0, h1, -⟩ := h
    rw [decode, h0, h1]
    rfl
  | jmpFar selector v =>
    obtain ⟨h0, himm⟩ := h
    obtain ⟨himm, hsel⟩ := bytes_append.mp himm
    have hword := load_le16 hsel
    have h5 : a + 1 + BitVec.ofNat 32 (le32 v).length = a + 5 := BitVec.add_assoc a 1 4
    have h6 : a + 5 + 1 = a + 6 := BitVec.add_assoc a 5 1
    rw [h5, h6] at hword
    rw [decode, h0, load_le32 himm, hword]
    rfl
  | jmp rel =>
    obtain ⟨h0, himm⟩ := h
    rw [decode, h0, load_le32 himm]
    rfl
  | jmpShort rel =>
    obtain ⟨h0, h1, -⟩ := h
    rw [decode, h0, h1]
    rfl
  | call r =>
    obtain ⟨h0, h1, -⟩ := h
    rw [decode, h0, h1]
    cases r <;> rfl

theorem step_at (hcs : i ≠ .op (.movSeg .cs)) (h : Bytes c.mem c.eip (encode i)) :
    step usable c = exec usable i (c.goto (c.eip + BitVec.ofNat 32 (encode i).length)) := by
  rw [step, decode_encode hcs h]
  rfl

/-! ### Straight-line code -/

theorem run_mem {o : Op} (h : o.run usable c = some c') : c'.mem = c.mem ∧ c'.eip = c.eip := by
  cases o with
  | movSeg s =>
    rw [Op.run] at h
    split at h
    · obtain rfl := Option.some.inj h
      exact ⟨rfl, rfl⟩
    · cases h
  | _ =>
    obtain rfl := Option.some.inj h
    exact ⟨rfl, rfl⟩

theorem run_goto (o : Op) (h : o.run usable c = some c') (a : Word) :
    o.run usable (c.goto a) = some (c'.goto a) := by
  cases o with
  | movSeg s =>
    rw [Op.run] at h
    split at h
    · next hsel =>
      obtain rfl := Option.some.inj h
      exact if_pos hsel
    · cases h
  | _ =>
    obtain rfl := Option.some.inj h
    rfl

theorem runOps_goto (os : List Op) (h : runOps usable os c = some c') (a : Word) :
    runOps usable os (c.goto a) = some (c'.goto a) := by
  induction os generalizing c with
  | nil =>
    obtain rfl := Option.some.inj h
    rfl
  | cons o os ih =>
    obtain ⟨c₁, hstep, hrest⟩ := Option.bind_eq_some_iff.mp h
    rw [runOps, run_goto o hstep a, Option.bind_some]
    exact ih hrest

/-- Straight-line code runs to its end. -/
theorem steps_ops (os : List Op) (hcs : .movSeg .cs ∉ os)
    (h : Bytes c.mem c.eip (assemble (os.map .op) ++ bs)) (hrun : runOps usable os c = some c') :
    c'.mem = c.mem ∧
      Steps usable c (c'.goto (c.eip + BitVec.ofNat 32 (assemble (os.map .op)).length)) := by
  induction os generalizing c c' with
  | nil =>
    obtain rfl := Option.some.inj hrun
    have h0 : c.eip + BitVec.ofNat 32 0 = c.eip := BitVec.add_zero _
    exact ⟨rfl, h0.symm ▸ Relation.ReflTransGen.refl⟩
  | cons o os ih =>
    obtain ⟨c₁, ho, hrest⟩ := Option.bind_eq_some_iff.mp hrun
    obtain ⟨hne, hcs'⟩ := not_or.mp fun hor => hcs (List.mem_cons.mpr hor)
    rw [List.map_cons, assemble, List.flatMap_cons, List.append_assoc] at h
    have hi : Instr.op o ≠ .op (.movSeg .cs) := fun heq => hne (Instr.op.inj heq).symm
    obtain ⟨hhead, hcode⟩ := bytes_append.mp h
    have hstep := (step_at hi hhead).trans (run_goto o ho _)
    obtain ⟨hmem, -⟩ := run_mem ho
    rw [← hmem] at hcode
    obtain ⟨b, hb⟩ : ∃ b, b = c.eip + BitVec.ofNat 32 (encode (.op o)).length := ⟨_, rfl⟩
    rw [← hb] at hcode hstep
    obtain ⟨hmem', hsteps⟩ := ih (c := c₁.goto b) hcs' hcode (runOps_goto os hrest b)
    refine ⟨hmem'.trans hmem, Relation.ReflTransGen.head hstep ?_⟩
    have hend : b + BitVec.ofNat 32 (assemble (os.map .op)).length =
        c.eip + BitVec.ofNat 32 (assemble ((o :: os).map .op)).length := by
      rw [hb, BitVec.add_assoc, ← BitVec.ofNat_add, ← List.length_append]
      rfl
    rw [← hend]
    exact hsteps

def withSegments (segs : List Seg) (selector : BitVec 16) (c : Cpu) : Cpu :=
  segs.foldl (fun c s => c.map (·.setSeg s selector)) c

theorem run_movSegs (segs : List Seg) {os : List Op} {selector : BitVec 16}
    (hax : (c.core.gpr .eax).truncate 16 = selector)
    (hsel : ∀ s ∈ segs, selects usable s selector c = true) :
    runOps usable (segs.map .movSeg ++ os) c = runOps usable os (withSegments segs selector c) := by
  induction segs generalizing c with
  | nil => rfl
  | cons s segs ih =>
    obtain ⟨hs, hrest⟩ := List.forall_mem_cons.mp hsel
    have hop : (Op.movSeg s).run usable c = some (c.map (·.setSeg s selector)) := by
      rw [Op.run, hax]
      exact if_pos hs
    rw [List.map_cons, List.cons_append, runOps, hop]
    exact ih (c := c.map (·.setSeg s selector)) hax hrest

/-! ### rep movsd -/

theorem load32_byte (mem : Memory) (a : Word) {k : Nat} (hk : k < 4) :
    (load32 mem a).extractLsb' (8 * k) 8 = mem (a + BitVec.ofNat 32 k) := by
  have h0 : a + BitVec.ofNat 32 0 = a := BitVec.add_zero a
  rcases k with _ | _ | _ | _ | k
  · rw [h0]
    exact BitVec.extractLsb'_append_eq_right
  · exact (BitVec.extractLsb'_append_eq_of_le (Nat.le_refl 8)).trans BitVec.extractLsb'_append_eq_right
  · refine (BitVec.extractLsb'_append_eq_of_le (by decide)).trans ?_
    exact (BitVec.extractLsb'_append_eq_of_le (Nat.le_refl 8)).trans BitVec.extractLsb'_append_eq_right
  · refine (BitVec.extractLsb'_append_eq_of_le (by decide)).trans ?_
    refine (BitVec.extractLsb'_append_eq_of_le (by decide)).trans ?_
    exact BitVec.extractLsb'_append_eq_left
  · omega

theorem store_load : store32 dst (load32 mem src) mem = moveBytes dst src 4 mem := by
  funext x
  rw [store32, moveBytes]
  by_cases hx : (x - dst).toNat < 4
  · rw [if_pos hx, if_pos hx, load32_byte mem src hx, BitVec.ofNat_toNat, BitVec.setWidth_eq]
  · rw [if_neg hx, if_neg hx]

theorem sub_four {b : Word} (h : 4 ≤ b.toNat) : (b - 4).toNat = b.toNat - 4 := by
  bv_omega

theorem sub_four_wraps {b : Word} (h : b.toNat < 4) : (b - 4).toNat = b.toNat + 4294967292 := by
  bv_omega

theorem moveBytes_step (hup : (src - dst).toNat + 4 * (n + 1) ≤ 4294967296) :
    moveBytes (dst + 4) (src + 4) (4 * n) (store32 dst (load32 mem src) mem) =
      moveBytes dst src (4 * (n + 1)) mem := by
  funext x
  rw [store_load]
  have hoff : x - (dst + 4) = x - dst - 4 := (BitVec.sub_sub ..).symm
  have hnext : src + 4 + (x - dst - 4) = src + (x - dst) := by
    rw [BitVec.add_assoc, BitVec.add_comm 4, BitVec.sub_add_cancel]
  have hread : src + (x - dst) - dst = src - dst + (x - dst) := Processor.add_sub_right_comm ..
  simp only [moveBytes, hoff, hnext]
  by_cases hlow : (x - dst).toNat < 4
  · rw [sub_four_wraps hlow, if_neg (by omega), if_pos hlow, if_pos (by omega)]
  · rw [sub_four (Nat.le_of_not_lt hlow), if_neg hlow]
    by_cases hin : (x - dst).toNat < 4 * (n + 1)
    · have hlater : ¬(src + (x - dst) - dst).toNat < 4 := by
        rw [hread, BitVec.toNat_add, Nat.mod_eq_of_lt (by omega)]
        omega
      rw [if_pos (by omega), if_pos hin, if_neg hlater]
    · rw [if_neg (by omega), if_neg hin]

def repeated (dst src : Word) (n : Nat) (c : Cpu) : Cpu := c.map fun m =>
  { ((m.setGpr .esi (src + BitVec.ofNat 32 (4 * n))).setGpr .edi
      (dst + BitVec.ofNat 32 (4 * n))).setGpr .ecx 0 with mem := moveBytes dst src (4 * n) m.mem }

theorem repeated_zero (hsrc : c.core.gpr .esi = src) (hdst : c.core.gpr .edi = dst)
    (hn : c.core.gpr .ecx = 0) : repeated dst src 0 c = c := by
  have hgpr : (((c.core.setGpr .esi (src + 0)).setGpr .edi (dst + 0)).setGpr .ecx 0).gpr = c.core.gpr := by
    funext q
    cases q
    case esi => exact (BitVec.add_zero src).trans hsrc.symm
    case edi => exact (BitVec.add_zero dst).trans hdst.symm
    case ecx => exact hn.symm
    all_goals rfl
  exact congrArg (fun g => { c with core := { c.core with gpr := g } }) hgpr

theorem movsd_gpr {m : Machine} (hdf : m.eflags &&& df = 0) : (movsd m).gpr =
    (((m.setGpr .esi (m.gpr .esi + 4)).setGpr .edi (m.gpr .edi + 4)).setGpr .ecx (m.gpr .ecx - 1)).gpr := by
  unfold movsd
  rw [if_pos hdf]

theorem repeated_succ (hsrc : c.core.gpr .esi = src) (hdst : c.core.gpr .edi = dst)
    (hdf : c.core.eflags &&& df = 0) (hup : (src - dst).toNat + 4 * (n + 1) ≤ 4294967296) :
    repeated (dst + 4) (src + 4) n (c.map movsd) = repeated dst src (n + 1) c := by
  have hoff : ∀ a : Word, a + 4 + BitVec.ofNat 32 (4 * n) = a + BitVec.ofNat 32 (4 * (n + 1)) := by
    intro a
    rw [BitVec.add_assoc, Nat.mul_succ, Nat.add_comm, BitVec.ofNat_add]
    rfl
  have hgpr : ((((movsd c.core).setGpr .esi (src + 4 + BitVec.ofNat 32 (4 * n))).setGpr .edi
      (dst + 4 + BitVec.ofNat 32 (4 * n))).setGpr .ecx 0).gpr =
      (((c.core.setGpr .esi (src + BitVec.ofNat 32 (4 * (n + 1)))).setGpr .edi
        (dst + BitVec.ofNat 32 (4 * (n + 1)))).setGpr .ecx 0).gpr := by
    change (fun q => if q = Reg.ecx then 0 else if q = Reg.edi then dst + 4 + BitVec.ofNat 32 (4 * n)
      else if q = Reg.esi then src + 4 + BitVec.ofNat 32 (4 * n) else (movsd c.core).gpr q) = _
    rw [movsd_gpr hdf]
    funext q
    cases q
    case esi => exact hoff src
    case edi => exact hoff dst
    all_goals rfl
  have hmem : moveBytes (dst + 4) (src + 4) (4 * n) (movsd c.core).mem =
      moveBytes dst src (4 * (n + 1)) c.core.mem := by
    rw [← moveBytes_step hup, ← hsrc, ← hdst]
    rfl
  calc repeated (dst + 4) (src + 4) n (c.map movsd)
      = { c with core := { c.core with
            gpr := ((((movsd c.core).setGpr .esi (src + 4 + BitVec.ofNat 32 (4 * n))).setGpr .edi
              (dst + 4 + BitVec.ofNat 32 (4 * n))).setGpr .ecx 0).gpr
            mem := moveBytes (dst + 4) (src + 4) (4 * n) (movsd c.core).mem } } := rfl
    _ = repeated dst src (n + 1) c := by
      rw [hgpr, hmem]
      rfl

theorem Clear.next {k : Nat} (h : Clear a k dst (4 * (n + 1))) : Clear a k (dst + 4) (4 * n) := by
  obtain ⟨hlow, hhigh⟩ := h
  have hback : (a - (dst + 4)).toNat = (a - dst).toNat - 4 := by
    rw [← BitVec.sub_sub, sub_four (by omega)]
  exact ⟨by omega, by omega⟩

/-- The words are moved upwards, one at a time; a block that begins below the one it came from may
overlap it. -/
theorem steps_repMovsd (hcode : Bytes c.mem c.eip (encode .repMovsd)) (hsrc : c.core.gpr .esi = src)
    (hdst : c.core.gpr .edi = dst) (hn : c.core.gpr .ecx = BitVec.ofNat 32 n)
    (hdf : c.core.eflags &&& df = 0) (hup : (src - dst).toNat + 4 * n ≤ 4294967296)
    (hclear : Clear c.eip 2 dst (4 * n)) :
    Steps usable c ((repeated dst src n c).goto (c.eip + 2)) := by
  induction n generalizing c dst src with
  | zero =>
    have hstep : step usable c = exec usable .repMovsd (c.goto (c.eip + 2)) := step_at (by decide) hcode
    have hend : exec usable .repMovsd (c.goto (c.eip + 2)) = some (c.goto (c.eip + 2)) := if_pos hn
    rw [repeated_zero hsrc hdst hn]
    exact Relation.ReflTransGen.single (hstep.trans hend)
  | succ n ih =>
    have hstep : step usable c = exec usable .repMovsd (c.goto (c.eip + 2)) := step_at (by decide) hcode
    have hmore : c.core.gpr .ecx ≠ 0 := by
      rw [hn]
      intro h0
      have h0' := congrArg BitVec.toNat h0
      rw [BitVec.toNat_ofNat] at h0'
      change (n + 1) % 4294967296 = 0 at h0'
      omega
    have hone : exec usable .repMovsd (c.goto (c.eip + 2)) = some (c.map movsd) := by
      have hback : c.eip + 2 - 2 = c.eip := BitVec.add_sub_cancel ..
      have hgo : exec usable .repMovsd (c.goto (c.eip + 2)) =
          some (((c.goto (c.eip + 2)).map movsd).goto (c.eip + 2 - 2)) := if_neg hmore
      rw [hgo, hback]
      rfl
    have hmem : (c.map movsd).mem = moveBytes dst src 4 c.mem := by
      rw [← store_load, ← hsrc, ← hdst]
      rfl
    have hcode' : Bytes (c.map movsd).mem (c.map movsd).eip (encode .repMovsd) := by
      obtain ⟨hlow, hhigh⟩ := hclear
      rw [hmem]
      exact hcode.kept ⟨by omega, hhigh⟩
    have hup' : (src + 4 - (dst + 4)).toNat + 4 * n ≤ 4294967296 := by
      have hsame : src + 4 - (dst + 4) = src - dst := by bv_omega
      rw [hsame]
      omega
    have hsrc' : (movsd c.core).gpr .esi = src + 4 := by
      rw [← hsrc]
      exact congrFun (movsd_gpr hdf) .esi
    have hdst' : (movsd c.core).gpr .edi = dst + 4 := by
      rw [← hdst]
      exact congrFun (movsd_gpr hdf) .edi
    have hn' : (movsd c.core).gpr .ecx = BitVec.ofNat 32 n := by
      have hpred : BitVec.ofNat 32 (n + 1) - 1 = BitVec.ofNat 32 n := by
        rw [BitVec.ofNat_add]
        exact BitVec.add_sub_cancel ..
      rw [← hpred, ← hn]
      exact congrFun (movsd_gpr hdf) .ecx
    have hrest := ih hcode' hsrc' hdst' hn' hdf hup' hclear.next
    rw [repeated_succ hsrc hdst hdf hup] at hrest
    exact Relation.ReflTransGen.head (hstep.trans hone) hrest

def copyLoads (dst src : Word) (n : Nat) : List Op :=
  [.mov .esi src, .mov .edi dst, .mov .ecx (BitVec.ofNat 32 n), .cld]

def copyCode (dst src : Word) (n : Nat) : List Instr := (copyLoads dst src n).map .op ++ [.repMovsd]

def loaded (dst src : Word) (n : Nat) (c : Cpu) : Cpu := c.map fun m =>
  { ((m.setGpr .esi src).setGpr .edi dst).setGpr .ecx (BitVec.ofNat 32 n) with
    eflags := m.eflags &&& ~~~df }

def copied (dst src : Word) (n : Nat) (c : Cpu) : Cpu :=
  repeated dst src n (c.map fun m => { m with eflags := m.eflags &&& ~~~df })

theorem repeated_loaded : repeated dst src n (loaded dst src n c) = copied dst src n c := by
  have hgpr : ((((((c.core.setGpr .esi src).setGpr .edi dst).setGpr .ecx (BitVec.ofNat 32 n)).setGpr .esi
      (src + BitVec.ofNat 32 (4 * n))).setGpr .edi (dst + BitVec.ofNat 32 (4 * n))).setGpr .ecx 0).gpr =
      (((c.core.setGpr .esi (src + BitVec.ofNat 32 (4 * n))).setGpr .edi
        (dst + BitVec.ofNat 32 (4 * n))).setGpr .ecx 0).gpr := by
    funext q
    cases q <;> rfl
  exact congrArg
    (fun g => { copied dst src n c with core := { (copied dst src n c).core with gpr := g } }) hgpr

theorem steps_copy (hcode : Bytes c.mem c.eip (assemble (copyCode dst src n) ++ bs))
    (hup : (src - dst).toNat + 4 * n ≤ 4294967296) (hclear : Clear (c.eip + 16) 2 dst (4 * n)) :
    Steps usable c ((copied dst src n c).goto (c.eip + 18)) := by
  have hsplit : assemble (copyCode dst src n) ++ bs =
      assemble ((copyLoads dst src n).map .op) ++ (encode .repMovsd ++ bs) := rfl
  have hrun : runOps usable (copyLoads dst src n) c = some (loaded dst src n c) := rfl
  rw [hsplit] at hcode
  have hops : Steps usable c ((loaded dst src n c).goto (c.eip + 16)) :=
    (steps_ops (copyLoads dst src n) (by simp [copyLoads]) hcode hrun).2
  have hdf : c.core.eflags &&& ~~~df &&& df = 0 := by
    rw [BitVec.and_assoc]
    exact BitVec.and_zero
  have hrest : Bytes c.mem (c.eip + 16) (encode .repMovsd) := (bytes_append.mp (bytes_append.mp hcode).2).1
  have hrep : Steps usable ((loaded dst src n c).goto (c.eip + 16))
      ((repeated dst src n ((loaded dst src n c).goto (c.eip + 16))).goto (c.eip + 16 + 2)) :=
    steps_repMovsd hrest rfl rfl rfl hdf hup hclear
  have hend : c.eip + 16 + 2 = c.eip + 18 := BitVec.add_assoc c.eip 16 2
  rw [hend] at hrep
  rw [← repeated_loaded]
  exact hops.trans hrep

end AdamOS.CodeBytes
