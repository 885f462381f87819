import AdamOS.Kernel.Process
import AdamOS.Lib.Processor

/-! interrupts.asm and process-control-block.asm: the frame an interrupt leaves for its handler, and
the ways back to user mode. -/
namespace AdamOS.Traps
open AdamOS.Process AdamOS.Processor

/- KERNEL_CODE_SEGMENT and KERNEL_DATA_SEGMENT; the selectors of the user segments with RPL 3. -/
def kernelCodeSegment : BitVec 16 := 0x08
def kernelDataSegment : BitVec 16 := 0x10
def userCodeSegment : BitVec 16 := 27
def userDataSegment : BitVec 16 := 35

/- From pusha to the push of the frame pointer, and from behind the call to iret; ISR_WRAPPER and
   exception_common_stub have both in common. -/
def saveRegisters : List Op :=
  [.pusha, .pushSeg .ds, .pushSeg .es, .pushSeg .fs, .pushSeg .gs,
    .mov16 .eax kernelDataSegment, .movSeg .ds .eax, .movSeg .es .eax, .movSeg .fs .eax,
    .movSeg .gs .eax, .pushReg .esp]

def restoreRegisters : List Op :=
  [.add .esp 4, .popSeg .gs, .popSeg .fs, .popSeg .es, .popSeg .ds, .popa, .add .esp 8]

def isrWrapper (handler : Word) : List Instr :=
  [.op (.push 0), .op (.push 0x80)] ++ saveRegisters.map .op ++
    .call handler :: (restoreRegisters.map .op ++ [.iret])

/- switch_to_process up to the pushes of its iret frame, and the loads behind them. The offsets are
   those of registers_t, the first field of a pcb_t. -/
def buildIretFrame : List Op :=
  [.load .eax .esp 4, .movReg .ebx .eax, .mov16 .edx userDataSegment, .movSeg .ds .edx,
    .movSeg .es .edx, .movSeg .fs .edx, .movSeg .gs .edx, .pushLoad .ebx 72, .pushLoad .ebx 68,
    .pushLoad .ebx 64, .pushLoad .ebx 60, .pushLoad .ebx 56]

/- ebx is loaded last because it is the base. -/
def loadRegisters : List Op :=
  [.load .edi .ebx 16, .load .esi .ebx 20, .load .ebp .ebx 24, .load .edx .ebx 36,
    .load .ecx .ebx 40, .load .eax .ebx 44, .load .ebx .ebx 32]

def switchToProcess : List Instr := (buildIretFrame ++ loadRegisters).map .op ++ [.iret]

/-! ### registers_t -/

def registersOf (w : Nat → Word) : Registers where
  gs := (w 0).toNat
  fs := (w 1).toNat
  es := (w 2).toNat
  ds := (w 3).toNat
  edi := (w 4).toNat
  esi := (w 5).toNat
  ebp := (w 6).toNat
  esp := (w 7).toNat
  ebx := (w 8).toNat
  edx := (w 9).toNat
  ecx := (w 10).toNat
  eax := (w 11).toNat
  intNo := (w 12).toNat
  errCode := (w 13).toNat
  eip := (w 14).toNat
  cs := (w 15).toNat
  eflags := (w 16).toNat
  useresp := (w 17).toNat
  ss := (w 18).toNat

def registersAt (mem : Memory) (p : Word) : Registers :=
  registersOf fun i => load32 mem (p + BitVec.ofNat 32 (4 * i))

def saved (intNo errCode : Word) (m : Machine) : Registers where
  gs := (m.seg .gs).toNat
  fs := (m.seg .fs).toNat
  es := (m.seg .es).toNat
  ds := (m.seg .ds).toNat
  edi := (m.gpr .edi).toNat
  esi := (m.gpr .esi).toNat
  ebp := (m.gpr .ebp).toNat
  esp := (m.esp0 - 28).toNat
  ebx := (m.gpr .ebx).toNat
  edx := (m.gpr .edx).toNat
  ecx := (m.gpr .ecx).toNat
  eax := (m.gpr .eax).toNat
  intNo := intNo.toNat
  errCode := errCode.toNat
  eip := m.eip.toNat
  cs := (m.seg .cs).toNat
  eflags := m.eflags.toNat
  useresp := m.esp.toNat
  ss := (m.seg .ss).toNat

def gprOf (r : Registers) : Reg → Word
  | .eax => BitVec.ofNat 32 r.eax
  | .ecx => BitVec.ofNat 32 r.ecx
  | .edx => BitVec.ofNat 32 r.edx
  | .ebx => BitVec.ofNat 32 r.ebx
  | .esp => BitVec.ofNat 32 r.useresp
  | .ebp => BitVec.ofNat 32 r.ebp
  | .esi => BitVec.ofNat 32 r.esi
  | .edi => BitVec.ofNat 32 r.edi

def segOf (r : Registers) : Seg → BitVec 16
  | .cs => BitVec.ofNat 16 r.cs
  | .ss => BitVec.ofNat 16 r.ss
  | .ds => BitVec.ofNat 16 r.ds
  | .es => BitVec.ofNat 16 r.es
  | .fs => BitVec.ofNat 16 r.fs
  | .gs => BitVec.ofNat 16 r.gs

structure Runs (r : Registers) (m : Machine) : Prop where
  gpr : m.gpr = gprOf r
  seg : m.seg = segOf r
  eip : m.eip = BitVec.ofNat 32 r.eip
  eflags : m.eflags = BitVec.ofNat 32 r.eflags

/- A frame of user mode: the data segments are ones that ring 3 may use. -/
structure UserFrame (dpl : BitVec 16 → Nat) (r : Registers) : Prop where
  ring : (BitVec.ofNat 16 r.cs).toNat % 4 = 3
  data : ∀ s, isData s = true → segOf r s = 0 ∨ 3 ≤ dpl (segOf r s)

/-! ### Entry -/

variable {p : Platform} {dpl : BitVec 16 → Nat} {g : Gate} {m t : Machine} {a b v w : Word}
  {mem : Memory} {is : List Instr} {ws : List Word}

def registerWords (m : Machine) : List Word :=
  [(m.seg .gs).zeroExtend 32, (m.seg .fs).zeroExtend 32, (m.seg .es).zeroExtend 32,
    (m.seg .ds).zeroExtend 32, m.gpr .edi, m.gpr .esi, m.gpr .ebp, m.esp, m.gpr .ebx, m.gpr .edx,
    m.gpr .ecx, m.gpr .eax]

theorem saveRegisters_pushes (m : Machine) :
    let t := pushAll (registerWords m).reverse m
    (runOps saveRegisters m).esp = (t.push t.esp).esp ∧
      (runOps saveRegisters m).mem = (t.push t.esp).mem := by
  constructor <;> simp [runOps, saveRegisters, Op.run, Processor.pusha, pushAll, registerWords]

/-- The frame for the handler and, on top of it, its address. -/
theorem saveRegisters_frame (h : Pushed b mem ws m) (hfit : 4 * ws.length + 52 ≤ 4294967296) :
    Pushed b mem ((m.esp - 48) :: registerWords m ++ ws) (runOps saveRegisters m) := by
  have hall := h.pushAll (registerWords m).reverse (by
    rw [List.length_reverse]
    change 4 * (ws.length + 12) ≤ 4294967296
    omega)
  rw [List.reverse_reverse] at hall
  have hesp : (pushAll (registerWords m).reverse m).esp = m.esp - 48 := by
    rw [hall.esp, h.esp, List.length_append]
    change b - BitVec.ofNat 32 (4 * (12 + ws.length)) = _
    rw [Nat.mul_add, Nat.add_comm, BitVec.ofNat_add, BitVec.sub_sub]
    rfl
  have hlast := hall.push (v := (pushAll (registerWords m).reverse m).esp) (by
    rw [List.length_append]
    change 4 * (12 + ws.length) + 4 ≤ 4294967296
    omega)
  obtain ⟨he, hm⟩ := saveRegisters_pushes m
  rw [hesp] at hlast he hm
  exact hlast.of_eq he hm

theorem registersOf_congr {f g : Nat → Word} (h : ∀ i < 19, f i = g i) :
    registersOf f = registersOf g := by
  simp only [registersOf, h 0 (by decide), h 1 (by decide), h 2 (by decide), h 3 (by decide),
    h 4 (by decide), h 5 (by decide), h 6 (by decide), h 7 (by decide), h 8 (by decide),
    h 9 (by decide), h 10 (by decide), h 11 (by decide), h 12 (by decide), h 13 (by decide),
    h 14 (by decide), h 15 (by decide), h 16 (by decide), h 17 (by decide), h 18 (by decide)]

/-- The words of a frame are the structure at its address. -/
theorem registersAt_of_holds
    (h : Holds mem a (registerWords t ++ v :: w :: trapWords m)) (hgpr : ∀ r, r ≠ .esp → t.gpr r = m.gpr r)
    (hseg : ∀ s, isData s = true → t.seg s = m.seg s) (hesp : t.esp = m.esp0 - 28) :
    registersAt mem a = saved v w m := by
  have hwords : registersAt mem a =
      registersOf fun i => (registerWords t ++ v :: w :: trapWords m).getD i 0 := by
    refine registersOf_congr fun i hi => ?_
    rw [h.get hi, List.getD_eq_getElem?_getD, List.getElem?_eq_getElem hi]
    rfl
  have hlt : ∀ x : BitVec 16, x.toNat < 4294967296 := fun x => Nat.lt_trans x.isLt (by decide)
  rw [hwords]
  simp [registersOf, registerWords, trapWords, saved, hgpr, hseg, hesp, isData, hlt]

/-! ### Exit -/

theorem restoreRegisters_loads (h : t.esp + 4 = a) :
    let u := runOps restoreRegisters t
    let r := registersAt t.mem a
    u.esp = a + 56 ∧ u.mem = t.mem ∧ u.seg .cs = t.seg .cs ∧
      (∀ q, q ≠ .esp → u.gpr q = gprOf r q) ∧ ∀ s, isData s = true → u.seg s = segOf r s := by
  refine ⟨?_, ?_, ?_, fun q hq => ?_, fun s hs => ?_⟩
  · simp [runOps, restoreRegisters, Op.run, popa, ← h, BitVec.add_assoc]
  · simp [runOps, restoreRegisters, Op.run, popa]
  · simp [runOps, restoreRegisters, Op.run, popa]
  · cases q <;>
      simp [runOps, restoreRegisters, Op.run, popa, ← h, BitVec.add_assoc, gprOf, registersAt,
        registersOf, Machine.word] at hq ⊢
  · cases s <;>
      simp [runOps, restoreRegisters, Op.run, ← h, BitVec.add_assoc, segOf, registersAt,
        registersOf, Machine.top, popa, isData] at hs ⊢

theorem holds_trapWords (mem : Memory) (a : Word) :
    let r := registersAt mem a
    Holds mem (a + 56) [BitVec.ofNat 32 r.eip, BitVec.ofNat 32 r.cs, BitVec.ofNat 32 r.eflags,
      BitVec.ofNat 32 r.useresp, BitVec.ofNat 32 r.ss] := by
  simp [Holds, registersAt, registersOf, BitVec.add_assoc]

theorem outerSeg_of {r : Registers} {seg : Seg → BitVec 16} (hr : UserFrame dpl r)
    (h : ∀ s, isData s = true → seg s = segOf r s) :
    outerSeg dpl (segOf r .cs) (segOf r .ss) seg = segOf r := by
  have hdata : ∀ s, isData s = true →
      (if dpl (seg s) < (segOf r .cs).toNat % 4 then 0 else seg s) = segOf r s := by
    intro s hs
    have hring : (segOf r .cs).toNat % 4 = 3 := hr.ring
    rw [h s hs, hring]
    rcases hr.data s hs with h0 | h3
    · rw [h0, ite_self]
    · exact if_neg (Nat.not_lt.mpr h3)
  funext s
  cases s with
  | cs => rfl
  | ss => rfl
  | ds => exact hdata .ds rfl
  | es => exact hdata .es rfl
  | fs => exact hdata .fs rfl
  | gs => exact hdata .gs rfl

/-- iret with the registers of a user frame loaded and its last five words on the stack. -/
theorem iret_runs {r : Registers} (hr : UserFrame dpl r) (hcpl : t.cpl = 0)
    (hgpr : ∀ q, q ≠ .esp → t.gpr q = gprOf r q) (hseg : ∀ s, isData s = true → t.seg s = segOf r s)
    (hholds : Holds t.mem t.esp [BitVec.ofNat 32 r.eip, BitVec.ofNat 32 r.cs, BitVec.ofNat 32 r.eflags,
      BitVec.ofNat 32 r.useresp, BitVec.ofNat 32 r.ss]) :
    Runs r (iret dpl t) ∧ (iret dpl t).mem = t.mem := by
  have hlow : ∀ n : Nat, (BitVec.ofNat 32 n).truncate 16 = BitVec.ofNat 16 n := fun n =>
    BitVec.setWidth_ofNat_of_le (by decide) n
  have hring : t.cpl < ((BitVec.ofNat 32 r.cs).truncate 16).toNat % 4 := by
    rw [hcpl, hlow, hr.ring]
    decide
  obtain ⟨hg, hs, hip, hfl, hm⟩ := iret_outer dpl hholds hring
  rw [hlow, hlow] at hs
  refine ⟨⟨funext fun q => ?_, hs.trans (outerSeg_of hr hseg), hip, hfl⟩, hm⟩
  rw [hg]
  by_cases hq : q = .esp
  · rw [hq, setGpr_self]
    rfl
  · rw [setGpr_other hq]
    exact hgpr q hq

/-- The end of a wrapper resumes user mode with whatever the frame holds by then. -/
theorem returns_to_user (hcode : CodeAt p b (restoreRegisters.map .op ++ [.iret])) (he : t.eip = b)
    (hcpl : t.cpl = 0) (hp : t.esp + 4 = a) (hr : UserFrame p.segmentDpl (registersAt t.mem a)) :
    ∃ u, Steps p t u ∧ Runs (registersAt t.mem a) u ∧ u.mem = t.mem := by
  obtain ⟨hesp, hmem, hcs, hgpr, hseg⟩ := restoreRegisters_loads hp
  obtain ⟨c, hc, hrun⟩ := steps_ops restoreRegisters hcode he
  obtain ⟨d, -, hstep⟩ := step_fetch (m := (runOps restoreRegisters t).goto c) hc goto_eip
  rw [goto_goto] at hstep
  have hring : ((runOps restoreRegisters t).goto d).cpl = 0 := by
    rw [goto_cpl, Machine.cpl, hcs]
    exact hcpl
  obtain ⟨hruns, hm⟩ := iret_runs (t := (runOps restoreRegisters t).goto d) hr hring hgpr hseg (by
    rw [goto_mem, goto_esp, hmem, hesp]
    exact holds_trapWords t.mem a)
  exact ⟨_, hrun.tail hstep, hruns, hm.trans hmem⟩

/-! ### The whole wrapper -/

/- `u` is the machine when the handler is entered from a trap at `m`: its argument is the frame,
   and the kernel stack below esp0 is all that has changed in memory. -/
structure Called (intNo errCode : Word) (m u : Machine) : Prop where
  argument : load32 u.mem (u.esp + 4) = m.esp0 - 76
  frame : registersAt u.mem (m.esp0 - 76) = saved intNo errCode m
  elsewhere : ∀ i, 84 ≤ (i - (m.esp0 - 84)).toNat → u.mem i = m.mem i

/-- From a machine that has pushed the error code and the vector to the handler's first instruction. -/
theorem called_of_save (h : Pushed m.esp0 m.mem (v :: w :: trapWords m) t)
    (hgpr : ∀ r, r ≠ .esp → t.gpr r = m.gpr r) (hseg : ∀ s, isData s = true → t.seg s = m.seg s) :
    Called v w m (((runOps saveRegisters t).push b).goto a) ∧
      (runOps saveRegisters t).esp + 4 = m.esp0 - 76 := by
  have hesp : t.esp = m.esp0 - 28 := h.esp
  have hframe := saveRegisters_frame h (Nat.le_of_ble_eq_true rfl)
  have hcall := hframe.push (v := b) (Nat.le_of_ble_eq_true rfl)
  have hbase : (runOps saveRegisters t).esp = m.esp0 - 80 := hframe.esp
  have hword : m.esp0 - 28 - 48 = m.esp0 - 76 := by rw [BitVec.sub_sub]; rfl
  have hback : (m.esp0 - 80) + 4 = m.esp0 - 76 := by bv_omega
  have hup : ((runOps saveRegisters t).push b).esp + 4 = m.esp0 - 80 := by
    rw [push_esp, hbase, BitVec.sub_add_cancel]
  have hlast : ((runOps saveRegisters t).push b).esp = m.esp0 - 84 := hcall.esp
  obtain ⟨-, harg, hregs⟩ := hcall.holds
  refine ⟨⟨?_, ?_, ?_⟩, by rw [hbase, hback]⟩
  · rw [goto_mem, goto_esp, harg, hesp, hword]
  · rw [hup, hback] at hregs
    exact registersAt_of_holds hregs hgpr hseg hesp
  · intro i hi
    exact hcall.rest i (by rw [hlast]; exact hi)

theorem saveRegisters_cs (m : Machine) : (runOps saveRegisters m).seg .cs = m.seg .cs := by
  simp [runOps, saveRegisters, Op.run, Processor.pusha]

/-- The common part of the wrapper and the exception stubs: the handler runs on the frame of `m`, and
user mode goes on with the registers it leaves there. -/
theorem common_returns {f : Machine → Machine}
    (hcode : CodeAt p a (saveRegisters.map .op ++ .call b :: (restoreRegisters.map .op ++ [.iret])))
    (he : t.eip = a) (hf : p.native b = some f) (hret : Returns f)
    (hpushed : Pushed m.esp0 m.mem (v :: w :: trapWords m) t)
    (hgpr : ∀ r, r ≠ .esp → t.gpr r = m.gpr r) (hseg : ∀ s, isData s = true → t.seg s = m.seg s)
    (hcpl : t.cpl = 0)
    (hr : ∀ u, Called v w m u → UserFrame p.segmentDpl (registersAt (f u).mem (m.esp0 - 76))) :
    ∃ u t', Called v w m u ∧ Steps p t t' ∧ Runs (registersAt (f u).mem (m.esp0 - 76)) t' ∧
      t'.mem = (f u).mem := by
  obtain ⟨c, hc, hsave⟩ := steps_ops saveRegisters hcode he
  obtain ⟨d, hd, hip, hcall⟩ := steps_call (m := (runOps saveRegisters t).goto c) hc goto_eip hf hret
  rw [push_goto, goto_goto] at hip hcall
  obtain ⟨hcalled, hesp⟩ := called_of_save (a := b) (b := d) hpushed hgpr hseg
  have hring : (f (((runOps saveRegisters t).push d).goto b)).cpl = 0 := by
    rw [Machine.cpl, hret.seg, goto_seg, push_seg, saveRegisters_cs]
    exact hcpl
  have hback : (f (((runOps saveRegisters t).push d).goto b)).esp + 4 = m.esp0 - 76 := by
    rw [hret.esp, goto_esp, push_esp, BitVec.sub_add_cancel, hesp]
  obtain ⟨t', hrun, hruns, hmem⟩ := returns_to_user hd hip hring hback (hr _ hcalled)
  exact ⟨_, t', hcalled, hsave.trans (hcall.trans hrun), hruns, hmem⟩

/-- The words a stub pushes on top of those of the processor. -/
theorem stub_pushed (h : dpl g.selector < m.cpl) (vs : List Word) (hfit : 4 * (5 + vs.length) ≤ 4294967296) :
    Pushed m.esp0 m.mem (vs.reverse ++ trapWords m) ((pushAll vs (enter dpl g m)).goto b) ∧
      (∀ q, q ≠ .esp → ((pushAll vs (enter dpl g m)).goto b).gpr q = m.gpr q) ∧
      (∀ s, isData s = true → ((pushAll vs (enter dpl g m)).goto b).seg s = m.seg s) ∧
      ((pushAll vs (enter dpl g m)).goto b).seg .cs = g.selector := by
  refine ⟨((enter_pushed h).pushAll vs hfit).of_eq goto_esp goto_mem, fun q hq => ?_, fun s hs => ?_, ?_⟩
  · rw [goto_gpr, pushAll_gpr vs hq, enter_gpr h hq]
  · rw [goto_seg, pushAll_seg, enter_seg hs]
  · rw [goto_seg, pushAll_seg, enter_cs]

/-- A trap of user mode runs the handler on the frame of the interrupted registers, and user mode
goes on with the registers the handler leaves in that frame, whatever else it did. -/
theorem trap_returns {f : Machine → Machine} (hcode : CodeAt p g.offset (isrWrapper v))
    (hf : p.native v = some f) (hret : Returns f) (huser : m.cpl = 3)
    (hdpl : p.segmentDpl g.selector = 0) (hring : g.selector.toNat % 4 = 0)
    (hr : ∀ u, Called 0x80 0 m u → UserFrame p.segmentDpl (registersAt (f u).mem (m.esp0 - 76))) :
    ∃ u t, Called 0x80 0 m u ∧ Steps p (enter p.segmentDpl g m) t ∧
      Runs (registersAt (f u).mem (m.esp0 - 76)) t ∧ t.mem = (f u).mem := by
  have houter : p.segmentDpl g.selector < m.cpl := by rw [hdpl, huser]; decide
  obtain ⟨b, hb, hpush⟩ := steps_pushes [0, 0x80] hcode
    (enter_eip : (enter p.segmentDpl g m).eip = g.offset)
  obtain ⟨hpushed, hgpr, hseg, hcs⟩ := stub_pushed (b := b) houter [0, 0x80] (by decide)
  obtain ⟨u, t, hcalled, hsteps, hruns, hmem⟩ := common_returns hb goto_eip hf hret hpushed hgpr hseg
    (by rw [Machine.cpl, hcs, hring]) hr
  exact ⟨u, t, hcalled, hpush.trans hsteps, hruns, hmem⟩

/- User mode at the start of a program, with the kernel stack at 0x90000; segments are told apart by
   the privilege in their selectors. -/
def sampleMachine : Machine where
  gpr q := if q = .esp then 0x50000FF0 else 7
  seg s := if s = .cs then userCodeSegment else userDataSegment
  eip := 0x40000010
  eflags := 0x202
  ss0 := kernelDataSegment
  esp0 := 0x90000
  mem := fun _ => 0

def sampleDpl (selector : BitVec 16) : Nat := selector.toNat % 4

def samplePlatform (code : Word → Option Instr) (f : Machine → Machine) : Platform :=
  rom code (fun a => if a = 0x2000 then some f else none) (fun _ => ⟨0x1000, 8, 3, true⟩) sampleDpl

/-- regs->eax = v -/
theorem registersAt_store_eax (mem : Memory) (a v : Word) :
    registersAt (store32 (a + 44) v mem) a = { registersAt mem a with eax := v.toNat } := by
  have hother : ∀ i < 19, i ≠ 11 → load32 (store32 (a + 44) v mem) (a + BitVec.ofNat 32 (4 * i)) =
      load32 mem (a + BitVec.ofNat 32 (4 * i)) := by
    intro i hi hne
    have hoff : (a + BitVec.ofNat 32 (4 * i) - (a + 44)).toNat = (4 * i + 4294967252) % 4294967296 := by
      have hcancel : a + BitVec.ofNat 32 (4 * i) - (a + 44) = BitVec.ofNat 32 (4 * i) - 44 := by
        rw [add_sub_right_comm, ← BitVec.sub_sub, BitVec.sub_self, BitVec.sub_eq_add_neg,
          BitVec.sub_eq_add_neg, BitVec.add_comm, BitVec.zero_add]
      rw [hcancel, BitVec.toNat_sub, BitVec.toNat_ofNat]
      change (4294967296 - 44 + 4 * i % 4294967296) % 4294967296 = _
      omega
    refine load32_store32_out ?_ ?_ <;> rw [hoff] <;> omega
  have heax : load32 (store32 (a + 44) v mem) (a + BitVec.ofNat 32 (4 * 11)) = v := load32_store32
  simp only [registersAt, registersOf, heax, hother 0 (by decide) (by decide),
    hother 1 (by decide) (by decide), hother 2 (by decide) (by decide),
    hother 3 (by decide) (by decide), hother 4 (by decide) (by decide),
    hother 5 (by decide) (by decide), hother 6 (by decide) (by decide),
    hother 7 (by decide) (by decide), hother 8 (by decide) (by decide),
    hother 9 (by decide) (by decide), hother 10 (by decide) (by decide),
    hother 12 (by decide) (by decide), hother 13 (by decide) (by decide),
    hother 14 (by decide) (by decide), hother 15 (by decide) (by decide),
    hother 16 (by decide) (by decide), hother 17 (by decide) (by decide),
    hother 18 (by decide) (by decide)]

/-- An interrupt whose handler leaves the frame alone is not noticed. -/
theorem runs_saved (h : Runs (saved v w m) t) :
    t.gpr = m.gpr ∧ t.seg = m.seg ∧ t.eip = m.eip ∧ t.eflags = m.eflags := by
  refine ⟨?_, ?_, ?_, ?_⟩
  · rw [h.gpr]
    funext q
    cases q <;> simp [gprOf, saved]
  · rw [h.seg]
    funext s
    cases s <;> simp [segOf, saved]
  · rw [h.eip, saved, BitVec.ofNat_toNat, BitVec.setWidth_eq]
  · rw [h.eflags, saved, BitVec.ofNat_toNat, BitVec.setWidth_eq]

/-! ### switch_to_process -/

/- The registers a process starts with: those of the frame, but for the data segments. -/
def started (r : Registers) : Registers := { r with ds := 35, es := 35, fs := 35, gs := 35 }

theorem buildIretFrame_pushes (h : load32 m.mem (m.esp + 4) = a)
    (hfar : ∀ i < 19, Outside m.esp 20 (a + BitVec.ofNat 32 (4 * i))) :
    let u := runOps buildIretFrame m
    let r := registersAt m.mem a
    u.gpr .ebx = a ∧ u.seg .cs = m.seg .cs ∧ (∀ s, isData s = true → u.seg s = userDataSegment) ∧
      registersAt u.mem a = r ∧
      Holds u.mem u.esp [BitVec.ofNat 32 r.eip, BitVec.ofNat 32 r.cs, BitVec.ofNat 32 r.eflags,
        BitVec.ofNat 32 r.useresp, BitVec.ofNat 32 r.ss] := by
  let offsets : List Word := [72, 68, 64, 60, 56]
  have hptr : load32 m.mem (m.esp + 4#32) = a := h
  have hlow : ∀ x y : BitVec 16, (x ++ y).setWidth 16 = y := fun x y => by
    rw [BitVec.setWidth_append, dif_pos (by decide)]
    simp
  obtain ⟨m', hm'⟩ : ∃ m', m' = runOps (buildIretFrame.take 7) m := ⟨_, rfl⟩
  have hrun : runOps buildIretFrame m = runOps (offsets.map (.pushLoad .ebx)) m' := by rw [hm']; rfl
  have hebx : m'.gpr .ebx = a := by simp [hm', runOps, buildIretFrame, Op.run, hptr]
  have hmem : m'.mem = m.mem := by rw [hm']; rfl
  have hesp : m'.esp = m.esp := by simp [hm', runOps, buildIretFrame, Op.run]
  have hcs : m'.seg .cs = m.seg .cs := by simp [hm', runOps, buildIretFrame, Op.run]
  have hdata : ∀ s, isData s = true → m'.seg s = userDataSegment := by
    intro s hs
    cases s <;> simp [hm', runOps, buildIretFrame, Op.run, isData, hlow] at hs ⊢
  have hpushed := (pushed_nil hesp).pushLoads (r := .ebx) (by decide) offsets (by decide) (by
    intro o ho
    rw [hebx]
    simp only [offsets, List.mem_cons, List.not_mem_nil, or_false] at ho
    rcases ho with rfl | rfl | rfl | rfl | rfl
    · exact hfar 18 (by decide)
    · exact hfar 17 (by decide)
    · exact hfar 16 (by decide)
    · exact hfar 15 (by decide)
    · exact hfar 14 (by decide))
  rw [← hrun, hmem, hebx] at hpushed
  refine ⟨?_, ?_, fun s hs => ?_, ?_, ?_⟩
  · rw [hrun, pushLoads_gpr _ (by decide), hebx]
  · rw [hrun, pushLoads_seg, hcs]
  · rw [hrun, pushLoads_seg, hdata s hs]
  · exact registersOf_congr fun i hi => hpushed.load (hfar i hi)
  · have hholds := hpushed.holds
    simpa [offsets, registersAt, registersOf] using hholds

theorem loadRegisters_loads (h : t.gpr .ebx = a) :
    let u := runOps loadRegisters t
    u.esp = t.esp ∧ u.mem = t.mem ∧ u.seg = t.seg ∧
      ∀ q, q ≠ .esp → u.gpr q = gprOf (registersAt t.mem a) q := by
  refine ⟨?_, ?_, ?_, fun q hq => ?_⟩
  · simp [runOps, loadRegisters, Op.run]
  · simp [runOps, loadRegisters, Op.run]
  · simp [runOps, loadRegisters, Op.run]
  · cases q <;>
      simp [runOps, loadRegisters, Op.run, h, gprOf, registersAt, registersOf] at hq ⊢

/-- switch_to_process enters user mode with the registers in the PCB; only the data segments are
those of user mode, whatever the frame names. -/
theorem switch_runs (hcode : CodeAt p b switchToProcess) (he : m.eip = b) (hcpl : m.cpl = 0)
    (hptr : load32 m.mem (m.esp + 4) = a)
    (hfar : ∀ i < 19, Outside m.esp 20 (a + BitVec.ofNat 32 (4 * i)))
    (hring : (BitVec.ofNat 16 (registersAt m.mem a).cs).toNat % 4 = 3)
    (hdpl : 3 ≤ p.segmentDpl userDataSegment) :
    ∃ u, Steps p m u ∧ Runs (started (registersAt m.mem a)) u := by
  obtain ⟨c, hc, hrun⟩ := steps_ops (buildIretFrame ++ loadRegisters) hcode he
  obtain ⟨v, hv⟩ : ∃ v, v = runOps (buildIretFrame ++ loadRegisters) m := ⟨_, rfl⟩
  rw [← hv] at hrun
  obtain ⟨d, -, hstep⟩ := step_fetch (m := v.goto c) hc goto_eip
  rw [goto_goto] at hstep
  obtain ⟨hebx, hcs, hdata, hregs, hholds⟩ := buildIretFrame_pushes hptr hfar
  obtain ⟨hesp, hmem, hseg, hgpr⟩ := loadRegisters_loads hebx
  have hsplit : runOps loadRegisters (runOps buildIretFrame m) = v := by
    rw [hv, runOps, runOps, runOps, List.foldl_append]
  rw [hsplit] at hesp hmem hseg hgpr
  rw [hregs] at hgpr
  have hsegs : ∀ s, isData s = true → segOf (started (registersAt m.mem a)) s = userDataSegment := by
    intro s hs
    cases s <;> first | rfl | simp [isData] at hs
  have hr : UserFrame p.segmentDpl (started (registersAt m.mem a)) :=
    ⟨hring, fun s hs => .inr (by rw [hsegs s hs]; exact hdpl)⟩
  have hzero : (v.goto d).cpl = 0 := by
    rw [goto_cpl, Machine.cpl, hseg, hcs]
    exact hcpl
  obtain ⟨hruns, -⟩ := iret_runs (t := v.goto d) hr hzero
    (fun q hq => (hgpr q hq).trans (by cases q <;> rfl))
    (fun s hs => by rw [goto_seg, hseg, hdata s hs, hsegs s hs])
    (by rw [goto_mem, goto_esp, hmem, hesp]; exact hholds)
  exact ⟨_, hrun.tail hstep, hruns⟩

/- What make_initial_registers fills in, by the offset in the frame: gs, fs, es and ds, eip at
   USER_FUNC_VADDR, cs, eflags with IF, the top of the user stack and ss. -/
def initialWords : List (Word × Word) :=
  [(0, 35), (4, 35), (8, 35), (12, 35), (56, 0x40000000), (60, 27), (64, 0x202), (68, 0x50000FFC), (72, 35)]

def sampleKernel : Machine where
  gpr q := if q = .esp then 0x90000 else 0
  seg s := if s = .cs then kernelCodeSegment else kernelDataSegment
  eip := 0x1000
  eflags := 0x2
  ss0 := kernelDataSegment
  esp0 := 0x90000
  mem := store32 0x90004 0x110000
    (initialWords.foldr (fun w mem => store32 (0x110000 + w.1) w.2 mem) fun _ => 0)

theorem sample_starts : ∃ u, Steps (samplePlatform (fun a => switchToProcess[(a - 0x1000).toNat]?) returned)
    sampleKernel u ∧ Runs (started (registersAt sampleKernel.mem 0x110000)) u := by
  refine switch_runs (b := 0x1000) (codeAt_rom (by decide) (by decide)) rfl (by decide) (by decide) ?_
    (by decide) (by decide)
  unfold Outside
  decide

end AdamOS.Traps
