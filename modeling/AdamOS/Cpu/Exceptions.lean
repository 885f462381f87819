import AdamOS.Cpu.Traps

/-! exceptions.asm: the stubs of the processor's exceptions and the frame each of them shows to
exception_handler_c. -/
namespace AdamOS.Exceptions
open AdamOS.Process AdamOS.Processor AdamOS.Traps

inductive Exception where
  | divideError | debug | breakpoint | overflow | boundRange | invalidOpcode | deviceNotAvailable
  | doubleFault | invalidTss | segmentNotPresent | stackFault | gpf | pageFault | fpuError
  | alignmentCheck | machineCheck | simdFp
deriving DecidableEq, Repr

def Exception.vector : Exception → Word
  | divideError => 0
  | debug => 1
  | breakpoint => 3
  | overflow => 4
  | boundRange => 5
  | invalidOpcode => 6
  | deviceNotAvailable => 7
  | doubleFault => 8
  | invalidTss => 10
  | segmentNotPresent => 11
  | stackFault => 12
  | gpf => 13
  | pageFault => 14
  | fpuError => 16
  | alignmentCheck => 17
  | machineCheck => 18
  | simdFp => 19

def Exception.pushesCode : Exception → Bool
  | doubleFault | invalidTss | segmentNotPresent | stackFault | gpf | pageFault | alignmentCheck => true
  | _ => false

def Exception.stubWords : Exception → List Word
  | divideError => [0, 0]
  | debug => [0, 1]
  | breakpoint => [0, 3]
  | overflow => [0, 4]
  | boundRange => [0, 5]
  | invalidOpcode => [0, 6]
  | deviceNotAvailable => [0, 7]
  | doubleFault => [8]
  | invalidTss => [10]
  | segmentNotPresent => [11]
  | stackFault => [12]
  | gpf => [13]
  | pageFault => [14]
  | fpuError => [16]
  | alignmentCheck => [17]
  | machineCheck => [0, 18]
  | simdFp => [0, 19]

def stub (e : Exception) (common : Word) : List Instr :=
  e.stubWords.map (fun v => .op (.push v)) ++ [.jmp common]

def exceptionCommonStub (handler : Word) : List Instr :=
  saveRegisters.map .op ++ .call handler :: (restoreRegisters.map .op ++ [.iret])

def Exception.code (e : Exception) (error : Word) : Option Word :=
  if e.pushesCode then some error else none

def Exception.reported (e : Exception) (error : Word) : Word := (e.code error).getD 0

variable {p : Platform} {dpl : BitVec 16 → Nat} {g : Gate} {m t : Machine} {a b v : Word}

/-- All words on the stack after the stub: those of the processor, the error code, the stub's own. -/
theorem enterWith_pushes (e : Exception) (error : Word) (dpl : BitVec 16 → Nat) :
    pushAll e.stubWords (enterWith dpl g (e.code error) m) =
      pushAll ((e.code error).toList ++ e.stubWords) (enter dpl g m) := by
  cases e.code error <;> rfl

/-- Every stub but one leaves an error code and its vector. -/
theorem stubWords_complete {e : Exception} (h : e ≠ .fpuError) (error : Word) :
    (e.code error).toList ++ e.stubWords = [e.reported error, e.vector] := by
  cases e <;> first | rfl | exact absurd rfl h

/-- The way from the exception to the first instruction of the handler. -/
theorem reaches_handler (e : Exception) (error : Word) (hstub : CodeAt p g.offset (stub e a))
    (hcommon : CodeAt p a (exceptionCommonStub v)) :
    ∃ b, Steps p (enterWith p.segmentDpl g (e.code error) m)
      (((runOps saveRegisters ((pushAll ((e.code error).toList ++ e.stubWords)
        (enter p.segmentDpl g m)).goto a)).push b).goto v) := by
  have hip : (enterWith p.segmentDpl g (e.code error) m).eip = g.offset := by
    cases e.code error <;> rfl
  obtain ⟨b, hb, hpush⟩ := steps_pushes e.stubWords hstub hip
  rw [enterWith_pushes] at hpush
  obtain ⟨t, ht⟩ : ∃ t, t = pushAll ((e.code error).toList ++ e.stubWords) (enter p.segmentDpl g m) :=
    ⟨_, rfl⟩
  rw [← ht] at hpush ⊢
  obtain ⟨c, -, hjump⟩ := step_fetch (m := t.goto b) hb goto_eip
  obtain ⟨d, hd, hsave⟩ := steps_ops (m := t.goto a) saveRegisters hcommon goto_eip
  obtain ⟨u, hu⟩ : ∃ u, u = runOps saveRegisters (t.goto a) := ⟨_, rfl⟩
  rw [← hu] at hsave ⊢
  obtain ⟨k, -, hcall⟩ := step_fetch (m := u.goto d) hd goto_eip
  exact ⟨k, ((hpush.tail hjump).trans hsave).tail hcall⟩

/-- Without the dummy word the words of the processor are read one place too high: the error code is
the interrupted address and the address is the code segment. -/
theorem fpuError_shifts (h : dpl g.selector < m.cpl) :
    let u := ((runOps saveRegisters ((pushAll [16] (enter dpl g m)).goto a)).push b).goto v
    let r := registersAt u.mem (load32 u.mem (u.esp + 4))
    r.errCode = m.eip.toNat ∧ r.eip = (m.seg .cs).toNat := by
  obtain ⟨hpushed, -, -, -⟩ := stub_pushed (b := a) h [16] (Nat.le_of_ble_eq_true rfl)
  obtain ⟨t, ht⟩ : ∃ t, t = (pushAll [16] (enter dpl g m)).goto a := ⟨_, rfl⟩
  rw [← ht] at hpushed ⊢
  have hesp : t.esp = m.esp0 - 24 := hpushed.esp
  have hcall := (saveRegisters_frame hpushed (Nat.le_of_ble_eq_true rfl)).push (v := b)
    (Nat.le_of_ble_eq_true rfl)
  obtain ⟨-, harg, hregs⟩ := hcall.holds
  have hlast : ((runOps saveRegisters t).push b).esp = m.esp0 - 80 := hcall.esp
  have hup : m.esp0 - 80 + 4 + 4 = m.esp0 - 24 - 48 := by bv_omega
  rw [hlast, hesp] at harg
  rw [hlast, hup] at hregs
  intro u r
  have hat : load32 u.mem (u.esp + 4) = m.esp0 - 24 - 48 := by
    rw [← harg, ← hlast]
    rfl
  have herr : load32 u.mem (m.esp0 - 24 - 48 + BitVec.ofNat 32 (4 * 13)) = m.eip :=
    hregs.get (i := 13) (Nat.le_of_ble_eq_true rfl)
  have heip : load32 u.mem (m.esp0 - 24 - 48 + BitVec.ofNat 32 (4 * 14)) = (m.seg .cs).zeroExtend 32 :=
    hregs.get (i := 14) (Nat.le_of_ble_eq_true rfl)
  constructor
  · change (load32 u.mem (load32 u.mem (u.esp + 4) + BitVec.ofNat 32 (4 * 13))).toNat = _
    rw [hat, herr]
  · change (load32 u.mem (load32 u.mem (u.esp + 4) + BitVec.ofNat 32 (4 * 14))).toNat = _
    rw [hat, heip]
    exact BitVec.toNat_setWidth_of_le (by decide)

/-- The handler of an exception of user mode sees its vector, its error code and the interrupted
registers, unless the exception is 16: that stub leaves out the word that stands for an error code. -/
theorem exception_frame (e : Exception) (error : Word) (hstub : CodeAt p g.offset (stub e a))
    (hcommon : CodeAt p a (exceptionCommonStub v)) (huser : m.cpl = 3)
    (hdpl : p.segmentDpl g.selector = 0) :
    ∃ u, Steps p (enterWith p.segmentDpl g (e.code error) m) u ∧ u.eip = v ∧
      (registersAt u.mem (load32 u.mem (u.esp + 4)) = saved e.vector (e.reported error) m ↔
        e ≠ .fpuError) := by
  have houter : p.segmentDpl g.selector < m.cpl := by rw [hdpl, huser]; decide
  obtain ⟨b, hsteps⟩ := reaches_handler (m := m) e error hstub hcommon
  refine ⟨_, hsteps, goto_eip, ?_⟩
  constructor
  · rintro hframe rfl
    obtain ⟨herr, heip⟩ := fpuError_shifts (a := a) (b := b) (v := v) houter
    have herr' : m.eip.toNat = 0 := herr.symm.trans (congrArg Registers.errCode hframe)
    have heip' : (m.seg .cs).toNat = m.eip.toNat := heip.symm.trans (congrArg Registers.eip hframe)
    rw [Machine.cpl, heip', herr'] at huser
    exact absurd huser (by decide)
  · intro he
    rw [stubWords_complete he]
    obtain ⟨hpushed, hgpr, hseg, -⟩ := stub_pushed (b := a) houter [e.reported error, e.vector]
      (Nat.le_of_ble_eq_true rfl)
    obtain ⟨hcalled, -⟩ := called_of_save (a := v) (b := b) hpushed hgpr hseg
    rw [hcalled.argument, hcalled.frame]

theorem gpf_frame : ∃ u, Steps (samplePlatform (fun a => (stub .gpf 0x1800)[(a - 0x1000).toNat]? <|>
      (exceptionCommonStub 0x2000)[(a - 0x1800).toNat]?) returned)
      (enterWith sampleDpl ⟨0x1000, 8, 0, true⟩ (Exception.gpf.code 8) sampleMachine) u ∧ u.eip = 0x2000 ∧
    (registersAt u.mem (load32 u.mem (u.esp + 4)) = saved 13 8 sampleMachine ↔
      Exception.gpf ≠ .fpuError) :=
  exception_frame (p := samplePlatform _ _) (g := ⟨0x1000, 8, 0, true⟩) (a := 0x1800) .gpf 8
    (codeAt_rom (by decide) (by decide)) (codeAt_rom (by decide) (by decide)) (by decide) (by decide)

end AdamOS.Exceptions
