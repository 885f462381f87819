import AdamOS.Cpu.Traps
import AdamOS.Kernel.Lifecycle

/-! syscalls.asm: the functions through which a C program enters the kernel. -/
namespace AdamOS.SystemCalls
open AdamOS.Process AdamOS.Processor AdamOS.Traps AdamOS.Lifecycle

def loadArguments (k : Nat) : List Reg → List Op
  | [] => []
  | r :: rs => .load r .esp (BitVec.ofNat 32 (4 * k)) :: loadArguments (k + 1) rs

/- mov eax, number; the arguments; int 0x80; ret -/
def stub (number : Word) (arguments : List Reg) : List Instr :=
  (.mov .eax number :: loadArguments 1 arguments).map .op ++ [.int 0x80, .ret]

def sysExit : List Instr := stub 1 []
def sysFork : List Instr := stub 2 []
def sysRead : List Instr := stub 3 [.ebx, .ecx, .edx]
def sysWrite : List Instr := stub 4 [.ebx, .ecx, .edx]
def sysOpen : List Instr := stub 5 [.ebx]
def sysClose : List Instr := stub 6 [.ebx]
def sysPs : List Instr := stub 7 [.ebx, .ecx]
def sysExec : List Instr := stub 11 [.ecx, .edx]
def sysKill : List Instr := stub 12 [.ebx]
def sysWaitpid : List Instr := stub 13 [.ebx]
def sysCreate : List Instr := stub 14 [.ebx, .ecx, .edx]
def sysPoll : List Instr := stub 15 [.ebx]
def sysSleep : List Instr := stub 16 [.ebx]
def sysUptime : List Instr := stub 17 []
def sysCreateWindow : List Instr := stub 18 [.ebx]
def sysCreateRect : List Instr := stub 19 [.ebx]
def sysCreateLine : List Instr := stub 20 [.ebx]
def sysCreateText : List Instr := stub 21 [.ebx]
def sysGetEvent : List Instr := stub 22 [.ebx, .ecx]
def sysDestroyWindow : List Instr := stub 23 [.ebx]
def sysFlush : List Instr := stub 24 []
def sysGetpid : List Instr := stub 25 []
def sysGetppid : List Instr := stub 26 []
def sysSbrk : List Instr := stub 27 [.ebx]

def stubOf : Syscall → List Instr
  | .exit => sysExit
  | .fork => sysFork
  | .read => sysRead
  | .write => sysWrite
  | .open => sysOpen
  | .close => sysClose
  | .ps => sysPs
  | .exec => sysExec
  | .kill => sysKill
  | .wait => sysWaitpid
  | .create => sysCreate
  | .poll => sysPoll
  | .sleep => sysSleep
  | .uptime => sysUptime
  | .createWindow => sysCreateWindow
  | .drawRect => sysCreateRect
  | .drawLine => sysCreateLine
  | .drawText => sysCreateText
  | .getEvent => sysGetEvent
  | .destroyWindow => sysDestroyWindow
  | .flush => sysFlush
  | .getpid => sysGetpid
  | .getppid => sysGetppid
  | .sbrk => sysSbrk

/- The registers in which the handlers of syscall.c look for the arguments, in the order of the C
   parameters. -/
def parameters : Syscall → List Reg
  | .read | .write | .create => [.ebx, .ecx, .edx]
  | .ps | .getEvent => [.ebx, .ecx]
  | .exec => [.ecx, .edx]
  | .exit | .fork | .uptime | .flush | .getpid | .getppid => []
  | _ => [.ebx]

/- `m'` is about to trap for call `c`, which was called with the stack of `m`. -/
structure Prepared (c : Syscall) (m m' : Machine) : Prop where
  number : Syscall.ofNumber (m'.gpr .eax).toNat = some c
  arguments : ∀ i (hi : i < (parameters c).length), m'.gpr (parameters c)[i] = m.word (i + 1)
  others : ∀ q, q ≠ .eax → q ∉ parameters c → m'.gpr q = m.gpr q
  seg : m'.seg = m.seg
  eflags : m'.eflags = m.eflags
  mem : m'.mem = m.mem
  esp0 : m'.esp0 = m.esp0

variable {p : Platform} {m m' t u : Machine} {a b v o : Word} {r q : Reg} {rs : List Reg} {c : Syscall}

theorem loadArguments_run (k : Nat) (hesp : .esp ∉ rs) (hrs : rs.Nodup) :
    let t := runOps (loadArguments k rs) m
    (∀ i (hi : i < rs.length), t.gpr rs[i] = m.word (i + k)) ∧ (∀ q, q ∉ rs → t.gpr q = m.gpr q) ∧
      t.seg = m.seg ∧ t.eflags = m.eflags ∧ t.mem = m.mem ∧ t.esp0 = m.esp0 ∧ t.ss0 = m.ss0 := by
  induction rs generalizing m k with
  | nil => exact ⟨fun i hi => absurd hi (Nat.not_lt_zero i), fun _ _ => rfl, rfl, rfl, rfl, rfl, rfl⟩
  | cons r rs ih =>
    rw [List.nodup_cons] at hrs
    rw [List.mem_cons, not_or] at hesp
    obtain ⟨hargs, hothers, hrest⟩ := @ih (m.setGpr r (m.word k)) (k + 1) hesp.2 hrs.2
    have hword : ∀ i, (m.setGpr r (m.word k)).word i = m.word i := fun i => by
      unfold Machine.word
      rw [setGpr_esp (Ne.symm hesp.1), setGpr_mem]
    refine ⟨fun i hi => ?_, fun q hq => ?_, hrest⟩
    · cases i with
      | zero => exact ((hothers r hrs.1).trans setGpr_self).trans (by rw [Nat.zero_add])
      | succ i =>
        have hi' := hargs i (Nat.lt_of_succ_lt_succ hi)
        rw [hword] at hi'
        exact hi'.trans (congrArg m.word (by omega))
    · rw [List.mem_cons, not_or] at hq
      exact (hothers q hq.2).trans (setGpr_other hq.1)

/-- Every stub loads the number of its call and the arguments where the handler looks for them. -/
theorem stubOf_eq (c : Syscall) :
    ∃ n, stubOf c = stub n (parameters c) ∧ Syscall.ofNumber n.toNat = some c := by
  cases c <;> exact ⟨_, rfl, rfl⟩

theorem parameters_fit (c : Syscall) :
    .esp ∉ parameters c ∧ .eax ∉ parameters c ∧ (parameters c).Nodup := by
  cases c <;> decide

theorem stub_prepares (hcode : CodeAt p a (stubOf c)) (he : m.eip = a) :
    ∃ m', Prepared c m m' ∧ Steps p m m' ∧ CodeAt p m'.eip [.int 0x80, .ret] := by
  obtain ⟨n, hn, hnumber⟩ := stubOf_eq c
  obtain ⟨hesp, heax, hnodup⟩ := parameters_fit c
  rw [hn] at hcode
  obtain ⟨b, hb, hrun⟩ := steps_ops (.mov .eax n :: loadArguments 1 (parameters c)) hcode he
  obtain ⟨hargs, hothers, hseg, hflags, hmem, hesp0, -⟩ :=
    @loadArguments_run (m.setGpr .eax n) (parameters c) 1 hesp hnodup
  obtain ⟨t, ht⟩ : ∃ t, t = runOps (.mov .eax n :: loadArguments 1 (parameters c)) m := ⟨_, rfl⟩
  have hload : runOps (loadArguments 1 (parameters c)) (m.setGpr .eax n) = t := ht.symm
  rw [hload] at hargs hothers hseg hflags hmem hesp0
  rw [← ht] at hrun
  refine ⟨t.goto b, ⟨?_, fun i hi => ?_, fun q hq hnot => ?_, hseg, hflags, hmem, hesp0⟩, hrun, hb⟩
  · rw [goto_gpr, hothers .eax heax, setGpr_self, hnumber]
  · rw [goto_gpr, hargs i hi]
    unfold Machine.word
    rw [setGpr_esp (by decide), setGpr_mem]
  · rw [goto_gpr, hothers q hnot, setGpr_other hq]

structure Entered (p : Platform) (f : Machine → Machine) : Prop where
  returns : Returns f
  gate : ∃ o sel v, p.gate 0x80 = ⟨o, sel, 3, true⟩ ∧ p.segmentDpl sel = 0 ∧ sel.toNat % 4 = 0 ∧
    CodeAt p o (isrWrapper v) ∧ p.native v = some f

def Answered (r r' : Registers) : Prop := r' = { r with eax := r'.eax }

/-- A C program calls a stub, and the handler answers in eax. The handler sees the number of the call
and its arguments; the call returns behind the caller's call instruction with that answer in eax, and
no register but eax and those of the arguments has changed. -/
theorem stub_returns {f : Machine → Machine} (hcode : CodeAt p a (stubOf c)) (he : m.eip = a)
    (huser : m.cpl = 3)
    (hsegs : ∀ s, isData s = true → m.seg s = 0 ∨ 3 ≤ p.segmentDpl (m.seg s)) (hk : Entered p f)
    (hanswer : ∀ m' u, Prepared c m m' → Called 0x80 0 m' u →
      Answered (saved 0x80 0 m') (registersAt (f u).mem (m.esp0 - 76)) ∧
        load32 (f u).mem m.esp = m.top) :
    ∃ m' u t, Prepared c m m' ∧ Called 0x80 0 m' u ∧ Steps p m t ∧ t.eip = m.top ∧
      t.gpr .eax = BitVec.ofNat 32 (registersAt (f u).mem (m.esp0 - 76)).eax ∧ t.esp = m.esp + 4 ∧
      (∀ q, q ≠ .eax → q ≠ .esp → q ∉ parameters c → t.gpr q = m.gpr q) ∧ t.seg = m.seg ∧
      t.eflags = m.eflags := by
  obtain ⟨m₀, hprep₀, hrun, hrest⟩ := stub_prepares hcode he
  obtain ⟨o, sel, v, hgate, hdpl, hring, hwrapper, hnative⟩ := hk.gate
  obtain ⟨b, hb, hint⟩ := step_fetch hrest rfl
  obtain ⟨m', hm'⟩ : ∃ m', m' = m₀.goto b := ⟨_, rfl⟩
  have hprep : Prepared c m m' := hm' ▸ ⟨hprep₀.number, hprep₀.arguments, hprep₀.others, hprep₀.seg,
    hprep₀.eflags, hprep₀.mem, hprep₀.esp0⟩
  have hcpl : m'.cpl = 3 := by rw [Machine.cpl, hprep.seg]; exact huser
  have heip : m'.eip = b := by rw [hm', goto_eip]
  obtain ⟨hesp, heax, -⟩ := parameters_fit c
  have hsp : m'.esp = m.esp := hprep.others .esp (by decide) hesp
  rw [← hm', exec, hgate, hcpl] at hint
  -- The frame differs from the interrupted registers in eax only.
  have hgpr : ∀ {r}, Answered (saved 0x80 0 m') r → ∀ q, q ≠ .eax → gprOf r q = m'.gpr q := by
    intro r hr q hq
    rw [hr]
    cases q <;> simp [gprOf, saved] at hq ⊢
  have hseg : ∀ {r}, Answered (saved 0x80 0 m') r → segOf r = m.seg := by
    intro r hr
    rw [← hprep.seg, hr]
    funext s
    cases s <;> simp [segOf, saved]
  have hframe : ∀ {r}, Answered (saved 0x80 0 m') r → UserFrame p.segmentDpl r := by
    intro r hr
    refine ⟨?_, fun s hs => hseg hr ▸ hsegs s hs⟩
    change (segOf r .cs).toNat % 4 = 3
    rw [hseg hr]
    exact huser
  have hleft := fun u hu => hprep.esp0.symm ▸ (hanswer m' u hprep hu).1
  obtain ⟨u, t, hcalled, htrap, hruns, hmem⟩ := trap_returns (g := ⟨o, sel, 3, true⟩) (m := m')
    hwrapper hnative hk.returns hcpl hdpl hring (fun u hu => hframe (hleft u hu))
  have hr := hleft u hcalled
  have hback : t.eip = b := by
    rw [hruns.eip, hr]
    change BitVec.ofNat 32 m'.eip.toNat = b
    rw [BitVec.ofNat_toNat, BitVec.setWidth_eq, heip]
  obtain ⟨d, -, hret⟩ := step_fetch hb hback
  have hstack : t.esp = m.esp := by
    have ht : t.esp = gprOf _ .esp := congrFun hruns.gpr .esp
    rw [ht, hgpr hr .esp (by decide)]
    exact hsp
  have htop : (t.goto d).top = m.top := by
    rw [Machine.top, goto_mem, goto_esp, hstack, hmem, (hanswer m' u hprep hcalled).2]
  rw [exec, htop] at hret
  refine ⟨m', u, _, hprep, hcalled, ((hrun.tail hint).trans htrap).tail hret, rfl, ?_, ?_,
    fun q hq hqsp hqargs => ?_, ?_, ?_⟩
  · rw [goto_gpr, drop_gpr (by decide), goto_gpr, hruns.gpr, hprep.esp0]
    rfl
  · rw [goto_esp, drop_esp, goto_esp, hstack]
    rfl
  · rw [goto_gpr, drop_gpr hqsp, goto_gpr, hruns.gpr, hgpr hr q hq, hprep.others q hq hqargs]
  · rw [goto_seg, drop_seg, goto_seg, hruns.seg, hseg hr]
  · change t.eflags = m.eflags
    rw [hruns.eflags, hr]
    change BitVec.ofNat 32 m'.eflags.toNat = m.eflags
    rw [BitVec.ofNat_toNat, BitVec.setWidth_eq, hprep.eflags]

/-! ### Calls that the process model answers -/

/- The calls that neither give up the processor nor replace the caller's image. -/
def direct : Syscall → Bool
  | .exit | .read | .exec | .wait | .sleep => false
  | _ => true

/-- The handler of a direct call changes nothing in the caller's frame but eax. -/
theorem direct_answered {env : Env} {regs : Registers} {s : Scheduler.Sched} {out : Scheduler.Outcome}
    (hc : Syscall.ofNumber regs.eax = some c) (hd : direct c = true)
    (h : syscallHandlerMain env regs s = some out) : Answered regs out.regs := by
  unfold syscallHandlerMain at h
  rw [hc] at h
  cases c with
  | exit | read | exec | wait | sleep => exact absurd hd (by decide)
  | fork =>
    obtain ⟨cur, -, h⟩ := Option.bind_eq_some_iff.mp h
    dsimp only at h
    split at h
    · exact absurd h (by simp)
    · exact Option.some.inj h ▸ rfl
  | kill =>
    obtain ⟨removal, -, h⟩ := Option.bind_eq_some_iff.mp h
    exact Option.some.inj h ▸ rfl
  | write =>
    obtain ⟨cur, -, h⟩ := Option.bind_eq_some_iff.mp h
    split at h <;> exact Option.some.inj h ▸ rfl
  | getpid | getppid =>
    obtain ⟨cur, -, h⟩ := Option.map_eq_some_iff.mp h
    exact h ▸ rfl
  | _ => exact Option.some.inj h ▸ rfl

/- For the call `c` made at `m`, the compiled handler does to the frame what the process model says of
   it in state `s`, and leaves the return address of the call alone. -/
def Implements (f : Machine → Machine) (env : Env) (s : Scheduler.Sched) (c : Syscall) (m : Machine) :
    Prop :=
  ∀ m' u, Prepared c m m' → Called 0x80 0 m' u →
    ∀ out, syscallHandlerMain env (saved 0x80 0 m') s = some out →
      registersAt (f u).mem (m.esp0 - 76) = out.regs ∧ load32 (f u).mem m.esp = m.top

/-- From a C call to its result: a direct call of the user library returns in eax what the handler of
the process model answers to a frame with the number of the call and its arguments. -/
theorem call_answered {f : Machine → Machine} {env : Env} {s : Scheduler.Sched}
    (hcode : CodeAt p a (stubOf c)) (he : m.eip = a) (huser : m.cpl = 3)
    (hsegs : ∀ s, isData s = true → m.seg s = 0 ∨ 3 ≤ p.segmentDpl (m.seg s)) (hk : Entered p f)
    (hd : direct c = true) (hf : Implements f env s c m)
    (hrun : ∀ m', Prepared c m m' → ∃ out, syscallHandlerMain env (saved 0x80 0 m') s = some out) :
    ∃ m' out t, Prepared c m m' ∧ syscallHandlerMain env (saved 0x80 0 m') s = some out ∧ Steps p m t ∧
      t.eip = m.top ∧ t.gpr .eax = BitVec.ofNat 32 out.regs.eax ∧ t.esp = m.esp + 4 ∧
      (∀ q, q ≠ .eax → q ≠ .esp → q ∉ parameters c → t.gpr q = m.gpr q) ∧ t.seg = m.seg ∧
      t.eflags = m.eflags := by
  obtain ⟨m', u, t, hprep, hcalled, hsteps, hip, heax, hrest⟩ :=
    stub_returns hcode he huser hsegs hk fun m' u hprep hcalled => by
      obtain ⟨out, hout⟩ := hrun m' hprep
      obtain ⟨hregs, hret⟩ := hf m' u hprep hcalled out hout
      exact ⟨hregs ▸ direct_answered hprep.number hd hout, hret⟩
  obtain ⟨out, hout⟩ := hrun m' hprep
  rw [(hf m' u hprep hcalled out hout).1] at heax
  exact ⟨m', out, t, hprep, hout, hsteps, hip, heax, hrest⟩

/- regs->eax = regs->edx, what write answers for standard output -/
def answerLength (u : Machine) : Machine :=
  let regs := load32 u.mem (u.esp + 4)
  { returned u with mem := store32 (regs + 44) (load32 u.mem (regs + 36)) u.mem }

def mainRunning : Scheduler.Sched :=
  boot ⟨0x110000, 0x120000, 0x130000, 0x140000, 0x150000, 0x160000, 0x202, 0, by decide⟩

/- main calls sys_write(1, 0x40001000, 5). -/
def callerOfWrite : Machine :=
  { sampleMachine with
    mem := store32 0x50000FF4 1 (store32 0x50000FF8 0x40001000 (store32 0x50000FFC 5 sampleMachine.mem)) }

theorem write_arguments {m' : Machine} (h : Prepared .write callerOfWrite m') :
    (saved 0x80 0 m').ebx = 1 ∧ (saved 0x80 0 m').edx = 5 := by
  have hebx : m'.gpr .ebx = 1 := (h.arguments 0 (by decide)).trans (by decide)
  have hedx : m'.gpr .edx = 5 := (h.arguments 2 (by decide)).trans (by decide)
  exact ⟨congrArg BitVec.toNat hebx, congrArg BitVec.toNat hedx⟩

theorem write_answer {m' : Machine} (h : Prepared .write callerOfWrite m') :
    syscallHandlerMain {} (saved 0x80 0 m') mainRunning =
      some { sched := mainRunning, regs := { saved 0x80 0 m' with eax := 5 } } := by
  have hnumber : Syscall.ofNumber (saved 0x80 0 m').eax = some .write := h.number
  obtain ⟨hebx, hedx⟩ := write_arguments h
  rw [syscallHandlerMain, hnumber]
  dsimp only
  rw [handleSyscallWrite, hebx, hedx]
  rfl

theorem answerLength_implements : Implements answerLength {} mainRunning .write callerOfWrite := by
  intro m' u hprep hcalled out hout
  have hesp0 : m'.esp0 = 0x90000 := hprep.esp0
  have harg := hcalled.argument
  have hregs := hcalled.frame
  rw [hesp0] at harg hregs
  rw [write_answer hprep] at hout
  have hedx : load32 u.mem (0x90000 - 76 + 36) = 5 := by
    have hframe : (registersAt u.mem (0x90000 - 76)).edx = 5 := by
      rw [hregs]
      exact (write_arguments hprep).2
    exact BitVec.eq_of_toNat_eq hframe
  have hmem : (answerLength u).mem = store32 (0x90000 - 76 + 44) 5 u.mem := by
    rw [← hedx, ← harg]
    rfl
  rw [hmem, ← Option.some.inj hout]
  constructor
  · exact (registersAt_store_eax ..).trans (by rw [hregs]; rfl)
  · have hother : load32 (store32 (0x90000 - 76 + 44) 5 u.mem) 0x50000FF0 = load32 u.mem 0x50000FF0 :=
      load32_store32_out (by decide) (by decide)
    refine hother.trans ((load32_congr fun k hk => hcalled.elsewhere _ ?_).trans
      (congrArg (load32 · 0x50000FF0) hprep.mem))
    rw [hesp0]
    have hall : ∀ k < 4, 84 ≤ (0x50000FF0#32 + BitVec.ofNat 32 k - (0x90000 - 84)).toNat := by decide
    exact hall k hk

theorem write_answered : ∃ m' out t, Prepared .write callerOfWrite m' ∧
    syscallHandlerMain {} (saved 0x80 0 m') mainRunning = some out ∧
    Steps (samplePlatform (fun a => (isrWrapper 0x2000)[(a - 0x1000).toNat]? <|>
      sysWrite[(a - 0x40000010).toNat]?) answerLength) callerOfWrite t ∧
    t.eip = callerOfWrite.top ∧ t.gpr .eax = BitVec.ofNat 32 out.regs.eax ∧
    t.esp = callerOfWrite.esp + 4 ∧
    (∀ q, q ≠ .eax → q ≠ .esp → q ∉ parameters .write → t.gpr q = callerOfWrite.gpr q) ∧
    t.seg = callerOfWrite.seg ∧ t.eflags = callerOfWrite.eflags := by
  refine call_answered (p := samplePlatform _ _) (a := 0x40000010) (f := answerLength)
    (codeAt_rom (by decide) (by decide)) rfl (by decide) (fun s hs => .inr ?_) ⟨?_, ?_⟩ rfl
    answerLength_implements fun m' hprep => ⟨_, write_answer hprep⟩
  · cases s <;> decide
  · exact ⟨fun _ => rfl, fun _ => returned_esp, fun _ => rfl⟩
  · exact ⟨0x1000, 8, 0x2000, rfl, by decide, by decide, codeAt_rom (by decide) (by decide), rfl⟩

end AdamOS.SystemCalls
