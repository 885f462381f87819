import AdamOS.Cpu.Descriptors
import AdamOS.Kernel.Contexts

/-! The processor under the process model. User code runs on the processor, and every entry into the
kernel is both a trap through the tables of kernel_main and a step of the process state. -/
namespace AdamOS.Preemption
open AdamOS.Process AdamOS.Scheduler AdamOS.Lifecycle AdamOS.Processor AdamOS.Traps AdamOS.Descriptors

def vectorOf : Entry → BitVec 8
  | .timer => 32
  | .keyboard _ _ => 33
  | .syscall => 0x80

def entryPoint (h : Handlers) : Entry → UInt32
  | .timer => h.timer
  | .keyboard _ _ => h.keyboard
  | .syscall => h.syscall

structure Tables where
  handlers : Handlers
  interrupts : Interrupts
  tss : Nat
  gdt : Gdt

def Tables.dpl (T : Tables) : BitVec 16 → Nat := segmentDpl (initGdt T.tss T.gdt)

/- A processor with these tables. Its code and its compiled functions may be others at each entry: what
   the devices answer and what the current directory maps is part of them. -/
structure Booted (T : Tables) (p : Platform) : Prop where
  gate : ∀ n, p.gate n = gateAt (bootInterrupts T.handlers T.interrupts).idt n.toNat
  dpl : p.segmentDpl = T.dpl

def Wraps (p : Platform) (a : UInt32) (f : Machine → Machine) : Prop :=
  ∃ v, CodeAt p a.toBitVec (isrWrapper v) ∧ p.native v = some f ∧ Returns f

structure InUser (T : Tables) (m : Machine) : Prop where
  ring : m.cpl = 3
  data : ∀ s, isData s = true → m.seg s = 0 ∨ 3 ≤ T.dpl (m.seg s)

/- Where an entry finds user code: an interrupt between any two instructions, a call behind its int. -/
def StoppedAt (p : Platform) (m : Machine) : Entry → Machine → Prop
  | .syscall, i => p.native m.eip = none ∧ ∃ n, p.fetch m = some (.int 0x80, n) ∧ i = m.goto (m.eip + n)
  | _, i => i = m

/- The processor when a process last left user mode; eax carries a result when it comes back. -/
structure Stop where
  machine : Machine
  answered : Bool

structure System where
  machine : Machine
  kernel : Traced
  stops : Nat → Option Stop

/- A child goes on where its parent called fork; exec starts another program. -/
def stopsAfter (S : System) (ev : Event) (i : Machine) : Nat → Option Stop := fun a =>
  if forks ev a then some ⟨i, true⟩
  else if a = S.kernel.sched.current then
    if Calls ev .exec then none else some ⟨i, decide (ev.entry = .syscall)⟩
  else S.stops a

/- The entry `ev` of the process state happens where user code has come to `i`; it leaves `y` and hands
   out the frame `regs`. -/
structure Serves (T : Tables) (p : Platform) (S : System) (ev : Event) (i : Machine) (y : Traced)
    (regs : Registers) : Prop where
  stopped : StoppedAt p S.machine ev.entry i
  frame : ev.regs = saved 0x80 0 i
  exec : Calls ev .exec → UserFrame T.dpl ev.env.execRegs
  guard : DeliversToReader S.kernel ev
  entry : tracedEntry S.kernel ev = some (y, regs)

def trapOf (p : Platform) (n : BitVec 8) (i : Machine) : Machine := enter p.segmentDpl (p.gate n) i

/- Runs of the whole system from the first switch_to_process on. -/
inductive Reaches (T : Tables) (c : BootConfig) : System → Prop
  | start {m : Machine} : Runs (started (makeInitialRegisters c.eflags)) m →
      Reaches T c ⟨m, tracedBoot c, fun _ => none⟩
  | user {p : Platform} {S : System} {m : Machine} : Reaches T c S → Booted T p →
      Processor.step p S.machine = some m → InUser T m → Reaches T c { S with machine := m }
  | mouse {p : Platform} {S : System} {t : Machine} : Reaches T c S → Booted T p →
      Steps p (trapOf p 0x2C S.machine) t → Runs (saved 0x80 0 S.machine) t →
      Reaches T c { S with machine := t }
  | entry {p : Platform} {S : System} {ev : Event} {i t : Machine} {y : Traced} {regs : Registers} :
      Reaches T c S → Booted T p → Serves T p S ev i y regs →
      Steps p (trapOf p (vectorOf ev.entry) i) t → Runs regs t → InUser T t →
      Reaches T c ⟨t, y, stopsAfter S ev i⟩

structure Continues (st : Stop) (t : Machine) : Prop where
  gpr : ∀ q, q ≠ .eax ∨ st.answered = false → t.gpr q = st.machine.gpr q
  seg : t.seg = st.machine.seg
  eip : t.eip = st.machine.eip
  eflags : t.eflags = st.machine.eflags

structure Matches (st : Stop) (c : Context) : Prop where
  frame : c.frame = { saved 0x80 0 st.machine with eax := c.frame.eax }
  kept : st.answered = false → c.frame = saved 0x80 0 st.machine ∧ c.answers = false

structure Faithful (T : Tables) (S : System) : Prop where
  owed : Owed S.kernel
  user : InUser T S.machine
  frames : ∀ a, UserFrame T.dpl (S.kernel.context a).frame
  stops : ∀ a st, S.stops a = some st → Matches st (S.kernel.context a)

/-! ### Frames of user mode -/

variable {T : Tables} {c : BootConfig} {p : Platform} {S : System} {ev : Event} {m i t : Machine}
  {y : Traced} {regs : Registers}

theorem userFrame_eax {dpl : BitVec 16 → Nat} {r : Registers} (h : UserFrame dpl r) (n : Nat) :
    UserFrame dpl { r with eax := n } := by
  refine ⟨h.ring, fun s hs => ?_⟩
  have hseg : segOf { r with eax := n } s = segOf r s := by cases s <;> rfl
  rw [hseg]
  exact h.data s hs

theorem segOf_saved (v w : Word) (m : Machine) : segOf (saved v w m) = m.seg := by
  funext s
  cases s <;> simp [segOf, saved]

theorem InUser.frame (h : InUser T m) (v w : Word) : UserFrame T.dpl (saved v w m) := by
  refine ⟨?_, fun s hs => ?_⟩
  · change (segOf (saved v w m) .cs).toNat % 4 = 3
    rw [segOf_saved]
    exact h.ring
  · rw [segOf_saved]
    exact h.data s hs

theorem inUser_of_runs (hr : UserFrame T.dpl regs) (h : Runs regs t) : InUser T t := by
  refine ⟨?_, fun s hs => ?_⟩
  · rw [Machine.cpl, h.seg]
    exact hr.ring
  · rw [h.seg]
    exact hr.data s hs

theorem userData_dpl (T : Tables) : 3 ≤ T.dpl userDataSegment := by
  obtain ⟨-, -, -, hdpl, -⟩ := flat_segments T.tss T.gdt userDataSegment (by decide)
  rw [Tables.dpl, segmentDpl, hdpl]
  decide

theorem kernelCode_dpl (T : Tables) : T.dpl 8 = 0 := by
  obtain ⟨-, -, -, hdpl, -⟩ := flat_segments T.tss T.gdt 8 (by decide)
  rw [Tables.dpl, segmentDpl, hdpl]
  decide

theorem initial_frame (T : Tables) (eflags : Nat) : UserFrame T.dpl (makeInitialRegisters eflags) := by
  have hring : (27 : BitVec 16).toNat % 4 = 3 := by decide
  refine ⟨hring, fun s hs => .inr ?_⟩
  have hseg : segOf (makeInitialRegisters eflags) s = userDataSegment := by
    cases s <;> first | rfl | simp [isData] at hs
  rw [hseg]
  exact userData_dpl T

theorem InUser.stopped {e : Entry} (h : InUser T m) (hi : StoppedAt p m e i) : InUser T i := by
  cases e with
  | syscall =>
    obtain ⟨-, n, -, rfl⟩ := hi
    exact ⟨h.ring, h.data⟩
  | timer => exact (show i = m from hi) ▸ h
  | keyboard scancode focused => exact (show i = m from hi) ▸ h

/-! ### Gates -/

theorem gate_of (hp : Booted T p) (e : Entry) :
    ∃ d, p.gate (vectorOf e) = ⟨(entryPoint T.handlers e).toBitVec, 8, d, true⟩ ∧
      (e = .syscall → d = 3) := by
  have hgate := (hp.gate (vectorOf e)).trans (boot_gates T.interrupts (vectorOf e).isLt)
  cases e with
  | timer => exact ⟨0, hgate, fun h => absurd h (by decide)⟩
  | keyboard scancode focused => exact ⟨0, hgate, fun h => absurd h (by simp)⟩
  | syscall => exact ⟨3, hgate, fun _ => rfl⟩

/-- The int instruction of a system call leads to the trap. -/
theorem call_traps (hp : Booted T p) (hm : InUser T m) (hi : StoppedAt p m .syscall i) :
    Processor.step p m = some (trapOf p 0x80 i) := by
  obtain ⟨hn, n, hfetch, rfl⟩ := hi
  obtain ⟨d, hgate, hd⟩ := gate_of hp .syscall
  have hcpl : (m.goto (m.eip + n)).cpl = 3 := hm.ring
  have hg : p.gate 0x80 = ⟨T.handlers.syscall.toBitVec, 8, 3, true⟩ := by
    rw [← hd rfl]
    exact hgate
  rw [Processor.step, hn, hfetch, trapOf]
  dsimp only [Option.bind_some, exec]
  rw [hg, hcpl]
  rfl

/-! ### The invariant -/

theorem Matches.continues {st : Stop} {c : Context} (h : Matches st c) (hr : c.Resumes regs)
    (ht : Runs regs t) : Continues st t := by
  obtain ⟨r, hreq⟩ : ∃ r, r = saved 0x80 0 st.machine := ⟨_, rfl⟩
  have hframe : regs = { r with eax := regs.eax } := by
    rw [hreq]
    rcases hr with hr | ⟨-, hr⟩
    · rw [hr]
      exact h.frame
    · rw [hr, h.frame]
  have hsame : st.answered = false → regs = r := by
    intro ha
    obtain ⟨hkept, hnot⟩ := h.kept ha
    rcases hr with hr | ⟨hans, -⟩
    · rw [hr, hkept, hreq]
    · rw [hnot] at hans
      cases hans
  have hruns : Runs (saved 0x80 0 st.machine) { t with gpr := gprOf r } := by
    rw [← hreq]
    refine ⟨rfl, ?_, ?_, ?_⟩
    · rw [ht.seg, hframe]
      funext s
      cases s <;> rfl
    · rw [ht.eip, hframe]
    · rw [ht.eflags, hframe]
  obtain ⟨hgpr, hseg, heip, hflags⟩ := runs_saved hruns
  refine ⟨fun q hq => ?_, hseg, heip, hflags⟩
  have hback : gprOf r q = st.machine.gpr q := congrFun hgpr q
  rw [ht.gpr, ← hback]
  rcases hq with hq | ha
  · rw [hframe]
    cases q <;> first | rfl | exact absurd rfl hq
  · rw [hsame ha]

/-- What one entry records of the process that makes it, and of a child. -/
theorem stopsAfter_matches (hS : Faithful T S) (h : Serves T p S ev i y regs) {a : Nat} {st : Stop}
    (hst : stopsAfter S ev i a = some st) : Matches st (y.context a) := by
  obtain ⟨out, -, -, -, hn, hfork⟩ := tracedEntry_spec h.entry
  by_cases hf : forks ev a
  · rw [stopsAfter, if_pos hf] at hst
    rw [(hfork a hf).1, ← Option.some.inj hst]
    exact ⟨by rw [h.frame], fun ha => absurd ha (Bool.noConfusion)⟩
  rw [stopsAfter, if_neg hf] at hst
  by_cases ha : a = S.kernel.sched.current
  · rw [if_pos ha] at hst
    by_cases hx : Calls ev .exec
    · rw [if_pos hx] at hst
      cases hst
    rw [if_neg hx] at hst
    rw [ha, hn.current (ha ▸ hf), entryContext_of_not hx, ← Option.some.inj hst]
    refine ⟨by rw [h.frame], fun hans => ⟨h.frame, ?_⟩⟩
    have hnot : decide (ev.entry = .syscall) = false := hans
    rw [Context.answers, hnot, Bool.false_and]
  · rw [if_neg ha] at hst
    rw [hn.context a hf ha]
    exact hS.stops a st hst

theorem frames_after (hS : Faithful T S) (h : Serves T p S ev i y regs) (a : Nat) :
    UserFrame T.dpl (y.context a).frame := by
  obtain ⟨out, -, -, -, hn, hfork⟩ := tracedEntry_spec h.entry
  have hown : UserFrame T.dpl ev.regs := h.frame ▸ (hS.user.stopped h.stopped).frame 0x80 0
  by_cases hf : forks ev a
  · rw [(hfork a hf).1]
    exact userFrame_eax hown 0
  by_cases ha : a = S.kernel.sched.current
  · rw [ha, hn.current (ha ▸ hf)]
    by_cases hx : Calls ev .exec
    · rw [entryContext, if_pos hx]
      exact h.exec hx
    · rw [entryContext_of_not hx]
      exact hown
  · rw [hn.context a hf ha]
    exact hS.frames a

theorem start_faithful (h : Runs (started (makeInitialRegisters c.eflags)) m) :
    Faithful T ⟨m, tracedBoot c, fun _ => none⟩ where
  owed := boot_owed c
  user := inUser_of_runs (initial_frame T c.eflags) h
  frames := fun _ => initial_frame T c.eflags
  stops := fun _ _ h => nomatch h

theorem reaches_faithful (h : Reaches T c S) : Faithful T S := by
  induction h with
  | start hr => exact start_faithful hr
  | user _ _ _ hm ih => exact ⟨ih.owed, hm, ih.frames, ih.stops⟩
  | mouse _ _ _ hr ih => exact ⟨ih.owed, inUser_of_runs (ih.user.frame 0x80 0) hr, ih.frames, ih.stops⟩
  | entry _ _ hs _ _ ht ih =>
    exact ⟨(step_owed ih.owed hs.guard hs.entry).1, ht, frames_after ih hs,
      fun _ _ => stopsAfter_matches ih hs⟩

/-! ### Resumption -/

/-- The frame an entry hands out, if its process has never been a ZOMBIE, is the one it is owed. -/
theorem served_frame (hS : Faithful T S) (h : Serves T p S ev i y regs)
    (hlive : y.zombied y.sched.current = false) :
    (y.context y.sched.current).Resumes regs ∧ UserFrame T.dpl regs := by
  obtain ⟨howed, hkept⟩ := step_owed hS.owed h.guard h.entry
  obtain ⟨q, hq, hqa⟩ := howed.sane.listed.current
  have hres := (hkept q hq hqa).1 (by rw [hqa]; exact hlive)
  rw [hqa] at hres
  have hframe := frames_after hS h y.sched.current
  refine ⟨hres, ?_⟩
  rcases hres with hr | ⟨-, hr⟩
  · rw [hr]
    exact hframe
  · rw [hr]
    exact userFrame_eax hframe _

/-- Where the wrapped handler leaves the frame the process model hands out, the entry leads back to user
mode with it. -/
theorem served_returns {f : Machine → Machine} (hinv : Faithful T S) (hp : Booted T p)
    (hw : Wraps p (entryPoint T.handlers ev.entry) f) (h : Serves T p S ev i y regs)
    (hf : ∀ u, Called 0x80 0 i u → registersAt (f u).mem (i.esp0 - 76) = regs)
    (hlive : y.zombied y.sched.current = false) :
    ∃ t, Steps p (trapOf p (vectorOf ev.entry) i) t ∧ Runs regs t ∧ InUser T t := by
  obtain ⟨-, huser⟩ := served_frame hinv h hlive
  obtain ⟨d, hgate, -⟩ := gate_of hp ev.entry
  obtain ⟨v, hcode, hnative, hret⟩ := hw
  have hi := hinv.user.stopped h.stopped
  have hdpl : p.segmentDpl 8 = 0 := by rw [hp.dpl, kernelCode_dpl]
  have hring : (8 : BitVec 16).toNat % 4 = 0 := by decide
  obtain ⟨u, t, hcalled, hsteps, hruns, -⟩ :=
    trap_returns (g := ⟨(entryPoint T.handlers ev.entry).toBitVec, 8, d, true⟩) (m := i) hcode hnative
      hret hi.ring hdpl hring fun u hu => by rw [hf u hu, hp.dpl]; exact huser
  rw [hf u hcalled] at hruns
  refine ⟨t, ?_, hruns, inUser_of_runs huser hruns⟩
  rw [trapOf, hgate]
  exact hsteps

def frameWords (r : Registers) : List Word :=
  [r.gs, r.fs, r.es, r.ds, r.edi, r.esi, r.ebp, r.esp, r.ebx, r.edx, r.ecx, r.eax, r.intNo, r.errCode,
    r.eip, r.cs, r.eflags, r.useresp, r.ss].map (BitVec.ofNat 32)

def leaves (a : Word) (r : Registers) (m : Machine) : Machine :=
  { returned m with mem := (pushAll (frameWords r).reverse (m.setGpr .esp (a + 76))).mem }

theorem leaves_returns (a : Word) (r : Registers) : Returns (leaves a r) :=
  ⟨fun _ => rfl, fun _ => returned_esp, fun _ => rfl⟩

theorem leaves_frame (a : Word) {r : Registers} (hr : registersOf (fun i => (frameWords r).getD i 0) = r)
    (u : Machine) : registersAt (leaves a r u).mem a = r := by
  have hpushed := (pushed_nil (m := u.setGpr .esp (a + 76)) (b := a + 76) setGpr_self).pushAll
    (frameWords r).reverse (by simp [frameWords])
  rw [List.reverse_reverse, List.append_nil] at hpushed
  have hesp : (pushAll (frameWords r).reverse (u.setGpr .esp (a + 76))).esp = a := by
    rw [hpushed.esp]
    exact BitVec.add_sub_cancel a 76
  have hholds := hpushed.holds
  rw [hesp] at hholds
  refine Eq.trans (registersOf_congr fun i hi => ?_) hr
  change load32 (pushAll _ _).mem _ = _
  rw [hholds.get (i := i) hi, List.getD_eq_getElem?_getD, List.getElem?_eq_getElem (by exact hi)]
  rfl

theorem saved_words (v w : Word) (m : Machine) :
    registersOf (fun i => (frameWords (saved v w m)).getD i 0) = saved v w m := by
  have hlt : ∀ x : BitVec 16, x.toNat < 4294967296 := fun x => Nat.lt_trans x.isLt (by decide)
  simp [registersOf, frameWords, saved, hlt]

def sampleTables : Tables := ⟨sampleHandlers, sampleInterrupts, 0x5000, emptyGdt⟩

/- mov eax, 16; mov ebx, 2; int 0x80: main calls sleep(2). -/
def sleepCall : List Instr := [.op (.mov .eax 16), .op (.mov .ebx 2), .int 0x80]

def switchPlatform (f : Machine → Machine) : Platform :=
  rom (fun a => (sleepCall[(a - 0x40000000).toNat]?).or ((isrWrapper 0x2000)[(a - 0x11000).toNat]?) |>.or
      ((isrWrapper 0x2000)[(a - 0x14000).toNat]?))
    (fun a => if a = 0x2000 then some f else none)
    (fun n => gateAt (bootInterrupts sampleHandlers sampleInterrupts).idt n.toNat) sampleTables.dpl

def mainStarts : Machine where
  gpr := gprOf (started (makeInitialRegisters sampleBoot.eflags))
  seg := segOf (started (makeInitialRegisters sampleBoot.eflags))
  eip := BitVec.ofNat 32 (started (makeInitialRegisters sampleBoot.eflags)).eip
  eflags := BitVec.ofNat 32 (started (makeInitialRegisters sampleBoot.eflags)).eflags
  ss0 := kernelDataSegment
  esp0 := 0x90000
  mem := fun _ => 0

def mainCounts : Machine := (mainStarts.goto (mainStarts.eip + 1)).setGpr .eax 16
def mainCalls : Machine := (mainCounts.goto (mainCounts.eip + 1)).setGpr .ebx 2
def mainSleeps : Machine := mainCalls.goto (mainCalls.eip + 1)

def sleepEvent : Event := ⟨.syscall, saved 0x80 0 mainSleeps, {}⟩
def tickAt (r : Registers) : Event := ⟨.timer, r, {}⟩

/- The sleep hands the processor to idle, and the next tick wakes main. -/
theorem sleep_switches : ∃ y, tracedEntry (tracedBoot sampleBoot) sleepEvent =
      some (y, makeInitialRegisters sampleBoot.eflags) ∧ y.sched.current = sampleBoot.idleAddr ∧
    y.zombied sampleBoot.idleAddr = false ∧
    ∀ r, ∃ z, tracedEntry y (tickAt r) = some (z, sleepEvent.regs) ∧ z.sched.current = sampleBoot.mainAddr ∧
      z.zombied sampleBoot.mainAddr = false :=
  ⟨_, rfl, rfl, rfl, fun _ => ⟨_, rfl, rfl, rfl⟩⟩

theorem switchPlatform_booted (f : Machine → Machine) : Booted sampleTables (switchPlatform f) :=
  ⟨fun _ => rfl, rfl⟩

theorem switchPlatform_wraps {f : Machine → Machine} (hf : Returns f) (e : Entry)
    (he : e = .timer ∨ e = .syscall) : Wraps (switchPlatform f) (entryPoint sampleHandlers e) f := by
  rcases he with rfl | rfl
  · have hcode : ∀ i < (isrWrapper 0x2000).length,
        (entryPoint sampleHandlers .timer).toBitVec + BitVec.ofNat 32 i ≠ 0x2000 := by decide
    exact ⟨0x2000, codeAt_rom (by decide) fun i hi => if_neg (hcode i hi), rfl, hf⟩
  · have hcode : ∀ i < (isrWrapper 0x2000).length,
        (entryPoint sampleHandlers .syscall).toBitVec + BitVec.ofNat 32 i ≠ 0x2000 := by decide
    exact ⟨0x2000, codeAt_rom (by decide) fun i hi => if_neg (hcode i hi), rfl, hf⟩

/- Up to the call, main runs by itself. -/
def atCall : System := ⟨mainCalls, tracedBoot sampleBoot, fun _ => none⟩

theorem atCall_reached : Reaches sampleTables sampleBoot atCall := by
  have hstart : Reaches sampleTables sampleBoot ⟨mainStarts, tracedBoot sampleBoot, fun _ => none⟩ :=
    .start ⟨rfl, rfl, rfl, rfl⟩
  have hruns : Runs (started (makeInitialRegisters sampleBoot.eflags)) mainStarts := ⟨rfl, rfl, rfl, rfl⟩
  have huser : InUser sampleTables mainStarts :=
    inUser_of_runs (initial_frame sampleTables sampleBoot.eflags) hruns
  have hcounts : Reaches sampleTables sampleBoot ⟨mainCounts, tracedBoot sampleBoot, fun _ => none⟩ :=
    .user hstart (switchPlatform_booted returned) rfl ⟨huser.ring, huser.data⟩
  exact .user hcounts (switchPlatform_booted returned) rfl ⟨huser.ring, huser.data⟩

end AdamOS.Preemption
