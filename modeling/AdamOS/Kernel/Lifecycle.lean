import AdamOS.Kernel.Scheduler
import AdamOS.Lib.Transition

/-! Kernel entries as steps of the process state: timer.c, keyboard.c, stdin.c and the handlers
of syscall.c. What files, paging and windows contribute to an entry is an input of the step. -/
namespace AdamOS.Lifecycle
open AdamOS.Process AdamOS.Scheduler AdamOS.ListUpdate AdamOS.Word AdamOS.Transition

structure Env where
  /- read through the uninitialised dying_process of reparent_children -/
  dyingParent : Nat := 0
  /- the blocks kmalloc returns for a new PCB and its kernel stack -/
  pcbAddr : Nat := 0
  stackMem : Nat := 0
  directory : Nat := 0
  /- descriptors, heap break and eax left by the file, paging and window handlers -/
  fds : List FileDescriptor := []
  heapBreak : Nat := 0
  eax : Nat := 0
  execRegs : Registers := default
  /- the bytes a write to descriptor 0 finds in the caller's buffer -/
  buf : Nat → Nat := fun _ => 0

inductive Entry where
  | timer
  | keyboard (scancode : Nat) (terminalFocused : Bool)
  | syscall
deriving DecidableEq, Repr

structure Event where
  entry : Entry
  regs : Registers
  env : Env := {}

/-! Keyboard -/

def scancodeEnter : Nat := 0x1C
def scancodeBackspace : Nat := 0x0E
def scancodeReleaseMask : Nat := 0x80
def scancodeLshift : Nat := 0x2A
def scancodeRshift : Nat := 0x36
def scancodeLshiftRel : Nat := 0xAA
def scancodeRshiftRel : Nat := 0xB6
def scancodeLctrl : Nat := 0x1D
def scancodeLctrlRel : Nat := 0x9D
def scancodeC : Nat := 0x2E

def scancodeToAscii : List Nat :=
  [0, 0, 49, 50, 51, 52, 53, 54, 55, 56, 57, 48, 45, 61, 0,
    0, 113, 119, 101, 114, 116, 121, 117, 105, 111, 112, 91, 93, 0, 0,
    97, 115, 100, 102, 103, 104, 106, 107, 108, 59, 39, 96, 0, 92, 122,
    120, 99, 118, 98, 110, 109, 44, 46, 47, 0, 0, 0, 32]

def scancodeToAsciiShift : List Nat :=
  [0, 0, 33, 64, 35, 36, 37, 94, 38, 42, 40, 41, 95, 43, 0,
    0, 81, 87, 69, 82, 84, 89, 85, 73, 79, 80, 123, 125, 0, 0,
    65, 83, 68, 70, 71, 72, 74, 75, 76, 58, 34, 126, 0, 124, 90,
    88, 67, 86, 66, 78, 77, 60, 62, 63, 0, 0, 0, 32]

def handleModifiers (scancode : Nat) (s : Sched) : Option Sched :=
  if scancode = scancodeLshift ∨ scancode = scancodeRshift then some { s with shiftHeld := true }
  else if scancode = scancodeLshiftRel ∨ scancode = scancodeRshiftRel then
    some { s with shiftHeld := false }
  else if scancode = scancodeLctrl then some { s with ctrlHeld := true }
  else if scancode = scancodeLctrlRel then some { s with ctrlHeld := false }
  else none

def isCtrlC (scancode : Nat) (s : Sched) : Bool := s.ctrlHeld && scancode = scancodeC

def typeChar (c : Nat) (focused : Bool) (s : Sched) : Sched :=
  if focused then { s with stdin := stdinWrite c s.stdin } else s

def handleInput (scancode : Nat) (focused : Bool) (s : Sched) : Sched :=
  if scancode = scancodeEnter then typeChar charNewline focused s
  else if scancode = scancodeBackspace then typeChar charBackspace focused s
  else if scancode < scancodeToAscii.length then
    let c := (if s.shiftHeld then scancodeToAsciiShift else scancodeToAscii).getD scancode 0
    if c ≠ 0 then typeChar c focused s else s
  else s

def setEax (n : Nat) (p : Pcb) : Pcb := { p with registers := { p.registers with eax := n } }

def stdinWakeProcess (regs : Registers) (s : Sched) : Option Outcome := do
  let cur ← s.currentProcess
  if cur.status = .zombie then return { sched := s, regs := regs }
  let a ← s.stdin.waitQueue.process
  let _ ← s.deref a
  let s := s.modify a (setStatus .running)
  let s := s.modify s.current (setRegisters regs)
  let r := stdinRead (min s.stdin.count s.stdin.waitQueue.requestedLen) s.stdin
  let s := s.modify a (setEax r.1.length)
  let s := { s with stdin := { r.2 with waitQueue := ⟨none, -1⟩ } }
  let s := s.modify a (setStatus .ready)
  let cur ← s.currentProcess
  return { sched := { s with esp0 := cur.kernelStack, cr3 := cur.pageDirectory }, regs := cur.registers }

def keyboardHandlerMain (scancode : Nat) (focused : Bool) (regs : Registers) (s : Sched) :
    Option Outcome := do
  if let some s := handleModifiers scancode s then return { sched := s, regs := regs }
  if isCtrlC scancode s then return { sched := ← sigintForeground s, regs := regs }
  if s.shiftHeld && scancode = scancodeEnter then
    return { sched := typeChar charSpace focused s, regs := regs }
  if scancode &&& scancodeReleaseMask ≠ 0 then return { sched := s, regs := regs }
  if (standardInBufferSize : Int) ≤ s.stdin.count then return { sched := s, regs := regs }
  let s := handleInput scancode focused s
  if s.stdin.waitQueue.process.isSome &&
      (decide (s.stdin.waitQueue.requestedLen ≤ s.stdin.count) || scancode = scancodeEnter) then
    stdinWakeProcess regs s
  else return { sched := s, regs := regs }

/-! Timer -/

def timerHandlerMain (garbage : Nat) (regs : Registers) (s : Sched) : Option Outcome :=
  updateScheduler garbage regs { s with timerTicks := wrap (s.timerTicks + 1) }

/-! System calls -/

inductive Syscall where
  | exit | fork | read | write | open | close | ps | exec | kill | wait | create | poll | sleep
  | uptime | createWindow | drawRect | drawLine | drawText | getEvent | destroyWindow | flush
  | getpid | getppid | sbrk
deriving DecidableEq, Repr

def Syscall.ofNumber : Nat → Option Syscall
  | 1 => some exit
  | 2 => some fork
  | 3 => some read
  | 4 => some write
  | 5 => some .open
  | 6 => some close
  | 7 => some ps
  | 11 => some exec
  | 12 => some kill
  | 13 => some wait
  | 14 => some create
  | 15 => some poll
  | 16 => some sleep
  | 17 => some uptime
  | 18 => some createWindow
  | 19 => some drawRect
  | 20 => some drawLine
  | 21 => some drawText
  | 22 => some getEvent
  | 23 => some destroyWindow
  | 24 => some flush
  | 25 => some getpid
  | 26 => some getppid
  | 27 => some sbrk
  | _ => none

/- status == ZOMBIE ? ZOMBIE : WAITING -/
def blockStatus (p : Pcb) : Pcb :=
  { p with status := if p.status = .zombie then .zombie else .waiting }

def handleSyscallExit (env : Env) (regs : Registers) (s : Sched) : Option Outcome := do
  let cur ← s.currentProcess
  let r ← schedulerRemove env.dyingParent cur.pid s
  updateScheduler env.dyingParent regs r.sched

/- kmalloc returns no block that is in use, so no listed PCB has the new one's address. -/
def handleSyscallFork (env : Env) (regs : Registers) (s : Sched) : Option Outcome := do
  let cur ← s.currentProcess
  if env.pcbAddr ∈ s.procs.map Pcb.addr then none
  let child := createProcessControlBlock env.pcbAddr env.stackMem s.pidStatic env.directory
    { regs with eax := 0 } cur.pid
  return {
    sched := schedulerEnqueue child { s with pidStatic := wrap (s.pidStatic + 1) }
    regs := { regs with eax := child.pid } }

def handleSyscallKill (env : Env) (regs : Registers) (s : Sched) : Option Outcome := do
  let r ← schedulerRemove env.dyingParent regs.ebx s
  return {
    sched := r.sched
    regs := { regs with eax := if r.result then 0 else minusOne }
    released := r.released }

def handleSyscallWait (env : Env) (regs : Registers) (s : Sched) : Option Outcome :=
  let s := { s with foregroundPid := regs.ebx }
  let s := s.modify s.current fun p => { p with waitingPid := regs.ebx }
  updateScheduler env.dyingParent regs (s.modify s.current blockStatus)

def handleSyscallSleep (env : Env) (regs : Registers) (s : Sched) : Option Outcome := do
  let cur ← s.currentProcess
  if regs.ebx = 0 ∨ cur.pid = 1 then return { sched := s, regs := regs }
  let s := s.modify s.current fun p => { p with sleepTicks := regs.ebx }
  updateScheduler env.dyingParent regs (s.modify s.current blockStatus)

def stdinBlockProcess (env : Env) (regs : Registers) (len : Int) (s : Sched) : Option Outcome :=
  let s := s.modify s.current blockStatus
  let s := { s with stdin := { s.stdin with waitQueue := ⟨some s.current, len⟩ } }
  updateScheduler env.dyingParent regs s

def fdType (fd : Nat) (p : Pcb) : Option FdType :=
  if fd < maxFds then (p.fds[fd]?).map FileDescriptor.type else none

def withFds (env : Env) (regs : Registers) (s : Sched) : Outcome where
  sched := s.modify s.current fun p => { p with fds := env.fds }
  regs := { regs with eax := env.eax }

/- stdin.count < len compares as unsigned. -/
def readBlocks (regs : Registers) (s : Sched) : Prop := ofInt32 s.stdin.count < regs.edx

instance (regs : Registers) (s : Sched) : Decidable (readBlocks regs s) :=
  inferInstanceAs (Decidable (_ < _))

def handleSyscallRead (env : Env) (regs : Registers) (s : Sched) : Option Outcome := do
  let cur ← s.currentProcess
  match fdType regs.ebx cur with
  | some .stdin =>
    if readBlocks regs s then stdinBlockProcess env regs (toInt32 regs.edx) s
    else
      let r := stdinRead (toInt32 regs.edx) s.stdin
      return { sched := { s with stdin := r.2 }, regs := { regs with eax := r.1.length } }
  | some .file => return withFds env regs s
  | _ => return { sched := s, regs := { regs with eax := minusOne } }

def handleSyscallWrite (env : Env) (regs : Registers) (s : Sched) : Option Outcome := do
  let cur ← s.currentProcess
  match fdType regs.ebx cur with
  | some .stdin =>
    return {
      sched := { s with
        stdin := (List.range regs.edx).foldl (fun b i => stdinWrite (env.buf i) b) s.stdin }
      regs := { regs with eax := regs.edx } }
  | some .stdout => return { sched := s, regs := { regs with eax := regs.edx } }
  | some .file => return { sched := s, regs := { regs with eax := env.eax } }
  | _ => return { sched := s, regs := { regs with eax := minusOne } }

def handleSyscallPoll (regs : Registers) (s : Sched) : Outcome where
  sched := s
  regs := { regs with eax := if regs.ebx = 0 ∧ s.stdin.count > 0 then 1 else 0 }

def handleSyscallPs (regs : Registers) (s : Sched) : Outcome where
  sched := s
  regs := { regs with eax := min s.procs.length (toInt32 regs.ecx).toNat }

def syscallHandlerMain (env : Env) (regs : Registers) (s : Sched) : Option Outcome :=
  match Syscall.ofNumber regs.eax with
  | some .exit => handleSyscallExit env regs s
  | some .fork => handleSyscallFork env regs s
  | some .read => handleSyscallRead env regs s
  | some .write => handleSyscallWrite env regs s
  | some .open => some (withFds env regs s)
  | some .close => some (withFds env regs s)
  | some .ps => some (handleSyscallPs regs s)
  | some .exec => some { sched := s, regs := env.execRegs }
  | some .kill => handleSyscallKill env regs s
  | some .wait => handleSyscallWait env regs s
  | some .poll => some (handleSyscallPoll regs s)
  | some .sleep => handleSyscallSleep env regs s
  | some .uptime => some { sched := s, regs := { regs with eax := s.timerTicks } }
  | some .getpid => s.currentProcess.map fun p => { sched := s, regs := { regs with eax := p.pid } }
  | some .getppid =>
    s.currentProcess.map fun p => { sched := s, regs := { regs with eax := p.parentPid } }
  | some .sbrk =>
    some {
      sched := s.modify s.current fun p => { p with heapBreak := env.heapBreak }
      regs := { regs with eax := env.eax } }
  | some _ => some { sched := s, regs := { regs with eax := env.eax } }
  | none => some { sched := s, regs := { regs with eax := minusOne } }

/-! Runs -/

def handle (s : Sched) (ev : Event) : Option Outcome :=
  match ev.entry with
  | .timer => timerHandlerMain ev.env.dyingParent ev.regs s
  | .keyboard scancode focused => keyboardHandlerMain scancode focused ev.regs s
  | .syscall => syscallHandlerMain ev.env ev.regs s

def step (s : Sched) (ev : Event) : Option Sched := (handle s ev).map Outcome.sched

def makeInitialRegisters (eflags : Nat) : Registers :=
  { (default : Registers) with
    eip := 0x40000000, cs := 27, eflags := eflags ||| 0x200, useresp := 0x50000FFC, ss := 35
    ds := 35, es := 35, fs := 35, gs := 35 }

structure BootConfig where
  mainAddr : Nat
  idleAddr : Nat
  mainStack : Nat
  idleStack : Nat
  mainDirectory : Nat
  idleDirectory : Nat
  eflags : Nat
  timerTicks : Nat
  distinct : mainAddr ≠ idleAddr

def bootIdle (c : BootConfig) : Pcb :=
  createProcessControlBlock c.idleAddr c.idleStack 1 c.idleDirectory
    (makeInitialRegisters c.eflags) 0

def bootMain (c : BootConfig) : Pcb :=
  createProcessControlBlock c.mainAddr c.mainStack 2 c.mainDirectory
    (makeInitialRegisters c.eflags) 0

/- init_scheduler(main), scheduler_enqueue(idle), start_scheduler. -/
def boot (c : BootConfig) : Sched where
  procs := [setStatus .running (bootMain c), bootIdle c]
  current := c.mainAddr
  foregroundPid := 0
  quantumCounter := 0
  processQueueSize := 2
  enableScheduler := true
  pidStatic := 3
  stdin := emptyStdin
  shiftHeld := false
  ctrlHeld := false
  timerTicks := c.timerTicks
  esp0 := (bootMain c).kernelStack
  cr3 := c.mainDirectory

end AdamOS.Lifecycle
