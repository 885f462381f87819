import AdamOS.Kernel.Process
import AdamOS.Lib.ListUpdate

/-! scheduler.c: the process list, the round robin, removal and Ctrl+C. `none` is a call that
does not return: next_process halts, or a pointer no longer denotes a listed process. -/
namespace AdamOS.Scheduler
open AdamOS.Process AdamOS.ListUpdate AdamOS.Word

def schedulerQuantum : Nat := 20

structure Sched where
  /- scheduler_head_ptr and the next links -/
  procs : List Pcb
  /- the pcb_t pointer current_process -/
  current : Nat
  foregroundPid : Nat
  quantumCounter : Nat
  processQueueSize : Nat
  enableScheduler : Bool
  pidStatic : Nat
  stdin : StdinBuffer
  shiftHeld : Bool
  ctrlHeld : Bool
  timerTicks : Nat
  /- tss_entry.esp0 and the directory in cr3 -/
  esp0 : Nat
  cr3 : Nat

def onAddr (a : Nat) (f : Pcb → Pcb) (p : Pcb) : Pcb := if p.addr = a then f p else p

def setStatus (st : ProcessStatus) (p : Pcb) : Pcb := { p with status := st }

def setRegisters (regs : Registers) (p : Pcb) : Pcb := { p with registers := regs }

namespace Sched

def deref (s : Sched) (a : Nat) : Option Pcb := s.procs.find? fun p => decide (p.addr = a)

def modify (s : Sched) (a : Nat) (f : Pcb → Pcb) : Sched :=
  { s with procs := s.procs.map (onAddr a f) }

def currentProcess (s : Sched) : Option Pcb := s.deref s.current

end Sched

def schedulerEnqueue (pcb : Pcb) (s : Sched) : Sched :=
  match s.procs with
  | [] => { s with procs := [pcb] }
  | p :: ps => { s with procs := p :: ps ++ [pcb], processQueueSize := wrap (s.processQueueSize + 1) }

/- p->next -/
def nextOf (a : Nat) : List Pcb → Option Pcb
  | p :: q :: ps => if p.addr = a then some q else nextOf a (q :: ps)
  | _ => none

def follow (procs : List Pcb) (p : Pcb) : Option Pcb :=
  (nextOf p.addr procs).or procs.head?

/- The loop of next_process: at most `size` steps over WAITING processes. -/
def skipWaiting (procs : List Pcb) : Nat → Pcb → Option Pcb
  | 0, p => some p
  | size+1, p =>
    if p.status = .waiting then (follow procs p).bind (skipWaiting procs size) else some p

def nextProcess (s : Sched) : Option Sched := do
  let cur ← s.currentProcess
  let first ← follow s.procs cur
  let p ← skipWaiting s.procs s.processQueueSize first
  if p.status = .waiting then none else some { s with current := p.addr }

def decrementWait (p : Pcb) : Pcb :=
  if p.sleepTicks > 0 then
    if p.sleepTicks - 1 = 0 ∧ p.status = .waiting then
      { p with sleepTicks := p.sleepTicks - 1, status := .ready }
    else { p with sleepTicks := p.sleepTicks - 1 }
  else p

def wakes (p : Pcb) : Bool := p.sleepTicks = 1 ∧ p.status = .waiting

def decrementWaitProcess (s : Sched) : Sched × Bool :=
  ({ s with procs := s.procs.map decrementWait }, s.procs.any wakes)

def waitsFor (pid : Nat) (p : Pcb) : Bool := p.waitingPid = pid

def schedulerWake (pid : Nat) (s : Sched) : Sched :=
  { s with procs := updateFirst (waitsFor pid) (setStatus .ready) s.procs }

/- One child of the dying process: it goes to the grandparent, and the first process that waits
   for the dying one waits for the child instead. -/
def reparentChild (dyingPid dyingParent : Nat) (procs : List Pcb) (child : Pcb) : List Pcb :=
  if child.parentPid = dyingPid then
    updateFirst (waitsFor dyingPid) (fun p => { p with waitingPid := child.pid })
      (procs.map (onAddr child.addr fun p => { p with parentPid := dyingParent }))
  else procs

/- `garbage` is what dying_process->parent_pid reads when no listed process has the pid: the
   pointer is then uninitialised. -/
def reparentChildren (garbage dyingPid : Nat) (s : Sched) : Sched :=
  let dyingParent := ((s.procs.find? fun p => p.pid = dyingPid).map Pcb.parentPid).getD garbage
  { s with procs := s.procs.foldl (reparentChild dyingPid dyingParent) s.procs }

/- What a call leaves: the state, the frame the interrupt returns with and the PCB whose page
   directory, descriptors and stack were released. -/
structure Outcome where
  sched : Sched
  regs : Registers
  released : Option Pcb := none

structure Removal where
  sched : Sched
  result : Bool
  released : Option Pcb := none

def schedulerRemove (garbage pid : Nat) (s : Sched) : Option Removal := do
  if pid = 1 ∨ pid = 2 then return { sched := s, result := false }
  let cur ← s.currentProcess
  if pid = cur.pid then
    return { sched := s.modify s.current (setStatus .zombie), result := true }
  let s := reparentChildren garbage pid s
  match s.procs.find? fun p => p.pid = pid with
  | none => return { sched := s, result := true }
  | some p =>
    return {
      sched := { s with
        procs := s.procs.eraseP fun p => p.pid = pid
        processQueueSize := sub32 s.processQueueSize 1 }
      result := true
      released := some p }

/- The end of update_scheduler: the chosen process runs with its own frame, stack and pages. -/
def resume (s : Sched) : Option (Sched × Registers) := do
  let s := s.modify s.current (setStatus .running)
  let p ← s.currentProcess
  return ({ s with esp0 := p.kernelStack, cr3 := p.pageDirectory, quantumCounter := 0 }, p.registers)

/- The process given up: a ZOMBIE is woken for, passed over and removed; any other keeps the
   frame it was interrupted with. -/
def switchAway (garbage : Nat) (regs : Registers) (cur : Pcb) (s : Sched) :
    Option (Sched × Option Pcb) := do
  if cur.status = .zombie then
    let s ← nextProcess (schedulerWake cur.pid s)
    let r ← schedulerRemove garbage cur.pid s
    return (r.sched, r.released)
  else
    let s ← nextProcess (s.modify s.current (setRegisters regs))
    return (s, none)

def updateScheduler (garbage : Nat) (regs : Registers) (s : Sched) : Option Outcome := do
  if !s.enableScheduler then return { sched := s, regs := regs }
  let woke := (decrementWaitProcess s).2
  let s := (decrementWaitProcess s).1
  let s := { s with quantumCounter := wrap (s.quantumCounter + 1) }
  let cur ← s.currentProcess
  if !woke && decide (s.quantumCounter < schedulerQuantum) &&
      (decide (cur.status = .ready) || decide (cur.status = .running)) then
    return { sched := s, regs := regs }
  let (s, released) ← switchAway garbage regs cur s
  let (s, regs) ← resume s
  return { sched := s, regs := regs, released := released }

/- The wait-queue slot names the foreground process (the pointer is followed). -/
def slotIsForeground (s : Sched) : Option Bool :=
  match s.stdin.waitQueue.process with
  | none => some false
  | some a => (s.deref a).map fun p => decide (p.pid = s.foregroundPid)

def sigintForeground (s : Sched) : Option Sched := do
  let s := { s with stdin := { s.stdin with count := 0, readIndex := s.stdin.writeIndex } }
  if s.foregroundPid = 0 then return s
  let own ← slotIsForeground s
  let queue := if own then ⟨none, -1⟩ else s.stdin.waitQueue
  return { s with
    stdin := { s.stdin with waitQueue := queue }
    procs := updateFirst (fun p => p.pid = s.foregroundPid)
      (setStatus .zombie) s.procs
    foregroundPid := 0 }

end AdamOS.Scheduler
