import AdamOS.Kernel.Lifecycle
import AdamOS.Kernel.PageTable

/-! The kernel with its memory: what fork, exec, sbrk and the removal of a process do to the page
tables, the address spaces kernel_main builds, and the stores a process makes between entries. -/
namespace AdamOS.Paging
open AdamOS.Process AdamOS.Scheduler AdamOS.Lifecycle AdamOS.Word AdamOS.Loop

structure Kernel where
  sched : Sched
  memory : Memory

/- The directory part of handle_syscall_fork; the first write is its own identity mapping. -/
def forkDirectory (source : Nat) (m : Memory) : Nat × Memory :=
  let r := allocateFrame m
  let m := r.2.put (frameOf (r.2.phys source (r.1 / 1024))) (r.1 % 1024) (entry r.1 pageFlagKernel)
  (r.1, copyPageDirectory r.1 source (m.fill r.1 fun _ => 0))

/- handle_syscall_exec once the file is read: the argument is copied to the new stack. -/
def execDirectory (pd : Nat) (p : Program) (m : Memory) : Memory :=
  let m := updatePageDirectory pd p (clearPageDirectory pd m)
  if p.argLen = 0 then m else writePage pd userStackPage p.stack m

/- The loop of handle_syscall_sbrk. There are 2^20 pages, so a loop that runs longer never ends. -/
def growHeap (pd newBreak : Nat) : Nat → Nat → Memory → Option Memory
  | 0, _, _ => none
  | fuel+1, page, m =>
    if page * pageSize < newBreak then
      growHeap pd newBreak fuel ((page + 1) % 1048576) (loadPage pd page (fun _ => 0) m)
    else some m

/- heap_break as handle_syscall_sbrk reads it: 0 is a heap that was never used. -/
def oldBreak (heapBreak : Nat) : Nat :=
  if heapBreak = 0 then userHeapPage * pageSize else heapBreak

def newBreak (heapBreak offset : Nat) : Nat := wrap (oldBreak heapBreak + offset)

def firstPage (heapBreak : Nat) : Nat := wrap (oldBreak heapBreak + pageSize - 1) / pageSize

def sbrk (pd heapBreak offset : Nat) (m : Memory) : Option (Nat × Nat × Memory) :=
  if offset = 0 then some (oldBreak heapBreak, oldBreak heapBreak, m)
  else (growHeap pd (newBreak heapBreak offset) 1048577 (firstPage heapBreak) m).map fun m =>
    (oldBreak heapBreak, newBreak heapBreak offset, m)

/-- A loop that has to pass the last page comes around to page 0 and never ends. -/
theorem growHeap_diverges {pd brk : Nat} (hb : 1048575 * pageSize < brk) (fuel : Nat) {page : Nat}
    (hp : page < 1048576) (m : Memory) : growHeap pd brk fuel page m = none := by
  induction fuel generalizing page m with
  | zero => rfl
  | succ fuel ih =>
    have hlt : page * pageSize < brk :=
      Nat.lt_of_le_of_lt (Nat.mul_le_mul_right pageSize (Nat.le_of_lt_succ hp)) hb
    rw [growHeap, if_pos hlt]
    exact ih (Nat.mod_lt _ (by decide)) _

def pagesBelow (brk page : Nat) : Nat := (brk + pageSize - 1) / pageSize - page

/-- Any other loop maps the pages from the first up to the new break, in order. -/
theorem growHeap_loop {pd brk fuel page : Nat} (hb : brk ≤ 1048575 * pageSize)
    (hf : pagesBelow brk page < fuel) (m : Memory) : growHeap pd brk fuel page m =
      some (loop (pagesBelow brk page) (fun i => loadPage pd (page + i) fun _ => 0) m) := by
  induction fuel generalizing page m with
  | zero => exact absurd hf (Nat.not_lt_zero _)
  | succ fuel ih =>
    rw [growHeap]
    by_cases hlt : page * pageSize < brk
    · have hnext : (page + 1) % 1048576 = page + 1 := by
        simp only [pageSize] at *
        exact Nat.mod_eq_of_lt (by omega)
      have hcount : pagesBelow brk page = pagesBelow brk (page + 1) + 1 := by
        simp only [pagesBelow, pageSize] at *
        omega
      rw [if_pos hlt, hnext, ih (by omega), hcount, loop_first]
      simp only [Nat.add_zero, Nat.add_comm, Nat.add_left_comm]
    · have hcount : pagesBelow brk page = 0 := by
        simp only [pagesBelow, pageSize] at *
        omega
      rw [if_neg hlt, hcount, loop_zero]

def called (ev : Event) : Option Syscall :=
  if ev.entry = .syscall then Syscall.ofNumber ev.regs.eax else none

def pagingOf (cur : Pcb) (ev : Event) (program : Option Program) (m : Memory) :
    Option (Env × Memory) :=
  let pd := frameOf cur.pageDirectory
  match called ev with
  | some .fork =>
    let r := forkDirectory pd m
    some ({ ev.env with directory := r.1 * pageSize }, r.2)
  | some .exec =>
    match program with
    | none => some ({ ev.env with execRegs := { ev.regs with eax := minusOne } }, m)
    | some p => some ({ ev.env with execRegs := updateRegisters p ev.regs }, execDirectory pd p m)
  | some .sbrk =>
    (sbrk pd cur.heapBreak (wrap ev.regs.ebx) m).map fun r =>
      ({ ev.env with eax := r.1, heapBreak := r.2.1 }, r.2.2)
  | _ => some (ev.env, m)

def releaseMemory (released : Option Pcb) (m : Memory) : Memory :=
  match released with
  | some p => clearPageDirectory (frameOf p.pageDirectory) m
  | none => m

def kernelEntry (k : Kernel) (ev : Event) (program : Option Program) :
    Option (Kernel × Registers) := do
  let cur ← k.sched.currentProcess
  let (env, m) ← pagingOf cur ev program k.memory
  let out ← handle k.sched { ev with env := env }
  return ({ sched := out.sched, memory := releaseMemory out.released m }, out.regs)

def accessible (m : Memory) (pd page : Nat) : Bool :=
  present (m.phys pd (page / 1024)) && user (m.phys pd (page / 1024)) &&
    present (m.pte pd page) && user (m.pte pd page)

/- A store of the running process; one that faults halts the machine. -/
def userStore (k : Kernel) (page j w : Nat) : Option Kernel := do
  let cur ← k.sched.currentProcess
  let pd := frameOf cur.pageDirectory
  if page < 1048576 ∧ accessible k.memory pd page then
    some { k with memory := k.memory.put (frameOf (k.memory.pte pd page)) j w }
  else none

inductive Action where
  | enter (ev : Event) (program : Option Program)
  | store (page word value : Nat)

def kernelStep (k : Kernel) : Action → Option Kernel
  | .enter ev program => (kernelEntry k ev program).map Prod.fst
  | .store page j w => userStore k page j w

/-! ### kernel_main -/

/- The machine the kernel starts on: the frame buffer of the video mode, the contents of memory
   and the first page of the two programs linked into the kernel. -/
structure Machine where
  config : BootConfig
  framebuffer : Nat
  screenSize : Nat
  phys : Nat → Nat → Nat
  idleImage : Nat → Nat
  mainImage : Nat → Nat
  inRange : framebuffer + screenSize < 4294967296

def fbPage (M : Machine) : Nat := M.framebuffer / pageSize

def fbPages (M : Machine) : Nat :=
  (M.framebuffer + M.screenSize - fbPage M * pageSize + pageSize - 1) / pageSize

def createKernelPageDirectory (M : Machine) (image : Nat → Nat) (m : Memory) : Nat × Memory :=
  let d := createPageDirectory m
  let m := loop 1024 (fun i => mapPage d.1 i i pageFlagKernel) d.2
  let m := loop (fbPages M) (fun i => mapPage d.1 (fbPage M + i) (fbPage M + i) pageFlagKernel) m
  let f := allocateFrame m
  let g := allocateFrame f.2
  let m := mapPage d.1 userFuncPage f.1 pageFlagUser (g.2.fill f.1 image)
  (d.1, mapPage d.1 userStackPage g.1 pageFlagUser m)

def reserveKernel (M : Machine) : Memory :=
  loop 1024 (fun _ m => (allocateFrame m).2) (initFrames M.phys)

def idleSpace (M : Machine) : Nat × Memory :=
  createKernelPageDirectory M M.idleImage (reserveKernel M)

def mainSpace (M : Machine) : Nat × Memory :=
  createKernelPageDirectory M M.mainImage (idleSpace M).2

def bootKernel (M : Machine) : Kernel where
  sched := boot { M.config with
    idleDirectory := (idleSpace M).1 * pageSize, mainDirectory := (mainSpace M).1 * pageSize }
  memory := (mainSpace M).2

end AdamOS.Paging
