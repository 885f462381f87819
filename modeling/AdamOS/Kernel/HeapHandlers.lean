import AdamOS.Display.Canvas
import AdamOS.Display.Desktop
import AdamOS.Display.TextTerminal
import AdamOS.Files.ReadWrite
import AdamOS.Kernel.AddressSpace
import AdamOS.Kernel.KernelHeap

/-! The kernel entries on one heap: what syscall.c, fat16.c, scheduler.c and window.c ask kmalloc for
and give back. A call that writes outside the blocks it asked for has no result. -/
namespace AdamOS.HeapUse
open AdamOS.Desktop AdamOS.Drawing AdamOS.Fat16 AdamOS.Files AdamOS.Kmalloc AdamOS.Lifecycle AdamOS.Paging
open AdamOS.Process AdamOS.Scheduler AdamOS.TextTerminal AdamOS.Windows AdamOS.Word

/-! ### The file handlers -/

def sizeofFat16Fd : Nat := 12
def sizeofPcb : Nat := 376

structure Store where
  heap : KernelHeap
  disk : Disk
  /- the fat16_fd_t at an address, and its member `data` -/
  files : Nat → Fat16Fd
  dataAt : Nat → Nat

/- What an entry finds in the memory of its caller and in the blocks kmalloc returns, and the calls
   it makes on the terminal. -/
structure Caller where
  name : CString
  arg : CString
  bytes : Nat → UInt8
  request : CreateWindow
  garbage : Fat16Entry
  prints : List TerminalCall

structure Answer where
  eax : Nat
  fds : List FileDescriptor
  store : Store

/- The sector buffer that a function asks for and gives back. -/
def withSector (heap : KernelHeap) : KernelHeap :=
  let sector := heap.kmalloc sectorSize
  sector.2.kfree sector.1

def findFile (v : Volume) (u : Caller) (st : Store) : Option (Option (Nat × Fat16Entry) × KernelHeap) :=
  if u.name.chars = [slash] then
    let entry := st.heap.kmalloc entrySize
    some (some (entry.1, rootEntry u.garbage), entry.2)
  else
    let sector := st.heap.kmalloc sectorSize
    let entry := sector.2.kmalloc entrySize
    (fat16FindFile v st.disk u.garbage u.name).map fun found =>
      match found with
      | some e => (some (entry.1, e), entry.2.kfree sector.1)
      | none => (none, (entry.2.kfree sector.1).kfree entry.1)

/- fat16_read_folder has a sector buffer of its own. -/
def openStore (v : Volume) (entry : Nat × Fat16Entry) (fds : List FileDescriptor) (f : Fat16Fd)
    (heap : KernelHeap) (st : Store) : Answer :=
  let fatFd := heap.kmalloc sizeofFat16Fd
  let data := fatFd.2.kmalloc (bufferSize v entry.2)
  let heap := if isFolder entry.2 then withSector data.2 else data.2
  let st := { st with
    files := fun p => if p = fatFd.1 then f else st.files p
    dataAt := fun p => if p = fatFd.1 then data.1 else st.dataAt p }
  match closedSlot fds with
  | some i =>
    { eax := i, fds := fds.set i ⟨.file, fatFd.1, 0, true⟩
      store := { st with heap := heap.kfree entry.1 } }
  | none =>
    { eax := minusOne, fds := fds
      store := { st with heap := ((heap.kfree data.1).kfree fatFd.1).kfree entry.1 } }

def handleSyscallOpen (v : Volume) (regs : Registers) (u : Caller) (fds : List FileDescriptor)
    (st : Store) : Option Answer :=
  if regs.ebx = 0 then some ⟨minusOne, fds, st⟩
  else (findFile v u st).bind fun found =>
    match found.1 with
    | none => some ⟨minusOne, fds, { st with heap := found.2 }⟩
    | some e => (openEntry v st.disk wholeHeap e.2).map fun f => openStore v e fds f found.2 st

def getFd (fd : Nat) (fds : List FileDescriptor) : Option FileDescriptor :=
  if fd < maxFds then fds[fd]? else none

def handleSyscallClose (regs : Registers) (fds : List FileDescriptor) (st : Store) : Answer :=
  match getFd regs.ebx fds with
  | some fd =>
    if fd.isOpen then
      { eax := 0, fds := fds.set regs.ebx { fd with data := 0, isOpen := false }
        store := { st with heap := (st.heap.kfree (st.dataAt fd.data)).kfree fd.data } }
    else ⟨minusOne, fds, st⟩
  | none => ⟨minusOne, fds, st⟩

def fileState (fds : List FileDescriptor) (st : Store) : Option FileState :=
  if h : fds.length = maxFds then some ⟨st.disk, fds, st.files, h⟩ else none

/- handle_syscall_read on FD_FILE -/
def readFile (regs : Registers) (fds : List FileDescriptor) (st : Store) : Option Answer :=
  (fileState fds st).bind fun s =>
    (readFd regs.ebx regs.edx s).map fun r => ⟨r.eax, r.state.fds, st⟩

def writeFile (v : Volume) (regs : Registers) (u : Caller) (fds : List FileDescriptor) (st : Store) :
    Option Answer :=
  (fileState fds st).bind fun s =>
    (writeFd v regs.ebx u.bytes regs.edx s).map fun r =>
      let heap := if (fds.getD regs.ebx closedFd).isOpen then withSector st.heap else st.heap
      ⟨r.1, fds, { st with heap := heap, disk := r.2.disk, files := r.2.files }⟩

/- fat16_alloc_cluster, fat16_write_file and fat16_create_dir_entry have a sector buffer each. -/
def handleSyscallCreate (v : Volume) (regs : Registers) (u : Caller) (fds : List FileDescriptor)
    (st : Store) : Option Answer :=
  (fat16WriteFile v u.name u.bytes regs.edx st.disk).map fun r =>
    let heap := withSector st.heap
    if r.1 then ⟨0, fds, { st with heap := withSector (withSector heap), disk := r.2 }⟩
    else ⟨minusOne, fds, { st with heap := heap, disk := r.2 }⟩

/- On ints. -/
def ceil (x y : Nat) : Nat := ofInt32 (Int.tdiv (int32 (toInt32 x + toInt32 y - 1)) (toInt32 y))

def execSize (v : Volume) (e : Fat16Entry) : Nat :=
  wrap (ceil e.fileSize v.clusterBytes * v.clusterBytes + v.clusterBytes)

/- The strings have to fit name_buf and arg_buf, and ceil divides by the size of a cluster. Whether the
   file was found, and the state. -/
def handleSyscallExec (v : Volume) (regs : Registers) (u : Caller) (st : Store) : Option (Bool × Store) :=
  if 64 ≤ u.name.chars.length ∨ regs.edx ≠ 0 ∧ 256 ≤ u.arg.chars.length then none
  else (findFile v u st).bind fun found =>
    match found.1 with
    | none => some (false, { st with heap := found.2 })
    | some e =>
      let data := found.2.kmalloc (execSize v e.2)
      (fat16ReadFile v st.disk e.2).bind fun bytes =>
        if v.clusterBytes = 0 ∨ execSize v e.2 < bytes.length then none
        else some (true, { st with heap := (data.2.kfree e.1).kfree data.1 })

/-! ### What a call contributes to its entry -/

structure Contribution where
  env : Env
  graphics : Graphics
  store : Store

def contribution (v : Volume) (cur : Pcb) (ev : Lifecycle.Event) (u : Caller) (st : Store) :
    Option Contribution :=
  let answer (a : Answer) : Contribution :=
    ⟨{ ev.env with eax := a.eax, fds := a.fds }, ⟨0, 0, u.request⟩, a.store⟩
  match called ev with
  | some .fork =>
    let pcb := st.heap.kmalloc sizeofPcb
    let stackMem := pcb.2.kmalloc pageSize
    some ⟨{ ev.env with pcbAddr := pcb.1, stackMem := stackMem.1 }, ⟨0, 0, u.request⟩,
      { st with heap := stackMem.2 }⟩
  | some .open => (handleSyscallOpen v ev.regs u cur.fds st).map answer
  | some .close => some (answer (handleSyscallClose ev.regs cur.fds st))
  | some .read =>
    if fdType ev.regs.ebx cur = some .file then (readFile ev.regs cur.fds st).map answer
    else some ⟨ev.env, ⟨0, 0, u.request⟩, st⟩
  | some .write =>
    if fdType ev.regs.ebx cur = some .file then (writeFile v ev.regs u cur.fds st).map answer
    else some ⟨ev.env, ⟨0, 0, u.request⟩, st⟩
  | some .create => (handleSyscallCreate v ev.regs u cur.fds st).map answer
  | some .exec =>
    (handleSyscallExec v ev.regs u st).map fun r =>
      ⟨if r.1 then ev.env else { ev.env with execRegs := { ev.regs with eax := minusOne } },
        ⟨0, 0, u.request⟩, r.2⟩
  | some .createWindow =>
    let window := st.heap.kmalloc sizeofWindow
    let buffer := window.2.kmalloc (bufSize u.request.width.toNat u.request.height.toNat)
    some ⟨ev.env, ⟨window.1, buffer.1, u.request⟩, { st with heap := buffer.2 }⟩
  | _ => some ⟨ev.env, ⟨0, 0, u.request⟩, st⟩

/-! ### What is given back -/

def freeDescriptor (dataAt : Nat → Nat) (heap : KernelHeap) (fd : FileDescriptor) : KernelHeap :=
  if fd.isOpen = true ∧ fd.type = .file then (heap.kfree (dataAt fd.data)).kfree fd.data else heap

/- The end of scheduler_remove. -/
def freeProcess (dataAt : Nat → Nat) (p : Pcb) (heap : KernelHeap) : KernelHeap :=
  ((p.fds.foldl (freeDescriptor dataAt) heap).kfree (sub32 p.kernelStack pageSize)).kfree p.addr

def freeReleased (dataAt : Nat → Nat) (released : Option Pcb) (heap : KernelHeap) : KernelHeap :=
  match released with
  | some p => freeProcess dataAt p heap
  | none => heap

/- The end of remove_window. -/
def freeWindow (heap : KernelHeap) (w : Window) : KernelHeap := (heap.kfree w.pixelBuffer).kfree w.addr

def removedOfProcess (pid : Nat) : List Window → WindowManager → List Window
  | [], _ => []
  | w :: rest, s =>
    if w.pid = pid then
      (getWindow w.windowId s).toList ++ removedOfProcess pid rest (removeWindow w.windowId s)
    else removedOfProcess pid rest s

def removedByClick (m : Mouse) (s : WindowManager) : List Window :=
  match clickTarget m.prevMouseX m.prevMouseY s.windows with
  | none => []
  | some clicked =>
    if clicked.onCloseButton m.prevMouseX m.prevMouseY then
      (getWindow clicked.windowId (focusClicked clicked s)).toList
    else []

def removedWindows (ev : Lifecycle.Event) (m : Mouse) (s : Sched) (ws : WindowManager) : List Window :=
  match ev.entry with
  | .timer =>
    if pressed m then
      removedByClick { m with prevMouseButtons := m.mouseButtons } (beforeClick m ws)
    else []
  | .keyboard scancode _ =>
    if (handleModifiers scancode s).isNone ∧ isCtrlC scancode s ∧ s.foregroundPid ≠ 0 ∧
        s.foregroundPid ∈ s.procs.map Pcb.pid then
      removedOfProcess s.foregroundPid ws.windows ws
    else []
  | .syscall =>
    if Syscall.ofNumber ev.regs.eax = some .destroyWindow then (getWindow ev.regs.ebx ws).toList else []

/-! ### Entries -/

structure Kernel where
  store : Store
  desktop : System
  terminal : Terminal

/- Every call but the move of the floor draws in the terminal's window, and a tab may write past the
   last cell. -/
def PrintsInside (k : Kernel) (t : Terminal) : TerminalCall → Prop
  | .print c _ => k.desktop.terminalWindow ∈ k.desktop.windows.windows.map Window.addr ∧
      (c = TextTerminal.charTab → t.index < terminalSize → t.index + tabSpaces t.index ≤ terminalSize)
  | .clear => k.desktop.terminalWindow ∈ k.desktop.windows.windows.map Window.addr
  | .written => True

instance (k : Kernel) (t : Terminal) : (call : TerminalCall) → Decidable (PrintsInside k t call)
  | .print .. => inferInstanceAs (Decidable (_ ∧ _))
  | .clear => inferInstanceAs (Decidable (_ ∈ _))
  | .written => .isTrue trivial

def printAll (k : Kernel) : List TerminalCall → Terminal → Option Terminal
  | [], t => some t
  | call :: calls, t => if PrintsInside k t call then printAll k calls (terminalStep t call) else none

inductive Input where
  | mouse (m : Mouse)
  | entry (ev : Lifecycle.Event) (u : Caller)

def kernelEntry (v : Volume) (ev : Lifecycle.Event) (u : Caller) (k : Kernel) : Option Kernel := do
  let d := k.desktop
  let cur ← d.sched.currentProcess
  let c ← contribution v cur ev u k.store
  let ev := seen d { ev with env := c.env }
  let out ← handle d.sched ev
  let w ← entryWindows ev c.graphics d.mouse d.sched d.windows
  let terminal ← printAll k u.prints k.terminal
  let heap := freeReleased c.store.dataAt out.released c.store.heap
  let heap := (removedWindows ev d.mouse d.sched d.windows).foldl freeWindow heap
  return {
    store := { c.store with heap := heap }
    desktop := { d with sched := out.sched, windows := w.1, mouse := w.2 }
    terminal := terminal }

def kernelStep (v : Volume) (k : Kernel) : Input → Option Kernel
  | .mouse m => some { k with desktop := { k.desktop with mouse := m } }
  | .entry ev u => kernelEntry v ev u k

/-! ### kernel_main -/

def sizeofGeometry : Nat := 16
def sizeofTerminal : Nat := 20
def statusSize : Nat := 20

structure BootHeap where
  /- the boot sector, the geometry, back_buffer, the terminal and its cells; the texts of the status bar -/
  early : List Nat
  status : List Nat
  (window buffer : Nat)
  (idle idleStack main mainStack : Nat)
  heap : KernelHeap

/- init_fat16, init_vga, init_terminal, init_status_bar and the two processes. -/
def bootHeap (screenSize : Nat) : BootHeap :=
  let early := KernelHeap.kmallocAll
    [sectorSize, sizeofGeometry, screenSize, sizeofTerminal, terminalSize * 2] .start
  let window := early.2.kmalloc sizeofWindow
  let buffer := window.2.kmalloc (bufSize terminalRequest.width.toNat terminalRequest.height.toNat)
  let status := KernelHeap.kmallocAll (List.replicate 8 statusSize) buffer.2
  let idle := status.2.kmalloc sizeofPcb
  let idleStack := idle.2.kmalloc pageSize
  let main := idleStack.2.kmalloc sizeofPcb
  let mainStack := main.2.kmalloc pageSize
  { early := early.1, status := status.1, window := window.1, buffer := buffer.1
    idle := idle.1, idleStack := idleStack.1, main := main.1, mainStack := mainStack.1
    heap := mainStack.2 }

end AdamOS.HeapUse
