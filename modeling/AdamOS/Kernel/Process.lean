import AdamOS.Lib.Word
import Mathlib.Data.List.Basic

/-! Process control blocks, the register frame of a kernel entry and the standard input ring.
A pcb_t pointer is the address of its block; the `next` links are the order of a list. -/
namespace AdamOS.Process
open AdamOS.Word

/- registers_t, in the order the interrupt wrapper pushes it. -/
structure Registers where
  (gs fs es ds : Nat)
  (edi esi ebp esp ebx edx ecx eax : Nat)
  (intNo errCode : Nat)
  (eip cs eflags useresp ss : Nat)
deriving DecidableEq, Repr, Inhabited

inductive ProcessStatus where
  | running | ready | waiting | zombie
deriving DecidableEq, Repr

inductive FdType where
  | none | file | pipe | stdin | stdout
deriving DecidableEq, Repr

structure FileDescriptor where
  type : FdType
  data : Nat
  offset : Nat
  isOpen : Bool
deriving DecidableEq, Repr

def maxFds : Nat := 16
def pageSize : Nat := 4096

structure Pcb where
  addr : Nat
  registers : Registers
  pageDirectory : Nat
  status : ProcessStatus
  kernelStack : Nat
  heapBreak : Nat
  pid : Nat
  parentPid : Nat
  fds : List FileDescriptor
  waitingPid : Nat
  sleepTicks : Nat
deriving DecidableEq, Repr

def closedFd : FileDescriptor := ⟨.none, 0, 0, false⟩

def initialFds : List FileDescriptor :=
  { closedFd with type := .stdin, isOpen := true } ::
  { closedFd with type := .stdout, isOpen := true } :: List.replicate (maxFds - 2) closedFd

/- `addr` and `stackMem` are the two blocks kmalloc returned; `pid` is pid_static before its
   increment. -/
def createProcessControlBlock (addr stackMem pid pageDirectory : Nat) (registers : Registers)
    (parentPid : Nat) : Pcb where
  addr := addr
  registers := registers
  pageDirectory := pageDirectory
  status := .ready
  kernelStack := wrap (stackMem + pageSize)
  heapBreak := 0
  pid := pid
  parentPid := parentPid
  fds := initialFds
  waitingPid := 0
  sleepTicks := 0

/-! stdin.c: the ring buffer and its one-slot wait queue. -/

def standardInBufferSize : Nat := 256
def charBackspace : Nat := 8
def charNewline : Nat := 10
def charSpace : Nat := 32

structure WaitQueue where
  process : Option Nat
  requestedLen : Int
deriving DecidableEq, Repr

structure StdinBuffer where
  buffer : Nat → Nat
  readIndex : Int
  writeIndex : Int
  count : Int
  waitQueue : WaitQueue

def emptyStdin : StdinBuffer := ⟨fun _ => 0, 0, 0, 0, ⟨none, 0⟩⟩

def StdinBuffer.put (b : StdinBuffer) (i : Int) (c : Nat) : StdinBuffer :=
  { b with buffer := fun j => if j = i.toNat then c else b.buffer j }

def stdinWrite (c : Nat) (b : StdinBuffer) : StdinBuffer :=
  if c = charBackspace then
    if b.readIndex = b.writeIndex then b
    else
      { b.put (max 0 (b.writeIndex - 1)) charSpace with
        writeIndex := max 0 (b.writeIndex - 1), count := max 0 (b.count - 1) }
  else
    { b.put b.writeIndex c with
      writeIndex := (b.writeIndex + 1) % standardInBufferSize, count := b.count + 1 }

/- One iteration of stdin_read: the character delivered, if any, and the ring after it. -/
def stdinReadOne (b : StdinBuffer) : Option Nat × StdinBuffer :=
  let c := b.buffer b.readIndex.toNat
  let b' := { b with
    count := b.count - 1, readIndex := (b.readIndex + 1) % standardInBufferSize }
  (if c = charBackspace ∨ c = charNewline then none else some c, b')

def stdinReadLoop : Nat → StdinBuffer → List Nat × StdinBuffer
  | 0, b => ([], b)
  | n+1, b =>
    let r := stdinReadOne b
    let rest := stdinReadLoop n r.2
    (r.1.toList ++ rest.1, rest.2)

/- The delivered bytes and the ring; a negative len reads nothing. -/
def stdinRead (len : Int) (b : StdinBuffer) : List Nat × StdinBuffer :=
  stdinReadLoop len.toNat b

@[simp] theorem StdinBuffer.put_waitQueue (b : StdinBuffer) (i : Int) (c : Nat) :
    (b.put i c).waitQueue = b.waitQueue := rfl

@[simp] theorem stdinWrite_waitQueue (c : Nat) (b : StdinBuffer) :
    (stdinWrite c b).waitQueue = b.waitQueue := by
  unfold stdinWrite
  split
  · split <;> rfl
  · rfl

theorem stdinReadLoop_waitQueue (n : Nat) (b : StdinBuffer) :
    (stdinReadLoop n b).2.waitQueue = b.waitQueue := by
  induction n generalizing b with
  | zero => rfl
  | succ n ih => exact ih (stdinReadOne b).2

@[simp] theorem stdinRead_waitQueue (len : Int) (b : StdinBuffer) :
    (stdinRead len b).2.waitQueue = b.waitQueue := stdinReadLoop_waitQueue _ b

end AdamOS.Process
