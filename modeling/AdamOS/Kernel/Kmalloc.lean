import AdamOS.Lib.Layout
import AdamOS.Lib.Transition
import AdamOS.Lib.Word
import Mathlib.Data.List.Perm.Basic

/-! The kernel heap of kmalloc.c: a linked list of block headers inside [HEAP_START, HEAP_END).
A pointer is its address, NULL is 0. The list stands for the chain of `next` pointers, so it
describes the memory as long as no header is written over another one. -/
namespace AdamOS.Kmalloc
open AdamOS.Layout AdamOS.Word

def heapStart : Nat := 0x100000
def heapSize : Nat := 0x300000
def heapEnd : Nat := heapStart + heapSize
/- sizeof(heap_block_header_t): size, is_free with padding, next. -/
def headerSize : Nat := 12

structure HeapBlock where
  addr : Nat
  size : Nat
  isFree : Bool
deriving DecidableEq, Repr

namespace HeapBlock
/- heap_ptr + 1 -/
def payload (b : HeapBlock) : Nat := b.addr + headerSize
def stop (b : HeapBlock) : Nat := b.addr + headerSize + b.size
end HeapBlock

def initHeap : List HeapBlock := [⟨heapStart, heapSize - headerSize, true⟩]

def splitBlock (b : HeapBlock) (size : Nat) : List HeapBlock :=
  let remainingSize := sub32 (sub32 b.size size) headerSize
  if remainingSize < headerSize * 3 then [{ b with size := size, isFree := false }]
  else
    [{ b with size := size, isFree := false },
      { addr := wrap (b.addr + headerSize + size), size := remainingSize, isFree := true }]

def coalesceFrom (prev : HeapBlock) : List HeapBlock → List HeapBlock
  | [] => [prev]
  | b :: bs =>
    if prev.isFree && b.isFree then
      coalesceFrom { prev with size := wrap (prev.size + (b.size + headerSize)) } bs
    else prev :: coalesceFrom b bs

def coalesceBlocks : List HeapBlock → List HeapBlock
  | [] => []
  | b :: bs => coalesceFrom b bs

def fits (size : Nat) (b : HeapBlock) : Bool := b.isFree && decide (b.size > size)

def kmallocWalk (size : Nat) : List HeapBlock → Option (Nat × List HeapBlock)
  | [] => none
  | b :: bs =>
    if fits size b then some (b.payload, splitBlock b size ++ bs)
    else (kmallocWalk size bs).map fun (p, bs) => (p, b :: bs)

def kmalloc (size : Nat) (h : List HeapBlock) : Nat × List HeapBlock :=
  if size = 0 then (0, h) else (kmallocWalk size h).getD (0, h)

def kfree (ptr : Nat) (h : List HeapBlock) : List HeapBlock :=
  if ptr = 0 then h
  else coalesceBlocks (h.map fun b =>
    if b.addr = sub32 ptr headerSize then { b with isFree := true } else b)

/-! Runs of kmalloc and kfree, with the requests that are still live. -/

inductive HeapCall where
  | kmalloc (size : Nat)
  | kfree (ptr : Nat)

structure HeapState where
  blocks : List HeapBlock
  /- the returned pointer and the requested size of each allocation not yet freed -/
  live : List (Nat × Nat)
deriving DecidableEq, Repr

def start : HeapState := ⟨initHeap, []⟩

/- A kfree of a pointer that kmalloc did not return, or that was freed before, is no call of
   the interface. -/
def heapStep (s : HeapState) : HeapCall → Option HeapState
  | .kmalloc size =>
    let r := kmalloc size s.blocks
    some ⟨r.2, if r.1 = 0 then s.live else (r.1, size) :: s.live⟩
  | .kfree ptr =>
    if ptr = 0 ∨ ptr ∈ s.live.map Prod.fst then
      some ⟨kfree ptr s.blocks, s.live.filter fun a => a.1 ≠ ptr⟩
    else none

def Apart (a m b n : Nat) : Prop := a + m ≤ b ∨ b + n ≤ a

/- Live allocations overlap neither each other nor a header, and none leaves the heap. -/
structure HeapSafe (s : HeapState) : Prop where
  disjoint : s.live.Pairwise fun a b => Apart a.1 a.2 b.1 b.2
  headers : ∀ a ∈ s.live, ∀ b ∈ s.blocks, Apart a.1 a.2 b.addr headerSize
  inside : ∀ a ∈ s.live, heapStart ≤ a.1 ∧ a.1 + a.2 ≤ heapEnd

/- The block kmalloc finds has room for the request and for the header of a split. -/
def SplitFits (s : HeapState) : HeapCall → Prop
  | .kmalloc size => 0 < size → ∀ b ∈ s.blocks.find? (fits size), size + headerSize ≤ b.size
  | .kfree _ => True

instance (s : HeapState) : (c : HeapCall) → Decidable (SplitFits s c)
  | .kmalloc size => inferInstanceAs (Decidable (0 < size → ∀ b ∈ s.blocks.find? (fits size), _))
  | .kfree _ => .isTrue trivial

end AdamOS.Kmalloc
