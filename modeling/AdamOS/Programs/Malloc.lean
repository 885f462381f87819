import AdamOS.Files.Directory
import AdamOS.Kernel.KmallocSafety
import AdamOS.Lib.Linked

/-! malloc.c of the user library: a list of block headers in memory that sys_sbrk gives by the page.
malloc takes the first block that is free or not larger than the request. -/
namespace AdamOS.Malloc
open AdamOS.Fat16 AdamOS.Kmalloc AdamOS.Layout AdamOS.Linked AdamOS.Transition AdamOS.Word

def pageSize : Nat := 4096

abbrev Memory := Nat → UInt8

def store8 (a : Nat) (v : UInt8) (m : Memory) : Memory := fun i => if i = a then v else m i

def store32 (a v : Nat) (m : Memory) : Memory :=
  fun i => if a ≤ i ∧ i < a + 4 then byteOf v (i - a) else m i

/- The fields of heap_block_header_t: is_free at 0, size at 4, next at 8. -/
def isFree (m : Memory) (p : Nat) : Bool := m p != 0
def sizeOf (m : Memory) (p : Nat) : Nat := le32 m (p + 4)
def nextOf (m : Memory) (p : Nat) : Nat := le32 m (p + 8)

structure Heap where
  memory : Memory
  head : Nat
  /- where the memory that sys_sbrk returns next begins -/
  brk : Nat

/- sys_sbrk(PAGE_SIZE) returns fresh memory that follows the memory it returned before; none when the
   addresses are used up. -/
def sbrk (h : Heap) : Option (Nat × Heap) :=
  if h.brk + pageSize < 4294967296 then some (h.brk, { h with brk := h.brk + pageSize }) else none

def createHeapBlock (h : Heap) : Option (Nat × Heap) :=
  (sbrk h).map fun (block, h) =>
    let m := store8 block 1 h.memory
    let m := store32 (block + 4) (pageSize - headerSize) m
    (block, { h with memory := store32 (block + 8) 0 m })

def splitBlock (ptr size : Nat) (m : Memory) : Memory :=
  let remainingSize := sub32 (sub32 (sizeOf m ptr) size) headerSize
  if remainingSize < headerSize * 3 then store8 ptr 0 m
  else
    let newBlock := wrap (ptr + headerSize + size)
    let m := store32 (newBlock + 4) remainingSize m
    let m := store8 newBlock 1 m
    let m := store32 (newBlock + 8) (nextOf m ptr) m
    let m := store32 (ptr + 4) size m
    let m := store8 ptr 0 m
    store32 (ptr + 8) newBlock m

/- The while loop goes on over blocks in use that are larger than the request. -/
def stopsAt (m : Memory) (size p : Nat) : Bool := isFree m p || sizeOf m p ≤ size

/- tail and current after the loop. There are fewer than 2^32 headers on a list that ends. -/
def search (m : Memory) (size head : Nat) : Option (Nat × Nat) :=
  walk (nextOf m) (stopsAt m size) 4294967296 0 head

/- none: the loop does not end, or sys_sbrk has no memory. -/
def malloc (size : Nat) (h : Heap) : Option (Nat × Heap) :=
  (if h.head = 0 then (createHeapBlock h).map fun (block, h) => { h with head := block }
    else some h).bind fun h =>
  (search h.memory size h.head).bind fun (tail, current) =>
  (if current = 0 then
    (createHeapBlock h).map fun (block, h) =>
      let m := store32 (tail + 8) block h.memory
      (nextOf m tail, { h with memory := m })
    else some (current, h)).map fun (current, h) =>
  (current + headerSize, { h with memory := splitBlock current size h.memory })

def free (ptr : Nat) (h : Heap) : Heap :=
  if ptr = 0 then h else { h with memory := store8 (sub32 ptr headerSize) 1 h.memory }

/-! ### Runs of a program -/

inductive Call where
  | malloc (size : UInt32)
  | free (ptr : Nat)
  /- an assignment of the program -/
  | store (a : Nat) (v : UInt8)

structure Program where
  heap : Heap
  /- the returned pointer and the requested size of each allocation not yet freed -/
  live : List (Nat × Nat)

def Within (a : Nat) (r : Nat × Nat) : Prop := r.1 ≤ a ∧ a < r.1 + r.2

instance (a : Nat) (r : Nat × Nat) : Decidable (Within a r) := inferInstanceAs (Decidable (_ ∧ _))

/- A program frees NULL and what is live, and stores to what is live. -/
def step (s : Program) : Call → Option Program
  | .malloc size => (malloc size.toNat s.heap).map fun (p, h) => ⟨h, (p, size.toNat) :: s.live⟩
  | .free ptr =>
    if ptr = 0 ∨ ptr ∈ s.live.map Prod.fst then
      some ⟨free ptr s.heap, s.live.filter fun a => a.1 ≠ ptr⟩
    else none
  | .store a v =>
    if ∃ r ∈ s.live, Within a r then
      some { s with heap := { s.heap with memory := store8 a v s.heap.memory } }
    else none

/- heap_head_ptr is NULL; the memory from base on has not been asked for. -/
def start (memory : Memory) (base : UInt32) : Program := ⟨⟨memory, 0, base.toNat⟩, []⟩

/- Every live pointer designates a block of at least the requested size in memory from sys_sbrk, and
   live allocations overlap neither each other nor a header. -/
structure Safe (base : UInt32) (s : Program) : Prop where
  block : ∀ a ∈ s.live, ∃ b, Reachable (nextOf s.heap.memory) s.heap.head b ∧
    a.1 = b + headerSize ∧ a.2 ≤ sizeOf s.heap.memory b
  inside : ∀ a ∈ s.live, base.toNat ≤ a.1 ∧ a.1 + a.2 ≤ s.heap.brk
  disjoint : s.live.Pairwise fun a b => Apart a.1 a.2 b.1 b.2
  headers : ∀ a ∈ s.live, ∀ b, Reachable (nextOf s.heap.memory) s.heap.head b →
    Apart a.1 a.2 b headerSize

/- The block at which the search stops is free and has room for the request and the header of a
   split; if it stops at none, a page has. -/
def SplitFits (s : Program) : Call → Prop
  | .malloc size => ∀ r ∈ search s.heap.memory size.toNat s.heap.head,
      if r.2 = 0 then size.toNat + headerSize ≤ pageSize - headerSize
      else isFree s.heap.memory r.2 = true ∧ size.toNat + headerSize ≤ sizeOf s.heap.memory r.2
  | .free _ => True
  | .store .. => True

instance (s : Program) : (c : Call) → Decidable (SplitFits s c)
  | .malloc _ => inferInstanceAs (Decidable (∀ r ∈ search _ _ _, _))
  | .free _ => .isTrue trivial
  | .store .. => .isTrue trivial

/-! ### Words in memory -/

variable {m m' : Memory} {a c p size v : Nat} {base : Nat} {b : HeapBlock} {bs : List HeapBlock}
  {h h' : Heap}

theorem store8_self (a : Nat) (v : UInt8) (m : Memory) : store8 a v m a = v := if_pos rfl

theorem store8_ne {v : UInt8} (h : a ≠ c) : store8 c v m a = m a := if_neg h

theorem store32_out (h : a < c ∨ c + 4 ≤ a) : store32 c v m a = m a := if_neg (by omega)

theorem le32_congr (h : ∀ i, a ≤ i → i < a + 4 → m' i = m i) : le32 m' a = le32 m a := by
  unfold le32 le16
  rw [h a (by omega) (by omega), h (a + 1) (by omega) (by omega), h (a + 2) (by omega) (by omega),
    h (a + 2 + 1) (by omega) (by omega)]

theorem le32_lt (m : Memory) (a : Nat) : le32 m a < 4294967296 := by
  have hlow := le16_lt m a
  have hhigh := le16_lt m (a + 2)
  unfold le32
  omega

theorem le32_store32 (hv : v < 4294967296) : le32 (store32 a v m) a = v := by
  have hbyte : ∀ k < 4, store32 a v m (a + k) = byteOf v k := fun k hk => by
    unfold store32
    rw [if_pos (by omega), Nat.add_sub_cancel_left]
  exact le32_byteOf hv (hbyte 0 (by decide)) (hbyte 1 (by decide)) (hbyte 2 (by decide))
    (hbyte 3 (by decide))

theorem le32_store32_out (h : a + 4 ≤ c ∨ c + 4 ≤ a) : le32 (store32 c v m) a = le32 m a :=
  le32_congr fun _ _ _ => store32_out (by omega)

theorem le32_store8_out {v : UInt8} (h : c < a ∨ a + 4 ≤ c) : le32 (store8 c v m) a = le32 m a :=
  le32_congr fun _ _ _ => store8_ne (by omega)

/-! ### Headers -/

def HasHeader (m : Memory) (b : HeapBlock) : Prop :=
  isFree m b.addr = b.isFree ∧ sizeOf m b.addr = b.size

abbrev Blocks (m : Memory) : Nat → List HeapBlock → Nat → Prop :=
  Segment HeapBlock.addr (nextOf m) (HasHeader m)

def SameHeader (m m' : Memory) (p : Nat) : Prop := ∀ i, p ≤ i → i < p + headerSize → m' i = m i

theorem SameHeader.next (hs : SameHeader m m' p) : nextOf m' p = nextOf m p :=
  le32_congr fun i _ _ => hs i (by omega) (by unfold headerSize; omega)

theorem SameHeader.hasHeader (hs : SameHeader m m' b.addr) (hb : HasHeader m b) : HasHeader m' b := by
  refine ⟨?_, ?_⟩
  · rw [← hb.1, isFree, isFree, hs b.addr (Nat.le_refl _) (by unfold headerSize; omega)]
  · rw [← hb.2]
    exact le32_congr fun i _ _ => hs i (by omega) (by unfold headerSize; omega)

theorem blocks_frame {q : Nat} (hb : Blocks m p bs q) (hs : ∀ b ∈ bs, SameHeader m m' b.addr) :
    Blocks m' p bs q :=
  hb.congr fun b hmem => ⟨(hs b hmem).next, (hs b hmem).hasHeader⟩

def newPage (brk : Nat) : HeapBlock := ⟨brk, pageSize - headerSize, true⟩

theorem createHeapBlock_spec (hc : createHeapBlock h = some (p, h')) :
    p = h.brk ∧ h'.brk = h.brk + pageSize ∧ h'.head = h.head ∧ h'.brk < 4294967296 ∧
      HasHeader h'.memory (newPage h.brk) ∧ nextOf h'.memory h.brk = 0 ∧
      ∀ i, i < h.brk ∨ h.brk + headerSize ≤ i → h'.memory i = h.memory i := by
  obtain ⟨⟨block, h1⟩, hsbrk, he⟩ := Option.map_eq_some_iff.mp hc
  unfold sbrk at hsbrk
  split at hsbrk
  · rename_i hroom
    cases hsbrk
    cases he
    refine ⟨rfl, rfl, rfl, hroom, ⟨?_, ?_⟩, ?_, fun i hi => ?_⟩
    · unfold isFree newPage
      dsimp only
      rw [store32_out (by omega), store32_out (by omega), store8_self]
      rfl
    · unfold sizeOf newPage
      dsimp only
      rw [le32_store32_out (by omega), le32_store32 (by decide)]
    · unfold nextOf
      rw [le32_store32 (by decide)]
    · unfold headerSize at hi
      dsimp only
      rw [store32_out (by omega), store32_out (by omega), store8_ne (by omega)]
  · cases hsbrk

def splitOf (size : Nat) (b : HeapBlock) : List HeapBlock :=
  if b.size - size - headerSize < headerSize * 3 then [{ b with isFree := false }]
  else [{ b with size := size, isFree := false },
    ⟨b.addr + headerSize + size, b.size - size - headerSize, true⟩]

def writeSplit (ptr size newBlock remainingSize : Nat) (m : Memory) : Memory :=
  let m := store32 (newBlock + 4) remainingSize m
  let m := store8 newBlock 1 m
  let m := store32 (newBlock + 8) (nextOf m ptr) m
  let m := store32 (ptr + 4) size m
  let m := store8 ptr 0 m
  store32 (ptr + 8) newBlock m

/-- With the new header behind the old one the fields are as they were stored. -/
theorem writeSplit_spec {n r : Nat} (m : Memory) (hn : p + headerSize ≤ n) (hn' : n < 4294967296)
    (hsize : size < 4294967296) (hr : r < 4294967296) :
    HasHeader (writeSplit p size n r m) ⟨p, size, false⟩ ∧
      HasHeader (writeSplit p size n r m) ⟨n, r, true⟩ ∧
      nextOf (writeSplit p size n r m) p = n ∧
      nextOf (writeSplit p size n r m) n = nextOf m p ∧
      ∀ i, i < p ∨ p + headerSize ≤ i → i < n ∨ n + headerSize ≤ i →
        writeSplit p size n r m i = m i := by
  unfold headerSize at *
  have hnext := le32_lt m (p + 8)
  have hread : nextOf (store8 n 1 (store32 (n + 4) r m)) p = nextOf m p := by
    unfold nextOf
    rw [le32_store8_out (by omega), le32_store32_out (by omega)]
  unfold writeSplit
  dsimp only
  rw [hread]
  refine ⟨⟨?_, ?_⟩, ⟨?_, ?_⟩, le32_store32 hn', ?_, fun i hp hi => ?_⟩
  · unfold isFree
    dsimp only
    rw [store32_out (by omega), store8_self]
    rfl
  · unfold sizeOf
    dsimp only
    rw [le32_store32_out (by omega), le32_store8_out (by omega), le32_store32 hsize]
  · unfold isFree
    dsimp only
    rw [store32_out (by omega), store8_ne (by omega), store32_out (by omega), store32_out (by omega),
      store8_self]
    rfl
  · unfold sizeOf
    dsimp only
    rw [le32_store32_out (by omega), le32_store8_out (by omega), le32_store32_out (by omega),
      le32_store32_out (by omega), le32_store8_out (by omega), le32_store32 hr]
  · unfold nextOf
    rw [le32_store32_out (by omega), le32_store8_out (by omega), le32_store32_out (by omega),
      le32_store32 hnext]
  · rw [store32_out (by omega), store8_ne (by omega), store32_out (by omega), store32_out (by omega),
      store8_ne (by omega), store32_out (by omega)]

theorem splitBlock_eq (hb : sizeOf m b.addr = b.size) (hfit : size + headerSize ≤ b.size)
    (hend : b.stop ≤ 4294967296) : splitBlock b.addr size m =
      if b.size - size - headerSize < headerSize * 3 then store8 b.addr 0 m
      else writeSplit b.addr size (b.addr + headerSize + size) (b.size - size - headerSize) m := by
  unfold HeapBlock.stop at hend
  have hheader : headerSize = 12 := rfl
  have hrem : sub32 (sub32 (sizeOf m b.addr) size) headerSize = b.size - size - headerSize := by
    rw [hb, sub32_eq (a := b.size) (by omega) (by omega), sub32_eq (by omega) (by omega)]
  unfold splitBlock writeSplit
  rw [hrem, wrap_eq (show b.addr + headerSize + size < 4294967296 by omega)]

/-- A block with room for the request and a header is split inside itself. -/
theorem splitBlock_spec (hb : HasHeader m b) (hfit : size + headerSize ≤ b.size)
    (hend : b.stop ≤ 4294967296) (h0 : b.addr ≠ 0) :
    Blocks (splitBlock b.addr size m) b.addr (splitOf size b) (nextOf m b.addr) ∧
      ∀ i, i < b.addr ∨ b.stop ≤ i → splitBlock b.addr size m i = m i := by
  rw [splitBlock_eq hb.2 hfit hend]
  unfold HeapBlock.stop headerSize at *
  unfold splitOf headerSize
  split
  · have hfree : isFree (store8 b.addr 0 m) b.addr = false := by
      rw [isFree, store8_self]
      rfl
    have hsize : sizeOf (store8 b.addr 0 m) b.addr = b.size :=
      (le32_store8_out (by omega)).trans hb.2
    have hnext : nextOf (store8 b.addr 0 m) b.addr = nextOf m b.addr := le32_store8_out (by omega)
    exact ⟨⟨rfl, h0, ⟨hfree, hsize⟩, hnext⟩, fun i hi => store8_ne (by omega)⟩
  · obtain ⟨hold, hnew, hlink, hnext, hrest⟩ := @writeSplit_spec b.addr size (b.addr + 12 + size)
      (b.size - size - 12) m (by unfold headerSize; omega) (by omega) (by omega) (by omega)
    generalize writeSplit b.addr size (b.addr + 12 + size) (b.size - size - 12) m = m' at *
    refine ⟨⟨rfl, h0, hold, ?_⟩, fun i hi => ?_⟩
    · rw [hlink]
      exact ⟨rfl, by omega, hnew, hnext⟩
    · exact hrest i (by unfold headerSize; omega) (by unfold headerSize; omega)

/-! ### The list -/

structure Represents (base : Nat) (h : Heap) (bs : List HeapBlock) : Prop where
  chain : Blocks h.memory h.head bs 0
  laid : Laid HeapBlock.addr HeapBlock.stop base h.brk bs
  bound : h.brk < 4294967296

/-- Blocks of one layout with one address are the same block. -/
theorem Represents.inj (hr : Represents base h bs) {b c : HeapBlock} (hb : b ∈ bs) (hc : c ∈ bs)
    (he : b.addr = c.addr) : b = c := by
  rcases hr.laid.apart hb hc with h | h | h
  · exact h
  · unfold HeapBlock.stop headerSize at h
    omega
  · unfold HeapBlock.stop headerSize at h
    omega

theorem Represents.sameHeader (hr : Represents base h bs) {b c : HeapBlock} (hb : b ∈ bs)
    (hc : c ∈ bs) (hne : c ≠ b) (hm : ∀ i, i < b.addr ∨ b.stop ≤ i → m' i = h.memory i) :
    SameHeader h.memory m' c.addr := by
  intro i hlo hhi
  refine hm i ?_
  unfold HeapBlock.stop
  unfold headerSize at *
  rcases hr.laid.apart hb hc with he | hbc | hcb
  · exact absurd he.symm hne
  · unfold HeapBlock.stop headerSize at hbc
    omega
  · unfold HeapBlock.stop headerSize at hcb
    omega

theorem splitOf_laid {lo : Nat} (hlo : lo ≤ b.addr) (hfit : size + headerSize ≤ b.size) :
    Laid HeapBlock.addr HeapBlock.stop lo b.stop (splitOf size b) := by
  unfold splitOf
  split
  · exact ⟨hlo, by unfold HeapBlock.stop headerSize; omega, Nat.le_refl _⟩
  · refine ⟨hlo, ?_, Nat.le_refl _, ?_, ?_⟩
    · unfold HeapBlock.stop
      omega
    · unfold HeapBlock.stop
      omega
    · show _ ≤ b.stop
      unfold HeapBlock.stop
      dsimp only
      omega

/-- split_block on a block of the list with room for the request and a header. -/
theorem Represents.split {pre post : List HeapBlock} (hr : Represents base h (pre ++ b :: post))
    (hfit : size + headerSize ≤ b.size) :
    Represents base { h with memory := splitBlock b.addr size h.memory }
      (pre ++ (splitOf size b ++ post)) := by
  obtain ⟨r, hpre, rfl, h0, hb, hpost⟩ := segment_append.mp hr.chain
  obtain ⟨mid, hlpre, hlo, -, hlpost⟩ := laid_append.mp hr.laid
  have hmem : b ∈ pre ++ b :: post := by simp
  have hend : b.stop ≤ 4294967296 := 
    Nat.le_trans (hr.laid.bounds hmem).2.2 (Nat.le_of_lt hr.bound)
  obtain ⟨hsplit, hrest⟩ := splitBlock_spec hb hfit hend h0
  obtain ⟨-, htail, hcross⟩ := List.pairwise_append.mp hr.laid.pairwise
  have hself : ¬b.stop ≤ b.addr := by
    unfold HeapBlock.stop headerSize
    omega
  have hpre' : Blocks (splitBlock b.addr size h.memory) h.head pre b.addr :=
    blocks_frame hpre fun c hc => by
      refine hr.sameHeader hmem (List.mem_append_left _ hc) (fun he => hself ?_) hrest
      exact he ▸ hcross c hc b List.mem_cons_self
  have hpost' : Blocks (splitBlock b.addr size h.memory) (nextOf h.memory b.addr) post 0 :=
    blocks_frame hpost fun c hc => by
      refine hr.sameHeader hmem (List.mem_append_right _ (List.mem_cons_of_mem _ hc))
        (fun he => hself ?_) hrest
      exact he ▸ (List.pairwise_cons.mp htail).1 c hc
  exact ⟨segment_append.mpr ⟨_, hpre', segment_append.mpr ⟨_, hsplit, hpost'⟩⟩,
    laid_append.mpr ⟨mid, hlpre, laid_append.mpr ⟨_, splitOf_laid hlo hfit, hlpost⟩⟩, hr.bound⟩

theorem Represents.firstPage (hr : Represents base h []) (hbase : 0 < base)
    (hc : createHeapBlock h = some (p, h')) :
    Represents base { h' with head := p } [newPage h.brk] := by
  obtain ⟨rfl, hbrk, -, hbound, hheader, hnext, -⟩ := createHeapBlock_spec hc
  have hlo : base ≤ h.brk := hr.laid
  refine ⟨⟨rfl, ?_, hheader, hnext⟩, ⟨hlo, ?_, ?_⟩, hbound⟩
  · dsimp only
    omega
  · unfold HeapBlock.stop
    omega
  · show _ ≤ h'.brk
    rw [hbrk]
    unfold HeapBlock.stop newPage pageSize headerSize
    exact Nat.le_refl _

/-- A page that follows the others is linked to the last block. -/
theorem Represents.morePage {t : HeapBlock} {init : List HeapBlock}
    (hr : Represents base h (init ++ [t])) (hc : createHeapBlock h = some (p, h')) :
    nextOf (store32 (t.addr + 8) p h'.memory) t.addr = h.brk ∧
      Represents base { h' with memory := store32 (t.addr + 8) p h'.memory }
        (init ++ [t] ++ [newPage h.brk]) := by
  obtain ⟨rfl, hbrk, hhead, hbound, hheader, hnext, hrest⟩ := createHeapBlock_spec hc
  obtain ⟨r, hinit, rfl, h0, ht, -⟩ := segment_append.mp hr.chain
  have hmem : t ∈ init ++ [t] := by simp
  have hbrk' : h.brk < 4294967296 := by
    have hpage : pageSize = 4096 := rfl
    omega
  have hlink : nextOf (store32 (t.addr + 8) h.brk h'.memory) t.addr = h.brk := le32_store32 hbrk'
  have hbelow : ∀ c ∈ init ++ [t], c.addr + headerSize ≤ h.brk := fun c hc => by
    have hstop := (hr.laid.bounds hc).2.2
    unfold HeapBlock.stop at hstop
    omega
  have hold : ∀ i, i < t.addr + 8 ∨ t.addr + 12 ≤ i → i < h.brk →
      store32 (t.addr + 8) h.brk h'.memory i = h.memory i := fun i hi hlt => by
    rw [store32_out (by omega), hrest i (.inl hlt)]
  have hinit' : Blocks (store32 (t.addr + 8) h.brk h'.memory) h'.head init t.addr := by
    rw [hhead]
    refine blocks_frame hinit fun c hc i hlo hhi => hold i (.inl ?_) ?_
    · have hstop := (List.pairwise_append.mp hr.laid.pairwise).2.2 c hc t List.mem_cons_self
      unfold HeapBlock.stop at hstop
      omega
    · have := hbelow c (List.mem_append_left _ hc)
      omega
  have ht' : HasHeader (store32 (t.addr + 8) h.brk h'.memory) t := by
    have hend := hbelow t hmem
    unfold headerSize at hend
    refine ⟨?_, ?_⟩
    · rw [← ht.1, isFree, isFree, hold t.addr (.inl (by omega)) (by omega)]
    · rw [← ht.2]
      exact le32_congr fun i _ _ => hold i (.inl (by omega)) (by omega)
  have hnew : SameHeader h'.memory (store32 (t.addr + 8) h.brk h'.memory) (newPage h.brk).addr :=
    fun i hlo _ => by
      have hend := hbelow t hmem
      unfold newPage headerSize at *
      exact store32_out (.inr (by dsimp only at hlo; omega))
  have hnew0 : h.brk ≠ 0 := by
    have hend := hbelow t hmem
    unfold headerSize at hend
    omega
  refine ⟨hlink, segment_append.mpr ⟨h.brk, segment_append.mpr ⟨t.addr, hinit', ?_⟩, ?_⟩, ?_, hbound⟩
  · exact ⟨rfl, h0, ht', hlink⟩
  · exact ⟨rfl, hnew0, hnew.hasHeader hheader, hnew.next.trans hnext⟩
  · refine laid_append.mpr ⟨h.brk, hr.laid, Nat.le_refl _, ?_, ?_⟩
    · unfold HeapBlock.stop
      omega
    · show _ ≤ h'.brk
      rw [hbrk]
      unfold HeapBlock.stop newPage pageSize headerSize
      exact Nat.le_refl _

/-! ### malloc and free -/

/-- The search ends, at a block that stops it or behind the last one. -/
theorem Represents.search (hr : Represents base h bs) (hbase : 0 < base) (size : Nat) :
    (∃ pre b post, bs = pre ++ b :: post ∧
        Malloc.search h.memory size h.head = some ((pre.map HeapBlock.addr).getLastD 0, b.addr)) ∨
      (∀ b ∈ bs, stopsAt h.memory size b.addr = false) ∧
        Malloc.search h.memory size h.head = some ((bs.map HeapBlock.addr).getLastD 0, 0) := by
  have hlen : bs.length ≤ h.brk - base := hr.laid.length_le fun b => by
    unfold HeapBlock.stop headerSize
    omega
  have hbound := hr.bound
  rcases @Segment.walk _ _ _ _ _ _ (stopsAt h.memory size) 4294967296 0 hr.chain (by omega) with
    ⟨pre, b, post, he, -, hw⟩ | hnone
  · exact .inl ⟨pre, b, post, he, hw⟩
  · exact .inr hnone

/- What malloc found: a free block of the list, to which a page may have been added, with room for
   the request and a header. -/
structure Found (base size : Nat) (h h' : Heap) (bs : List HeapBlock) (p : Nat)
    (pre : List HeapBlock) (b : HeapBlock) (post : List HeapBlock) : Prop where
  list : pre ++ b :: post = bs ∨ pre ++ b :: post = bs ++ [newPage h.brk]
  inj : ∀ c ∈ pre ++ b :: post, c.addr = b.addr → c = b
  free : b.isFree = true
  fits : size + headerSize ≤ b.size
  pointer : p = b.payload
  represents : Represents base h' (pre ++ (splitOf size b ++ post))

theorem Represents.found {pre post : List HeapBlock} {h1 : Heap}
    (hr : Represents base h1 (pre ++ b :: post)) (hfree : b.isFree = true)
    (hfit : size + headerSize ≤ b.size)
    (hlist : pre ++ b :: post = bs ∨ pre ++ b :: post = bs ++ [newPage h.brk]) :
    Found base size h { h1 with memory := splitBlock b.addr size h1.memory } bs b.payload pre b post :=
  ⟨hlist, fun _ hc he => hr.inj hc (by simp) he, hfree, hfit, rfl, hr.split hfit⟩

theorem malloc_stopped {tail current : Nat} (hhead : h.head ≠ 0)
    (hs : Malloc.search h.memory size h.head = some (tail, current)) (hc : current ≠ 0) :
    malloc size h =
      some (current + headerSize, { h with memory := splitBlock current size h.memory }) := by
  unfold malloc
  rw [if_neg hhead, Option.bind_some, hs, Option.bind_some]
  dsimp only
  rw [if_neg hc, Option.map_some]

theorem malloc_extended {tail : Nat} (hhead : h.head ≠ 0)
    (hs : Malloc.search h.memory size h.head = some (tail, 0)) :
    malloc size h = (createHeapBlock h).map fun (block, h1) =>
      let m := store32 (tail + 8) block h1.memory
      (nextOf m tail + headerSize, { h1 with memory := splitBlock (nextOf m tail) size m }) := by
  unfold malloc
  rw [if_neg hhead, Option.bind_some, hs, Option.bind_some]
  dsimp only
  rw [if_pos rfl, Option.map_map]
  rfl

/-- The first call adds a page and goes on as the others do. -/
theorem malloc_opened (hhead : h.head = 0) (h0 : ∀ r ∈ createHeapBlock h, r.1 ≠ 0) :
    malloc size h = (createHeapBlock h).bind fun (block, h1) => malloc size { h1 with head := block } := by
  rw [malloc, if_pos hhead]
  cases hc : createHeapBlock h with
  | none => rfl
  | some r =>
    change _ = malloc size { r.2 with head := r.1 }
    rw [malloc, if_neg (h0 r hc)]
    rfl

theorem Represents.malloc_listed {pre post : List HeapBlock} (hr : Represents base h (pre ++ b :: post))
    (hs : Malloc.search h.memory size h.head = some ((pre.map HeapBlock.addr).getLastD 0, b.addr))
    (hg : isFree h.memory b.addr = true ∧ size + headerSize ≤ sizeOf h.memory b.addr)
    (hm : malloc size h = some (p, h')) : Found base size h h' (pre ++ b :: post) p pre b post := by
  obtain ⟨r, hpre, rfl, h0, hb, -⟩ := segment_append.mp hr.chain
  have hhead : h.head ≠ 0 := by
    cases pre with
    | nil => exact hpre ▸ h0
    | cons c pre => exact hpre.2.1
  rw [malloc_stopped hhead hs h0] at hm
  cases hm
  rw [hb.1, hb.2] at hg
  exact hr.found hg.1 hg.2 (.inl rfl)

theorem Represents.malloc_first (hr : Represents base h []) (hbase : 0 < base)
    (hfit : size + headerSize ≤ pageSize - headerSize) (hm : malloc size h = some (p, h')) :
    Found base size h h' [] p [] (newPage h.brk) [] := by
  have hopen : ∀ r ∈ createHeapBlock h, Represents base { r.2 with head := r.1 } [newPage h.brk] :=
    fun _ hc => hr.firstPage hbase hc
  rw [malloc_opened hr.chain fun r hc => (hopen r hc).chain.2.1] at hm
  obtain ⟨⟨block, h1⟩, hcreate, hm⟩ := Option.bind_eq_some_iff.mp hm
  have hpage := hopen _ hcreate
  have hheader := hpage.chain.2.2.1
  rcases hpage.search hbase size with ⟨pre, b, post, he, hfound⟩ | ⟨hall, -⟩
  · obtain ⟨rfl, rfl, rfl⟩ : pre = [] ∧ newPage h.brk = b ∧ post = [] := by
      cases pre with
      | nil => exact ⟨rfl, (List.cons.inj he).1, (List.cons.inj he).2.symm⟩
      | cons c pre => exact absurd (List.cons.inj he).2.symm (by simp)
    have hlisted : Found base size { h1 with head := block } h' ([] ++ [newPage h.brk]) p []
        (newPage h.brk) [] := hpage.malloc_listed hfound ⟨hheader.1, hheader.2.symm ▸ hfit⟩ hm
    exact { hlisted with list := .inr rfl }
  · have hstop := hall _ List.mem_cons_self
    unfold stopsAt at hstop
    rw [hheader.1] at hstop
    exact absurd hstop (by simp [newPage])

theorem Represents.malloc_new {t : HeapBlock} {init : List HeapBlock}
    (hr : Represents base h (init ++ [t])) (hhead : h.head ≠ 0)
    (hs : Malloc.search h.memory size h.head = some (t.addr, 0))
    (hfit : size + headerSize ≤ pageSize - headerSize) (hm : malloc size h = some (p, h')) :
    Found base size h h' (init ++ [t]) p (init ++ [t]) (newPage h.brk) [] := by
  rw [malloc_extended hhead hs] at hm
  obtain ⟨⟨block, h1⟩, hcreate, he⟩ := Option.map_eq_some_iff.mp hm
  obtain ⟨hlink, hmore⟩ := hr.morePage hcreate
  dsimp only at he
  rw [hlink] at he
  cases he
  exact hmore.found rfl hfit (.inr rfl)

theorem Represents.malloc (hr : Represents base h bs) (hbase : 0 < base)
    (hg : ∀ r ∈ Malloc.search h.memory size h.head,
      if r.2 = 0 then size + headerSize ≤ pageSize - headerSize
      else isFree h.memory r.2 = true ∧ size + headerSize ≤ sizeOf h.memory r.2)
    (hm : malloc size h = some (p, h')) :
    ∃ pre b post, Found base size h h' bs p pre b post := by
  rcases hr.search hbase size with ⟨pre, b, post, rfl, hfound⟩ | ⟨-, hnone⟩
  · obtain ⟨r, -, rfl, h0, -, -⟩ := segment_append.mp hr.chain
    have hroom := hg _ hfound
    rw [if_neg h0] at hroom
    exact ⟨pre, b, post, hr.malloc_listed hfound hroom hm⟩
  · have hroom := hg _ hnone
    rw [if_pos rfl] at hroom
    rcases List.eq_nil_or_concat bs with rfl | ⟨init, t, rfl⟩
    · exact ⟨[], newPage h.brk, [], hr.malloc_first hbase hroom hm⟩
    · rw [List.concat_eq_append] at hr hnone ⊢
      have hhead : h.head ≠ 0 := by
        obtain ⟨r, hinit, rfl, h0, -⟩ := segment_append.mp hr.chain
        cases init with
        | nil => exact hinit ▸ h0
        | cons c init => exact hinit.2.1
      have htail : (List.map HeapBlock.addr (init ++ [t])).getLastD 0 = t.addr := by simp
      rw [htail] at hnone
      exact ⟨init ++ [t], newPage h.brk, [], hr.malloc_new hhead hnone hroom hm⟩

theorem Represents.header (hr : Represents base h bs) (hb : b ∈ bs) :
    sub32 b.payload headerSize = b.addr := by
  have hend := Nat.lt_of_le_of_lt (hr.laid.bounds hb).2.2 hr.bound
  unfold HeapBlock.stop at hend
  unfold HeapBlock.payload
  rw [sub32_eq (Nat.le_add_left ..) (by omega), Nat.add_sub_cancel]

theorem Represents.free (hr : Represents base h bs) (hb : b ∈ bs) :
    Represents base (free b.payload h) (bs.map (release b.payload)) := by
  have hheader : headerSize = 12 := rfl
  have haddr := hr.header hb
  have hne : b.payload ≠ 0 := by
    unfold HeapBlock.payload
    omega
  unfold Malloc.free
  rw [if_neg hne, haddr]
  refine ⟨hr.chain.map fun c hc => ⟨(release_extent _ c).1, ?_, fun hold => ?_⟩,
    hr.laid.map (release_extent _), hr.bound⟩
  · have hout : b.addr < c.addr + 8 ∨ c.addr + 8 + 4 ≤ b.addr := by
      rcases hr.laid.apart hb hc with rfl | hbc | hcb
      · omega
      · unfold HeapBlock.stop at hbc
        omega
      · unfold HeapBlock.stop at hcb
        omega
    exact le32_store8_out hout
  · by_cases he : c = b
    · subst he
      rw [release, if_pos haddr.symm]
      refine ⟨?_, ?_⟩
      · dsimp only
        rw [isFree, store8_self]
        rfl
      · rw [← hold.2]
        exact le32_store8_out (by dsimp only; omega)
    · have hsame : SameHeader h.memory (store8 b.addr 1 h.memory) c.addr :=
        hr.sameHeader hb hc he fun i hi => store8_ne (by unfold HeapBlock.stop at hi; omega)
      rw [release, if_neg fun hca => he (hr.inj hc hb (hca.trans haddr))]
      exact hsame.hasHeader hold

/-- Inside a block, behind its header, memory is the program's. -/
theorem Represents.store (hr : Represents base h bs) (hb : b ∈ bs) (ha : b.payload ≤ a)
    (ha' : a < b.stop) (v : UInt8) : Represents base { h with memory := store8 a v h.memory } bs := by
  refine ⟨blocks_frame hr.chain fun c hc i hlo hhi => store8_ne ?_, hr.laid, hr.bound⟩
  unfold HeapBlock.payload HeapBlock.stop at *
  rcases hr.laid.apart hb hc with rfl | hbc | hcb
  · omega
  · unfold HeapBlock.stop at hbc
    omega
  · unfold HeapBlock.stop at hcb
    omega

/-! ### Runs -/

structure HeapInv (base : Nat) (s : Program) (bs : List HeapBlock) : Prop where
  represents : Represents base s.heap bs
  nodup : (s.live.map Prod.fst).Nodup
  blocks : ∀ a ∈ s.live, ∃ b ∈ bs, b.isFree = false ∧ b.payload = a.1 ∧ a.2 ≤ b.size

theorem splitOf_head (hfit : size + headerSize ≤ b.size) :
    ∃ c ∈ splitOf size b, c.isFree = false ∧ c.payload = b.payload ∧ size ≤ c.size := by
  unfold splitOf
  split
  · exact ⟨_, List.mem_cons_self, rfl, rfl, by dsimp only; omega⟩
  · exact ⟨_, List.mem_cons_self, rfl, rfl, Nat.le_refl _⟩

variable {s t : Program}

theorem HeapInv.malloc (hi : HeapInv base s bs) (hbase : 0 < base) {size : UInt32}
    (hg : SplitFits s (.malloc size)) (hs : step s (.malloc size) = some t) :
    ∃ bs', HeapInv base t bs' := by
  obtain ⟨⟨p, h'⟩, hm, rfl⟩ := Option.map_eq_some_iff.mp hs
  obtain ⟨pre, b, post, hf⟩ := hi.represents.malloc hbase hg hm
  obtain ⟨c, hc, hcused, hcp, hcsize⟩ := splitOf_head hf.fits
  have hmem : ∀ d ∈ bs, d ∈ pre ++ b :: post := fun d hd => by
    rcases hf.list with he | he
    · exact he ▸ hd
    · exact he ▸ List.mem_append_left _ hd
  refine ⟨_, hf.represents, List.nodup_cons.mpr ⟨fun hp => ?_, hi.nodup⟩, fun a ha => ?_⟩
  · -- the pointer of a block in use is not the pointer of a free one
    obtain ⟨a, ha, hap⟩ := List.mem_map.mp hp
    obtain ⟨d, hd, hdused, hdp, -⟩ := hi.blocks a ha
    have haddr : d.addr = b.addr := by
      have hpay : d.payload = b.payload := hdp.trans (hap.trans hf.pointer)
      exact Nat.add_right_cancel hpay
    have hfree := hf.free
    rw [← hf.inj d (hmem d hd) haddr, hdused] at hfree
    cases hfree
  · rcases List.mem_cons.mp ha with rfl | ha
    · exact ⟨c, by simp [hc], hcused, hcp.trans hf.pointer.symm, hcsize⟩
    · obtain ⟨d, hd, hdused, hdp, hdsize⟩ := hi.blocks a ha
      refine ⟨d, ?_, hdused, hdp, hdsize⟩
      rcases List.mem_append.mp (hmem d hd) with hpre | hpost
      · exact List.mem_append_left _ hpre
      · rcases List.mem_cons.mp hpost with rfl | hpost
        · rw [hf.free] at hdused
          cases hdused
        · exact List.mem_append_right _ (List.mem_append_right _ hpost)

theorem HeapInv.free (hi : HeapInv base s bs) {ptr : Nat} (hs : step s (.free ptr) = some t) :
    ∃ bs', HeapInv base t bs' := by
  unfold step at hs
  dsimp only at hs
  split at hs
  · rename_i hlive
    cases hs
    have hnodup : ((s.live.filter fun a => a.1 ≠ ptr).map Prod.fst).Nodup :=
      hi.nodup.sublist (List.filter_sublist.map _)
    rcases hlive with rfl | hlive
    · exact ⟨bs, hi.represents, hnodup, fun a ha => hi.blocks a (List.mem_filter.mp ha).1⟩
    · obtain ⟨a, ha, rfl⟩ := List.mem_map.mp hlive
      obtain ⟨b, hb, -, hp, -⟩ := hi.blocks a ha
      rw [← hp] at hnodup ⊢
      refine ⟨_, hi.represents.free hb, hnodup, fun c hc => ?_⟩
      obtain ⟨hc, hne⟩ := List.mem_filter.mp hc
      obtain ⟨d, hd, hused, hdp, hsize⟩ := hi.blocks c hc
      refine ⟨release b.payload d, List.mem_map_of_mem hd, ?_⟩
      have hkept : release b.payload d = d := by
        refine if_neg fun hda => of_decide_eq_true hne ?_
        rw [hi.represents.header hb] at hda
        rw [← hdp, HeapBlock.payload, HeapBlock.payload, hda]
      rw [hkept]
      exact ⟨hused, hdp, hsize⟩
  · cases hs

theorem HeapInv.store (hi : HeapInv base s bs) {a : Nat} {v : UInt8}
    (hs : step s (.store a v) = some t) : HeapInv base t bs := by
  unfold step at hs
  dsimp only at hs
  split at hs
  · rename_i hlive
    cases hs
    obtain ⟨r, hr, hlo, hhi⟩ := hlive
    obtain ⟨b, hb, -, hp, hsize⟩ := hi.blocks r hr
    refine ⟨hi.represents.store hb (hp ▸ hlo) ?_ v, hi.nodup, hi.blocks⟩
    unfold HeapBlock.payload at hp
    unfold HeapBlock.stop
    omega
  · cases hs

theorem HeapInv.safe {base : UInt32} (hi : HeapInv base.toNat s bs) : Safe base s := by
  have hheader : headerSize = 12 := rfl
  have hr := hi.represents
  refine ⟨fun a ha => ?_, fun a ha => ?_, ?_, fun a ha c hc => ?_⟩
  · obtain ⟨b, hb, -, hp, hsize⟩ := hi.blocks a ha
    exact ⟨b.addr, Segment.reachable hr.chain .first b hb, hp.symm,
      (hr.chain.forall b hb).2 ▸ hsize⟩
  · obtain ⟨b, hb, -, hp, hsize⟩ := hi.blocks a ha
    have hbounds := hr.laid.bounds hb
    unfold HeapBlock.stop HeapBlock.payload at *
    omega
  · refine (List.pairwise_map.mp hi.nodup).imp_of_mem fun {a c} ha hc hne => ?_
    obtain ⟨b, hb, -, hp, hsize⟩ := hi.blocks a ha
    obtain ⟨d, hd, -, hdp, hdsize⟩ := hi.blocks c hc
    unfold HeapBlock.payload at hp hdp
    unfold Apart
    rcases hr.laid.apart hb hd with rfl | hbd | hdb
    · exact absurd (hp.symm.trans hdp) hne
    · unfold HeapBlock.stop at hbd
      omega
    · unfold HeapBlock.stop at hdb
      omega
  · obtain ⟨b, hb, -, hp, hsize⟩ := hi.blocks a ha
    obtain ⟨d, hd, rfl⟩ := hr.chain.of_reachable hc
    unfold HeapBlock.payload at hp
    unfold Apart
    rcases hr.laid.apart hb hd with rfl | hbd | hdb
    · omega
    · unfold HeapBlock.stop at hbd
      omega
    · unfold HeapBlock.stop at hdb
      omega

theorem HeapInv.start (memory : Memory) (base : UInt32) : HeapInv base.toNat (start memory base) [] :=
  ⟨⟨rfl, Nat.le_refl _, base.toNat_lt⟩, .nil, fun _ ha => absurd ha List.not_mem_nil⟩

/-- As long as every search ends at a free block with room for the request and a header, or at the
end while a page has that room, the heap is safe. -/
theorem user_heap_safe {memory : Memory} {base : UInt32} (hbase : base ≠ 0)
    (hr : Reach step SplitFits (start memory base) s) : Safe base s := by
  have hpos : 0 < base.toNat := Nat.pos_of_ne_zero fun h => hbase (UInt32.toNat_inj.mp h)
  obtain ⟨bs, hi⟩ := hr.invariant (fun s => ∃ bs, HeapInv base.toNat s bs) ⟨[], .start memory base⟩
    fun s call t ⟨bs, hi⟩ hg hs => by
      cases call with
      | malloc size => exact hi.malloc hpos hg hs
      | free ptr => exact hi.free hs
      | store a v => exact ⟨bs, hi.store hs⟩
  exact hi.safe

def freshProgram : Program := start (fun _ => 0) 0x48000000

/- Each request is smaller than those in use; the first block is written, freed and used again. -/
def shrinkingRun : List Call :=
  [.malloc 100, .store 0x4800000C 7, .malloc 40, .free 0x4800000C, .malloc 50]

theorem shrinkingRun_safe : ∃ s, run step shrinkingRun freshProgram = some s ∧
    s.live = [(0x4800000C, 50), (0x4800007C, 40)] ∧ Safe 0x48000000 s := by
  have h : (run step shrinkingRun freshProgram).any
      fun s => decide (s.live = [(0x4800000C, 50), (0x4800007C, 40)]) := by decide +kernel
  have hg : Guarded step SplitFits shrinkingRun freshProgram := by decide +kernel
  obtain ⟨s, hs, hlive⟩ := (Option.any_eq_true _ _).mp h
  exact ⟨s, hs, of_decide_eq_true hlive, user_heap_safe (by decide) (reach_of_run _ hg hs)⟩

/-- The search stops at a block in use that is not larger than the request: the second malloc(100)
returns the pointer of the first. -/
theorem secondRequest_same_pointer : ¬ ∀ memory base s, base ≠ 0 →
    Reach step anyStep (start memory base) s → Safe base s := by
  intro hall
  have h : (run step [.malloc 100, .malloc 100] freshProgram).any
      fun s => decide (s.live = [(0x4800000C, 100), (0x4800000C, 100)]) := by decide +kernel
  obtain ⟨s, hs, hlive⟩ := (Option.any_eq_true _ _).mp h
  have hsafe := hall _ _ s (by decide) (reach_of_run _ (guarded_anyStep _ _) hs)
  have hdisjoint := hsafe.disjoint
  rw [of_decide_eq_true hlive, List.pairwise_pair] at hdisjoint
  exact absurd hdisjoint (by unfold Apart; decide)

end AdamOS.Malloc
