import AdamOS.Kernel.Kmalloc

/-! Safety of the kernel heap over whole runs. The headers stay laid out in address order and
the live requests are the blocks in use; both survive every call unless split_block subtracts
more than the block it splits can give. -/
namespace AdamOS.Kmalloc
open AdamOS.Layout AdamOS.Transition AdamOS.Word

abbrev HeapLaid (lo : Nat) (bs : List HeapBlock) : Prop :=
  Laid HeapBlock.addr HeapBlock.stop lo heapEnd bs

def allocated (bs : List HeapBlock) : List (Nat × Nat) :=
  (bs.filter fun b => !b.isFree).map fun b => (b.payload, b.size)

@[simp] theorem allocated_nil : allocated [] = [] := rfl

theorem allocated_cons (b : HeapBlock) (bs : List HeapBlock) :
    allocated (b :: bs) = if b.isFree then allocated bs else (b.payload, b.size) :: allocated bs := by
  cases h : b.isFree <;> simp [allocated, h]

@[simp] theorem allocated_append (bs cs : List HeapBlock) :
    allocated (bs ++ cs) = allocated bs ++ allocated cs := by
  simp [allocated]

theorem mem_allocated {a : Nat × Nat} {bs : List HeapBlock} :
    a ∈ allocated bs ↔ ∃ b ∈ bs, b.isFree = false ∧ (b.payload, b.size) = a := by
  simp [allocated, and_assoc]

theorem HeapLaid.stop_lt {lo : Nat} {bs : List HeapBlock} (h : HeapLaid lo bs) {b : HeapBlock}
    (hb : b ∈ bs) : b.addr + headerSize + b.size ≤ 4194304 := by
  have hend : heapEnd = 4194304 := by decide
  exact hend ▸ (h.bounds hb).2.2

/-! split_block and kmalloc -/

theorem allocated_splitBlock (b : HeapBlock) (size : Nat) :
    allocated (splitBlock b size) = [(b.payload, size)] := by
  unfold splitBlock
  dsimp only
  split <;> simp [allocated, HeapBlock.payload]

theorem splitBlock_laid {lo size : Nat} {b : HeapBlock} {bs : List HeapBlock}
    (h : HeapLaid lo (b :: bs)) (hfit : size + headerSize ≤ b.size) :
    HeapLaid lo (splitBlock b size ++ bs) := by
  obtain ⟨h1, h2, h3⟩ := laid_cons.mp h
  have hb := h.stop_lt (List.mem_cons_self)
  have hr : sub32 (sub32 b.size size) headerSize = b.size - size - headerSize := by
    rw [sub32_eq (a := b.size) (by omega) (by omega), sub32_eq (by omega) (by omega)]
  unfold splitBlock
  rw [hr]
  dsimp only
  split
  · refine ⟨h1, ?_, h3.lower ?_⟩
    · simp only [HeapBlock.stop]; omega
    · simp only [HeapBlock.stop]; omega
  · have hw : wrap (b.addr + headerSize + size) = b.addr + headerSize + size :=
      wrap_eq (by omega)
    rw [hw]
    refine ⟨h1, ?_, ?_, ?_, h3.lower ?_⟩
    · simp only [HeapBlock.stop]; omega
    · simp only [HeapBlock.stop]; omega
    · simp only [HeapBlock.stop]; omega
    · simp only [HeapBlock.stop]; omega

theorem fits_iff {size : Nat} {b : HeapBlock} : fits size b ↔ b.isFree ∧ size < b.size := by
  simp [fits]

/-- First fit: the request becomes one block in use and the layout is kept, provided the block
found has room for a second header. -/
theorem kmallocWalk_spec {lo size p : Nat} {bs bs' : List HeapBlock} (h : HeapLaid lo bs)
    (hfit : ∀ b ∈ bs.find? (fits size), size + headerSize ≤ b.size)
    (hk : kmallocWalk size bs = some (p, bs')) :
    HeapLaid lo bs' ∧ (allocated bs').Perm ((p, size) :: allocated bs) := by
  induction bs generalizing lo p bs' with
  | nil => cases hk
  | cons b bs ih =>
    by_cases hb : fits size b
    · have hs : size + headerSize ≤ b.size := hfit b (by simp [hb])
      obtain ⟨rfl, rfl⟩ : b.payload = p ∧ splitBlock b size ++ bs = bs' := by
        simpa [kmallocWalk, hb] using hk
      refine ⟨splitBlock_laid h hs, ?_⟩
      rw [allocated_append, allocated_splitBlock, allocated_cons, if_pos (fits_iff.mp hb).1]
      exact List.Perm.refl _
    · simp only [kmallocWalk, hb, Bool.false_eq_true, if_false, Option.map_eq_some_iff] at hk
      obtain ⟨⟨q, cs⟩, hcs, he⟩ := hk
      cases he
      obtain ⟨hl, hp⟩ := ih h.2.2 (fun c hc => hfit c (by simpa [List.find?_cons, hb] using hc)) hcs
      refine ⟨⟨h.1, h.2.1, hl⟩, ?_⟩
      rw [allocated_cons, allocated_cons]
      split
      · exact hp
      · exact (hp.cons _).trans (List.Perm.swap _ _ _)

/-! coalesce_blocks and kfree -/

theorem merge_size {lo hi : Nat} {b c : HeapBlock} {bs : List HeapBlock}
    (h : Laid HeapBlock.addr HeapBlock.stop lo hi (b :: c :: bs)) (hhi : hi ≤ 4294967296) :
    wrap (b.size + (c.size + headerSize)) = b.size + (c.size + headerSize) := by
  obtain ⟨-, -, hmid⟩ := laid_cons.mp h
  obtain ⟨hbc, -, hrest⟩ := laid_cons.mp hmid
  have hend := hrest.le
  unfold HeapBlock.stop headerSize at *
  exact wrap_eq (by omega)

/-- The merged block ends where the second one did, or before. -/
theorem merge_laid {lo hi : Nat} {b c : HeapBlock} {bs : List HeapBlock}
    (h : Laid HeapBlock.addr HeapBlock.stop lo hi (b :: c :: bs)) (hhi : hi ≤ 4294967296) :
    Laid HeapBlock.addr HeapBlock.stop lo hi
      ({ b with size := wrap (b.size + (c.size + headerSize)) } :: bs) := by
  rw [merge_size h hhi]
  obtain ⟨hlo, -, hmid⟩ := laid_cons.mp h
  obtain ⟨hbc, -, hrest⟩ := laid_cons.mp hmid
  refine ⟨hlo, Nat.le_trans (Nat.le_add_right _ headerSize) (Nat.le_add_right _ _), hrest.lower ?_⟩
  unfold HeapBlock.stop headerSize at *
  dsimp only
  omega

theorem coalesceFrom_laid {lo : Nat} (bs : List HeapBlock) (prev : HeapBlock)
    (h : HeapLaid lo (prev :: bs)) : HeapLaid lo (coalesceFrom prev bs) := by
  induction bs generalizing lo prev with
  | nil => exact h
  | cons b bs ih =>
    unfold coalesceFrom
    split
    · exact ih _ (merge_laid h (by decide))
    · exact ⟨h.1, h.2.1, ih b h.2.2⟩

theorem coalesceBlocks_laid {lo : Nat} {bs : List HeapBlock} (h : HeapLaid lo bs) :
    HeapLaid lo (coalesceBlocks bs) := by
  cases bs with
  | nil => exact h
  | cons b bs => exact coalesceFrom_laid bs b h

/-- Only free blocks are merged: the blocks in use stay as they are and in their order. -/
theorem coalesceFrom_inUse (bs : List HeapBlock) (prev : HeapBlock) :
    (coalesceFrom prev bs).filter (fun b => !b.isFree) = (prev :: bs).filter fun b => !b.isFree := by
  induction bs generalizing prev with
  | nil => rfl
  | cons b bs ih =>
    unfold coalesceFrom
    split
    · next h =>
      obtain ⟨hp, hb⟩ : prev.isFree = true ∧ b.isFree = true := by simpa using h
      rw [ih, List.filter_cons, List.filter_cons, List.filter_cons]
      simp [hp, hb]
    · rw [List.filter_cons, ih, List.filter_cons (x := prev)]

theorem allocated_coalesceFrom (bs : List HeapBlock) (prev : HeapBlock) :
    allocated (coalesceFrom prev bs) = allocated (prev :: bs) :=
  congrArg (List.map _) (coalesceFrom_inUse bs prev)

@[simp] theorem allocated_coalesceBlocks (bs : List HeapBlock) :
    allocated (coalesceBlocks bs) = allocated bs := by
  cases bs with
  | nil => rfl
  | cons b bs => exact allocated_coalesceFrom bs b

def release (ptr : Nat) (b : HeapBlock) : HeapBlock :=
  if b.addr = sub32 ptr headerSize then { b with isFree := true } else b

theorem release_extent (ptr : Nat) (b : HeapBlock) :
    (release ptr b).addr = b.addr ∧ (release ptr b).stop = b.stop := by
  unfold release
  split <;> exact ⟨rfl, rfl⟩

theorem allocated_release {ptr : Nat} (hlo : headerSize ≤ ptr) (hhi : ptr < 4294967296)
    (bs : List HeapBlock) :
    allocated (bs.map (release ptr)) = (allocated bs).filter fun a => a.1 ≠ ptr := by
  induction bs with
  | nil => rfl
  | cons b bs ih =>
    have hiff : b.addr = sub32 ptr headerSize ↔ b.payload = ptr := by
      rw [sub32_eq hlo hhi]
      simp only [HeapBlock.payload, headerSize] at *
      omega
    rw [List.map_cons, allocated_cons, allocated_cons, ih]
    by_cases hp : b.payload = ptr
    · have hr : release ptr b = { b with isFree := true } := if_pos (hiff.mpr hp)
      cases hb : b.isFree <;> simp [hr, hp]
    · have hr : release ptr b = b := if_neg fun h => hp (hiff.mp h)
      cases hb : b.isFree <;> simp [hr, hb, hp]

theorem kfree_spec {lo ptr : Nat} {bs : List HeapBlock} (h : HeapLaid lo bs)
    (hlo : headerSize ≤ ptr) (hhi : ptr < 4294967296) :
    HeapLaid lo (kfree ptr bs) ∧
      allocated (kfree ptr bs) = (allocated bs).filter fun a => a.1 ≠ ptr := by
  have hne : ptr ≠ 0 := by rintro rfl; cases hlo
  have hk : kfree ptr bs = coalesceBlocks (bs.map (release ptr)) := if_neg hne
  rw [hk, allocated_coalesceBlocks]
  exact ⟨coalesceBlocks_laid (h.map (release_extent ptr)), allocated_release hlo hhi bs⟩

/-! The invariant of runs -/

structure HeapInv (s : HeapState) : Prop where
  laid : HeapLaid heapStart s.blocks
  owns : s.live.Perm (allocated s.blocks)

theorem start_inv : HeapInv start := by
  refine ⟨⟨Nat.le_refl _, ?_, ?_⟩, List.Perm.refl _⟩
  · exact Nat.le_trans (Nat.le_add_right _ _) (Nat.le_add_right _ _)
  · exact Nat.le_of_eq (by decide)

theorem HeapInv.live_block {s : HeapState} (h : HeapInv s) {a : Nat × Nat} (ha : a ∈ s.live) :
    ∃ b ∈ s.blocks, b.isFree = false ∧ (b.payload, b.size) = a :=
  mem_allocated.mp (h.owns.mem_iff.mp ha)

theorem heapStep_inv {s t : HeapState} (call : HeapCall) (h : HeapInv s) (hg : SplitFits s call)
    (hs : heapStep s call = some t) : HeapInv t := by
  cases call with
  | kmalloc size =>
    obtain rfl := Option.some.inj hs
    by_cases h0 : size = 0
    · rw [show kmalloc size s.blocks = (0, s.blocks) from if_pos h0]
      exact h
    have hkm : kmalloc size s.blocks = (kmallocWalk size s.blocks).getD (0, s.blocks) := if_neg h0
    cases hk : kmallocWalk size s.blocks with
    | none => rw [hkm, hk]; exact h
    | some r =>
      obtain ⟨p, bs⟩ := r
      obtain ⟨hl, hp⟩ := kmallocWalk_spec h.laid (hg (Nat.pos_of_ne_zero h0)) hk
      have hp0 : p ≠ 0 := by
        obtain ⟨b, _, _, hb⟩ := mem_allocated.mp (hp.mem_iff.mpr (List.mem_cons_self))
        have : p = b.addr + headerSize := (congrArg Prod.fst hb).symm
        simp only [headerSize] at this
        omega
      rw [hkm, hk]
      refine ⟨hl, ?_⟩
      simpa [hp0] using (h.owns.cons (p, size)).trans hp.symm
  | kfree ptr =>
    simp only [heapStep] at hs
    split at hs
    · next hc =>
      cases hs
      rcases hc with rfl | hc
      · refine ⟨by simpa [kfree] using h.laid, ?_⟩
        have hlive : s.live.filter (fun a => a.1 ≠ 0) = s.live := by
          apply List.filter_eq_self.mpr
          intro a ha
          obtain ⟨b, hb, _, rfl⟩ := h.live_block ha
          simp [HeapBlock.payload, headerSize]
        rw [hlive]
        exact h.owns
      · obtain ⟨a, ha, rfl⟩ := List.mem_map.mp hc
        obtain ⟨b, hb, _, rfl⟩ := h.live_block ha
        have hstop := h.laid.stop_lt hb
        have hlo : headerSize ≤ b.payload := by simp only [HeapBlock.payload]; omega
        have hhi : b.payload < 4294967296 := by simp only [HeapBlock.payload]; omega
        obtain ⟨hl, hall⟩ := kfree_spec h.laid hlo hhi
        exact ⟨hl, by simpa only [hall] using h.owns.filter _⟩
    · cases hs

theorem HeapInv.safe {s : HeapState} (h : HeapInv s) : HeapSafe s := by
  refine ⟨?_, ?_, ?_⟩
  · have hsym : Std.Symm fun a b : Nat × Nat => Apart a.1 a.2 b.1 b.2 := ⟨fun _ _ h => Or.symm h⟩
    refine (h.owns.pairwise_iff (hsym.symm _ _)).mpr ?_
    refine List.Pairwise.map _ ?_ (h.laid.pairwise.filter _)
    intro b c hbc
    simp only [HeapBlock.stop] at hbc
    left
    simp only [HeapBlock.payload]
    omega
  · intro a ha c hc
    obtain ⟨b, hb, hbf, rfl⟩ := h.live_block ha
    rcases h.laid.apart hb hc with rfl | hbc | hcb
    · right; exact Nat.le_refl _
    · left; simp only [HeapBlock.stop, HeapBlock.payload] at *; omega
    · right; simp only [HeapBlock.stop, HeapBlock.payload] at *; omega
  · intro a ha
    obtain ⟨b, hb, _, rfl⟩ := h.live_block ha
    have hbd := h.laid.bounds hb
    simp only [HeapBlock.stop, HeapBlock.payload] at *
    omega

/-- Every run whose requests leave room for a header in the block found keeps the heap safe. -/
theorem heap_safe {s : HeapState} (h : Reach heapStep SplitFits start s) : HeapSafe s :=
  (h.invariant HeapInv start_inv fun _ call _ hi hg hs => heapStep_inv call hi hg hs).safe

def reuseRun : List HeapCall := [.kmalloc 100, .kmalloc 24, .kfree 0x10000C, .kmalloc 40]

theorem reuseRun_safe : HeapSafe
    ⟨[⟨0x100000, 40, false⟩, ⟨0x100034, 48, true⟩, ⟨0x100070, 24, false⟩,
        ⟨0x100094, 0x2FFF60, true⟩], [(0x10000C, 40), (0x10007C, 24)]⟩ :=
  heap_safe (reach_of_run reuseRun (by decide +kernel) (by decide +kernel))

/- One byte less than the free block holds: the size left for the second header wraps around. -/
def tightRun : List HeapCall := [.kmalloc 0x2FFFF3, .kmalloc 1]

/-- After a request that leaves no room for a header the next pointer lies past HEAP_END. -/
theorem tightRun_unsafe : ¬ ∀ s, Reach heapStep anyStep start s → HeapSafe s := by
  intro h
  have hrun : run heapStep tightRun start = some
      ⟨[⟨0x100000, 0x2FFFF3, false⟩, ⟨0x3FFFFF, 1, false⟩, ⟨0x40000C, 0xFFFFFFE8, true⟩],
        [(0x40000B, 1), (0x10000C, 0x2FFFF3)]⟩ := by decide +kernel
  have hs := (h _ (reach_of_run _ (guarded_anyStep _ _) hrun)).inside (0x40000B, 1) (by simp)
  exact absurd hs.2 (by decide)

end AdamOS.Kmalloc
