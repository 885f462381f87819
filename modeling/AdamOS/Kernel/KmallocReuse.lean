import AdamOS.Kernel.KmallocSafety
import Mathlib.Algebra.GroupWithZero.Nat
import Mathlib.Data.List.Chain

/-! Accounting of the kernel heap. No two free blocks are neighbours, so a free block that was split
is whole again once its part is freed. split_block shrinks a block that it does not split, and the
bytes behind it are lost. -/
namespace AdamOS.Kmalloc
open AdamOS.Layout AdamOS.Transition AdamOS.Word

def accounted (bs : List HeapBlock) : Nat := (bs.map fun b => b.size + headerSize).sum

def Spread (bs : List HeapBlock) : Prop := bs.IsChain fun b c => ¬(b.isFree = true ∧ c.isFree = true)

/- split_block makes a second block of what the request leaves. -/
def Splits (size : Nat) (b : HeapBlock) : Prop := size + headerSize + headerSize * 3 ≤ b.size

def SplitWhole (s : HeapState) : HeapCall → Prop
  | .kmalloc size => 0 < size → ∀ b ∈ s.blocks.find? (fits size), Splits size b
  | .kfree _ => True

/- Every byte of the heap is in a block, and a heap with no allocation is as init_heap made it. -/
structure NothingLost (s : HeapState) : Prop where
  accounted : accounted s.blocks = heapSize
  whole : s.live = [] → s.blocks = initHeap

/- The block that kmalloc finds is split, or there is a second one that fits. -/
def FitsTwice (size : Nat) (bs : List HeapBlock) : Prop :=
  (∀ b ∈ bs.find? (fits size), Splits size b) ∨ 2 ≤ bs.countP (fits size)

instance (size : Nat) (b : HeapBlock) : Decidable (Splits size b) := inferInstanceAs (Decidable (_ ≤ _))

instance (s : HeapState) : (c : HeapCall) → Decidable (SplitWhole s c)
  | .kmalloc size => inferInstanceAs (Decidable (0 < size → ∀ b ∈ s.blocks.find? (fits size), _))
  | .kfree _ => .isTrue trivial

section blocks
variable {lo n p : Nat} {b c r : HeapBlock} {bs cs pre post : List HeapBlock}

@[simp] theorem accounted_nil : accounted [] = 0 := rfl

@[simp] theorem accounted_cons (b : HeapBlock) (bs : List HeapBlock) :
    accounted (b :: bs) = b.size + headerSize + accounted bs := List.sum_cons

theorem accounted_append (bs cs : List HeapBlock) :
    accounted (bs ++ cs) = accounted bs + accounted cs := by
  unfold accounted
  rw [List.map_append, List.sum_append]

theorem spread_congr (h : bs.map HeapBlock.isFree = cs.map HeapBlock.isFree) : Spread bs ↔ Spread cs := by
  have hmap : ∀ ds : List HeapBlock, Spread ds ↔
      (ds.map HeapBlock.isFree).IsChain fun x y => ¬(x = true ∧ y = true) := by
    intro ds
    rw [List.isChain_map]
    rfl
  rw [hmap, hmap, h]

/-! ### coalesce_blocks -/

/-- The first block of the result is free if the first block was. -/
theorem coalesceFrom_head (prev : HeapBlock) (bs : List HeapBlock) :
    ∃ c cs, coalesceFrom prev bs = c :: cs ∧ c.isFree = prev.isFree := by
  induction bs generalizing prev with
  | nil => exact ⟨prev, [], rfl, rfl⟩
  | cons b bs ih =>
    rw [coalesceFrom]
    split
    · exact ih _
    · exact ⟨prev, _, rfl, rfl⟩

theorem coalesceFrom_spread (prev : HeapBlock) (bs : List HeapBlock) : Spread (coalesceFrom prev bs) := by
  induction bs generalizing prev with
  | nil => exact List.isChain_singleton _
  | cons b bs ih =>
    rw [coalesceFrom]
    split
    · exact ih _
    · rename_i hno
      obtain ⟨c, cs, he, hc⟩ := coalesceFrom_head b bs
      have hrest := ih b
      rw [he] at hrest ⊢
      refine List.isChain_cons_cons.mpr ⟨?_, hrest⟩
      rw [hc]
      simpa using hno

theorem coalesceBlocks_spread (bs : List HeapBlock) : Spread (coalesceBlocks bs) := by
  cases bs with
  | nil => exact .nil
  | cons b bs => exact coalesceFrom_spread b bs

/-- There is nothing to merge where no free block follows a free block. -/
theorem coalesceFrom_same (h : Spread (b :: bs)) : coalesceFrom b bs = b :: bs := by
  induction bs generalizing b with
  | nil => rfl
  | cons c bs ih =>
    obtain ⟨hno, hrest⟩ := List.isChain_cons_cons.mp h
    rw [coalesceFrom, if_neg (by simpa using hno), ih hrest]

theorem coalesceBlocks_same (h : Spread bs) : coalesceBlocks bs = bs := by
  cases bs with
  | nil => rfl
  | cons b bs => exact coalesceFrom_same h

/- prev->size += block->size + sizeof(heap_block_header_t) -/
def merged (b r : HeapBlock) : HeapBlock := { b with size := wrap (b.size + (r.size + headerSize)) }

/-- Two free neighbours in a list that is spread otherwise become one. -/
theorem coalesceBlocks_merge (hb : b.isFree = true) (hr : r.isFree = true)
    (h : Spread (pre ++ merged b r :: post)) :
    coalesceBlocks (pre ++ b :: r :: post) = pre ++ merged b r :: post := by
  have hmerge : coalesceFrom b (r :: post) = coalesceFrom (merged b r) post := by
    rw [coalesceFrom, if_pos (by rw [hb, hr]; rfl)]
    rfl
  cases pre with
  | nil =>
    rw [List.nil_append] at h ⊢
    exact hmerge.trans (coalesceFrom_same h)
  | cons q pre =>
    change coalesceFrom q (pre ++ b :: r :: post) = q :: (pre ++ merged b r :: post)
    induction pre generalizing q with
    | nil =>
      obtain ⟨hno, hrest⟩ := List.isChain_cons_cons.mp h
      have hq : ¬(q.isFree && b.isFree) = true := by simpa [merged] using hno
      rw [List.nil_append, coalesceFrom, if_neg hq, hmerge, coalesceFrom_same hrest]
      rfl
    | cons q' pre ih =>
      obtain ⟨hno, hrest⟩ := List.isChain_cons_cons.mp h
      rw [List.cons_append, coalesceFrom, if_neg (by simpa using hno), ih q' hrest]
      rfl

theorem accounted_coalesceFrom (h : HeapLaid lo (b :: bs)) :
    accounted (coalesceFrom b bs) = accounted (b :: bs) := by
  induction bs generalizing lo b with
  | nil => rfl
  | cons c bs ih =>
    rw [coalesceFrom]
    split
    · rw [ih (merge_laid h (by decide)), merge_size h (by decide), accounted_cons, accounted_cons,
        accounted_cons]
      dsimp only
      omega
    · rw [accounted_cons, accounted_cons, ih h.2.2]

theorem accounted_kfree (h : HeapLaid lo bs) (ptr : Nat) : accounted (kfree ptr bs) = accounted bs := by
  unfold kfree
  split
  · rfl
  · have hmap : accounted (bs.map (release ptr)) = accounted bs := by
      unfold accounted
      rw [List.map_map]
      refine congrArg List.sum (List.map_congr_left fun b _ => ?_)
      rw [Function.comp_apply]
      unfold release
      split <;> rfl
    have hlaid := h.map (release_extent ptr)
    change accounted (coalesceBlocks (bs.map (release ptr))) = _
    rw [← hmap]
    cases hm : bs.map (release ptr) with
    | nil => rfl
    | cons c cs =>
      rw [hm] at hlaid
      exact accounted_coalesceFrom hlaid

theorem kfree_spread (h : Spread bs) (ptr : Nat) : Spread (kfree ptr bs) := by
  unfold kfree
  split
  · exact h
  · exact coalesceBlocks_spread _

/-! ### kmalloc -/

theorem kmallocWalk_found (hpre : ∀ x ∈ pre, fits n x = false) (hb : fits n b = true) :
    kmallocWalk n (pre ++ b :: post) = some (b.payload, pre ++ (splitBlock b n ++ post)) := by
  induction pre with
  | nil => rw [List.nil_append, kmallocWalk, if_pos hb, List.nil_append]
  | cons q pre ih =>
    have hq : ¬fits n q = true := Bool.eq_false_iff.mp (hpre q List.mem_cons_self)
    rw [List.cons_append, kmallocWalk, if_neg hq, ih fun x hx => hpre x (List.mem_cons_of_mem _ hx)]
    rfl

theorem kmallocWalk_none (h : ∀ x ∈ bs, fits n x = false) : kmallocWalk n bs = none := by
  induction bs with
  | nil => rfl
  | cons b bs ih =>
    have hb : ¬fits n b = true := Bool.eq_false_iff.mp (h b List.mem_cons_self)
    rw [kmallocWalk, if_neg hb, ih fun x hx => h x (List.mem_cons_of_mem _ hx)]
    rfl

structure Found (n : Nat) (bs pre : List HeapBlock) (b : HeapBlock) (post : List HeapBlock) : Prop where
  list : bs = pre ++ b :: post
  first : ∀ x ∈ pre, fits n x = false
  serves : fits n b = true

theorem Found.find (h : Found n bs pre b post) : bs.find? (fits n) = some b :=
  List.find?_eq_some_iff_append.mpr ⟨h.serves, pre, post, h.list, fun x hx => by rw [h.first x hx]; rfl⟩

theorem Found.taken (h : Found n bs pre b post) (h0 : 0 < n) :
    kmalloc n bs = (b.payload, pre ++ (splitBlock b n ++ post)) := by
  rw [kmalloc, if_neg (Nat.ne_of_gt h0), h.list, kmallocWalk_found h.first h.serves]
  rfl

theorem kmalloc_cases (h0 : 0 < n) (bs : List HeapBlock) :
    (kmalloc n bs = (0, bs) ∧ ∀ x ∈ bs, fits n x = false) ∨ ∃ pre b post, Found n bs pre b post := by
  cases hf : bs.find? (fits n) with
  | none =>
    have hno : ∀ x ∈ bs, fits n x = false := fun x hx =>
      Bool.eq_false_iff.mpr (List.find?_eq_none.mp hf x hx)
    refine .inl ⟨?_, hno⟩
    rw [kmalloc, if_neg (Nat.ne_of_gt h0), kmallocWalk_none hno]
    rfl
  | some b =>
    obtain ⟨hb, pre, post, hlist, hfirst⟩ := List.find?_eq_some_iff_append.mp hf
    exact .inr ⟨pre, b, post, hlist, fun x hx => by simpa using hfirst x hx, hb⟩

/-- What holds of the heap and after any block is taken holds after kmalloc. -/
theorem kmalloc_keeps {Q : List HeapBlock → Prop} (h : Q bs)
    (htake : 0 < n → ∀ pre b post, Found n bs pre b post → Q (pre ++ (splitBlock b n ++ post))) :
    Q (kmalloc n bs).2 := by
  by_cases h0 : n = 0
  · rw [show kmalloc n bs = (0, bs) from if_pos h0]
    exact h
  replace h0 := Nat.pos_of_ne_zero h0
  rcases kmalloc_cases h0 bs with ⟨he, -⟩ | ⟨pre, b, post, hfound⟩
  · rw [he]
    exact h
  · rw [hfound.taken h0]
    exact htake h0 pre b post hfound

theorem kmalloc_served (h0 : 0 < n) : (kmalloc n bs).1 ≠ 0 ↔ ∃ x ∈ bs, fits n x = true := by
  rcases kmalloc_cases h0 bs with ⟨he, hno⟩ | ⟨pre, b, post, hfound⟩
  · rw [he]
    refine iff_of_false (fun h => h rfl) fun ⟨x, hx, hfit⟩ => ?_
    rw [hno x hx] at hfit
    cases hfit
  · rw [hfound.taken h0]
    refine iff_of_true (Nat.succ_ne_zero _) ⟨b, ?_, hfound.serves⟩
    rw [hfound.list]
    exact List.mem_append_right _ List.mem_cons_self

theorem splitBlock_split (hsize : b.size < 4294967296) (h : Splits n b) : splitBlock b n =
    [{ b with size := n, isFree := false },
      ⟨wrap (b.addr + headerSize + n), b.size - n - headerSize, true⟩] := by
  unfold Splits at h
  have hr : sub32 (sub32 b.size n) headerSize = b.size - n - headerSize := by
    rw [sub32_eq (a := b.size) (by omega) (by omega), sub32_eq (by omega) (by omega)]
  unfold splitBlock
  rw [hr]
  exact if_neg (by omega)

/-- A block that is not split is cut to the size of the request. -/
theorem splitBlock_cut (hsize : b.size < 4294967296) (hfit : n + headerSize ≤ b.size)
    (h : ¬Splits n b) : splitBlock b n = [{ b with size := n, isFree := false }] := by
  unfold Splits at h
  have hr : sub32 (sub32 b.size n) headerSize = b.size - n - headerSize := by
    rw [sub32_eq (a := b.size) (by omega) (by omega), sub32_eq (by omega) (by omega)]
  unfold splitBlock
  rw [hr]
  exact if_pos (by omega)

/-- Splitting hands every byte to one of the two blocks. -/
theorem accounted_splitBlock (hsize : b.size < 4294967296) (h : Splits n b) :
    accounted (splitBlock b n) = b.size + headerSize := by
  unfold Splits at h
  rw [splitBlock_split hsize h]
  simp only [accounted_cons, accounted_nil]
  omega

theorem Found.laid (h : Found n bs pre b post) (hlaid : HeapLaid lo bs) (hfit : n + headerSize ≤ b.size) :
    HeapLaid lo (pre ++ (splitBlock b n ++ post)) := by
  have hwalk := h.list ▸ kmallocWalk_found h.first h.serves
  refine (kmallocWalk_spec hlaid (fun c hc => ?_) hwalk).1
  rw [h.find] at hc
  exact Option.some.inj hc ▸ hfit

/-- The block found is put in use, so what follows it may be free. -/
theorem Found.spread (h : Found n bs pre b post) (hlaid : HeapLaid lo bs) (hs : Spread bs)
    (hfit : n + headerSize ≤ b.size) : Spread (pre ++ (splitBlock b n ++ post)) := by
  have hb : b.isFree = true := (fits_iff.mp h.serves).1
  have hstop := hlaid.stop_lt (b := b) (by rw [h.list]; simp)
  rw [h.list] at hs
  obtain ⟨hleft, hright, -⟩ := List.isChain_append.mp hs
  obtain ⟨hnext, hpost⟩ := List.isChain_cons.mp hright
  have hused : ∀ c ∈ post.head?, ¬c.isFree = true := fun c hc hfree => hnext c hc ⟨hb, hfree⟩
  have hmid : Spread (splitBlock b n ++ post) ∧
      ∀ c ∈ (splitBlock b n ++ post).head?, ¬c.isFree = true := by
    by_cases hsplit : Splits n b
    · rw [splitBlock_split (by omega) hsplit]
      refine ⟨.cons_cons (by simp) (List.isChain_cons.mpr ⟨?_, hpost⟩), by simp⟩
      exact fun c hc hfree => hused c hc hfree.2
    · rw [splitBlock_cut (by omega) hfit hsplit]
      refine ⟨List.isChain_cons.mpr ⟨?_, hpost⟩, by simp⟩
      exact fun c hc hfree => hused c hc hfree.2
  exact List.isChain_append.mpr ⟨hleft, hmid.1, fun x _ y hy hfree => hmid.2 y hy hfree.2⟩

theorem kmalloc_spread (hlaid : HeapLaid lo bs) (h : Spread bs)
    (hfit : 0 < n → ∀ b ∈ bs.find? (fits n), n + headerSize ≤ b.size) : Spread (kmalloc n bs).2 :=
  kmalloc_keeps h fun h0 _ b _ hfound => hfound.spread hlaid h (hfit h0 b hfound.find)

theorem accounted_kmalloc (hlaid : HeapLaid lo bs)
    (hsplit : 0 < n → ∀ b ∈ bs.find? (fits n), Splits n b) :
    accounted (kmalloc n bs).2 = accounted bs := by
  refine kmalloc_keeps (Q := fun r => accounted r = accounted bs) rfl fun h0 pre b post hfound => ?_
  have hstop := hlaid.stop_lt (b := b) (by rw [hfound.list]; simp)
  rw [hfound.list, accounted_append, accounted_append, accounted_append, accounted_cons,
    accounted_splitBlock (by omega) (hsplit h0 b hfound.find)]

/-- kfree of a listed block gives that block back and merges. -/
theorem kfree_listed (h : HeapLaid lo (pre ++ c :: post)) :
    kfree c.payload (pre ++ c :: post) = coalesceBlocks (pre ++ { c with isFree := true } :: post) := by
  have hstop := h.stop_lt (b := c) (by simp)
  have haddr : sub32 c.payload headerSize = c.addr := by
    unfold HeapBlock.payload
    rw [sub32_eq (by omega) (by omega)]
    omega
  have hother : ∀ x ∈ pre ++ post, release c.payload x = x := by
    intro x hx
    refine if_neg ?_
    rw [haddr]
    obtain ⟨-, hright, hcross⟩ := List.pairwise_append.mp h.pairwise
    rcases List.mem_append.mp hx with hx | hx
    · have hlast := hcross x hx c List.mem_cons_self
      simp only [HeapBlock.stop, headerSize] at hlast
      omega
    · have hlast := (List.pairwise_cons.mp hright).1 x hx
      simp only [HeapBlock.stop, headerSize] at hlast
      omega
  have hself : release c.payload c = { c with isFree := true } := if_pos haddr.symm
  have hmap : (pre ++ c :: post).map (release c.payload) = pre ++ { c with isFree := true } :: post := by
    rw [List.map_append, List.map_cons, hself]
    congr 1
    · exact (List.map_congr_left fun x hx => hother x (List.mem_append_left _ hx)).trans pre.map_id
    · congr 1
      exact (List.map_congr_left fun x hx => hother x (List.mem_append_right _ hx)).trans post.map_id
  rw [← hmap]
  exact if_neg (Nat.succ_ne_zero _)

end blocks

/-! ### Runs -/

structure Accounts (s : HeapState) : Prop where
  inv : HeapInv s
  spread : Spread s.blocks
  sum : accounted s.blocks = heapSize

theorem start_accounts : Accounts start :=
  ⟨start_inv, List.isChain_singleton _, by decide⟩

theorem Splits.fits {size : Nat} {b : HeapBlock} (h : Splits size b) : size + headerSize ≤ b.size :=
  Nat.le_trans (Nat.le_add_right _ _) h

theorem heapStep_accounts {s t : HeapState} (call : HeapCall) (h : Accounts s) (hg : SplitWhole s call)
    (hs : heapStep s call = some t) : Accounts t := by
  cases call with
  | kmalloc size =>
    have hinv : HeapInv t := heapStep_inv (.kmalloc size) h.inv (fun h0 b hb => (hg h0 b hb).fits) hs
    obtain rfl := Option.some.inj hs
    exact ⟨hinv, kmalloc_spread h.inv.laid h.spread fun h0 b hb => (hg h0 b hb).fits,
      (accounted_kmalloc h.inv.laid hg).trans h.sum⟩
  | kfree ptr =>
    have hinv := heapStep_inv (.kfree ptr) h.inv trivial hs
    simp only [heapStep] at hs
    split at hs
    · obtain rfl := Option.some.inj hs
      exact ⟨hinv, kfree_spread h.spread ptr, (accounted_kfree h.inv.laid ptr).trans h.sum⟩
    · cases hs

/-- With no allocation every block is free, and a spread list of free blocks is a single one. -/
theorem Accounts.whole {s : HeapState} (h : Accounts s) (hlive : s.live = []) : s.blocks = initHeap := by
  have hfree : ∀ b ∈ s.blocks, b.isFree = true := by
    intro b hb
    by_contra hused
    have hmem := mem_allocated.mpr ⟨b, hb, Bool.eq_false_iff.mpr hused, rfl⟩
    rw [← h.inv.owns.mem_iff, hlive] at hmem
    cases hmem
  have hlaid := h.inv.laid
  have hspread := h.spread
  have hsum := h.sum
  match hbs : s.blocks with
  | [] =>
    rw [hbs] at hsum
    cases hsum
  | b :: c :: bs =>
    rw [hbs] at hspread hfree
    exact absurd ⟨hfree b (by simp), hfree c (by simp)⟩ (List.isChain_cons_cons.mp hspread).1
  | [b] =>
    rw [hbs] at hlaid hsum hfree
    obtain ⟨hlo, -, hhi⟩ := hlaid.bounds (x := b) (by simp)
    have hfree := hfree b (by simp)
    obtain ⟨addr, size, isFree⟩ := b
    simp only [accounted_cons, accounted_nil, HeapBlock.stop, heapEnd] at *
    have hsize : size = heapSize - headerSize := by omega
    have haddr : addr = heapStart := by omega
    rw [hsize, haddr, hfree]
    rfl

/-- Runs in which every block found is split lose no byte. -/
theorem nothing_lost {s : HeapState} (h : Reach heapStep SplitWhole start s) : NothingLost s := by
  have hacc := h.invariant Accounts start_accounts fun _ call _ hi hg hs => heapStep_accounts call hi hg hs
  exact ⟨hacc.sum, hacc.whole⟩

theorem reuseRun_nothing_lost : NothingLost
    ⟨[⟨0x100000, 40, false⟩, ⟨0x100034, 48, true⟩, ⟨0x100070, 24, false⟩,
        ⟨0x100094, 0x2FFF60, true⟩], [(0x10000C, 40), (0x10007C, 24)]⟩ :=
  nothing_lost (reach_of_run reuseRun (by decide +kernel) (by decide +kernel))

def cutRun : List HeapCall := [.kmalloc 0x2FFFE0]

/-- The 20 bytes are in no block. -/
theorem cutRun_loses : ¬∀ s, Reach heapStep anyStep start s → NothingLost s := by
  intro h
  have hrun : run heapStep cutRun start = some
      ⟨[⟨0x100000, 0x2FFFE0, false⟩], [(0x10000C, 0x2FFFE0)]⟩ := by decide +kernel
  have hsum := (h _ (reach_of_run _ (guarded_anyStep _ _) hrun)).accounted
  exact absurd hsum (by decide)

/-! ### A request, its release and the same request again -/

section again
variable {s : HeapState} {n : Nat}

theorem heapStep_spread {t : HeapState} (call : HeapCall) (hinv : HeapInv s) (h : Spread s.blocks)
    (hg : SplitFits s call) (hs : heapStep s call = some t) : Spread t.blocks := by
  cases call with
  | kmalloc size =>
    obtain rfl := Option.some.inj hs
    exact kmalloc_spread hinv.laid h hg
  | kfree ptr =>
    simp only [heapStep] at hs
    split at hs
    · obtain rfl := Option.some.inj hs
      exact kfree_spread h ptr
    · cases hs

theorem reach_spread (h : Reach heapStep SplitFits start s) : HeapInv s ∧ Spread s.blocks := by
  refine h.invariant (fun s => HeapInv s ∧ Spread s.blocks) ⟨start_inv, List.isChain_singleton _⟩ ?_
  exact fun _ call _ hi hg hs =>
    ⟨heapStep_inv call hi.1 hg hs, heapStep_spread call hi.1 hi.2 hg hs⟩

variable {lo : Nat} {b : HeapBlock} {bs pre post : List HeapBlock}

/-- A split block is whole again once its part is freed. -/
theorem Found.kfree_split (h : Found n bs pre b post) (hlaid : HeapLaid lo bs) (hs : Spread bs)
    (hsplit : Splits n b) : kfree b.payload (pre ++ (splitBlock b n ++ post)) = bs := by
  have hb : b.isFree = true := (fits_iff.mp h.serves).1
  have hstop := hlaid.stop_lt (b := b) (by rw [h.list]; simp)
  have hnew := h.laid hlaid hsplit.fits
  have hwhole : merged { b with size := n, isFree := true }
      ⟨wrap (b.addr + headerSize + n), b.size - n - headerSize, true⟩ = b := by
    unfold Splits at hsplit
    unfold merged
    dsimp only
    rw [wrap_eq (by omega), show n + (b.size - n - headerSize + headerSize) = b.size by omega, ← hb]
  rw [h.list] at hs ⊢
  rw [splitBlock_split (by omega) hsplit, List.cons_append, List.cons_append, List.nil_append] at hnew ⊢
  refine (kfree_listed hnew).trans ?_
  rw [coalesceBlocks_merge rfl rfl (hwhole.symm ▸ hs), hwhole]

/-- A block that was cut stays as small as the request. -/
theorem Found.kfree_cut (h : Found n bs pre b post) (hlaid : HeapLaid lo bs) (hs : Spread bs)
    (hfit : n + headerSize ≤ b.size) (hcut : ¬Splits n b) :
    kfree b.payload (pre ++ (splitBlock b n ++ post)) = pre ++ { b with size := n } :: post := by
  have hb : b.isFree = true := (fits_iff.mp h.serves).1
  have hstop := hlaid.stop_lt (b := b) (by rw [h.list]; simp)
  have hnew := h.laid hlaid hfit
  have hfree : ({ b with size := n, isFree := true } : HeapBlock) = { b with size := n } := by rw [← hb]
  have hsame : Spread (pre ++ { b with size := n } :: post) := by
    refine (spread_congr ?_).mp hs
    rw [h.list, List.map_append, List.map_append, List.map_cons, List.map_cons]
  rw [splitBlock_cut (by omega) hfit hcut, List.cons_append, List.nil_append] at hnew ⊢
  refine (kfree_listed hnew).trans ?_
  rw [hfree, coalesceBlocks_same hsame]

/-- The same request is served again exactly if the block was split or a second one fits. -/
theorem kmalloc_again (h : Reach heapStep SplitFits start s) (hg : SplitFits s (.kmalloc n)) (h0 : 0 < n)
    (hp : (kmalloc n s.blocks).1 ≠ 0) :
    (kmalloc n (kfree (kmalloc n s.blocks).1 (kmalloc n s.blocks).2)).1 ≠ 0 ↔ FitsTwice n s.blocks := by
  obtain ⟨hinv, hs⟩ := reach_spread h
  rcases kmalloc_cases h0 s.blocks with ⟨he, -⟩ | ⟨pre, b, post, hfound⟩
  · exact absurd (congrArg Prod.fst he) hp
  have hfit : n + headerSize ≤ b.size := hg h0 b hfound.find
  have hfirst : pre.countP (fits n) = 0 := by
    rw [List.countP_eq_zero]
    exact fun x hx => Bool.eq_false_iff.mp (hfound.first x hx)
  rw [hfound.taken h0]
  dsimp only
  unfold FitsTwice
  rw [hfound.find]
  by_cases hsplit : Splits n b
  · rw [hfound.kfree_split hinv.laid hs hsplit]
    exact iff_of_true hp (.inl fun c hc => Option.some.inj hc ▸ hsplit)
  · rw [hfound.kfree_cut hinv.laid hs hfit hsplit, kmalloc_served h0]
    have hno : ¬fits n { b with size := n } = true := fun hc => Nat.lt_irrefl n (fits_iff.mp hc).2
    have hleft : ¬∀ c ∈ some b, Splits n c := fun hall => hsplit (hall b rfl)
    rw [or_iff_right hleft, hfound.list, List.countP_append, hfirst, List.countP_cons_of_pos hfound.serves,
      Nat.zero_add, Nat.succ_le_succ_iff, Nat.succ_le_iff, List.countP_pos_iff]
    constructor
    · rintro ⟨x, hx, hfx⟩
      rcases List.mem_append.mp hx with hx | hx
      · exact absurd hfx (Bool.eq_false_iff.mp (hfound.first x hx))
      · rcases List.mem_cons.mp hx with rfl | hx
        · exact absurd hfx hno
        · exact ⟨x, hx, hfx⟩
    · rintro ⟨x, hx, hfx⟩
      exact ⟨x, List.mem_append_right _ (List.mem_cons_of_mem _ hx), hfx⟩

end again

def againRun : List HeapCall := [.kmalloc 100, .kmalloc 24, .kfree 0x10000C]

theorem againRun_served :
    let r := kmalloc 60 [⟨0x100000, 100, true⟩, ⟨0x100070, 24, false⟩, ⟨0x100094, 0x2FFF60, true⟩]
    (kmalloc 60 (kfree r.1 r.2)).1 ≠ 0 := by
  have hrun : run heapStep againRun start = some
      ⟨[⟨0x100000, 100, true⟩, ⟨0x100070, 24, false⟩, ⟨0x100094, 0x2FFF60, true⟩], [(0x10007C, 24)]⟩ := by
    decide +kernel
  have hreach : Reach heapStep SplitFits start _ := reach_of_run againRun (by decide +kernel) hrun
  exact (kmalloc_again hreach (by decide +kernel) (by decide) (by decide +kernel)).mpr
    (.inr (by decide +kernel))

/-- The only block is cut to the request, which then no longer fits. -/
theorem cut_not_again : ¬∀ s n, Reach heapStep anyStep start s → 0 < n → (kmalloc n s.blocks).1 ≠ 0 →
    (kmalloc n (kfree (kmalloc n s.blocks).1 (kmalloc n s.blocks).2)).1 ≠ 0 := by
  intro h
  exact absurd (h start 0x2FFFE0 .refl (by decide) (by decide +kernel)) (by decide +kernel)

end AdamOS.Kmalloc
