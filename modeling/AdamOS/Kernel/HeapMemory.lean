import AdamOS.Kernel.Coalesce

/-! kmalloc.c in memory. Its users store in what they were given, kmalloc and kfree go by the headers
that lie between. Calls and stores together do to the memory what they do to a list of blocks and to
contents that are kept until they are given back. -/
namespace AdamOS.HeapMemory
open AdamOS.Coalesce AdamOS.Fat16 AdamOS.Kmalloc AdamOS.Layout AdamOS.Linked AdamOS.Transition AdamOS.Word
open AdamOS.Malloc (Memory SameHeader Within store8 store32 store8_self store8_ne store32_out le32_lt
  le32_congr le32_store32 le32_store32_out le32_store8_out)

def initHeap (m : Memory) : Memory :=
  let m := store32 heapStart (heapSize - headerSize) m
  let m := store8 (heapStart + 4) 1 m
  store32 (heapStart + 8) 0 m

def splitBlock (heapPtr size : Nat) (m : Memory) : Memory :=
  let remainingSize := sub32 (sub32 (sizeOf m heapPtr) size) headerSize
  if remainingSize < headerSize * 3 then
    let m := store32 heapPtr size m
    store8 (heapPtr + 4) 0 m
  else
    let newBlock := wrap (heapPtr + headerSize + size)
    let m := store32 newBlock remainingSize m
    let m := store8 (newBlock + 4) 1 m
    let m := store32 (newBlock + 8) (nextOf m heapPtr) m
    let m := store32 heapPtr size m
    let m := store8 (heapPtr + 4) 0 m
    store32 (heapPtr + 8) newBlock m

def fitsAt (m : Memory) (size p : Nat) : Bool := isFree m p && decide (sizeOf m p > size)

/- The pointer, or NULL, and the memory; none is a loop that goes on after n rounds. heap_head_ptr stays
   at HEAP_START. -/
def kmalloc (n size : Nat) (m : Memory) : Option (Nat × Memory) :=
  if size = 0 then some (0, m)
  else (walk (nextOf m) (fitsAt m size) n 0 heapStart).map fun (_, heapPtr) =>
    if heapPtr = 0 then (0, m) else (wrap (heapPtr + headerSize), splitBlock heapPtr size m)

/-! ### Calls and stores -/

inductive Use where
  | call (c : HeapCall)
  | store (a : Nat) (v : UInt8)

structure KernelMemory where
  memory : Memory
  /- the pointers kmalloc returned, with the sizes asked for, but for those given to kfree -/
  live : List (Nat × Nat)

/- A list of headers that ends has fewer than 2^32. -/
def rounds : Nat := 4294967296

def KernelMemory.step (s : KernelMemory) : Use → Option KernelMemory
  | .call (.kmalloc size) => (kmalloc rounds size s.memory).map fun (p, m) =>
    ⟨m, if p = 0 then s.live else (p, size) :: s.live⟩
  | .call (.kfree ptr) => (Coalesce.kfree rounds heapStart ptr s.memory).map fun m =>
    ⟨m, s.live.filter fun a => a.1 ≠ ptr⟩
  | .store a v => some { s with memory := store8 a v s.memory }

/- The heap as it is meant: blocks, and what was stored in those in use. -/
structure Heap where
  state : HeapState
  content : Nat → Option UInt8

def Heap.step (h : Heap) : Use → Option Heap
  | .call c => (heapStep h.state c).map fun t =>
    ⟨t, fun i => if ∃ r ∈ h.state.live, r ∈ t.live ∧ Within i r then h.content i else none⟩
  | .store a v =>
    if ∃ r ∈ h.state.live, Within a r then
      some { h with content := fun i => if i = a then some v else h.content i }
    else if a < heapStart ∨ heapEnd ≤ a then some h
    else none

def Heap.start : Heap := ⟨Kmalloc.start, fun _ => none⟩

def UseFits (h : Heap) : Use → Prop
  | .call c => SplitFits h.state c
  | .store _ _ => True

instance (h : Heap) : (u : Use) → Decidable (UseFits h u)
  | .call c => inferInstanceAs (Decidable (SplitFits h.state c))
  | .store _ _ => .isTrue trivial

structure Represents (s : KernelMemory) (h : Heap) : Prop where
  blocks : Blocks s.memory heapStart h.state.blocks 0
  live : s.live = h.state.live
  kept : ∀ i v, h.content i = some v → s.memory i = v

section
variable {m m' : Memory} {lo p q size n : Nat} {b c : HeapBlock} {bs pre post : List HeapBlock}

/-! ### split_block -/

theorem initHeap_blocks (m : Memory) : Blocks (initHeap m) heapStart Kmalloc.initHeap 0 := by
  refine ⟨rfl, by decide, ⟨?_, ?_⟩, le32_store32 (by decide)⟩
  · exact (le32_store32_out (by decide)).trans
      ((le32_store8_out (by decide)).trans (le32_store32 (by decide)))
  · change (store32 _ _ _ (heapStart + 4) != 0) = true
    rw [store32_out (by decide), store8_self]
    rfl

theorem sameHeader_apart (hm : ∀ i, i < b.addr ∨ b.stop ≤ i → m' i = m i)
    (h : c.stop ≤ b.addr ∨ b.stop ≤ c.addr) : SameHeader m m' c.addr := fun i hlo hhi => by
  refine hm i ?_
  unfold HeapBlock.stop headerSize at *
  omega

theorem cut_header (p : Nat) (m : Memory) (hs : size < 4294967296) :
    HasHeader (store8 (p + 4) 0 (store32 p size m)) ⟨p, size, false⟩ ∧
      nextOf (store8 (p + 4) 0 (store32 p size m)) p = nextOf m p := by
  have hsize : le32 (store8 (p + 4) 0 (store32 p size m)) p = size :=
    (le32_store8_out (by omega)).trans (le32_store32 hs)
  have hfree : (store8 (p + 4) 0 (store32 p size m) (p + 4) != 0) = false := by
    rw [store8_self]
    rfl
  exact ⟨⟨hsize, hfree⟩, (le32_store8_out (by omega)).trans (le32_store32_out (by omega))⟩

theorem new_header {x : Nat} (a : Nat) (m : Memory) (hs : size < 4294967296) (hx : x < 4294967296) :
    HasHeader (store32 (a + 8) x (store8 (a + 4) 1 (store32 a size m))) ⟨a, size, true⟩ ∧
      nextOf (store32 (a + 8) x (store8 (a + 4) 1 (store32 a size m))) a = x := by
  have hsize : le32 (store32 (a + 8) x (store8 (a + 4) 1 (store32 a size m))) a = size :=
    (le32_store32_out (by omega)).trans ((le32_store8_out (by omega)).trans (le32_store32 hs))
  have hfree : (store32 (a + 8) x (store8 (a + 4) 1 (store32 a size m)) (a + 4) != 0) = true := by
    rw [store32_out (by omega), store8_self]
    rfl
  exact ⟨⟨hsize, hfree⟩, le32_store32 hx⟩

theorem link_header {x : Nat} (h : HasHeader m b) (hx : x < 4294967296) :
    HasHeader (store32 (b.addr + 8) x m) b ∧ nextOf (store32 (b.addr + 8) x m) b.addr = x := by
  have hfree : (store32 (b.addr + 8) x m (b.addr + 4) != 0) = b.isFree := by
    rw [store32_out (by omega)]
    exact h.2
  exact ⟨⟨(le32_store32_out (by omega)).trans h.1, hfree⟩, le32_store32 hx⟩

theorem splitBlock_segment (hb : HasHeader m b) (h0 : b.addr ≠ 0)
    (hstop : b.addr + headerSize + b.size ≤ 4194304) (hfit : size + headerSize ≤ b.size) :
    Blocks (splitBlock b.addr size m) b.addr (Kmalloc.splitBlock b size) (nextOf m b.addr) ∧
      ∀ i, i < b.addr ∨ b.stop ≤ i → splitBlock b.addr size m i = m i := by
  unfold headerSize at hstop hfit
  have hr : sub32 (sub32 b.size size) headerSize = b.size - size - 12 := by
    rw [sub32_eq (a := b.size) (by omega) (by omega), sub32_eq (by unfold headerSize; omega) (by omega)]
    rfl
  unfold splitBlock Kmalloc.splitBlock HeapBlock.stop
  rw [hb.1, hr]
  dsimp only
  unfold headerSize
  split
  · have hsize : size < 4294967296 := by omega
    obtain ⟨hcut, hnext⟩ := cut_header b.addr m hsize
    refine ⟨⟨rfl, h0, hcut, hnext⟩, fun i hi => ?_⟩
    rw [store8_ne (by omega), store32_out (by omega)]
  · rw [wrap_eq (by omega)]
    obtain ⟨a, ha⟩ : ∃ a, a = b.addr + 12 + size := ⟨_, rfl⟩
    obtain ⟨x, hx⟩ : ∃ x, x = nextOf m b.addr := ⟨_, rfl⟩
    have hnext : nextOf (store8 (a + 4) 1 (store32 a (b.size - size - 12) m)) b.addr = x :=
      (le32_store8_out (by omega)).trans ((le32_store32_out (by omega)).trans hx.symm)
    rw [← ha, hnext, ← hx]
    obtain ⟨m₁, hm₁⟩ : ∃ m₁, m₁ =
      store32 (a + 8) x (store8 (a + 4) 1 (store32 a (b.size - size - 12) m)) := ⟨_, rfl⟩
    obtain ⟨m₂, hm₂⟩ : ∃ m₂, m₂ =
      store32 (b.addr + 8) a (store8 (b.addr + 4) 0 (store32 b.addr size m₁)) := ⟨_, rfl⟩
    rw [← hm₁, ← hm₂]
    have hx32 : x < 4294967296 := hx ▸ le32_lt ..
    have hsize : size < 4294967296 := by omega
    have hrest : b.size - size - 12 < 4294967296 := by omega
    have ha32 : a < 4294967296 := by omega
    obtain ⟨hnew, hlast⟩ := new_header a m hrest hx32
    obtain ⟨hused, hlink⟩ : HasHeader m₂ ⟨b.addr, size, false⟩ ∧ nextOf m₂ b.addr = a :=
      hm₂ ▸ link_header (cut_header b.addr m₁ hsize).1 ha32
    rw [← hm₁] at hnew hlast
    have hsame : SameHeader m₁ m₂ a := fun i hlo _ => by
      rw [hm₂, store32_out (by omega), store8_ne (by omega), store32_out (by omega)]
    refine ⟨⟨rfl, h0, hused, ?_⟩, fun i hi => ?_⟩
    · rw [hlink]
      exact ⟨rfl, by omega, hasHeader_congr hsame hnew, (next_congr hsame).trans hlast⟩
    · rw [hm₂, store32_out (by omega), store8_ne (by omega), store32_out (by omega), hm₁,
        store32_out (by omega), store8_ne (by omega), store32_out (by omega)]

theorem splitBlock_blocks (h : HeapLaid lo (pre ++ b :: post)) (hchain : Blocks m p (pre ++ b :: post) q)
    (hfit : size + headerSize ≤ b.size) :
    Blocks (splitBlock b.addr size m) p (pre ++ (Kmalloc.splitBlock b size ++ post)) q ∧
      ∀ i, i < b.addr ∨ b.stop ≤ i → splitBlock b.addr size m i = m i := by
  have hstop := h.stop_lt (List.mem_append_right pre List.mem_cons_self)
  obtain ⟨r, hpre, rfl, h0, hb, hpost⟩ := segment_append.mp hchain
  obtain ⟨hmid, hout⟩ := splitBlock_segment hb h0 hstop hfit
  obtain ⟨-, hrest, hsides⟩ := List.pairwise_append.mp h.pairwise
  have hbefore : ∀ c ∈ pre, SameHeader m (splitBlock b.addr size m) c.addr := fun c hc =>
    sameHeader_apart hout (.inl (hsides c hc b List.mem_cons_self))
  have hbehind : ∀ c ∈ post, SameHeader m (splitBlock b.addr size m) c.addr := fun c hc =>
    sameHeader_apart hout (.inr ((List.pairwise_cons.mp hrest).1 c hc))
  refine ⟨segment_append.mpr ⟨b.addr, blocks_congr hpre hbefore, ?_⟩, hout⟩
  exact segment_append.mpr ⟨nextOf m b.addr, hmid, blocks_congr hpost hbehind⟩

/-! ### kmalloc -/

theorem length_lt_rounds (h : HeapLaid heapStart bs) : bs.length < rounds := by
  have hlen := h.length_le fun x => by
    unfold HeapBlock.stop headerSize
    omega
  exact Nat.lt_of_le_of_lt hlen (by decide)

theorem fitsAt_eq (hb : HasHeader m b) : fitsAt m size b.addr = fits size b := by
  rw [fitsAt, hb.1, hb.2]
  rfl

/-- kmalloc returns what it returns on the list, and writes only in a free block. -/
theorem kmalloc_blocks (h : HeapLaid heapStart bs) (hchain : Blocks m heapStart bs 0)
    (hfit : 0 < size → ∀ b ∈ bs.find? (fits size), size + headerSize ≤ b.size) :
    ∃ m', kmalloc rounds size m = some ((Kmalloc.kmalloc size bs).1, m') ∧
      Blocks m' heapStart (Kmalloc.kmalloc size bs).2 0 ∧
      ∀ i, (∀ b ∈ bs, b.isFree = true → i < b.addr ∨ b.stop ≤ i) → m' i = m i := by
  by_cases h0 : size = 0
  · rw [kmalloc, if_pos h0, Kmalloc.kmalloc, if_pos h0]
    exact ⟨m, rfl, hchain, fun _ _ => rfl⟩
  have hpos := Nat.pos_of_ne_zero h0
  have heads : ∀ b ∈ bs, fitsAt m size b.addr = fits size b := fun b hb => fitsAt_eq (hchain.forall b hb)
  rw [kmalloc, if_neg h0]
  rcases kmalloc_cases hpos bs with ⟨he, hno⟩ | ⟨pre, b, post, hfound⟩
  · rw [he]
    rcases @Segment.walk _ _ _ _ _ _ (fitsAt m size) rounds 0 hchain (length_lt_rounds h) with
      ⟨ys, x, zs, hxs, hx, -⟩ | ⟨-, hw⟩
    · have hmem : x ∈ bs := by
        rw [hxs]
        exact List.mem_append_right ys List.mem_cons_self
      rw [heads x hmem, hno x hmem] at hx
      cases hx
    · rw [hw]
      exact ⟨m, rfl, hchain, fun _ _ => rfl⟩
  · have hmem : b ∈ bs := by
      rw [hfound.list]
      exact List.mem_append_right pre List.mem_cons_self
    have hstop := h.stop_lt hmem
    have hlen := length_lt_rounds h
    have hroom : pre.length < rounds := by
      rw [hfound.list, List.length_append] at hlen
      omega
    have hpass : ∀ y ∈ pre, fitsAt m size y.addr = false := fun y hy =>
      (heads y (hfound.list ▸ List.mem_append_left _ hy)).trans (hfound.first y hy)
    obtain ⟨t, hw⟩ : ∃ t, walk (nextOf m) (fitsAt m size) rounds 0 heapStart = some (t, b.addr) :=
      Segment.walk_to (hfound.list ▸ hchain) hpass ((heads b hmem).trans hfound.serves) hroom
    obtain ⟨hblocks, hout⟩ := splitBlock_blocks (hfound.list ▸ h) (hfound.list ▸ hchain)
      (hfit hpos b hfound.find)
    have haddr : b.addr ≠ 0 := fun he => by
      have hlo := (h.bounds hmem).1
      rw [he] at hlo
      exact absurd hlo (by decide)
    refine ⟨splitBlock b.addr size m, ?_, ?_, fun i hi => hout i (hi b hmem (fits_iff.mp hfound.serves).1)⟩
    · rw [hw, hfound.taken hpos, Option.map_some]
      dsimp only
      rw [if_neg haddr, wrap_eq (by omega)]
      rfl
    · rw [hfound.taken hpos]
      exact hblocks

/-! ### kfree -/

/-- kfree writes only in headers of free blocks and of the block it frees. -/
theorem kfree_frame (h : HeapLaid heapStart bs) (hchain : Blocks m heapStart bs 0) (hb : b ∈ bs) :
    ∃ m', Coalesce.kfree rounds heapStart b.payload m = some m' ∧
      Blocks m' heapStart (Kmalloc.kfree b.payload bs) 0 ∧
      ∀ i, (∀ c ∈ bs, c.isFree = true ∨ c = b → i < c.addr ∨ c.addr + headerSize ≤ i) → m' i = m i := by
  have hend := h.stop_lt hb
  have hpos : b.payload ≠ 0 := Nat.succ_ne_zero _
  have haddr : b.addr = sub32 b.payload headerSize := by
    unfold HeapBlock.payload
    rw [sub32_eq (Nat.le_add_left _ _) (by omega), Nat.add_sub_cancel]
  have hfreed : Blocks (store8 (b.addr + 4) 1 m) heapStart (bs.map (release b.payload)) 0 :=
    hchain.map fun c hc => by
      have hone := release_hasHeader (hchain.forall c hc) haddr (h.apart hc hb)
      exact ⟨(release_extent b.payload c).1, hone.1, fun _ => hone.2⟩
  obtain ⟨m', hrun, hblocks, honly⟩ :=
    coalesceBlocks_blocks (h.map (release_extent b.payload)) (by decide) hfreed
  refine ⟨m', ?_, ?_, fun i hi => ?_⟩
  · rw [Coalesce.kfree, if_neg hpos, ← haddr]
    exact hrun rounds (by rw [List.length_map]; exact length_lt_rounds h)
  · rw [Kmalloc.kfree, if_neg hpos]
    exact hblocks
  · have hself := hi b hb (.inr rfl)
    have hbyte : store8 (b.addr + 4) 1 m i = m i := store8_ne (by unfold headerSize at hself; omega)
    refine (honly i fun d hd hdfree => ?_).trans hbyte
    obtain ⟨c, hc, rfl⟩ := List.mem_map.mp hd
    rw [(release_extent b.payload c).1]
    refine hi c hc ?_
    by_cases hcb : c.addr = sub32 b.payload headerSize
    · rcases h.apart hc hb with he | hapart
      · exact .inr he
      · unfold HeapBlock.stop headerSize at hapart
        omega
    · rw [release, if_neg hcb] at hdfree
      exact .inl hdfree

end

/-! ### Runs -/

section
variable {s : KernelMemory} {h h' : Heap} {i : Nat} {r : Nat × Nat} {b : HeapBlock} {bs : List HeapBlock}

structure HeapOk (h : Heap) : Prop where
  inv : HeapInv h.state
  held : ∀ i v, h.content i = some v → ∃ r ∈ h.state.live, Within i r

theorem start_ok : HeapOk Heap.start := ⟨start_inv, fun _ _ hv => nomatch hv⟩

/-- What lies in an allocation lies in no free block and in no other one. -/
theorem within_apart (hi : HeapInv h.state) (hr : r ∈ h.state.live) (hin : Within i r) {c : HeapBlock}
    (hc : c ∈ h.state.blocks) (hne : c.isFree = true ∨ c.payload ≠ r.1) : i < c.addr ∨ c.stop ≤ i := by
  obtain ⟨b, hb, hused, rfl⟩ := hi.live_block hr
  rcases hi.laid.apart hb hc with rfl | hapart
  · rcases hne with hfree | hne
    · rw [hused] at hfree
      cases hfree
    · exact absurd rfl hne
  · unfold Within HeapBlock.payload at hin
    unfold HeapBlock.stop headerSize at *
    dsimp only at hin
    omega

theorem step_ok {u : Use} (h0 : HeapOk h) (hg : UseFits h u) (hs : h.step u = some h') : HeapOk h' := by
  cases u with
  | call c =>
    obtain ⟨t, ht, rfl⟩ := Option.map_eq_some_iff.mp hs
    refine ⟨heapStep_inv c h0.inv hg ht, fun i v hv => ?_⟩
    by_cases hkeep : ∃ r ∈ h.state.live, r ∈ t.live ∧ Within i r
    · obtain ⟨r, -, hr, hin⟩ := hkeep
      exact ⟨r, hr, hin⟩
    · exact absurd ((if_neg hkeep).symm.trans hv) (by simp)
  | store a v =>
    rw [Heap.step] at hs
    split at hs
    · next hin =>
      cases hs
      refine ⟨h0.inv, fun i w hw => ?_⟩
      by_cases hia : i = a
      · exact hia ▸ hin
      · exact h0.held i w ((if_neg hia).symm.trans hw)
    · split at hs
      · cases hs
        exact h0
      · cases hs

theorem within_header (hi : HeapInv h.state) (hr : r ∈ h.state.live) (hin : Within i r) {c : HeapBlock}
    (hc : c ∈ h.state.blocks) : i < c.addr ∨ c.addr + headerSize ≤ i := by
  by_cases hp : c.payload = r.1
  · exact .inr (Nat.le_trans (Nat.le_of_eq hp) hin.1)
  · refine (within_apart hi hr hin hc (.inr hp)).imp_right fun hstop => ?_
    exact Nat.le_trans (Nat.le_add_right _ _) hstop

/-- A call keeps what was stored, if it writes in no allocation that stays. -/
theorem call_kept {t : HeapState} {m' : Memory} (hr : Represents s h)
    (hsame : ∀ r ∈ h.state.live, r ∈ t.live → ∀ i, Within i r → m' i = s.memory i) (i : Nat) (v : UInt8)
    (hv : (if ∃ r ∈ h.state.live, r ∈ t.live ∧ Within i r then h.content i else none) = some v) :
    m' i = v := by
  by_cases hkeep : ∃ r ∈ h.state.live, r ∈ t.live ∧ Within i r
  · have hold := hr.kept i v ((if_pos hkeep).symm.trans hv)
    obtain ⟨r, hr₀, hr₁, hin⟩ := hkeep
    exact (hsame r hr₀ hr₁ i hin).trans hold
  · exact absurd ((if_neg hkeep).symm.trans hv) (by simp)

theorem kmalloc_represents {size : Nat} (hr : Represents s h) (h0 : HeapOk h)
    (hg : SplitFits h.state (.kmalloc size)) (hs : h.step (.call (.kmalloc size)) = some h') :
    ∃ s', s.step (.call (.kmalloc size)) = some s' ∧ Represents s' h' := by
  obtain ⟨m', hrun, hblocks, hout⟩ := kmalloc_blocks h0.inv.laid hr.blocks hg
  rw [Heap.step] at hs
  obtain ⟨t, ht, rfl⟩ := Option.map_eq_some_iff.mp hs
  obtain rfl := Option.some.inj ht
  refine ⟨⟨m', _⟩, by rw [KernelMemory.step, hrun, hr.live]; rfl, hblocks, rfl, call_kept hr ?_⟩
  exact fun r hr₀ _ i hin => hout i fun b hb hfree => within_apart h0.inv hr₀ hin hb (.inl hfree)

theorem kfree_represents {ptr : Nat} (hr : Represents s h) (h0 : HeapOk h)
    (hs : h.step (.call (.kfree ptr)) = some h') :
    ∃ s', s.step (.call (.kfree ptr)) = some s' ∧ Represents s' h' := by
  obtain ⟨t, ht, rfl⟩ := Option.map_eq_some_iff.mp hs
  rw [heapStep] at ht
  split at ht
  · next hptr =>
    obtain rfl := Option.some.inj ht
    rcases hptr with rfl | hlive
    · refine ⟨⟨s.memory, _⟩, by rw [KernelMemory.step, Coalesce.kfree, if_pos rfl, hr.live]; rfl, ?_, rfl,
        call_kept hr fun _ _ _ _ _ => rfl⟩
      rw [Kmalloc.kfree, if_pos rfl]
      exact hr.blocks
    · obtain ⟨a, ha, rfl⟩ := List.mem_map.mp hlive
      obtain ⟨b, hb, -, rfl⟩ := h0.inv.live_block ha
      obtain ⟨m', hrun, hblocks, hout⟩ := kfree_frame h0.inv.laid hr.blocks hb
      refine ⟨⟨m', _⟩, by rw [KernelMemory.step, hrun, hr.live]; rfl, hblocks, rfl, call_kept hr ?_⟩
      exact fun r hr₀ _ i hin => hout i fun c hc _ => within_header h0.inv hr₀ hin hc
  · cases ht

theorem store_represents {a : Nat} {v : UInt8} (hr : Represents s h) (h0 : HeapOk h)
    (hs : h.step (.store a v) = some h') : ∃ s', s.step (.store a v) = some s' ∧ Represents s' h' := by
  have hheaders : (∀ c ∈ h.state.blocks, a < c.addr ∨ c.addr + headerSize ≤ a) →
      Blocks (store8 a v s.memory) heapStart h.state.blocks 0 := fun hout =>
    blocks_congr hr.blocks fun c hc i _ _ => store8_ne (by have := hout c hc; omega)
  rw [Heap.step] at hs
  split at hs
  · next hin =>
    cases hs
    obtain ⟨r, hr₀, hin⟩ := hin
    refine ⟨_, rfl, hheaders fun c hc => within_header h0.inv hr₀ hin hc, hr.live, fun i w hw => ?_⟩
    by_cases hia : i = a
    · exact (if_pos hia).trans (Option.some.inj ((if_pos hia).symm.trans hw))
    · exact (store8_ne hia).trans (hr.kept i w ((if_neg hia).symm.trans hw))
  · split at hs
    · next hout =>
      cases hs
      have hfar : ∀ i w, h.content i = some w → i ≠ a := fun i w hw => by
        obtain ⟨r, hr₀, hin⟩ := h0.held i w hw
        have hinside := h0.inv.safe.inside r hr₀
        unfold Within at hin
        omega
      refine ⟨_, rfl, hheaders fun c hc => ?_, hr.live, fun i w hw => ?_⟩
      · have hbounds := h0.inv.laid.bounds hc
        unfold HeapBlock.stop at hbounds
        omega
      · exact (store8_ne (hfar i w hw)).trans (hr.kept i w hw)
    · cases hs

/-- A step of the heap as it is meant is a step of the memory. -/
theorem step_represents {u : Use} (hr : Represents s h) (h0 : HeapOk h) (hg : UseFits h u)
    (hs : h.step u = some h') : ∃ s', s.step u = some s' ∧ Represents s' h' := by
  cases u with
  | call c =>
    cases c with
    | kmalloc size => exact kmalloc_represents hr h0 hg hs
    | kfree ptr => exact kfree_represents hr h0 hs
  | store a v => exact store_represents hr h0 hs

theorem run_represents (us : List Use) (hr : Represents s h) (h0 : HeapOk h)
    (hg : Guarded Heap.step UseFits us h) (hrun : run Heap.step us h = some h') :
    ∃ s', run KernelMemory.step us s = some s' ∧ Represents s' h' := by
  induction us generalizing s h with
  | nil =>
    cases hrun
    exact ⟨s, rfl, hr⟩
  | cons u us ih =>
    obtain ⟨t, ht, hrest⟩ := Option.bind_eq_some_iff.mp hrun
    obtain ⟨s₁, hs₁, hr₁⟩ := step_represents hr h0 hg.1 ht
    obtain ⟨s', hs', hr'⟩ := ih hr₁ (step_ok h0 hg.1 ht) (hg.2 t ht) hrest
    exact ⟨s', Option.bind_eq_some_iff.mpr ⟨s₁, hs₁, hs'⟩, hr'⟩

end

/-- Whatever was in memory before init_heap: as long as the heap is used as it is meant to be, the loops
end, kmalloc returns the pointers it returns on the list of blocks, the headers in memory are that list,
and what was stored in an allocation is there until it is given back. -/
theorem memory_refines (m : Memory) {us : List Use} {h : Heap}
    (hg : Guarded Heap.step UseFits us Heap.start) (hrun : run Heap.step us Heap.start = some h) :
    ∃ s, run KernelMemory.step us ⟨initHeap m, []⟩ = some s ∧ Represents s h :=
  run_represents us ⟨initHeap_blocks m, rfl, fun _ v hv => nomatch (hv : none = some v)⟩ start_ok hg hrun

def sampleUses : List Use :=
  [.call (.kmalloc 100), .call (.kmalloc 24), .store 0x10007C 65, .call (.kfree 0x10000C), .store 0x1000 1,
    .call (.kmalloc 40)]

theorem sampleUses_kept :
    ((run Heap.step sampleUses Heap.start).bind fun h => h.content 0x10007C) = some 65 := by
  decide +kernel

theorem sampleUses_refined : ∃ h s, run Heap.step sampleUses Heap.start = some h ∧
    run KernelMemory.step sampleUses ⟨initHeap fun _ => 0xAA, []⟩ = some s ∧ Represents s h ∧
    s.memory 0x10007C = 65 := by
  obtain ⟨h, hrun, hv⟩ := Option.bind_eq_some_iff.mp sampleUses_kept
  obtain ⟨s, hs, hr⟩ := memory_refines (fun _ => 0xAA) (by decide +kernel) hrun
  exact ⟨h, s, hrun, hs, hr, hr.kept _ _ hv⟩

end AdamOS.HeapMemory
