import AdamOS.Kernel.KmallocReuse
import AdamOS.Programs.Malloc

/-! coalesce_blocks on the headers in memory. It rewrites the list it walks and stays at a free block that
it has extended, so every run of free blocks becomes one block, and the blocks in use stay. -/
namespace AdamOS.Coalesce
open AdamOS.Fat16 AdamOS.Kmalloc AdamOS.Layout AdamOS.Linked AdamOS.Word
open AdamOS.Malloc (Memory SameHeader store8 store32 store8_self store8_ne store32_out le32_lt le32_congr
  le32_store32 le32_store32_out le32_store8_out)

/- The fields of heap_block_header_t: size at 0, is_free at 4, next at 8. -/
def sizeOf (m : Memory) (p : Nat) : Nat := le32 m p
def isFree (m : Memory) (p : Nat) : Bool := m (p + 4) != 0
def nextOf (m : Memory) (p : Nat) : Nat := le32 m (p + 8)

def mergeBlocks (prev block : Nat) (m : Memory) : Memory :=
  let m := store32 prev (wrap (sizeOf m prev + (sizeOf m block + headerSize))) m
  store32 (prev + 8) (nextOf m block) m

/- The while loop with prev and block; none is a loop that goes on after n rounds. -/
def coalesceLoop : Nat → Nat → Nat → Memory → Option Memory
  | 0, _, _, _ => none
  | n+1, prev, block, m =>
    if block = 0 then some m
    else if prev ≠ 0 ∧ isFree m prev = true ∧ isFree m block = true then
      let m := mergeBlocks prev block m
      coalesceLoop n prev (nextOf m block) m
    else coalesceLoop n block (nextOf m block) m

def coalesceBlocks (n head : Nat) (m : Memory) : Option Memory := coalesceLoop n 0 head m

def kfree (n head ptr : Nat) (m : Memory) : Option Memory :=
  if ptr = 0 then some m else coalesceBlocks n head (store8 (sub32 ptr headerSize + 4) 1 m)

/-! ### Headers -/

def HasHeader (m : Memory) (b : HeapBlock) : Prop :=
  sizeOf m b.addr = b.size ∧ isFree m b.addr = b.isFree

abbrev Blocks (m : Memory) : Nat → List HeapBlock → Nat → Prop :=
  Segment HeapBlock.addr (nextOf m) (HasHeader m)

def OnlyFree (bs : List HeapBlock) (m m' : Memory) : Prop :=
  ∀ i, (∀ b ∈ bs, b.isFree = true → i < b.addr ∨ b.addr + headerSize ≤ i) → m' i = m i

section
variable {m m' : Memory} {n p q lo hi : Nat} {b c : HeapBlock} {bs : List HeapBlock}

theorem next_congr (hs : SameHeader m m' p) : nextOf m' p = nextOf m p :=
  le32_congr fun i _ _ => hs i (by omega) (by unfold headerSize; omega)

theorem hasHeader_congr (hs : SameHeader m m' b.addr) (hb : HasHeader m b) : HasHeader m' b := by
  refine ⟨?_, ?_⟩
  · rw [← hb.1]
    exact le32_congr fun i _ _ => hs i (by omega) (by unfold headerSize; omega)
  · rw [← hb.2, isFree, isFree, hs (b.addr + 4) (by omega) (by unfold headerSize; omega)]

theorem blocks_congr (h : Blocks m p bs q) (hs : ∀ b ∈ bs, SameHeader m m' b.addr) : Blocks m' p bs q :=
  h.congr fun b hb => ⟨next_congr (hs b hb), hasHeader_congr (hs b hb)⟩

/-- The extended block has the sum of the sizes and the link of the other one. -/
theorem mergeBlocks_spec (hb : HasHeader m b) (hc : HasHeader m c) (hle : b.addr + headerSize ≤ c.addr) :
    HasHeader (mergeBlocks b.addr c.addr m) (merged b c) ∧
      nextOf (mergeBlocks b.addr c.addr m) b.addr = nextOf m c.addr ∧
      ∀ i, i < b.addr ∨ b.addr + headerSize ≤ i → mergeBlocks b.addr c.addr m i = m i := by
  unfold headerSize at hle
  have hnext : ∀ v, nextOf (store32 b.addr v m) c.addr = nextOf m c.addr := fun v =>
    le32_store32_out (by omega)
  unfold mergeBlocks
  rw [hb.1, hc.1]
  dsimp only
  rw [hnext]
  refine ⟨⟨?_, ?_⟩, le32_store32 (le32_lt ..), fun i hi => ?_⟩
  · change le32 _ b.addr = _
    exact (le32_store32_out (by omega)).trans (le32_store32 (wrap_lt _))
  · refine Eq.trans ?_ hb.2
    change (store32 _ _ _ (b.addr + 4) != 0) = _
    rw [store32_out (by omega), store32_out (by omega)]
    rfl
  · unfold headerSize at hi
    rw [store32_out (by omega), store32_out (by omega)]

/-! ### The loop -/

theorem coalesceLoop_merge (hp : p ≠ 0) (hq : q ≠ 0) (hfree : isFree m p = true)
    (hfree' : isFree m q = true) : coalesceLoop (n + 1) p q m =
      coalesceLoop n p (nextOf (mergeBlocks p q m) q) (mergeBlocks p q m) := by
  rw [coalesceLoop, if_neg hq, if_pos ⟨hp, hfree, hfree'⟩]

theorem coalesceLoop_next (hq : q ≠ 0) (h : ¬(p ≠ 0 ∧ isFree m p = true ∧ isFree m q = true)) :
    coalesceLoop (n + 1) p q m = coalesceLoop n q (nextOf m q) m := by
  rw [coalesceLoop, if_neg hq, if_neg h]

/-- The loop makes of the blocks from prev on what coalesceFrom makes of the list, and ends within one round
more than there are blocks after prev. -/
theorem coalesceLoop_blocks (h : Laid HeapBlock.addr HeapBlock.stop lo hi (b :: bs)) (hhi : hi ≤ 4294967296)
    (h0 : b.addr ≠ 0) (hb : HasHeader m b) (hchain : Blocks m (nextOf m b.addr) bs 0) :
    ∃ m', (∀ n, bs.length < n → coalesceLoop n b.addr (nextOf m b.addr) m = some m') ∧
      Blocks m' b.addr (coalesceFrom b bs) 0 ∧ OnlyFree (b :: bs) m m' := by
  induction bs generalizing lo b m with
  | nil =>
    have hend : nextOf m b.addr = 0 := hchain
    refine ⟨m, fun n hn => ?_, ⟨rfl, h0, hb, hend⟩, fun _ _ => rfl⟩
    obtain ⟨n, rfl⟩ := Nat.exists_eq_add_of_lt hn
    rw [coalesceLoop, if_pos hend]
  | cons c bs ih =>
    obtain ⟨-, -, hmid⟩ := laid_cons.mp h
    obtain ⟨hnext, hc0, hc, hrest⟩ := hchain
    have hbc := (laid_cons.mp hmid).1
    have hroom : b.addr + headerSize ≤ c.addr := Nat.le_trans (Nat.le_add_right _ _) hbc
    have hfrom : ∀ d ∈ c :: bs, b.addr + headerSize ≤ d.addr := fun d hd =>
      Nat.le_trans (Nat.le_add_right _ _) (hmid.bounds hd).1
    rw [hnext] at hc0 hrest
    by_cases hfree : b.isFree = true ∧ c.isFree = true
    · -- prev stays, with the header of the merged block
      obtain ⟨hmerged, hlink, hout⟩ := mergeBlocks_spec hb hc hroom
      have hsame : ∀ d ∈ c :: bs, SameHeader m (mergeBlocks b.addr c.addr m) d.addr := fun d hd i hi _ =>
        hout i (.inr (Nat.le_trans (hfrom d hd) hi))
      have hblocks : Blocks (mergeBlocks b.addr c.addr m)
          (nextOf (mergeBlocks b.addr c.addr m) b.addr) bs 0 := by
        rw [hlink]
        exact blocks_congr hrest fun d hd => hsame d (List.mem_cons_of_mem _ hd)
      obtain ⟨m', hrun, hblocks', honly⟩ := ih (merge_laid h hhi) h0 hmerged hblocks
      refine ⟨m', fun n hn => ?_, ?_, fun i hi => ?_⟩
      · obtain ⟨n, rfl⟩ := Nat.exists_eq_add_of_lt hn
        rw [hnext, coalesceLoop_merge h0 hc0 (hb.2.trans hfree.1) (hc.2.trans hfree.2),
          next_congr (hsame c List.mem_cons_self), ← hlink]
        exact hrun _ (by rw [List.length_cons]; omega)
      · rw [coalesceFrom, if_pos (Bool.and_eq_true_iff.mpr hfree)]
        exact hblocks'
      · refine (honly i fun d hd hdfree => ?_).trans (hout i (hi b List.mem_cons_self hfree.1))
        rcases List.mem_cons.mp hd with rfl | hd
        · exact hi b List.mem_cons_self hfree.1
        · exact hi d (List.mem_cons_of_mem _ (List.mem_cons_of_mem _ hd)) hdfree
    · obtain ⟨m', hrun, hblocks', honly⟩ := ih hmid hc0 hc hrest
      have hsame : SameHeader m m' b.addr := fun i _ hi => honly i fun d hd _ =>
        .inl (Nat.lt_of_lt_of_le hi (hfrom d hd))
      have hstay : ¬(b.addr ≠ 0 ∧ isFree m b.addr = true ∧ isFree m c.addr = true) := fun hall =>
        hfree ⟨hb.2.symm.trans hall.2.1, hc.2.symm.trans hall.2.2⟩
      refine ⟨m', fun n hn => ?_, ?_, fun i hi => honly i fun d hd => hi d (List.mem_cons_of_mem _ hd)⟩
      · obtain ⟨n, rfl⟩ := Nat.exists_eq_add_of_lt hn
        rw [hnext, coalesceLoop_next hc0 hstay]
        exact hrun _ (by rw [List.length_cons]; omega)
      · rw [coalesceFrom, if_neg fun hall => hfree (Bool.and_eq_true_iff.mp hall)]
        refine ⟨rfl, h0, hasHeader_congr hsame hb, ?_⟩
        rw [next_congr hsame, hnext]
        exact hblocks'

/-- coalesce_blocks makes of the blocks in memory what it makes of the list. -/
theorem coalesceBlocks_blocks (h : Laid HeapBlock.addr HeapBlock.stop lo hi bs) (hhi : hi ≤ 4294967296)
    (hchain : Blocks m p bs 0) : ∃ m', (∀ n, bs.length < n → coalesceBlocks n p m = some m') ∧
      Blocks m' p (Kmalloc.coalesceBlocks bs) 0 ∧ OnlyFree bs m m' := by
  cases bs with
  | nil =>
    obtain rfl : p = 0 := hchain
    refine ⟨m, fun n hn => ?_, rfl, fun _ _ => rfl⟩
    obtain ⟨n, rfl⟩ := Nat.exists_eq_add_of_lt hn
    rw [coalesceBlocks, coalesceLoop, if_pos rfl]
  | cons b bs =>
    obtain ⟨rfl, h0, hb, hrest⟩ := hchain
    obtain ⟨m', hrun, hblocks, honly⟩ := coalesceLoop_blocks h hhi h0 hb hrest
    refine ⟨m', fun n hn => ?_, hblocks, honly⟩
    obtain ⟨n, rfl⟩ := Nat.exists_eq_add_of_lt hn
    rw [coalesceBlocks, coalesceLoop_next h0 fun hall => hall.1 rfl]
    exact hrun _ (by rw [List.length_cons]; omega)

/-! ### The list -/

theorem coalesceFrom_filled (h : Filled HeapBlock.addr HeapBlock.stop lo hi (b :: bs))
    (hhi : hi ≤ 4294967296) : Filled HeapBlock.addr HeapBlock.stop lo hi (coalesceFrom b bs) := by
  induction bs generalizing lo b with
  | nil => exact h
  | cons c bs ih =>
    obtain ⟨hlo, hstop, hmid⟩ := filled_cons.mp h
    obtain ⟨hbc, -, hrest⟩ := filled_cons.mp hmid
    rw [coalesceFrom]
    split
    · have hstopped : b.addr + headerSize + (b.size + (c.size + headerSize)) = c.stop := by
        unfold HeapBlock.stop at *
        omega
      rw [merge_size h.laid hhi]
      rw [← hstopped] at hrest
      exact ih ⟨hlo, Nat.le_trans (Nat.le_add_right _ headerSize) (Nat.le_add_right _ _), hrest⟩
    · exact ⟨hlo, hstop, ih hmid⟩

end

/-- A list without gaps stays one, over the same bytes: each block in use is there as it was, in its place,
no free block follows a free block, and only headers of free blocks are written. -/
theorem coalesceBlocks_complete {m : Memory} {head lo hi : Nat} {bs : List HeapBlock}
    (hchain : Blocks m head bs 0) (hfilled : Filled HeapBlock.addr HeapBlock.stop lo hi bs)
    (hhi : hi ≤ 4294967296) :
    ∃ m' cs, (∀ n, bs.length < n → coalesceBlocks n head m = some m') ∧ Blocks m' head cs 0 ∧
      Filled HeapBlock.addr HeapBlock.stop lo hi cs ∧
      cs.filter (fun b => !b.isFree) = bs.filter (fun b => !b.isFree) ∧ Spread cs ∧ OnlyFree bs m m' := by
  obtain ⟨m', hrun, hblocks, honly⟩ := coalesceBlocks_blocks hfilled.laid hhi hchain
  refine ⟨m', _, hrun, hblocks, ?_, ?_, coalesceBlocks_spread bs, honly⟩
  · cases bs with
    | nil => exact hfilled
    | cons b bs => exact coalesceFrom_filled hfilled hhi
  · cases bs with
    | nil => rfl
    | cons b bs => exact coalesceFrom_inUse bs b

def threeBlocks (i : Nat) : UInt8 :=
  [8, 0, 0, 0, 1, 0, 0, 0, 36, 0, 0, 0, 0, 0, 0, 0, 0, 0, 0, 0,
    4, 0, 0, 0, 1, 0, 0, 0, 52, 0, 0, 0, 0, 0, 0, 0, 8].getD (i - 16) 0

theorem threeBlocks_coalesced : ∃ m' cs, coalesceBlocks 4 16 threeBlocks = some m' ∧ Blocks m' 16 cs 0 ∧
    Filled HeapBlock.addr HeapBlock.stop 16 72 cs ∧ cs.filter (fun b => !b.isFree) = [⟨52, 8, false⟩] ∧
    Spread cs := by
  have hchain : Blocks threeBlocks 16 [⟨16, 8, true⟩, ⟨36, 4, true⟩, ⟨52, 8, false⟩] 0 :=
    ⟨rfl, by decide, ⟨by decide, by decide⟩, by decide, by decide, ⟨by decide, by decide⟩, by decide,
      by decide, ⟨by decide, by decide⟩,
      (by decide : nextOf threeBlocks (nextOf threeBlocks (nextOf threeBlocks 16)) = 0)⟩
  have hfilled : Filled HeapBlock.addr HeapBlock.stop 16 72
      [⟨16, 8, true⟩, ⟨36, 4, true⟩, ⟨52, 8, false⟩] :=
    ⟨rfl, by decide, rfl, by decide, rfl, by decide, rfl⟩
  obtain ⟨m', cs, hrun, hblocks, hfilled', hinUse, hspread, -⟩ :=
    coalesceBlocks_complete hchain hfilled (by decide)
  exact ⟨m', cs, hrun 4 (by decide), hblocks, hfilled', hinUse, hspread⟩

/-! ### kfree -/

section
variable {m : Memory} {lo head : Nat} {b c : HeapBlock} {bs : List HeapBlock}

theorem sameHeader_store8 {v : UInt8} (h : c.stop ≤ b.addr ∨ b.stop ≤ c.addr) :
    SameHeader m (store8 (b.addr + 4) v m) c.addr := fun i _ _ => by
  unfold HeapBlock.stop headerSize at *
  exact store8_ne (by omega)

theorem release_hasHeader (hc : HasHeader m c) (hb : b.addr = sub32 b.payload headerSize)
    (h : c = b ∨ c.stop ≤ b.addr ∨ b.stop ≤ c.addr) :
    nextOf (store8 (b.addr + 4) 1 m) c.addr = nextOf m c.addr ∧
      HasHeader (store8 (b.addr + 4) 1 m) (release b.payload c) := by
  rcases h with rfl | h
  · have hsize : sizeOf (store8 (c.addr + 4) 1 m) c.addr = sizeOf m c.addr := le32_store8_out (by omega)
    have hfree : isFree (store8 (c.addr + 4) 1 m) c.addr = true := by
      rw [isFree, store8_self]
      rfl
    rw [release, if_pos hb]
    exact ⟨le32_store8_out (by omega), hsize.trans hc.1, hfree⟩
  · have hne : c.addr ≠ b.addr := by
      unfold HeapBlock.stop headerSize at h
      omega
    have hsame := sameHeader_store8 (m := m) (v := 1) h
    rw [release, if_neg fun heq => hne (heq.trans hb.symm)]
    exact ⟨next_congr hsame, hasHeader_congr hsame hc⟩

/-- kfree of a block on the list makes of the memory what it makes of the list. -/
theorem kfree_blocks (h : HeapLaid lo bs) (hchain : Blocks m head bs 0) (hb : b ∈ bs) :
    ∃ m', (∀ n, bs.length < n → kfree n head b.payload m = some m') ∧
      Blocks m' head (Kmalloc.kfree b.payload bs) 0 := by
  have hend := h.stop_lt hb
  have hpos : b.payload ≠ 0 := by
    unfold HeapBlock.payload headerSize
    omega
  have haddr : b.addr = sub32 b.payload headerSize := by
    unfold HeapBlock.payload
    rw [sub32_eq (Nat.le_add_left _ _) (by omega), Nat.add_sub_cancel]
  have hfreed : Blocks (store8 (b.addr + 4) 1 m) head (bs.map (release b.payload)) 0 :=
    hchain.map fun c hc => by
      refine ⟨(release_extent b.payload c).1, ?_⟩
      have hapart := h.apart hc hb
      exact ⟨(release_hasHeader (hchain.forall c hc) haddr hapart).1,
        fun hhold => (release_hasHeader hhold haddr hapart).2⟩
  obtain ⟨m', hrun, hblocks, -⟩ :=
    coalesceBlocks_blocks (h.map (release_extent b.payload)) (by decide) hfreed
  refine ⟨m', fun n hn => ?_, ?_⟩
  · rw [kfree, if_neg hpos, ← haddr]
    exact hrun n (by rwa [List.length_map])
  · rw [Kmalloc.kfree, if_neg hpos]
    exact hblocks

end

end AdamOS.Coalesce
