import AdamOS.Display.LineWalk

/-! vga_flip copies the rows between dirty_y_min and dirty_y_max. That is the whole difference
between the two buffers as long as no primitive marks a row above the screen: the bound of such a
row is compared as an unsigned number. -/
namespace AdamOS.Vga
open AdamOS.Line AdamOS.Loop AdamOS.Transition AdamOS.Word
variable {S : Screen} {s t : Display}

def RowDirty (S : Screen) (s : Display) (i : Nat) : Prop :=
  s.dirtyYMin ≤ i / S.pitch ∧ i / S.pitch ≤ s.dirtyYMax

/- A flip now would show the back buffer and copy nothing from beyond it. -/
structure FlipExact (S : Screen) (s : Display) : Prop where
  shown : ∀ i < S.size, (vgaFlip S s).front i = s.back i
  inside : ∀ i < 4294967296, flipped S s i = true → i < S.size
  rows : ∀ i < S.size, s.back i ≠ s.front i → RowDirty S s i
  bounded : s.dirtyYMin ≤ s.dirtyYMax → s.dirtyYMax < S.height

structure Dirty (S : Screen) (s : Display) : Prop where
  below : s.dirtyYMax < S.height
  rows : ∀ i < S.size, s.back i ≠ s.front i → RowDirty S s i

/- The rows of the source are numbered without a wrap and end on the screen or below it, and no
   copy of a row runs past the largest int. -/
def BlitFits (S : Screen) (x y : Int) (width height : Nat) : Prop :=
  0 ≤ y + height - 1 ∧ y + height ≤ 2147483648 ∧
    (0 < height → y < S.height → x < 0 ∨ 2147483648 ≤ width ∨ x + width < 2147483648)

/- No row above the screen is marked. A line that does not end in time sets other rows than those between
   its end points. -/
def MarksOnScreen (S : Screen) : Call → Prop
  | .putPixel _ y _ => 0 ≤ y.toInt
  | .drawRect x y w h _ => 0 ≤ int32 (y.toInt + h.toInt - 1) ∧
      (0 < rounds x.toInt w.toInt → 0 < rounds y.toInt h.toInt → 0 ≤ y.toInt)
  | .drawLine x0 y0 x1 y1 _ => if LineInRange (segment x0 y0 x1 y1) then 0 ≤ y0.toInt ∧ 0 ≤ y1.toInt
      else ∀ p, (segment x0 y0 x1 y1).Visits p → 0 ≤ p.y
  | .blit x y width height _ => BlitFits S x.toInt y.toInt width.toNat height.toNat
  | .clearScreen _ => True
  | .flip => True

/-! ### Bytes and rows -/

theorem Screen.size_lt (S : Screen) : S.size < 4294967296 := by
  have h : S.size ≤ 65535 * 65535 :=
    Nat.mul_le_mul (Nat.le_of_lt_succ S.pitch_lt) (Nat.le_of_lt_succ S.height_lt)
  omega

theorem covers_iff {start n i : Nat} (h : start + n ≤ 4294967296) (hi : i < 4294967296) :
    covers start n i = true ↔ start ≤ i ∧ i < start + n := by
  unfold covers sub32 wrap
  rw [decide_eq_true_iff]
  omega

theorem row_bounds {a b i p : Nat} (hp : 0 < p) :
    (a ≤ i / p ∧ i / p ≤ b) ↔ a * p ≤ i ∧ i < (b + 1) * p := by
  refine and_congr (Nat.le_div_iff_mul_le hp) ?_
  rw [← Nat.lt_succ_iff, Nat.div_lt_iff_lt_mul hp]

theorem Screen.pitch_pos {i : Nat} (h : i < S.size) : 0 < S.pitch := by
  refine Nat.pos_of_ne_zero fun h0 => ?_
  rw [Screen.size, h0, Nat.zero_mul] at h
  cases h

/-! ### Marking -/

theorem Dirty.mark (h : Dirty S s) (yTop yBottom : Int) (htop : yTop < 2147483648)
    (hbot : 0 ≤ yBottom) (hbot' : yBottom < 2147483648) :
    let s' := markDirty S yTop yBottom s
    Dirty S s' ∧ s'.dirtyYMin ≤ yTop.toNat ∧ min yBottom.toNat (S.height - 1) ≤ s'.dirtyYMax := by
  have hH := S.height_pos
  have hlt := S.height_lt
  have hbelow := h.below
  have hmin : (markDirty S yTop yBottom s).dirtyYMin = min s.dirtyYMin yTop.toNat := by
    simp only [markDirty]
    rw [ofInt32_eq (by split <;> omega) (by split <;> omega)]
    split <;> split <;> omega
  have hmax : (markDirty S yTop yBottom s).dirtyYMax =
      max s.dirtyYMax (min yBottom.toNat (S.height - 1)) := by
    simp only [markDirty]
    rw [ofInt32_eq (by split <;> omega) (by split <;> omega)]
    split <;> split <;> omega
  refine ⟨⟨by omega, fun i hi hne => ?_⟩, by omega, by omega⟩
  obtain ⟨h1, h2⟩ := h.rows i hi hne
  exact ⟨by omega, by omega⟩

theorem Dirty.write (h : Dirty S s) {b : Buffer}
    (hw : ∀ i < S.size, b i ≠ s.back i → RowDirty S s i) : Dirty S { s with back := b } := by
  refine ⟨h.below, fun i hi hne => ?_⟩
  by_cases hb : b i = s.back i
  · exact h.rows i hi (hb ▸ hne)
  · exact hw i hi hb

/-! ### The primitives -/

theorem Dirty.putPixel (h : Dirty S s) {x y : Int} (color : UInt8) (hy : 0 ≤ y)
    (hy' : y < 2147483648) : Dirty S (vgaPutPixel S x y color s) := by
  obtain ⟨hd, hmin, hmax⟩ := h.mark y y hy' hy hy'
  unfold vgaPutPixel
  dsimp only
  split
  · exact hd
  · rename_i hin
    obtain ⟨hx, hx0, hyh, -⟩ : ofInt32 x < S.width ∧ 0 ≤ x ∧ ofInt32 y < S.height ∧ 0 ≤ y := by
      simpa [not_or] using hin
    rw [ofInt32_eq hy (by omega)] at hyh ⊢
    generalize ofInt32 x = c at hx
    have hwid := S.width_le
    have hsize := S.size_lt
    have hrow : y.toNat * S.pitch + S.pitch ≤ S.size := by
      rw [← Nat.succ_mul, Screen.size, Nat.mul_comm]
      exact Nat.mul_le_mul_left _ hyh
    refine hd.write fun i hi hne => ?_
    have hi' : covers (wrap (y.toNat * S.pitch + c)) 1 i = true := by
      by_contra hc
      exact hne (if_neg hc)
    rw [wrap_eq (by omega), covers_iff (by omega) (by omega)] at hi'
    have hiy : i / S.pitch = y.toNat :=
      Nat.div_eq_of_lt_le (by omega) (by rw [Nat.succ_mul]; omega)
    rw [RowDirty, hiy]
    exact ⟨by omega, by omega⟩

theorem Dirty.clearScreen (h : Dirty S s) (color : UInt8) : Dirty S (vgaClearScreen S color s) := by
  have hH := S.height_pos
  have hlt := S.height_lt
  obtain ⟨hd, hmin, hmax⟩ :=
    h.mark 0 ((S.height : Int) - 1) (by decide) (by omega) (by omega)
  refine hd.write fun i hi _ => ?_
  have hrow : i / S.pitch < S.height := Nat.div_lt_of_lt_mul hi
  rw [RowDirty]
  generalize i / S.pitch = r at hrow ⊢
  exact ⟨by omega, by omega⟩

theorem rounds_bound {x w : Int} {i : Nat} (h : i < rounds x w) : x + i < 2147483648 := by
  have hb := int32_bounds (x + w)
  simp only [rounds] at h
  omega

theorem Dirty.drawRect (h : Dirty S s) {x y w hgt : Int} (color : UInt8) (hy : y < 2147483648)
    (hbot : 0 ≤ int32 (y + hgt - 1)) (hrows : 0 < rounds x w → 0 < rounds y hgt → 0 ≤ y) :
    Dirty S (vgaDrawRect S x y w hgt color s) := by
  obtain ⟨hd, -⟩ := h.mark y _ hy hbot (int32_bounds _).2
  refine loop_keeps (Dirty S) hd fun i hi s' hs' => ?_
  refine loop_keeps (Dirty S) hs' fun j hj s'' hs'' => ?_
  have hy0 := hrows (Nat.zero_lt_of_lt hi) (Nat.zero_lt_of_lt hj)
  exact hs''.putPixel color (by omega) (rounds_bound hj)

theorem Dirty.drawLine (h : Dirty S s) {l : Segment} (color : UInt8)
    (hv : ∀ p, l.Visits p → 0 ≤ p.y ∧ p.y < 2147483648)
    (hd : vgaDrawLine S l color s = some t) : Dirty S t :=
  drawLine_keeps (Dirty S)
    (fun p hp _ hs => hs.putPixel color (hv p hp).1 (hv p hp).2) h hd

/-- Where their sum is an int, the columns are cut at the right edge of the screen. -/
theorem clipRight_eq {c : Clip} (hd : 0 ≤ c.dstX) (hd' : c.dstX < 2147483648) (hw : -2147483648 ≤ c.copyWidth)
    (hfit : c.dstX + c.copyWidth < 2147483648) :
    clipRight S c = ⟨c.srcX, c.dstX, min c.copyWidth (S.width - c.dstX)⟩ := by
  have hW : S.width < 65536 := Nat.lt_of_le_of_lt S.width_le S.pitch_lt
  have hsum : int32 (c.dstX + c.copyWidth) = c.dstX + c.copyWidth := int32_eq (by omega) hfit
  have hsub : int32 ((S.width : Int) - c.dstX) = S.width - c.dstX := int32_eq (by omega) (by omega)
  rw [clipRight, hsum, hsub]
  split
  · rw [Int.min_eq_right (by omega)]
  · rw [Int.min_eq_left (by omega)]

theorem clipLeft_eq {x : Int} {width : Nat} (hx : -2147483648 ≤ x) (hx' : x < 2147483648) :
    ∃ src, (ofInt32 src : Int) = max x 0 - x ∧
      clipLeft x width = ⟨src, max x 0, int32 (width + min x 0)⟩ := by
  have hwidth : toInt32 width = int32 width := by
    unfold int32 toInt32 ofInt32 wrap
    omega
  by_cases hneg : x < 0
  · refine ⟨int32 (-x), ?_, ?_⟩
    · unfold int32 toInt32 ofInt32 wrap
      omega
    · rw [clipLeft, if_pos hneg, hwidth, int32_add_int32, Int.max_eq_right (by omega), Int.min_eq_left (by omega)]
  · refine ⟨0, ?_, ?_⟩
    · rw [Int.max_eq_left (by omega), Int.sub_self]
      rfl
    · rw [clipLeft, if_neg hneg, hwidth, Int.max_eq_left (by omega), Int.min_eq_right (by omega), Int.add_zero]

/-- A clipped row, unless its right edge is past the ints. -/
theorem clip_eq {x : Int} {width : Nat} (hx : -2147483648 ≤ x) (hx' : x < 2147483648) (hw : width < 4294967296)
    (hfit : x < 0 ∨ 2147483648 ≤ width ∨ x + width < 2147483648) :
    ∃ src, (ofInt32 src : Int) = max x 0 - x ∧ clipRight S (clipLeft x width) =
      ⟨src, max x 0, min (int32 (width + min x 0)) (S.width - max x 0)⟩ := by
  obtain ⟨src, hsrc, hleft⟩ := @clipLeft_eq x width hx hx'
  obtain ⟨hlow, hhigh⟩ := int32_bounds (width + min x 0)
  refine ⟨src, hsrc, ?_⟩
  rw [hleft]
  refine clipRight_eq (by dsimp only; omega) (by dsimp only; omega) hlow ?_
  dsimp only
  by_cases hneg : x < 0
  · omega
  · rw [Int.min_eq_right (Int.not_lt.mp hneg), Int.add_zero]
    unfold int32 toInt32 ofInt32 wrap
    omega

/-- A clipped row stays between the edges of the screen. -/
theorem clip_inside {x : Int} {width : Nat} (hx : -2147483648 ≤ x) (hx' : x < 2147483648)
    (hw : width < 4294967296) (hfit : x < 0 ∨ 2147483648 ≤ width ∨ x + width < 2147483648) :
    0 ≤ (clipRight S (clipLeft x width)).dstX ∧
      (clipRight S (clipLeft x width)).dstX + (clipRight S (clipLeft x width)).copyWidth ≤ S.width := by
  obtain ⟨src, -, hclip⟩ := @clip_eq S x width hx hx' hw hfit
  rw [hclip]
  dsimp only
  omega

theorem Dirty.blitRow (h : Dirty S s) {x y : Int} {width height row : Nat}
    (buffer : Nat → UInt8) (hfit : BlitFits S x y width height) (hx : -2147483648 ≤ x)
    (hx' : x < 2147483648) (hy : -2147483648 ≤ y) (hw : width < 4294967296) (hr : row < height)
    (hmin : s.dirtyYMin ≤ y.toNat)
    (hmax : min (y + height - 1).toNat (S.height - 1) ≤ s.dirtyYMax) :
    Dirty S (Vga.blitRow S x y width buffer row s) := by
  obtain ⟨-, hlast, hclip⟩ := hfit
  have hdest : int32 (y + row) = y + row := int32_eq (by omega) (by omega)
  unfold Vga.blitRow
  rw [hdest]
  dsimp only
  split
  · exact h
  · rename_i hrow
    obtain ⟨hrow0, hrowH⟩ : 0 ≤ y + row ∧ y + row < S.height := by omega
    split
    · exact h
    · rename_i hcw
      obtain ⟨hd0, hdW⟩ := clip_inside hx hx' hw (hclip (by omega) (by omega))
      generalize clipRight S (clipLeft x width) = c at hcw hd0 hdW ⊢
      obtain ⟨r, hr'⟩ : ∃ r : Nat, y + row = r := ⟨(y + row).toNat, by omega⟩
      obtain ⟨q, hq⟩ : ∃ q : Nat, c.dstX = q := ⟨c.dstX.toNat, by omega⟩
      obtain ⟨n, hn⟩ : ∃ n : Nat, c.copyWidth = n := ⟨c.copyWidth.toNat, by omega⟩
      rw [hr', hq, hn]
      have hwid := S.width_le
      have hsize := S.size_lt
      have hend : r * S.pitch + S.pitch ≤ S.size := by
        rw [← Nat.succ_mul, Screen.size, Nat.mul_comm]
        exact Nat.mul_le_mul_left _ (by omega)
      have hdst : ofInt32 ((r : Int) * S.pitch + q) = r * S.pitch + q := by
        rw [← Int.natCast_mul, ← Int.natCast_add, ofInt32_eq (by omega) (by omega), Int.toNat_natCast]
      refine h.write fun i hi hne => ?_
      have hi' : covers (r * S.pitch + q) n i = true := by
        by_contra hc
        exact hne (by rw [hdst, Int.toNat_natCast, memcpy, if_neg hc])
      rw [covers_iff (by omega) (by omega)] at hi'
      have hir : i / S.pitch = r :=
        Nat.div_eq_of_lt_le (by omega) (by rw [Nat.succ_mul]; omega)
      rw [RowDirty, hir]
      exact ⟨by omega, by omega⟩

theorem blitRow_region (S : Screen) (x y : Int) (width : Nat) (buffer : Nat → UInt8) (row : Nat) (s : Display) :
    (blitRow S x y width buffer row s).dirtyYMin = s.dirtyYMin ∧
      (blitRow S x y width buffer row s).dirtyYMax = s.dirtyYMax := by
  unfold blitRow
  dsimp only
  split
  · exact ⟨rfl, rfl⟩
  · split <;> exact ⟨rfl, rfl⟩

theorem Dirty.blit (h : Dirty S s) {x y : Int} {width height : Nat} (buffer : Nat → UInt8)
    (hfit : BlitFits S x y width height) (hx : -2147483648 ≤ x) (hx' : x < 2147483648)
    (hy : -2147483648 ≤ y) (hy' : y < 2147483648) (hw : width < 4294967296) :
    Dirty S (vgaBlit S x y width height buffer s) := by
  have hbottom : int32 (y + height - 1) = y + height - 1 :=
    int32_eq (by have := hfit.1; omega) (by have := hfit.2.1; omega)
  obtain ⟨hd, hmin, hmax⟩ := h.mark y (y + height - 1) hy' hfit.1
    (by have := hfit.2.1; omega)
  unfold vgaBlit
  rw [hbottom]
  let inv (s' : Display) : Prop := Dirty S s' ∧ s'.dirtyYMin ≤ y.toNat ∧
    min (y + height - 1).toNat (S.height - 1) ≤ s'.dirtyYMax
  have hrow : ∀ row < height, ∀ s', inv s' → inv (Vga.blitRow S x y width buffer row s') := by
    rintro row hr s' ⟨hd', hmin', hmax'⟩
    obtain ⟨h1, h2⟩ := blitRow_region S x y width buffer row s'
    exact ⟨hd'.blitRow buffer hfit hx hx' hy hw hr hmin' hmax', by rw [h1]; exact hmin',
      by rw [h2]; exact hmax'⟩
  exact (loop_keeps inv ⟨hd, hmin, hmax⟩ hrow).1

/-! ### The flip -/

theorem flipped_iff (h : Dirty S s) {i : Nat} (hi : i < 4294967296) : flipped S s i = true ↔
    s.dirtyYMin ≤ s.dirtyYMax ∧ s.dirtyYMin * S.pitch ≤ i ∧ i < (s.dirtyYMax + 1) * S.pitch := by
  rw [flipped, Bool.and_eq_true, decide_eq_true_iff]
  refine and_congr_right fun hle => ?_
  have hsize := S.size_lt
  have hend : (s.dirtyYMax + 1) * S.pitch ≤ S.size := by
    rw [Screen.size, Nat.mul_comm]
    exact Nat.mul_le_mul_left _ h.below
  have hsum : s.dirtyYMin * S.pitch + (s.dirtyYMax - s.dirtyYMin + 1) * S.pitch =
      (s.dirtyYMax + 1) * S.pitch := by
    rw [← Nat.add_mul]
    congr 1
    omega
  rw [wrap_eq (by omega), wrap_eq (by omega), covers_iff (by omega) hi, hsum]

theorem Dirty.exact (h : Dirty S s) : FlipExact S s := by
  have hsize := S.size_lt
  have hflip : ∀ i < S.size, s.back i ≠ s.front i → flipped S s i = true := fun i hi hne => by
    have hr := h.rows i hi hne
    exact (flipped_iff h (by omega)).mpr
      ⟨Nat.le_trans hr.1 hr.2, (row_bounds (Screen.pitch_pos hi)).mp hr⟩
  refine ⟨fun i hi => ?_, fun i hi hf => ?_, h.rows, fun _ => h.below⟩
  · unfold vgaFlip
    by_cases hne : s.back i = s.front i
    · split
      · exact hne.symm
      · dsimp only
        split
        · rfl
        · exact hne.symm
    · have hf := hflip i hi hne
      rw [if_neg (Nat.not_lt.mpr ((flipped_iff h (by omega)).mp hf).1)]
      exact if_pos hf
  · have hlt := ((flipped_iff h hi).mp hf).2.2
    refine Nat.lt_of_lt_of_le hlt ?_
    rw [Screen.size, Nat.mul_comm]
    exact Nat.mul_le_mul_left _ h.below

theorem vgaFlip_back (S : Screen) (s : Display) : (vgaFlip S s).back = s.back := by
  unfold vgaFlip
  split <;> rfl

theorem Dirty.flip (h : Dirty S s) : Dirty S (vgaFlip S s) := by
  refine ⟨?_, fun i hi hne => ?_⟩
  · unfold vgaFlip
    split
    · exact h.below
    · exact S.height_pos
  · rw [vgaFlip_back] at hne
    exact absurd (h.exact.shown i hi).symm hne

/-! ### Runs -/

theorem initVga_dirty (S : Screen) : Dirty S (initVga S) :=
  ⟨S.height_pos, fun _ _ hne => absurd rfl hne⟩

theorem Dirty.step {c : Call} (h : Dirty S s) (hg : MarksOnScreen S c)
    (hs : vgaStep S s c = some t) : Dirty S t := by
  cases c with
  | putPixel x y color =>
    cases hs
    exact h.putPixel color hg y.toInt_lt
  | drawRect x y w hgt color =>
    cases hs
    exact h.drawRect color y.toInt_lt hg.1 hg.2
  | drawLine x0 y0 x1 y1 color =>
    refine h.drawLine color (fun p hp => ⟨?_, hp.y_lt y0.toInt_lt⟩) hs
    dsimp only [MarksOnScreen] at hg
    split at hg
    · rename_i hrange
      exact Int.le_trans (Int.le_min.mpr hg) (hrange.visits (segment_ints x0 y0 x1 y1) hp).1
    · exact hg p hp
  | blit x y width height buffer =>
    cases hs
    exact h.blit buffer hg x.le_toInt x.toInt_lt y.le_toInt y.toInt_lt width.toNat_lt
  | clearScreen color =>
    cases hs
    exact h.clearScreen color
  | flip =>
    cases hs
    exact h.flip

/-- As long as no row above the screen is marked, flipping the dirty rows is flipping them all. -/
theorem dirty_flip_exact (hr : Reach (vgaStep S) (fun _ c => MarksOnScreen S c) (initVga S) s) :
    FlipExact S s :=
  (hr.invariant (Dirty S) (initVga_dirty S) fun _ _ _ h hg hs => h.step hg hs).exact

/-! ### Drawing inside the screen and above it -/

def edgeCalls : List Call :=
  [.clearScreen 1, .drawRect (-1) 598 2 4 2, .flip, .putPixel 900 3 1, .blit (-2) 599 4 2 fun _ => 7,
    .drawLine 798 0 801 1 3]

theorem edgeCalls_onScreen : ∀ c ∈ edgeCalls, MarksOnScreen mode103 c := by
  simp only [edgeCalls, List.forall_mem_cons, List.not_mem_nil, false_imp_iff, implies_true, and_true,
    true_and, MarksOnScreen, BlitFits]
  refine ⟨by decide, by decide, by decide, ?_⟩
  rw [if_pos (by decide)]
  decide

theorem edgeCalls_exact : ∃ s, Reach (vgaStep mode103) (fun _ c => MarksOnScreen mode103 c)
    (initVga mode103) s ∧ s.back 479200 = 7 ∧ s.front 479200 = 2 ∧ FlipExact mode103 s := by
  obtain ⟨s, hr, hs⟩ : ∃ s, Reach (vgaStep mode103) (fun _ c => MarksOnScreen mode103 c)
      (initVga mode103) s ∧ (s.back 479200 = 7 ∧ s.front 479200 = 2) :=
    reach_of_test edgeCalls (guarded_of_forall edgeCalls edgeCalls_onScreen _) (by decide +kernel)
  exact ⟨s, hr, hs.1, hs.2, dirty_flip_exact hr⟩

/-- A rectangle that begins one row above the screen sets dirty_y_max to 2^32 - 1, and the flip
copies nothing. -/
theorem row_above_lost :
    ¬ ∀ S s, Reach (vgaStep S) anyStep (initVga S) s → FlipExact S s := by
  intro hall
  obtain ⟨s, hr, hs⟩ : ∃ s, Reach (vgaStep mode103) anyStep (initVga mode103) s ∧
      (vgaFlip mode103 s).front 0 ≠ s.back 0 :=
    reach_of_test [.clearScreen 1, .drawRect 0 (-1) 1 2 2] (guarded_anyStep _ _) (by decide +kernel)
  exact hs ((hall mode103 s hr).shown 0 (by decide))

end AdamOS.Vga
