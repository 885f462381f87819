import AdamOS.Display.DirtyRegion
import AdamOS.Lib.Overwrite

/-! vga_blit against the pixels of its source set one at a time. -/
namespace AdamOS.Vga
open AdamOS.Loop AdamOS.Overwrite AdamOS.Word
variable {S : Screen} {x y : Int} {width height row : Nat}

/- One call of memcpy: distances from back_buffer and from buffer, and the number of bytes. -/
structure Copy where
  (dst src len : Nat)
deriving DecidableEq

def blitCopy (S : Screen) (x y : Int) (width row : Nat) : Option Copy :=
  let destY := int32 (y + row)
  if destY < 0 ∨ destY ≥ S.height then none
  else
    let c := clipRight S (clipLeft x width)
    if c.copyWidth ≤ 0 then none
    else some ⟨ofInt32 (destY * S.pitch + c.dstX), ofInt32 ((row * width : Nat) + c.srcX),
      c.copyWidth.toNat⟩

def Copy.apply (buffer : Nat → UInt8) (c : Copy) (s : Display) : Display :=
  { s with back := memcpy c.dst c.len (fun k => buffer (wrap (c.src + k))) s.back }

theorem blitRow_copy (buffer : Nat → UInt8) (s : Display) : blitRow S x y width buffer row s =
    (blitCopy S x y width row).elim s fun c => c.apply buffer s := by
  unfold blitRow blitCopy
  dsimp only
  split
  · rfl
  · split <;> rfl

def OnScreen (S : Screen) (x y : Int) : Prop := (0 ≤ x ∧ x < S.width) ∧ 0 ≤ y ∧ y < S.height

instance (S : Screen) (x y : Int) : Decidable (OnScreen S x y) := inferInstanceAs (Decidable (_ ∧ _))

/- vga_put_pixel for any integers; off the screen it sets nothing. -/
def setPoint (S : Screen) (x y : Int) (color : UInt8) (s : Display) : Display :=
  if OnScreen S x y then vgaPutPixel S x y color s else s

def pixelRow (S : Screen) (x y : Int) (width : Nat) (buffer : Nat → UInt8) (row : Nat) (s : Display) :
    Display :=
  loop width (fun c => setPoint S (x + c) (y + row) (buffer (row * width + c))) s

def pixelBlit (S : Screen) (x y : Int) (width height : Nat) (buffer : Nat → UInt8) (s : Display) :
    Display :=
  loop height (pixelRow S x y width buffer) s

/- The calls of memcpy stay in both buffers, and they leave what the pixels leave. -/
structure BlitExact (S : Screen) (x y : Int) (width height : Nat) : Prop where
  inside : ∀ row < height, ∀ c ∈ blitCopy S x y width row,
    c.dst + c.len ≤ S.size ∧ c.src + c.len ≤ width * height
  same : ∀ buffer s, ∀ i < S.size, (vgaBlit S x y width height buffer s).back i =
    (pixelBlit S x y width height buffer s).back i

def RowReached (S : Screen) (y : Int) (height : Nat) : Prop :=
  ∃ row < height, 0 ≤ int32 (y + row) ∧ int32 (y + row) < S.height

def ColumnReached (S : Screen) (x : Int) (width : Nat) : Prop :=
  ∃ c < width, 0 ≤ x + c ∧ x + c < S.width

/- The right edge is an int and the rows do not come round to the top of the screen, where that
   matters. -/
def BlitInRange (S : Screen) (x y : Int) (width height : Nat) : Prop :=
  (x + width < 2147483648 ∨ (2147483648 ≤ width ∧ ¬ColumnReached S x width) ∨
      ¬RowReached S y height) ∧
    (y + height ≤ 4294967296 ∨ ¬ColumnReached S x width)

/-! ### One pixel and one row of pixels -/

theorem row_lt_size {a b : Nat} (ha : a < S.pitch) (hb : b < S.height) :
    b * S.pitch + a < S.size := by
  have hmul : (b + 1) * S.pitch ≤ S.height * S.pitch := Nat.mul_le_mul_right _ hb
  rw [Nat.succ_mul, Nat.mul_comm S.height] at hmul
  unfold Screen.size
  omega

theorem setPoint_back {b i : Nat} (hb : b < S.height) (hi : i < 4294967296) (color : UInt8)
    (s : Display) : (setPoint S x b color s).back i =
      if (i : Int) = (b * S.pitch : Nat) + x ∧ 0 ≤ x ∧ x < S.width then color else s.back i := by
  have hsize := S.size_lt
  have hpitch := S.width_le
  have hlt := S.pitch_lt
  have hheight := S.height_lt
  unfold setPoint
  by_cases hx : 0 ≤ x ∧ x < S.width
  · obtain ⟨a, rfl⟩ := Int.eq_ofNat_of_zero_le hx.1
    have hin := @row_lt_size S a b (by omega) hb
    have ha : ofInt32 (a : Int) = a := by
      rw [ofInt32_eq (by omega) (by omega), Int.toNat_natCast]
    have hy : ofInt32 (b : Int) = b := by
      rw [ofInt32_eq (by omega) (by omega), Int.toNat_natCast]
    rw [if_pos ⟨hx, by omega, by omega⟩]
    unfold vgaPutPixel
    rw [ha, hy, if_neg (by omega), wrap_eq (by omega)]
    dsimp only [memset, markDirty]
    refine if_congr ?_ rfl rfl
    rw [covers_iff (by omega) hi]
    omega
  · rw [if_neg fun hon => hx hon.1, if_neg fun hat => hx hat.2]

theorem points_back {b i : Nat} (hb : b < S.height) (hi : i < 4294967296) (n : Nat) (g : Nat → UInt8)
    (s : Display) : (loop n (fun c => setPoint S (x + c) b (g c)) s).back i =
      if (0 ≤ (i : Int) - (b * S.pitch : Nat) ∧ (i : Int) - (b * S.pitch : Nat) < S.width) ∧
          x ≤ (i : Int) - (b * S.pitch : Nat) ∧ (i : Int) - (b * S.pitch : Nat) < x + n then
        g ((i : Int) - (b * S.pitch : Nat) - x).toNat
      else s.back i := by
  induction n with
  | zero => exact (if_neg (by omega)).symm
  | succ n ih =>
    rw [loop_succ, setPoint_back hb hi, ih]
    have hat : (i : Int) = (b * S.pitch : Nat) + (x + n) ↔ (i : Int) - (b * S.pitch : Nat) = x + n := by
      omega
    simp only [hat]
    generalize (i : Int) - (b * S.pitch : Nat) = q
    by_cases hq : q = x + n
    · subst hq
      have hn : (x + n - x).toNat = n := by omega
      rw [hn]
      by_cases hon : 0 ≤ x + n ∧ x + n < S.width
      · rw [if_pos ⟨rfl, hon⟩, if_pos ⟨hon, by omega⟩]
      · rw [if_neg fun h => hon h.2, if_neg fun h => hon h.1, if_neg fun h => hon h.1]
    · rw [if_neg fun h => hq h.1]
      exact if_congr (by omega) rfl rfl

/-! ### Clipping -/

theorem columnReached_iff : ColumnReached S x width ↔ max x 0 < min (x + width) S.width := by
  unfold ColumnReached
  constructor
  · rintro ⟨c, hc, hcol⟩
    omega
  · intro h
    exact ⟨(max x 0 - x).toNat, by omega, by omega, by omega⟩

/-- Inside the ints a row is clipped to its columns on the screen. -/
theorem clip_exact (hx : -2147483648 ≤ x) (hx' : x < 2147483648) (hw : width < 4294967296)
    (hfit : x + width < 2147483648 ∨ (2147483648 ≤ width ∧ ¬ColumnReached S x width)) :
    (0 < (clipRight S (clipLeft x width)).copyWidth ↔ ColumnReached S x width) ∧
      (ColumnReached S x width → (clipRight S (clipLeft x width)).dstX = max x 0 ∧
        (clipRight S (clipLeft x width)).copyWidth = min (x + width) S.width - max x 0 ∧
        ofInt32 (clipRight S (clipLeft x width)).srcX = max x 0 - x) := by
  obtain ⟨src, hsrc, hclip⟩ := @clip_eq S x width hx hx' hw (.inr (hfit.symm.imp And.left id))
  rw [columnReached_iff] at *
  rw [hclip]
  dsimp only
  by_cases hsum : width + min x 0 < 2147483648
  · rw [int32_eq (by omega) hsum]
    omega
  · -- the width past the ints counts as negative
    have hnone : ¬max x 0 < min (x + width) S.width := (hfit.resolve_left (by omega)).2
    have hcw : int32 (width + min x 0) < 0 := by
      unfold int32 toInt32 ofInt32 wrap
      omega
    omega

/-! ### A row that is copied -/

section Rows
variable {b i : Nat} {s t : Display}

theorem blitCopy_off (hoff : ¬(0 ≤ int32 (y + row) ∧ int32 (y + row) < S.height)) :
    blitCopy S x y width row = none := if_pos (by omega)

theorem blitCopy_none (hx : -2147483648 ≤ x) (hx' : x < 2147483648) (hw : width < 4294967296)
    (hfit : x + width < 2147483648 ∨ 2147483648 ≤ width) (hcol : ¬ColumnReached S x width) :
    blitCopy S x y width row = none := by
  have hclip := (clip_exact hx hx' hw (hfit.imp_right fun h => ⟨h, hcol⟩)).1
  have hpos := mt hclip.mp hcol
  unfold blitCopy
  dsimp only
  split
  · rfl
  · exact if_pos (Int.not_lt.mp hpos)

theorem blitCopy_some (hx : -2147483648 ≤ x) (hx' : x < 2147483648) (hw : width < 4294967296)
    (hfit : x + width < 2147483648) (hsize : width * height < 4294967296) (hr : row < height)
    (hy : int32 (y + row) = b) (hb : b < S.height) (hcol : ColumnReached S x width) :
    blitCopy S x y width row = some ⟨b * S.pitch + (max x 0).toNat, row * width + (max x 0 - x).toNat,
      (min (x + width) S.width - max x 0).toNat⟩ := by
  obtain ⟨hclip, hparts⟩ := clip_exact hx hx' hw (.inl hfit)
  obtain ⟨hdst, hlen, hsrc⟩ := hparts hcol
  have hpos := hclip.mpr hcol
  have hmeet := columnReached_iff.mp hcol
  have hpitch := S.width_le
  have hlt := S.size_lt
  have hrow : b * S.pitch + (max x 0).toNat < S.size := row_lt_size (by omega) hb
  have hbuf : row * width + width ≤ width * height := by
    rw [← Nat.succ_mul, Nat.mul_comm width]
    exact Nat.mul_le_mul_right _ hr
  unfold blitCopy
  generalize clipRight S (clipLeft x width) = c at *
  dsimp only
  rw [hy, if_neg (by omega), if_neg (by omega), hdst, hlen]
  congr 2
  · rw [← Int.natCast_mul, ofInt32_eq (by omega) (by omega)]
    omega
  · unfold ofInt32 at *
    omega

theorem Copy.apply_back {c : Copy} (buffer : Nat → UInt8) (hdst : c.dst + c.len ≤ 4294967296)
    (hsrc : c.src + c.len ≤ 4294967296) (hi : i < 4294967296) : (c.apply buffer s).back i =
      if c.dst ≤ i ∧ i < c.dst + c.len then buffer (c.src + (i - c.dst)) else s.back i := by
  unfold Copy.apply memcpy
  dsimp only
  by_cases hc : c.dst ≤ i ∧ i < c.dst + c.len
  · rw [if_pos hc, if_pos ((covers_iff hdst hi).mpr hc), sub32_eq hc.1 hi, wrap_eq (by omega)]
  · rw [if_neg hc, if_neg fun h => hc ((covers_iff hdst hi).mp h)]

/-- Rows above and below the screen have no pixel on it. -/
theorem points_off (hy : ¬(0 ≤ y ∧ y < S.height)) (n : Nat) (g : Nat → UInt8) (s : Display) :
    (loop n (fun c => setPoint S (x + c) y (g c)) s).back = s.back :=
  loop_keeps (fun t : Display => t.back = s.back) rfl fun c _ t ht => by
    rw [setPoint, if_neg fun hon => hy hon.2]
    exact ht

theorem points_beside (hcol : ¬ColumnReached S x width) (g : Nat → UInt8) (s : Display) :
    (loop width (fun c => setPoint S (x + c) y (g c)) s).back = s.back :=
  loop_keeps (fun t : Display => t.back = s.back) rfl fun c hc t ht => by
    rw [setPoint, if_neg fun hon => hcol ⟨c, hc, hon.1⟩]
    exact ht

/-- In range, a round copies the columns of its row on the screen, or there are none. -/
theorem blitCopy_cases (hx : -2147483648 ≤ x) (hx' : x < 2147483648) (hy : -2147483648 ≤ y)
    (hw : width < 4294967296) (hsize : width * height < 4294967296)
    (hrange : BlitInRange S x y width height) (hr : row < height) :
    (blitCopy S x y width row = none ∧
      (¬(0 ≤ y + row ∧ y + row < S.height) ∨ ¬ColumnReached S x width)) ∨
    ∃ b < S.height, y + row = b ∧ ColumnReached S x width ∧ blitCopy S x y width row =
      some ⟨b * S.pitch + (max x 0).toNat, row * width + (max x 0 - x).toNat,
        (min (x + width) S.width - max x 0).toNat⟩ := by
  have hH := S.height_lt
  by_cases hon : 0 ≤ int32 (y + row) ∧ int32 (y + row) < S.height
  · have hreached : RowReached S y height := ⟨row, hr, hon⟩
    by_cases hcol : ColumnReached S x width
    · obtain ⟨b, hb⟩ := Int.eq_ofNat_of_zero_le hon.1
      have hfit : x + width < 2147483648 := by
        rcases hrange.1 with h | ⟨-, h⟩ | h
        · exact h
        · exact absurd hcol h
        · exact absurd hreached h
      have hrows := hrange.2.resolve_right (not_not_intro hcol)
      have hmath : y + row = b := by
        rw [← hb]
        unfold int32 toInt32 ofInt32 wrap at *
        omega
      have hbH : b < S.height := by omega
      exact .inr ⟨b, hbH, hmath, hcol, blitCopy_some hx hx' hw hfit hsize hr hb hbH hcol⟩
    · have hfit : x + width < 2147483648 ∨ 2147483648 ≤ width := by
        rcases hrange.1 with h | h | h
        · exact .inl h
        · exact .inr h.1
        · exact absurd hreached h
      exact .inl ⟨blitCopy_none hx hx' hw hfit hcol, .inr hcol⟩
  · exact .inl ⟨blitCopy_off hon, .inl fun hin => hon (by rw [int32_eq] <;> omega)⟩

/-- What a round copies lies in the back buffer and in its row of the source. -/
theorem columns_inside {b : Nat} (hb : b < S.height) (hr : row < height) (hcol : ColumnReached S x width) :
    b * S.pitch + (max x 0).toNat + (min (x + width) S.width - max x 0).toNat ≤ S.size ∧
      row * width + (max x 0 - x).toNat + (min (x + width) S.width - max x 0).toNat ≤ width * height := by
  have hmeet := columnReached_iff.mp hcol
  have hpitch := S.width_le
  have hcell : b * S.pitch + (S.width - 1) < S.size := row_lt_size (by omega) hb
  have hbuf : row * width + width ≤ width * height := by
    rw [← Nat.succ_mul, Nat.mul_comm width]
    exact Nat.mul_le_mul_right _ hr
  have hdst : (max x 0).toNat + (min (x + width) S.width - max x 0).toNat ≤ S.width := by omega
  have hsrc : (max x 0 - x).toNat + (min (x + width) S.width - max x 0).toNat ≤ width := by omega
  generalize (max x 0).toNat = p, (max x 0 - x).toNat = q,
    (min (x + width) S.width - max x 0).toNat = n at hdst hsrc ⊢
  omega

/-- In range, a row that is copied is its row of pixels. -/
theorem row_same (hx : -2147483648 ≤ x) (hx' : x < 2147483648) (hy : -2147483648 ≤ y)
    (hw : width < 4294967296) (hsize : width * height < 4294967296)
    (hrange : BlitInRange S x y width height) (hr : row < height) (buffer : Nat → UInt8)
    (hst : ∀ i < 4294967296, s.back i = t.back i) (hi : i < 4294967296) :
    (blitRow S x y width buffer row s).back i = (pixelRow S x y width buffer row t).back i := by
  rw [blitRow_copy]
  unfold pixelRow
  rcases blitCopy_cases hx hx' hy hw hsize hrange hr with ⟨hnone, hoff⟩ | ⟨b, hb, hmath, hcol, hsome⟩
  · rw [hnone]
    rcases hoff with hrow | hcol
    · rw [points_off hrow]
      exact hst i hi
    · rw [points_beside hcol]
      exact hst i hi
  · have hlt := S.size_lt
    have hmeet := columnReached_iff.mp hcol
    obtain ⟨hdst, hsrc⟩ := columns_inside hb hr hcol
    rw [hsome, hmath, points_back hb hi]
    dsimp only [Option.elim_some]
    rw [Copy.apply_back buffer (by dsimp only; omega) (by dsimp only; omega) hi, ← hst i hi]
    dsimp only
    refine if_ctx_congr (by omega) (fun hin => congrArg buffer ?_) fun _ => rfl
    omega

theorem BlitInRange.exact (hrange : BlitInRange S x y width height) (hx : -2147483648 ≤ x)
    (hx' : x < 2147483648) (hy : -2147483648 ≤ y) (hw : width < 4294967296)
    (hsize : width * height < 4294967296) : BlitExact S x y width height where
  inside row hr c hc := by
    rcases blitCopy_cases hx hx' hy hw hsize hrange hr with ⟨hnone, -⟩ | ⟨b, hb, -, hcol, hsome⟩
    · rw [hnone] at hc
      cases hc
    · rw [hsome] at hc
      cases hc
      exact columns_inside hb hr hcol
  same buffer s i hi := by
    have hlt := S.size_lt
    have hmarked : ∀ j < 4294967296, (markDirty S y (int32 (y + height - 1)) s).back j = s.back j :=
      fun _ _ => rfl
    refine loop_relates (fun _ (s t : Display) => ∀ i < 4294967296, s.back i = t.back i)
      hmarked (fun row hr s t hst i hi => ?_) i (by omega)
    exact row_same hx hx' hy hw hsize hrange hr buffer hst hi

end Rows

/-! ### A blit that goes wrong -/

section Wrong

abbrev Sets (S : Screen) (C : Fin S.size → Prop) (f : Display → Display) : Prop :=
  Overwrites (fun _ : Display => True) (fun s (i : Fin S.size) => s.back i) 1 C f

theorem blitRow_sets (S : Screen) (x y : Int) (width row : Nat) :
    Sets S (fun i => ∃ c ∈ blitCopy S x y width row, covers c.dst c.len i = true)
      (blitRow S x y width (fun _ => 1) row) where
  keeps _ := trivial
  inside {s i} _ h := by
    obtain ⟨c, hc, hi⟩ := h
    rw [blitRow_copy, hc]
    exact if_pos hi
  outside {s i} _ h := by
    rw [blitRow_copy]
    cases hc : blitCopy S x y width row with
    | none => rfl
    | some c => exact if_neg fun hi => h ⟨c, hc, hi⟩

theorem setPoint_sets (S : Screen) (x y : Int) :
    Sets S (fun i => OnScreen S x y ∧ (i : Int) = y * S.pitch + x) (setPoint S x y 1) where
  keeps _ := trivial
  inside {s i} _ h := by
    obtain ⟨b, rfl⟩ := Int.eq_ofNat_of_zero_le h.1.2.1
    have hb : b < S.height := by
      have := h.1.2.2
      omega
    have hat : (i : Int) = (b * S.pitch : Nat) + x := by
      rw [Int.natCast_mul]
      exact h.2
    rw [setPoint_back hb (Nat.lt_trans i.2 S.size_lt), if_pos ⟨hat, h.1.1⟩]
  outside {s i} _ h := by
    by_cases hon : OnScreen S x y
    · obtain ⟨b, rfl⟩ := Int.eq_ofNat_of_zero_le hon.2.1
      have hb : b < S.height := by
        have := hon.2.2
        omega
      rw [setPoint_back hb (Nat.lt_trans i.2 S.size_lt), if_neg fun hat => h ⟨hon, ?_⟩]
      rw [← Int.natCast_mul]
      exact hat.1
    · rw [setPoint, if_neg hon]

theorem BlitExact.bytes (h : BlitExact S x y width height) {i : Nat} (hi : i < S.size) :
    (∃ row < height, ∃ c ∈ blitCopy S x y width row, covers c.dst c.len i = true) ↔
      ∃ row < height, ∃ c < width, OnScreen S (x + (c : Nat)) (y + (row : Nat)) ∧
        (i : Int) = (y + (row : Nat)) * S.pitch + (x + (c : Nat)) := by
  have hblit : Sets S _ (vgaBlit S x y width height fun _ => 1) :=
    (overwrites_loop fun row _ => blitRow_sets S x y width row).after (fun _ _ => trivial)
      fun _ _ _ => rfl
  have hpixels : Sets S _ (pixelBlit S x y width height fun _ => 1) :=
    overwrites_loop fun row _ => overwrites_loop fun c _ => setPoint_sets S (x + c) (y + row)
  have hblank : ∀ i : Fin S.size, (initVga S).back i ≠ 1 := fun _ => show (0 : UInt8) ≠ 1 by decide
  have hagree := (hblit.agree_iff hpixels trivial hblank).mp fun s _ i => h.same _ s i i.2
  exact hagree ⟨i, hi⟩

theorem clip_past (hx' : x < 2147483648) (hw : width < 2147483648) (hpast : 2147483648 ≤ x + width) :
    clipRight S (clipLeft x width) = ⟨0, x, width⟩ := by
  have hc : clipLeft x width = ⟨0, x, width⟩ := by
    rw [clipLeft, if_neg (by omega), toInt32_eq hw]
  have hsum : int32 (x + (width : Int)) < 0 := by
    unfold int32 toInt32 ofInt32 wrap
    omega
  rw [hc, clipRight, if_neg (by dsimp only; omega)]

/-- A right edge past the ints is not clipped, and the copy of the lowest row goes on below it. -/
theorem BlitExact.past (h : BlitExact S x y width height) (hx' : x < 2147483648)
    (hw : width < 2147483648) (hpast : 2147483648 ≤ x + width) : ¬RowReached S y height := by
  have hlt := S.size_lt
  have hpitch := S.width_le
  have hsmall := S.pitch_lt
  have hH := S.height_lt
  have hcopy : ∀ {row b : Nat}, row < height → int32 (y + row) = b → b < S.height →
      ∃ c ∈ blitCopy S x y width row, c.dst = ofInt32 (b * S.pitch + x) ∧ c.len = width := by
    intro row b hr hb hbH
    unfold blitCopy
    rw [hb, if_neg (by omega), clip_past hx' hw hpast, if_neg (by dsimp only; omega)]
    exact ⟨_, rfl, rfl, rfl⟩
  -- from a row that is reached to one further down
  have hdown : ∀ {row b : Nat}, row < height → int32 (y + row) = b → b < S.height →
      ∃ row' < height, ∃ b' : Nat, int32 (y + row') = b' ∧ b' < S.height ∧ b < b' := by
    intro row b hr hb hbH
    obtain ⟨c, hc, hdst, hlen⟩ := hcopy hr hb hbH
    have hin := (h.inside row hr c hc).1
    rw [hlen] at hin
    have hlast : c.dst + (width - 1) < S.size := by omega
    have hcov : covers c.dst c.len (c.dst + (width - 1)) = true := by
      rw [hlen]
      exact (covers_iff (by omega) (by omega)).mpr ⟨by omega, by omega⟩
    obtain ⟨row', hr', k, hk, hon, hi⟩ := (h.bytes hlast).mp ⟨row, hr, c, hc, hcov⟩
    obtain ⟨b', hb'⟩ := Int.eq_ofNat_of_zero_le hon.2.1
    have honx := hon.1
    have hony := hon.2
    rw [hb'] at hi hony
    refine ⟨row', hr', b', by rw [hb', int32_eq (by omega) (by omega)], by omega, ?_⟩
    have hstart : b * S.pitch + (S.pitch - 1) < S.size := row_lt_size (by omega) hbH
    have hdst' : (c.dst : Int) = b * S.pitch + x := by
      rw [hdst, ← Int.natCast_mul, ofInt32_eq (by omega) (by omega)]
      omega
    refine Nat.lt_of_not_le fun hle => ?_
    have hmul : b' * S.pitch ≤ b * S.pitch := Nat.mul_le_mul_right _ hle
    rw [← Int.natCast_mul] at hi hdst'
    omega
  have hnone : ∀ n b row, S.height - b ≤ n → row < height → int32 (y + row) = (b : Nat) → ¬b < S.height := by
    intro n
    induction n with
    | zero => exact fun b row hn _ _ => by omega
    | succ n ih =>
      intro b row hn hr hb hbH
      obtain ⟨row', hr', b', hb', hbH', hlt'⟩ := hdown hr hb hbH
      exact ih b' row' (by omega) hr' hb' hbH'
  rintro ⟨row, hr, hon⟩
  obtain ⟨b, hb⟩ := Int.eq_ofNat_of_zero_le hon.1
  exact hnone _ b row (Nat.le_refl _) hr hb (by omega)

/-- A width past the ints counts as negative: nothing is copied. -/
theorem BlitExact.wide (h : BlitExact S x y width height) (hx : -2147483648 ≤ x) (hy : -2147483648 ≤ y)
    (hy' : y < 2147483648) (hw : width < 4294967296) (hsize : width * height < 4294967296)
    (hbig : 2147483648 ≤ width) (hpast : 2147483648 ≤ x + width) (hcol : ColumnReached S x width) :
    ¬RowReached S y height := by
  rintro ⟨row, hr, hon⟩
  have hone : height = 1 := by
    by_contra hne
    have hmul : width * 2 ≤ width * height := Nat.mul_le_mul_left _ (by omega)
    omega
  have hW : S.width < 65536 := Nat.lt_of_le_of_lt S.width_le S.pitch_lt
  have hH := S.height_lt
  obtain rfl : row = 0 := by omega
  have hy0 : int32 (y + (0 : Nat)) = y := by
    rw [Int.natCast_zero, Int.add_zero, int32_eq hy hy']
  rw [hy0] at hon
  have hno : ∀ row < height, blitCopy S x y width row = none := by
    intro row hr
    obtain rfl : row = 0 := by omega
    have hcw : (clipRight S (clipLeft x width)).copyWidth ≤ 0 := by
      by_cases hneg : x < 0
      · have hc : clipLeft x width = ⟨int32 (-x), 0, int32 (toInt32 width + x)⟩ := if_pos hneg
        have hcw : int32 (toInt32 width + x) < 0 := by
          unfold int32 toInt32 ofInt32 wrap
          omega
        have hsum : int32 (0 + int32 (toInt32 width + x)) < 0 := by
          rw [Int.zero_add, int32_int32]
          exact hcw
        rw [hc, clipRight, if_neg (by dsimp only; omega)]
        exact Int.le_of_lt hcw
      · have hc : clipLeft x width = ⟨0, x, toInt32 width⟩ := if_neg hneg
        have hcw := toInt32_neg hbig hw
        obtain ⟨c, hc0, hc1⟩ := hcol
        have hsum : int32 (x + toInt32 width) < x := by
          rw [int32_eq] <;> have := (toInt32_bounds width).1 <;> omega
        rw [hc, clipRight, if_neg (by dsimp only; omega)]
        exact Int.le_of_lt hcw
    unfold blitCopy
    dsimp only
    rw [if_pos hcw, ite_self]
  obtain ⟨c, hc, hc0⟩ := hcol
  obtain ⟨b, rfl⟩ := Int.eq_ofNat_of_zero_le hon.1
  obtain ⟨a, ha⟩ := Int.eq_ofNat_of_zero_le hc0.1
  have hpitch := S.width_le
  have hcell : b * S.pitch + a < S.size := row_lt_size (by omega) (by omega)
  obtain ⟨row, hr', k, hk, -⟩ := (h.bytes hcell).mpr ⟨0, hr, c, hc, ⟨hc0, by omega⟩, by
    rw [ha, Int.natCast_zero, Int.add_zero, ← Int.natCast_mul]
    omega⟩
  rw [hno row hr'] at hk
  cases hk

/-- Rows past the words come round to the top of the screen. -/
theorem BlitExact.round (h : BlitExact S x y width height) (hx : -2147483648 ≤ x)
    (hx' : x < 2147483648) (hy' : y < 2147483648) (hw : width < 4294967296) (hh : height < 4294967296)
    (hsize : width * height < 4294967296) (hcol : ColumnReached S x width) :
    y + height ≤ 4294967296 := by
  by_contra hround
  have hmeet := columnReached_iff.mp hcol
  have hone : width = 1 := by
    by_contra hne
    have hmul : 2 * height ≤ width * height := Nat.mul_le_mul_right _ (by omega)
    omega
  have hW : S.width < 65536 := Nat.lt_of_le_of_lt S.width_le S.pitch_lt
  have hpitch := S.width_le
  obtain ⟨row, hrow⟩ : ∃ row : Nat, y + row = 4294967296 := ⟨(4294967296 - y).toNat, by omega⟩
  have hzero : int32 (y + row) = (0 : Nat) := by
    rw [hrow]
    decide
  have hcopy := blitCopy_some hx hx' hw (by omega) hsize (show row < height by omega) hzero S.height_pos hcol
  have hcell : 0 * S.pitch + (max x 0).toNat < S.size := row_lt_size (by omega) S.height_pos
  have hlt := S.size_lt
  obtain ⟨row', -, k, hk, hon, hi⟩ := (h.bytes hcell).mp ⟨row, by omega, _, hcopy,
    (covers_iff (by dsimp only; omega) (by omega)).mpr ⟨Nat.le_refl _, by dsimp only; omega⟩⟩
  obtain ⟨b, hb⟩ := Int.eq_ofNat_of_zero_le hon.2.1
  have hbelow : S.pitch ≤ b * S.pitch := Nat.le_mul_of_pos_left _ (by omega)
  rw [hb, ← Int.natCast_mul] at hi
  omega

end Wrong

/-- vga_blit leaves what the pixels one at a time leave and keeps to its two buffers, if and only if
its right edge is an int and its rows stay below 2^32, or there is nothing to draw. -/
theorem blit_pixelwise_iff (S : Screen) (x y : Int32) (width height : UInt32)
    (hsize : width.toNat * height.toNat < 4294967296) :
    BlitExact S x.toInt y.toInt width.toNat height.toNat ↔
      BlitInRange S x.toInt y.toInt width.toNat height.toNat := by
  have hx := x.le_toInt
  have hx' := x.toInt_lt
  have hy := y.le_toInt
  have hy' := y.toInt_lt
  have hw := width.toNat_lt
  have hh := height.toNat_lt
  refine ⟨fun h => ⟨?_, ?_⟩, fun h => h.exact hx hx' hy hw hsize⟩
  · by_cases hpast : x.toInt + width.toNat < 2147483648
    · exact .inl hpast
    · by_cases hbig : 2147483648 ≤ width.toNat
      · by_cases hcol : ColumnReached S x.toInt width.toNat
        · exact .inr (.inr (h.wide hx hy hy' hw hsize hbig (by omega) hcol))
        · exact .inr (.inl ⟨hbig, hcol⟩)
      · exact .inr (.inr (h.past hx' (by omega) (by omega)))
  · by_cases hcol : ColumnReached S x.toInt width.toNat
    · exact .inl (h.round hx hx' hy' hw hh hsize hcol)
    · exact .inr hcol

/-- A window beyond the left and the lower edge of the screen. -/
theorem edgeBlit_pixelwise : BlitExact mode103 (-5 : Int32).toInt (590 : Int32).toInt (40 : UInt32).toNat
    (45 : UInt32).toNat :=
  (blit_pixelwise_iff mode103 (-5) 590 40 45 (by decide)).mpr ⟨.inl (by decide), .inl (by decide)⟩

/-- A window of width 40 at the largest x is copied past the end of back_buffer. -/
theorem farBlit_overruns : ¬ ∀ S (x y : Int32) (width height : UInt32),
    width.toNat * height.toNat < 4294967296 → BlitExact S x.toInt y.toInt width.toNat height.toNat := by
  intro hall
  have h := (hall mode103 2147483647 0 40 1 (by decide)).inside 0 (by decide) ⟨2147483647, 0, 40⟩ (by decide)
  exact absurd h.1 (by decide)

end AdamOS.Vga
