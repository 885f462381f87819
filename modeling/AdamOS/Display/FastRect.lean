import AdamOS.Display.Pixels
import AdamOS.Lib.Overwrite

/-! window_draw_rect against the rectangle drawn one pixel at a time. -/
namespace AdamOS.Drawing
open AdamOS.Fat16 AdamOS.Loop AdamOS.Overwrite AdamOS.Vga AdamOS.Windows AdamOS.Word
variable {W H : Nat} {c : Canvas}

/- window_put_pixel for all integers x <= i < x + w and y <= j < y + h. -/
def pixelRect (x y w h : Int) (color : UInt8) (c : Canvas) : Canvas :=
  loop w.toNat (fun i c =>
    loop h.toNat (fun j c => windowPutPixel (x + i) (y + j) color c) c) c

/- The bytes of the set get the color, counted from pixel_buffer, in any window of the size. -/
abbrev Fills (W H : Nat) (color : UInt8) (S : Nat → Prop) (f : Canvas → Canvas) : Prop :=
  Overwrites (Sized W H) Canvas.pixels color S f

def Meets (a b : Int) (size : Nat) : Prop := clipLow a < b ∧ clipLow a < size

instance (a b : Int) (size : Nat) : Decidable (Meets a b size) := inferInstanceAs (Decidable (_ ∧ _))

def IsInt (i : Int) : Prop := -2147483648 ≤ i ∧ i < 2147483648

instance (i : Int) : Decidable (IsInt i) := inferInstanceAs (Decidable (_ ∧ _))

def RectMeets (W H : Nat) (x y w h : Int) : Prop := Meets x (x + w) W ∧ Meets y (y + h) H

/- The same with the far edges as 32-bit sums; a right edge past the ints gives a positive width. -/
def WrappedMeets (W H : Nat) (x y w h : Int) : Prop :=
  (Meets x (int32 (x + w)) W ∨ 2147483648 ≤ x + w) ∧ Meets y (int32 (y + h)) H

/- Both far edges are ints, or there is nothing to draw either way. -/
def EdgesFit (W H : Nat) (x y w h : Int) : Prop :=
  (IsInt (x + w) ∧ IsInt (y + h)) ∨ (¬RectMeets W H x y w h ∧ ¬WrappedMeets W H x y w h)

/-! ### Bytes -/

theorem covers_wrap (s n i : Nat) : covers (wrap s) n i = covers s n i := by
  have hsub : sub32 i (wrap s) = sub32 i s := by
    unfold sub32 wrap
    omega
  rw [covers, covers, hsub]

theorem covers_one (s i : Nat) : covers s 1 i = true ↔ wrap i = wrap s := by
  unfold covers sub32 wrap
  rw [decide_eq_true_iff]
  omega

theorem covers_split (s n i : Nat) : covers s n i = true ↔ ∃ k < n, covers (s + k) 1 i = true := by
  simp only [covers_one]
  constructor
  · intro h
    refine ⟨sub32 i s, of_decide_eq_true h, ?_⟩
    unfold sub32 wrap
    omega
  · rintro ⟨k, hk, hi⟩
    refine decide_eq_true ?_
    unfold sub32 wrap at *
    omega

theorem put_fills (W H i n : Nat) (color : UInt8) :
    Fills W H color (fun b => covers i n b = true) (put (wrap i) n color) where
  keeps hc := ⟨hc.width, hc.height⟩
  inside _ hb := if_pos ((covers_wrap i n _).trans hb)
  outside _ hb := if_neg fun hw => hb ((covers_wrap i n _).symm.trans hw)

def pixelByte (W px py : Nat) : Nat := (py + headerOffset) * W + px

theorem pixelByte_lt (hfit : Fits W H) {px py : Nat} (hx : px < W) (hy : py < H) :
    pixelByte W px py < 4294967296 := by
  have hmul : (py + headerOffset + 1) * W ≤ (H + headerOffset) * W :=
    Nat.mul_le_mul_right W (by omega)
  have hindex := hfit.index
  rw [Nat.succ_mul, Nat.mul_comm (H + headerOffset)] at hmul
  unfold pixelByte
  omega

theorem pixelByte_inj {px py qx qy : Nat} (hp : px < W) (hq : qx < W)
    (h : pixelByte W px py = pixelByte W qx qy) : px = qx ∧ py = qy := by
  unfold pixelByte at h
  have hmod := congrArg (· % W) h
  simp only [Nat.mul_add_mod_self_right, Nat.mod_eq_of_lt hp, Nat.mod_eq_of_lt hq] at hmod
  refine ⟨hmod, ?_⟩
  rw [hmod, Nat.add_right_cancel_iff] at h
  have := Nat.eq_of_mul_eq_mul_right (Nat.zero_lt_of_lt hp) h
  omega

/-! ### The two rectangles -/

theorem putPixel_fills (hfit : Fits W H) (color : UInt8) {x y : Int} (hx : x < 4294967296)
    (hy : y < 4294967296) : Fills W H color (fun i => ∃ px py : Nat, px < W ∧ py < H ∧ x = px ∧ y = py ∧
      covers (pixelByte W px py) 1 i = true) (windowPutPixel x y color) := by
  have hw := hfit.width
  have hh := hfit.height
  by_cases hin : 0 ≤ x ∧ x < W ∧ 0 ≤ y ∧ y < H
  · obtain ⟨a, rfl⟩ := Int.eq_ofNat_of_zero_le hin.1
    obtain ⟨b, rfl⟩ := Int.eq_ofNat_of_zero_le hin.2.2.1
    have ha : a < W := by omega
    have hb : b < H := by omega
    have hput := (put_fills W H (pixelByte W a b) 1 color).of_iff
      (T := fun i => ∃ px py : Nat, px < W ∧ py < H ∧ (a : Int) = px ∧ (b : Int) = py ∧
        covers (pixelByte W px py) 1 i = true) fun i => ?_
    · refine hput.of_eq fun c hc => ?_
      have hax : ofInt32 (a : Int) = a := by
        rw [ofInt32_eq (by omega) (by omega), Int.toNat_natCast]
      have hby : ofInt32 (b : Int) = b := by
        rw [ofInt32_eq (by omega) (by omega), Int.toNat_natCast]
      have hrow : ofInt32 ((b : Int) + headerOffset) = b + headerOffset := by
        rw [ofInt32_eq (by omega) (by unfold headerOffset; omega)]
        omega
      unfold windowPutPixel
      rw [hax, hby, hrow, hc.width, hc.height, if_neg (by omega)]
      rfl
    · constructor
      · exact fun hi => ⟨a, b, ha, hb, rfl, rfl, hi⟩
      · rintro ⟨px, py, _, _, hpx, hpy, hi⟩
        obtain rfl : a = px := by omega
        obtain rfl : b = py := by omega
        exact hi
  · refine (overwrites_of_empty fun i => ?_).of_eq fun c hc => ?_
    · rintro ⟨px, py, hpx, hpy, hxe, hye, _⟩
      exact hin (by omega)
    · unfold windowPutPixel
      refine if_pos ?_
      rw [hc.width, hc.height]
      by_cases hx0 : x < 0
      · exact .inr (.inl hx0)
      · by_cases hy0 : y < 0
        · exact .inr (.inr (.inr hy0))
        · rw [ofInt32_eq (by omega) hx, ofInt32_eq (by omega) hy]
          omega

def RectBytes (W H : Nat) (x y w h : Int) (i : Nat) : Prop :=
  ∃ px py : Nat, px < W ∧ py < H ∧ (x ≤ px ∧ px < x + w) ∧ (y ≤ py ∧ py < y + h) ∧
    covers (pixelByte W px py) 1 i = true

theorem pixelRect_fills (hfit : Fits W H) (color : UInt8) {x y w h : Int} (hx : x + w < 4294967296)
    (hy : y + h < 4294967296) :
    Fills W H color (RectBytes W H x y w h) (pixelRect x y w h color) := by
  have hloops := overwrites_loop fun i (hi : i < w.toNat) => overwrites_loop fun j (hj : j < h.toNat) =>
    putPixel_fills hfit color (show x + i < 4294967296 by omega) (show y + j < 4294967296 by omega)
  refine hloops.of_iff fun b => ⟨?_, ?_⟩
  · rintro ⟨i, hi, j, hj, px, py, hpx, hpy, hxe, hye, hb⟩
    exact ⟨px, py, hpx, hpy, by omega, by omega, hb⟩
  · rintro ⟨px, py, hpx, hpy, hxr, hyr, hb⟩
    exact ⟨(px - x).toNat, by omega, (py - y).toNat, by omega, px, py, hpx, hpy, by omega, by omega, hb⟩

def FastBytes (W H : Nat) (x y w h : Int) (i : Nat) : Prop :=
  ∃ row : Nat, (clipLow y ≤ row ∧ row < clipHigh y h H) ∧
    ∃ k : Nat, k < int32 (clipHigh x w W - clipLow x) ∧
      covers (pixelByte W ((clipLow x).toNat + k) row) 1 i = true

theorem drawRect_fills (hfit : Fits W H) (color : UInt8) {x : Int} (hx : x < 2147483648) (y w h : Int) :
    Fills W H color (FastBytes W H x y w h) (windowDrawRect x y w h color) := by
  have hw := hfit.width
  have hh := hfit.height
  have hx0 := clipLow_nonneg x
  have hy0 := clipLow_nonneg y
  have hy1 : clipHigh y h H ≤ H := Int.le_trans (clipHigh_le y h H) (toInt32_le H)
  by_cases hdraw : int32 (clipHigh x w W - clipLow x) ≤ 0 ∨ clipLow y ≥ clipHigh y h H
  · refine (overwrites_of_empty fun i => ?_).of_eq fun c hc => ?_
    · rintro ⟨row, hrow, k, hk, _⟩
      omega
    · unfold windowDrawRect
      dsimp only
      rw [hc.width, hc.height, if_pos hdraw]
  · have hxlt : clipLow x < 2147483648 := by
      unfold clipLow
      split <;> omega
    have hrows : ∀ row < (clipHigh y h H - clipLow y).toNat, Fills W H color
        (fun i => covers (pixelByte W (clipLow x).toNat ((clipLow y).toNat + row))
          (int32 (clipHigh x w W - clipLow x)).toNat i = true)
        fun c => put (wrap (ofInt32 (clipLow y + row + headerOffset) * c.width + ofInt32 (clipLow x)))
          (int32 (clipHigh x w W - clipLow x)).toNat color c := by
      intro row hrow
      have hidx : ofInt32 (clipLow y + row + headerOffset) = (clipLow y).toNat + row + headerOffset := by
        rw [ofInt32_eq (by omega) (by unfold headerOffset; omega)]
        omega
      refine (put_fills W H _ _ color).of_eq fun c hc => ?_
      rw [hidx, hc.width, ofInt32_eq hx0 (by omega)]
      rfl
    refine ((overwrites_loop hrows).of_iff fun i => ?_).of_eq fun c hc => ?_
    · have hbyte : ∀ k row, pixelByte W ((clipLow x).toNat + k) row =
          pixelByte W (clipLow x).toNat row + k := fun k row => (Nat.add_assoc _ _ k).symm
      constructor
      · rintro ⟨row, hrow, hb⟩
        obtain ⟨k, hk, hb⟩ := (covers_split _ _ i).mp hb
        exact ⟨(clipLow y).toNat + row, by omega, k, by omega, hbyte k _ ▸ hb⟩
      · rintro ⟨row, hrow, k, hk, hb⟩
        have hadd : (clipLow y).toNat + (row - (clipLow y).toNat) = row := by omega
        refine ⟨row - (clipLow y).toNat, by omega, (covers_split _ _ i).mpr ⟨k, by omega, ?_⟩⟩
        rw [hadd, ← hbyte]
        exact hb
    · unfold windowDrawRect
      dsimp only
      rw [hc.width, hc.height, if_neg hdraw]

/-! ### Where they overwrite the same bytes -/

section Edges
variable {x y w h : Int}

theorem rows_meet (hfit : Fits W H) : clipLow y < clipHigh y h H ↔ Meets y (int32 (y + h)) H := by
  have hh : toInt32 H = H := toInt32_eq hfit.height
  unfold clipHigh Meets
  split <;> omega

/-- A right edge past the ints becomes negative, and the width is then w, not clipped. -/
theorem clip_past (hx : IsInt x) (hw : IsInt w) (hpast : 2147483648 ≤ x + w) (hfit : Fits W H) :
    clipLow x = x ∧ int32 (clipHigh x w W - clipLow x) = w := by
  obtain ⟨hx, hx'⟩ := hx
  obtain ⟨hw, hw'⟩ := hw
  have hW : toInt32 W = W := toInt32_eq hfit.width
  have hsum : int32 (x + w) = x + w - 4294967296 := by
    unfold int32 toInt32 ofInt32 wrap
    omega
  have hlow : clipLow x = x := if_neg (by omega)
  have hhigh : clipHigh x w W = x + w - 4294967296 := by
    rw [clipHigh, hsum, if_neg (by omega)]
  refine ⟨hlow, ?_⟩
  rw [hlow, hhigh]
  unfold int32 toInt32 ofInt32 wrap
  omega

theorem columns_meet (hx : IsInt x) (hw : IsInt w) (hfit : Fits W H) :
    0 < int32 (clipHigh x w W - clipLow x) ↔ Meets x (int32 (x + w)) W ∨ 2147483648 ≤ x + w := by
  by_cases hpast : 2147483648 ≤ x + w
  · obtain ⟨_, hwidth⟩ := clip_past hx hw hpast hfit
    rw [hwidth]
    have := hx.2
    exact iff_of_true (by omega) (.inr hpast)
  · have hW : toInt32 W = W := toInt32_eq hfit.width
    rw [clip_width hx.1 hx.2 hw.1 hfit.width (by omega)]
    unfold clipHigh Meets
    split <;> omega

theorem fastBytes_exists (hx : IsInt x) (hw : IsInt w) (hfit : Fits W H) :
    (∃ i, FastBytes W H x y w h i) ↔ WrappedMeets W H x y w h := by
  have hcols := columns_meet hx hw hfit
  have hrows := rows_meet (y := y) (h := h) hfit
  have hy0 := clipLow_nonneg y
  constructor
  · rintro ⟨i, row, hrow, k, hk, _⟩
    exact ⟨hcols.mp (by omega), hrows.mp (by omega)⟩
  · rintro ⟨hcol, hrow⟩
    have hlo := hrows.mpr hrow
    have hpos := hcols.mpr hcol
    exact ⟨_, (clipLow y).toNat, by omega, 0, hpos, (covers_one _ _).mpr rfl⟩

theorem rectBytes_exists : (∃ i, RectBytes W H x y w h i) ↔ RectMeets W H x y w h := by
  constructor
  · rintro ⟨i, px, py, hpx, hpy, hxr, hyr, _⟩
    unfold RectMeets Meets clipLow
    refine ⟨?_, ?_⟩
    · split <;> omega
    · split <;> omega
  · rintro ⟨hcol, hrow⟩
    have hx0 := clipLow_nonneg x
    have hy0 := clipLow_nonneg y
    have hxle : x ≤ clipLow x := by
      unfold clipLow
      split <;> omega
    have hyle : y ≤ clipLow y := by
      unfold clipLow
      split <;> omega
    unfold Meets at hcol hrow
    exact ⟨_, (clipLow x).toNat, (clipLow y).toNat, by omega, by omega, by omega, by omega,
      (covers_one _ _).mpr rfl⟩

/-- Edges within the ints are clipped to the same pixels. -/
theorem bytes_of_ints (hfit : Fits W H) (hx : IsInt x) (hw : IsInt w) (hxw : IsInt (x + w))
    (hyh : IsInt (y + h)) (i : Nat) : FastBytes W H x y w h i ↔ RectBytes W H x y w h i := by
  have hW : toInt32 W = W := toInt32_eq hfit.width
  have hH : toInt32 H = H := toInt32_eq hfit.height
  have hxe : int32 (x + w) = x + w := int32_eq hxw.1 hxw.2
  have hye : int32 (y + h) = y + h := int32_eq hyh.1 hyh.2
  have hx0 := clipLow_nonneg x
  unfold FastBytes
  rw [clip_width hx.1 hx.2 hw.1 hfit.width hxw.2]
  constructor
  · rintro ⟨row, hrow, k, hk, hb⟩
    unfold clipHigh at hrow hk
    rw [hye, hH] at hrow
    rw [hxe, hW] at hk
    refine ⟨(clipLow x).toNat + k, row, ?_, ?_, ?_, ?_, hb⟩
    · split at hk <;> omega
    · split at hrow <;> omega
    · unfold clipLow at hk ⊢
      split at hk <;> split <;> omega
    · unfold clipLow at hrow
      split at hrow <;> split at hrow <;> omega
  · rintro ⟨px, py, hpx, hpy, hxr, hyr, hb⟩
    have hlow : clipLow x ≤ px := by
      unfold clipLow
      split <;> omega
    have hadd : (clipLow x).toNat + (px - (clipLow x).toNat) = px := by omega
    refine ⟨py, ?_, px - (clipLow x).toNat, ?_, hadd.symm ▸ hb⟩
    · unfold clipLow clipHigh
      rw [hye, hH]
      split <;> split <;> omega
    · unfold clipHigh
      rw [hxe, hW]
      split <;> omega

/-- Past the ints the last row goes on beyond the right edge of the window. -/
theorem bytes_past (hfit : Fits W H) (hx : IsInt x) (hw : IsInt w) (hpast : 2147483648 ≤ x + w)
    (hrow : clipLow y < clipHigh y h H) :
    ∃ i, FastBytes W H x y w h i ∧ ¬RectBytes W H x y w h i := by
  obtain ⟨hlow, hwidth⟩ := clip_past hx hw hpast hfit
  have hy0 := clipLow_nonneg y
  have hy1 : clipHigh y h H ≤ H := Int.le_trans (clipHigh_le y h H) (toInt32_le H)
  have hxlt := hx.2
  have hwlt := hw.2
  have hW := hfit.width
  obtain ⟨a, ha⟩ : ∃ a : Nat, x = a := Int.eq_ofNat_of_zero_le (by omega)
  obtain ⟨last, hlast⟩ : ∃ last : Nat, clipHigh y h H - 1 = last := Int.eq_ofNat_of_zero_le (by omega)
  by_cases hin : a < W
  · have hfast : FastBytes W H x y w h (pixelByte W W last) := by
      have hadd : (clipLow x).toNat + (W - a) = W := by omega
      refine ⟨last, by omega, W - a, by omega, ?_⟩
      rw [hadd, covers_one]
    refine ⟨_, hfast, fun ⟨px, py, hpx, hpy, hxr, hyr, hb⟩ => ?_⟩
    have hnext : pixelByte W W last = pixelByte W 0 (last + 1) := by
      unfold pixelByte
      rw [Nat.add_right_comm, Nat.succ_mul]
      rfl
    have hsmall : pixelByte W W last < 4294967296 := by
      have hmul : (last + headerOffset + 1) * W ≤ (H + headerOffset) * W :=
        Nat.mul_le_mul_right W (by omega)
      have hindex := hfit.index
      rw [Nat.succ_mul, Nat.mul_comm (H + headerOffset)] at hmul
      unfold pixelByte
      omega
    rw [covers_one, wrap_eq hsmall, wrap_eq (pixelByte_lt hfit hpx hpy), hnext] at hb
    have hcol := (pixelByte_inj (by omega) hpx hb).1
    omega
  · have hfast : FastBytes W H x y w h (pixelByte W (clipLow x).toNat last) :=
      ⟨last, by omega, 0, by omega, (covers_one _ _).mpr rfl⟩
    refine ⟨_, hfast, fun ⟨px, py, hpx, hpy, hxr, hyr, hb⟩ => ?_⟩
    omega

theorem bytes_iff (hfit : Fits W H) (hx : IsInt x) (hw : IsInt w) (hy : IsInt y) (hh : IsInt h) :
    (∀ i, FastBytes W H x y w h i ↔ RectBytes W H x y w h i) ↔ EdgesFit W H x y w h := by
  have hfast := @fastBytes_exists W H x y w h hx hw hfit
  have hrect := @rectBytes_exists W H x y w h
  constructor
  · intro hbytes
    have hboth : WrappedMeets W H x y w h ↔ RectMeets W H x y w h := by
      rw [← hfast, ← hrect]
      exact exists_congr hbytes
    by_cases hints : IsInt (x + w) ∧ IsInt (y + h)
    · exact .inl hints
    refine .inr ?_
    -- one of the two is empty: the wrapped one past the ints, the exact one below them
    have hempty : ¬RectMeets W H x y w h ∨ ¬WrappedMeets W H x y w h := by
      by_cases hneg : x + w < -2147483648 ∨ y + h < -2147483648
      · refine .inl fun ⟨hcol, hrow⟩ => ?_
        have hx0 := clipLow_nonneg x
        have hy0 := clipLow_nonneg y
        unfold Meets at hcol hrow
        omega
      · refine .inr fun ⟨hcol, hrow⟩ => ?_
        by_cases hpast : 2147483648 ≤ x + w
        · obtain ⟨i, hi, hout⟩ := bytes_past hfit hx hw hpast ((rows_meet hfit).mpr hrow)
          exact hout ((hbytes i).mp hi)
        · have hyh : 2147483648 ≤ y + h := by
            unfold IsInt at hints
            omega
          have hwrapped : int32 (y + h) < 0 := by
            unfold IsInt at hy hh
            unfold int32 toInt32 ofInt32 wrap
            omega
          have hy0 := clipLow_nonneg y
          unfold Meets at hrow
          omega
    rcases hempty with hno | hno
    · exact ⟨hno, fun h => hno (hboth.mp h)⟩
    · exact ⟨fun h => hno (hboth.mpr h), hno⟩
  · rintro (⟨hxw, hyh⟩ | ⟨hno, hnow⟩) i
    · exact bytes_of_ints hfit hx hw hxw hyh i
    · exact iff_of_false (fun h => hnow (hfast.mp ⟨i, h⟩)) fun h => hno (hrect.mp ⟨i, h⟩)

end Edges

/-- For all contents of the window the fast rectangle leaves what the pixels one at a time leave, if
and only if its far edges are ints or neither form draws anything. -/
theorem drawRect_pixelwise_iff (hfit : Fits W H) (x y w h : Int32) (color : UInt8) :
    (∀ c, Sized W H c → (windowDrawRect x.toInt y.toInt w.toInt h.toInt color c).pixels =
        (pixelRect x.toInt y.toInt w.toInt h.toInt color c).pixels) ↔
      EdgesFit W H x.toInt y.toInt w.toInt h.toInt := by
  have hint : ∀ i : Int32, IsInt i.toInt := fun i => ⟨i.le_toInt, i.toInt_lt⟩
  have hlt := fun i : Int32 => i.toInt_lt
  have hfast := drawRect_fills (H := H) hfit color (hint x).2 y.toInt w.toInt h.toInt
  have hrect := @pixelRect_fills W H hfit color x.toInt y.toInt w.toInt h.toInt
    (by have := hlt x; have := hlt w; omega) (by have := hlt y; have := hlt h; omega)
  let blank : Canvas := ⟨[], W, H, 0, fun _ => color + 1, 0⟩
  have hvalid : Sized W H blank := ⟨rfl, rfl⟩
  have hblank : ∀ i, blank.pixels i ≠ color := by
    intro i h
    have hsum : (color + 1).toNat = (color.toNat + 1) % 256 := UInt8.toNat_add color 1
    have hbyte := color.toNat_lt
    have hsame : (color + 1).toNat = color.toNat := congrArg UInt8.toNat h
    omega
  rw [← bytes_iff hfit (hint x) (hint w) (hint y) (hint h), ← hfast.agree_iff hrect hvalid hblank]
  exact forall₂_congr fun c hc => funext_iff

/-- A rectangle beyond the left and the right edge of a window of 40 x 20. -/
theorem edgeRect_pixelwise : EdgesFit 40 20 (-5) 10 100 100 ∧
    (windowDrawRect (-5) 10 100 100 1 ⟨[], 40, 20, 0, fun _ => 0, 0⟩).pixels =
      (pixelRect (-5) 10 100 100 1 ⟨[], 40, 20, 0, fun _ => 0, 0⟩).pixels := by
  have hedges : EdgesFit 40 20 (-5) 10 100 100 := .inl (by decide)
  exact ⟨hedges, (drawRect_pixelwise_iff ⟨by decide, by decide, by decide⟩ (-5) 10 100 100 1).mpr hedges
    _ ⟨rfl, rfl⟩⟩

/-- A width of -1 from the least int on draws the whole first row. -/
theorem wrapped_width_draws : ¬ ∀ W H c, Fits W H → Sized W H c → ∀ (x y w h : Int32) (color : UInt8),
    (windowDrawRect x.toInt y.toInt w.toInt h.toInt color c).pixels =
      (pixelRect x.toInt y.toInt w.toInt h.toInt color c).pixels := by
  intro hall
  have h := congrFun (hall 40 20 ⟨[], 40, 20, 0, fun _ => 0, 0⟩ ⟨by decide, by decide, by decide⟩
    ⟨rfl, rfl⟩ (-2147483648) 0 (-1) 1 7) (pixelByte 40 0 0)
  revert h
  decide +kernel

end AdamOS.Drawing
