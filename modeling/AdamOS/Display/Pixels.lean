import AdamOS.Display.Canvas
import AdamOS.Display.DirtyRegion
import AdamOS.Lib.Overwrite

/-! What drawing into a window does to its single pixels: a call paints a set of them. -/
namespace AdamOS.Drawing
open AdamOS.Fat16 AdamOS.Loop AdamOS.Overwrite AdamOS.Vga AdamOS.Windows AdamOS.Word
variable {W H : Nat} {f : Canvas → Canvas} {color : UInt8} {S : Nat → Nat → Prop} {c : Canvas}

def pixelAt (c : Canvas) (x y : Nat) : UInt8 := c.pixels ((y + headerOffset) * c.width + x)

structure Sized (W H : Nat) (c : Canvas) : Prop where
  width : c.width = W
  height : c.height = H

/- The last pixel's index is a word, and the sides are ints. -/
structure Fits (W H : Nat) : Prop where
  width : W < 2147483648
  height : H < 2147483648
  index : W * (H + headerOffset) < 4294967296

/- In every window of the size the pixels of S get the color, and no other pixel changes. -/
structure Paints (W H : Nat) (color : UInt8) (S : Nat → Nat → Prop) (f : Canvas → Canvas) : Prop where
  sized {c : Canvas} : Sized W H c → Sized W H (f c)
  inside {c : Canvas} {x y : Nat} : Sized W H c → x < W → y < H → S x y → pixelAt (f c) x y = color
  outside {c : Canvas} {x y : Nat} : Sized W H c → x < W → y < H → ¬S x y →
    pixelAt (f c) x y = pixelAt c x y

/-! ### Composition -/

abbrev Pixel (W H : Nat) := { p : Nat × Nat // p.1 < W ∧ p.2 < H }

def colorAt (c : Canvas) (p : Pixel W H) : UInt8 := pixelAt c p.1.1 p.1.2

theorem paints_iff : Paints W H color S f ↔
    Overwrites (Sized W H) colorAt color (fun p : Pixel W H => S p.1.1 p.1.2) f := by
  constructor
  · intro h
    exact ⟨h.sized, fun {_ p} hc hS => h.inside hc p.2.1 p.2.2 hS,
      fun {_ p} hc hS => h.outside hc p.2.1 p.2.2 hS⟩
  · intro h
    exact ⟨h.keeps, fun {_ x y} hc hx hy hS => h.inside (i := ⟨(x, y), hx, hy⟩) hc hS,
      fun {_ x y} hc hx hy hS => h.outside (i := ⟨(x, y), hx, hy⟩) hc hS⟩

theorem Paints.of_iff {T : Nat → Nat → Prop} (h : Paints W H color S f)
    (hST : ∀ x y, x < W → y < H → (S x y ↔ T x y)) : Paints W H color T f :=
  paints_iff.mpr ((paints_iff.mp h).of_iff fun p => hST _ _ p.2.1 p.2.2)

theorem Paints.of_eq {g : Canvas → Canvas} (h : Paints W H color S g)
    (hfg : ∀ c, Sized W H c → f c = g c) : Paints W H color S f :=
  paints_iff.mpr ((paints_iff.mp h).of_eq hfg)

theorem paints_of_disjoint (hS : ∀ x y, x < W → y < H → ¬S x y) :
    Paints W H color S fun c => c :=
  paints_iff.mpr (overwrites_of_empty fun p => hS _ _ p.2.1 p.2.2)

/-- The rounds of a loop paint the union of what each of them paints. -/
theorem Paints.loop {n : Nat} {body : Nat → Canvas → Canvas} {S : Nat → Nat → Nat → Prop}
    (h : ∀ i < n, Paints W H color (S i) (body i)) :
    Paints W H color (fun x y => ∃ i < n, S i x y) (loop n body) :=
  paints_iff.mpr (overwrites_loop fun i hi => paints_iff.mp (h i hi))

/-! ### One row -/

/-- n bytes from a pixel on, none of them beyond the row. -/
theorem put_paints (hfit : Fits W H) (color : UInt8) {row x0 n : Nat} (hrow : row < H) (hx0 : x0 + n ≤ W) :
    Paints W H color (fun x y => y = row ∧ x0 ≤ x ∧ x < x0 + n)
      (put ((row + headerOffset) * W + x0) n color) := by
  have hmul : ∀ {a b : Nat}, a < b → a * W + W ≤ b * W := fun {a b} hab => by
    rw [← Nat.succ_mul]
    exact Nat.mul_le_mul_right W hab
  have hend := hmul (show row + headerOffset < H + headerOffset by omega)
  have hindex := hfit.index
  rw [Nat.mul_comm] at hindex
  have hpixel : ∀ {c : Canvas} {x y : Nat}, Sized W H c → x < W → y < H →
      pixelAt (put ((row + headerOffset) * W + x0) n color c) x y =
        if y = row ∧ x0 ≤ x ∧ x < x0 + n then color else pixelAt c x y := by
    intro c x y hc hx hy
    have hlast := hmul (show y + headerOffset < H + headerOffset by omega)
    have hcov : (covers ((row + headerOffset) * W + x0) n ((y + headerOffset) * W + x) = true) ↔
        y = row ∧ x0 ≤ x ∧ x < x0 + n := by
      rw [covers_iff (by omega) (by omega)]
      rcases Nat.lt_trichotomy y row with hlt | he | hgt
      · have := hmul (show y + headerOffset < row + headerOffset by omega)
        omega
      · rw [he]
        omega
      · have := hmul (show row + headerOffset < y + headerOffset by omega)
        omega
    unfold pixelAt put Vga.memset
    dsimp only
    rw [hc.width]
    exact if_congr hcov rfl rfl
  refine ⟨fun hc => ⟨hc.width, hc.height⟩, fun hc hx hy hS => ?_, fun hc hx hy hS => ?_⟩
  · rw [hpixel hc hx hy, if_pos hS]
  · rw [hpixel hc hx hy, if_neg hS]

/-! ### The drawing calls -/

theorem putPixel_paints (hfit : Fits W H) (color : UInt8) {x y : Int} (hx : x < 2147483648) (hy : y < 2147483648) :
    Paints W H color (fun px py => x = px ∧ y = py) (windowPutPixel x y color) := by
  have hw := hfit.width
  have hh := hfit.height
  have hindex := hfit.index
  by_cases hin : 0 ≤ x ∧ x < W ∧ 0 ≤ y ∧ y < H
  · obtain ⟨a, rfl⟩ := Int.eq_ofNat_of_zero_le hin.1
    obtain ⟨b, rfl⟩ := Int.eq_ofNat_of_zero_le hin.2.2.1
    have hrow : b < H := by omega
    have hcol : a + 1 ≤ W := by omega
    have hput := (put_paints hfit color hrow hcol).of_iff
      (T := fun px py => (a : Int) = px ∧ (b : Int) = py) fun px py _ _ => by omega
    refine hput.of_eq fun c hc => ?_
    have ha : ofInt32 (a : Int) = a := by rw [ofInt32_eq (by omega) (by omega), Int.toNat_natCast]
    have hb : ofInt32 (b : Int) = b := by rw [ofInt32_eq (by omega) (by omega), Int.toNat_natCast]
    have hb' : ofInt32 ((b : Int) + headerOffset) = b + headerOffset := by
      rw [ofInt32_eq (by omega) (by unfold headerOffset; omega)]
      omega
    have hmul : (b + headerOffset + 1) * W ≤ (H + headerOffset) * W :=
      Nat.mul_le_mul_right W (by omega)
    rw [Nat.succ_mul, Nat.mul_comm (H + headerOffset)] at hmul
    unfold windowPutPixel
    rw [ha, hb, hb', hc.width, hc.height, if_neg (by omega), wrap_eq (by omega)]
  · refine (paints_of_disjoint fun px py hpx hpy hS => hin ⟨?_, ?_, ?_, ?_⟩).of_eq fun c hc => ?_
    · omega
    · omega
    · omega
    · omega
    · unfold windowPutPixel
      refine if_pos ?_
      rw [hc.width, hc.height]
      by_cases hx0 : x < 0
      · exact .inr (.inl hx0)
      · by_cases hy0 : y < 0
        · exact .inr (.inr (.inr hy0))
        · rw [ofInt32_eq (by omega) (by omega), ofInt32_eq (by omega) (by omega)]
          omega

theorem drawRect_paints (hfit : Fits W H) (color : UInt8) {x y w h : Nat} (hx : x + w < 2147483648)
    (hy : y + h < 2147483648) :
    Paints W H color (fun px py => (x ≤ px ∧ px < x + w) ∧ y ≤ py ∧ py < y + h)
      (windowDrawRect x y w h color) := by
  have hw := hfit.width
  have hh := hfit.height
  have hindex := hfit.index
  have hlow : ∀ a : Nat, clipLow a = a := fun a => if_neg (by omega)
  have hhigh : ∀ {a n size : Nat}, a + n < 2147483648 → size < 2147483648 →
      clipHigh a n size = min (a + n) size := fun {a n size} hsum hsize => by
    unfold clipHigh
    rw [int32_eq (by omega) (by omega), toInt32_eq hsize]
    split <;> omega
  have hclip : ∀ c, Sized W H c → windowDrawRect x y w h color c =
      if min (x + w) W ≤ x ∨ min (y + h) H ≤ y then c
      else loop (min (y + h) H - y) (fun row c =>
        put (wrap (ofInt32 ((y + row : Nat) + headerOffset) * c.width + x)) (min (x + w) W - x)
          color c) c := by
    intro c hc
    have hx0 : ofInt32 (x : Int) = x := by rw [ofInt32_eq (by omega) (by omega), Int.toNat_natCast]
    unfold windowDrawRect
    dsimp only
    rw [hc.width, hc.height, hlow, hlow, hhigh hx hw, hhigh hy hh, hx0, int32_eq (by omega) (by omega)]
    refine if_congr (by omega) rfl ?_
    rw [Int.toNat_sub, Int.toNat_sub]
    rfl
  by_cases hout : min (x + w) W ≤ x ∨ min (y + h) H ≤ y
  · exact (paints_of_disjoint fun px py _ _ _ => by omega).of_eq fun c hc => by
      rw [hclip c hc, if_pos hout]
  · have hrows : ∀ row < min (y + h) H - y, Paints W H color
        (fun px py => py = y + row ∧ x ≤ px ∧ px < x + (min (x + w) W - x)) fun c =>
          put (wrap (ofInt32 ((y + row : Nat) + headerOffset) * c.width + x))
            (min (x + w) W - x) color c := by
      intro row hrow
      refine (put_paints hfit color (show y + row < H by omega) (by omega)).of_eq fun c hc => ?_
      have hmul : (y + row + headerOffset + 1) * W ≤ (H + headerOffset) * W :=
        Nat.mul_le_mul_right W (by omega)
      rw [Nat.succ_mul, Nat.mul_comm (H + headerOffset)] at hmul
      have hidx : ofInt32 ((y + row : Nat) + headerOffset) = y + row + headerOffset := by
        rw [ofInt32_eq (by omega) (by unfold headerOffset; omega)]
        omega
      rw [hidx, hc.width, wrap_eq (by omega)]
    refine ((Paints.loop hrows).of_iff fun px py hpx hpy => ⟨?_, fun h => ⟨py - y, ?_⟩⟩).of_eq
      fun c hc => by rw [hclip c hc, if_neg hout]
    · rintro ⟨row, hrow, hS⟩
      omega
    · omega

def CharPixel (font : Font) (x y : Int) (ch : UInt8) (px py : Nat) : Prop :=
  unprintable ch = false ∧ ∃ row < fontRow, ∃ col < fontCol,
    font (ch.toNat - 32) row &&& (0x80 >>> UInt8.ofNat col) ≠ 0 ∧
      int32 (x + col) = px ∧ int32 (y + row) = py

def TextPixel (font : Font) (x y : Int) (str : CString) (px py : Nat) : Prop :=
  ∃ i < str.chars.length,
    CharPixel font (toInt32 (ofInt32 x + i * fontSpacing)) y (str.chars.getD i 0) px py

theorem drawChar_paints (hfit : Fits W H) (color : UInt8) (font : Font) (x y : Int) (ch : UInt8) :
    Paints W H color (CharPixel font x y ch) (windowDrawChar font x y ch color) := by
  cases hch : unprintable ch with
  | true =>
    refine (paints_of_disjoint fun px py _ _ hS => ?_).of_eq fun c _ => if_pos hch
    exact absurd hch (by rw [hS.1]; decide)
  | false =>
    have hrows : ∀ row < fontRow, Paints W H color (fun px py => ∃ col < fontCol,
        font (ch.toNat - 32) row &&& (0x80 >>> UInt8.ofNat col) ≠ 0 ∧
          int32 (x + col) = px ∧ int32 (y + row) = py) fun c => loop fontCol (fun col c =>
        if font (ch.toNat - 32) row &&& (0x80 >>> UInt8.ofNat col) ≠ 0 then
          windowPutPixel (int32 (x + col)) (int32 (y + row)) color c
        else c) c := by
      intro row _
      refine Paints.loop fun col _ => ?_
      by_cases hbit : font (ch.toNat - 32) row &&& (0x80 >>> UInt8.ofNat col) ≠ 0
      · refine ((putPixel_paints hfit color (int32_bounds _).2 (int32_bounds _).2).of_iff
          fun px py _ _ => ?_).of_eq fun c _ => if_pos hbit
        exact (and_iff_right hbit).symm
      · exact (paints_of_disjoint fun px py _ _ hS => hbit hS.1).of_eq fun c _ => if_neg hbit
    refine ((Paints.loop hrows).of_iff fun px py _ _ => (and_iff_right hch).symm).of_eq fun c _ => ?_
    exact if_neg (by rw [hch]; decide)

theorem drawString_paints (hfit : Fits W H) (color : UInt8) (font : Font) (x y : Int) (str : CString) :
    Paints W H color (TextPixel font x y str) (windowDrawString font x y str color) :=
  Paints.loop fun _ _ => drawChar_paints hfit color ..

theorem TextPixel.left {font : Font} {x y : Int} {str : CString} {px py : Nat}
    (h : TextPixel font x y str px py) (hx : 0 ≤ x)
    (hlen : x + (str.chars.length + 1) * fontSpacing < 2147483648) : x ≤ px := by
  obtain ⟨i, hi, -, row, -, col, hcol, -, hpx, -⟩ := h
  have hspace : fontSpacing = 9 := rfl
  have hwidth : fontCol = 8 := rfl
  rw [hspace] at hlen hpx
  have hat : toInt32 (ofInt32 x + i * 9) = x + i * 9 := by
    rw [ofInt32_eq hx (by omega), toInt32_eq (by omega)]
    omega
  rw [hat, int32_eq (by omega) (by omega)] at hpx
  omega

end AdamOS.Drawing
