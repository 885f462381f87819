import AdamOS.Display.Canvas
import AdamOS.Display.Compositing
import AdamOS.Display.DirtyRegion
import AdamOS.Lib.Overwrite

/-! draw_window: the pixels of a window, its header bar, its title and its close box. None of the
last two is clipped to the window. -/
namespace AdamOS.Vga
open AdamOS.Drawing (fontRow fontCol fontSpacing)
open AdamOS.Line AdamOS.Loop AdamOS.Overwrite AdamOS.Word

/- The rows at font8x8[c - 32]; most characters index beyond the table. -/
abbrev Glyphs := UInt8 → Nat → UInt8

variable (S : Screen) (glyph : Glyphs)

def vgaDrawChar (x y : Int) (c color : UInt8) (s : Display) : Display :=
  let s := markDirty S y (int32 (y + fontRow)) s
  loop fontRow (fun row s => loop fontCol (fun col s =>
    if glyph c row &&& (0x80 >>> UInt8.ofNat col) ≠ 0 then
      vgaPutPixel S (int32 (x + col)) (int32 (y + row)) color s
    else s) s) s

def vgaDrawString (x y : Int) (str : List UInt8) (color : UInt8) (s : Display) : Display :=
  loop str.length (fun i s =>
    vgaDrawChar S glyph (int32 (x + i * fontSpacing)) y (str.getD i 0) color s) s

/-! ### The pixels a call sets -/

abbrev ScreenPixel (S : Screen) := { p : Nat × Nat // p.1 < S.width ∧ p.2 < S.height }

def Screen.index (S : Screen) (px py : Nat) : Nat := py * S.pitch + px

def screenColor (s : Display) (p : ScreenPixel S) : UInt8 := s.back (S.index p.1.1 p.1.2)

def InRect (x y w h : Int) (p : ScreenPixel S) : Prop :=
  (x ≤ p.1.1 ∧ p.1.1 < x + w) ∧ y ≤ p.1.2 ∧ p.1.2 < y + h

variable {S glyph}

theorem markDirty_back (S : Screen) (yTop yBottom : Int) (d : Display) :
    (markDirty S yTop yBottom d).back = d.back := rfl

theorem pixel_covered {r q n py px p : Nat} (hq : q + n ≤ p) (hpx : px < p)
    (hend : r * p + p ≤ 4294967296) (hi : py * p + px < 4294967296) :
    covers (r * p + q) n (py * p + px) = true ↔ r = py ∧ q ≤ px ∧ px < q + n := by
  rw [covers_iff (by omega) hi]
  rcases Nat.lt_trichotomy r py with hlt | heq | hgt
  · have := Nat.mul_le_mul_right p (Nat.succ_le_of_lt hlt)
    rw [Nat.succ_mul] at this
    omega
  · subst heq
    omega
  · have := Nat.mul_le_mul_right p (Nat.succ_le_of_lt hgt)
    rw [Nat.succ_mul] at this
    omega

theorem row_end {r : Nat} (hr : r < S.height) : r * S.pitch + S.pitch ≤ S.size := by
  rw [← Nat.succ_mul, Screen.size, Nat.mul_comm]
  exact Nat.mul_le_mul_left _ hr

theorem putPixel_stamps {x y : Int} (hx : x < 2147483648) (hy : y < 2147483648) (color : UInt8) :
    Stamps (screenColor S) (fun p => x = p.1.1 ∧ y = p.1.2) (vgaPutPixel S x y color) := by
  refine ⟨fun _ => color, fun d p => ?_⟩
  obtain ⟨⟨px, py⟩, hpx, hpy⟩ := p
  have hsize := S.size_lt
  have hwid := S.width_le
  have hpy_end := row_end (r := py) hpy
  unfold screenColor Screen.index vgaPutPixel
  dsimp only
  by_cases hout : ofInt32 x ≥ S.width ∨ x < 0 ∨ ofInt32 y ≥ S.height ∨ y < 0
  · rw [if_pos hout]
    refine ⟨fun h => ?_, fun _ => rfl⟩
    rw [h.1, h.2, ofInt32_eq (by omega) (by omega), ofInt32_eq (by omega) (by omega)] at hout
    omega
  · rw [if_neg hout]
    obtain ⟨a, rfl⟩ : ∃ a : Nat, x = a := ⟨x.toNat, by omega⟩
    obtain ⟨b, rfl⟩ : ∃ b : Nat, y = b := ⟨y.toNat, by omega⟩
    rw [ofInt32_eq (by omega) (by omega), ofInt32_eq (by omega) (by omega), Int.toNat_natCast,
      Int.toNat_natCast] at hout ⊢
    have hb_end := row_end (S := S) (r := b) (by omega)
    have hcov : covers (b * S.pitch + a) 1 (py * S.pitch + px) = true ↔ b = py ∧ a ≤ px ∧ px < a + 1 :=
      pixel_covered (by omega) (by omega) (by omega) (by omega)
    rw [wrap_eq (by omega)]
    simp only [memset, markDirty_back]
    constructor
    · intro h
      exact if_pos (hcov.mpr (by omega))
    · intro h
      exact if_neg fun hc => h (by have := hcov.mp hc; omega)

theorem stamps_markDirty {T : ScreenPixel S → Prop} {f : Display → Display} (yTop yBottom : Int)
    (h : Stamps (screenColor S) T f) : Stamps (screenColor S) T fun s => f (markDirty S yTop yBottom s) := by
  have hmark : Stamps (screenColor S) (fun _ => False) (markDirty S yTop yBottom) :=
    (stamps_nothing 0).of_eq fun _ _ => rfl
  exact (hmark.andThen h).of_iff fun p => by simp

theorem drawRect_stamps {x y : Int} {w h : Nat} (hx : -2147483648 ≤ x) (hy : -2147483648 ≤ y)
    (hxw : x + w < 2147483648) (hyh : y + h < 2147483648) (color : UInt8) :
    Stamps (screenColor S) (InRect S x y w h) (vgaDrawRect S x y w h color) := by
  have hw : rounds x w = w := by
    rw [rounds, int32_eq (by omega) hxw]
    omega
  have hh : rounds y h = h := by
    rw [rounds, int32_eq (by omega) hyh]
    omega
  have hloop : Stamps (screenColor S) (fun p => ∃ i < w, ∃ j < h, x + i = p.1.1 ∧ y + j = p.1.2)
      (loop w fun i s => loop h (fun j s => vgaPutPixel S (x + i) (y + j) color s) s) :=
    stamps_loop 0 fun i hi => stamps_loop 0 fun j hj => putPixel_stamps (by omega) (by omega) color
  have hdraw := stamps_markDirty y (int32 (y + h - 1)) hloop
  unfold vgaDrawRect
  rw [hw, hh]
  refine hdraw.of_iff fun p => ⟨?_, fun hp => ?_⟩
  · rintro ⟨i, hi, j, hj, hxp, hyp⟩
    unfold InRect
    omega
  · obtain ⟨hpx, hpy⟩ := hp
    exact ⟨(p.1.1 - x).toNat, by omega, (p.1.2 - y).toNat, by omega, by omega, by omega⟩

def GlyphPixel (glyph : Glyphs) (x y : Int) (c : UInt8) (p : ScreenPixel S) : Prop :=
  ∃ row < fontRow, ∃ col < fontCol, glyph c row &&& (0x80 >>> UInt8.ofNat col) ≠ 0 ∧
    int32 (x + col) = p.1.1 ∧ int32 (y + row) = p.1.2

theorem drawChar_stamps (x y : Int) (c color : UInt8) :
    Stamps (screenColor S) (GlyphPixel glyph x y c) (vgaDrawChar S glyph x y c color) := by
  refine stamps_markDirty y (int32 (y + fontRow)) (stamps_loop 0 fun row _ => stamps_loop 0 fun col _ => ?_)
  by_cases hbit : glyph c row &&& (0x80 >>> UInt8.ofNat col) ≠ 0
  · have hput := putPixel_stamps (S := S) (int32_bounds (x + col)).2 (int32_bounds (y + row)).2 color
    exact (hput.of_iff fun p => (and_iff_right hbit).symm).of_eq fun s p => by rw [if_pos hbit]
  · exact ((stamps_nothing 0).of_iff fun p => iff_of_false id fun h => hbit h.1).of_eq fun s p => by
      rw [if_neg hbit]

theorem drawString_stamps (x y : Int) (str : List UInt8) (color : UInt8) :
    Stamps (screenColor S) (fun p => ∃ i < str.length,
        GlyphPixel glyph (int32 (x + i * fontSpacing)) y (str.getD i 0) p)
      (vgaDrawString S glyph x y str color) :=
  stamps_loop 0 fun _ _ => drawChar_stamps ..

/-- Letters whose last column is an int lie in a bar of their height. -/
theorem text_inRect {x y : Int} {str : List UInt8} {w h : Nat} (hx : -2147483648 ≤ x) (hy : -2147483648 ≤ y)
    (hxw : x + w < 2147483648) (hyh : y + h < 2147483648) (hrow : fontRow ≤ h)
    (hlen : str.length * fontSpacing ≤ w + 1) {p : ScreenPixel S}
    (hp : ∃ i < str.length, GlyphPixel glyph (int32 (x + i * fontSpacing)) y (str.getD i 0) p) :
    InRect S x y w h p := by
  obtain ⟨i, hi, row, hr, col, hc, -, hpx, hpy⟩ := hp
  unfold fontRow at hr hrow
  unfold fontCol at hc
  unfold fontSpacing at hlen hpx
  have hat : int32 (x + i * (9 : Nat)) = x + i * 9 := int32_eq (by omega) (by omega)
  rw [hat, int32_eq (by omega) (by omega)] at hpx
  rw [int32_eq (by omega) (by omega)] at hpy
  unfold InRect
  omega

/-! ### The pixels of a blit -/

/-- Clipping leaves out what lies beyond the edges of the screen. -/
theorem clip_columns {x : Int} {width px : Nat} (hx : -2147483648 ≤ x)
    (hw : width < 2147483648) (hxw : x + width < 2147483648) (hpx : px < S.width) :
    0 < (clipRight S (clipLeft x width)).copyWidth ∧
        (clipRight S (clipLeft x width)).dstX ≤ px ∧
        px < (clipRight S (clipLeft x width)).dstX + (clipRight S (clipLeft x width)).copyWidth ↔
      x ≤ px ∧ px < x + width := by
  obtain ⟨src, -, hclip⟩ := @clip_eq S x width hx (by omega) (by omega) (.inr (.inr hxw))
  rw [hclip, int32_eq (by omega) (by omega)]
  dsimp only
  omega

theorem blitRow_stamps {x y : Int} {width row : Nat} (buffer : Buffer) (hx : -2147483648 ≤ x)
    (hw : width < 2147483648) (hxw : x + width < 2147483648) (hy : -2147483648 ≤ y)
    (hrow : y + row < 2147483648) :
    Stamps (screenColor S) (InRect S x (y + row) width 1) (blitRow S x y width buffer row) := by
  have hinside := @clip_inside S x width hx (by omega) (by omega) (.inr (.inr hxw))
  unfold blitRow
  rw [int32_eq (by omega) hrow]
  dsimp only
  by_cases hon : y + row < 0 ∨ y + row ≥ S.height
  · simp only [if_pos hon]
    refine (stamps_nothing 0).of_iff fun p => iff_of_false id fun hp => ?_
    have hpy := p.2.2
    unfold InRect at hp
    omega
  by_cases hcw : (clipRight S (clipLeft x width)).copyWidth ≤ 0
  · simp only [if_neg hon, if_pos hcw]
    refine (stamps_nothing 0).of_iff fun p => iff_of_false id fun hp => ?_
    have hcols := (clip_columns hx hw hxw p.2.1).mpr hp.1
    omega
  simp only [if_neg hon, if_neg hcw]
  let dst := ofInt32 ((y + row) * S.pitch + (clipRight S (clipLeft x width)).dstX)
  let src := ofInt32 ((row * width : Nat) + (clipRight S (clipLeft x width)).srcX)
  refine ⟨fun p => buffer (wrap (src + sub32 (S.index p.1.1 p.1.2) dst)), fun d p => ?_⟩
  obtain ⟨⟨px, py⟩, hpx, hpy⟩ := p
  have hcols := clip_columns hx hw hxw hpx
  obtain ⟨hd0, hdW⟩ := hinside
  have hcovers : covers dst (clipRight S (clipLeft x width)).copyWidth.toNat (S.index px py) = true ↔
      InRect S x (y + row) width 1 ⟨(px, py), hpx, hpy⟩ := by
    unfold InRect Screen.index dst
    dsimp only
    generalize clipRight S (clipLeft x width) = k at hcw hd0 hdW hcols ⊢
    obtain ⟨r, hr⟩ : ∃ r : Nat, y + row = r := ⟨(y + row).toNat, by omega⟩
    obtain ⟨q, hq⟩ : ∃ q : Nat, k.dstX = q := ⟨k.dstX.toNat, by omega⟩
    obtain ⟨n, hn⟩ : ∃ n : Nat, k.copyWidth = n := ⟨k.copyWidth.toNat, by omega⟩
    rw [hr] at hon ⊢
    rw [hq, hn] at hdW hcols
    rw [hq, hn]
    have hwid := S.width_le
    have hsize := S.size_lt
    have hr_end := row_end (S := S) (r := r) (by omega)
    have hpy_end := row_end (r := py) hpy
    have hdst : ofInt32 ((r : Int) * S.pitch + q) = r * S.pitch + q := by
      rw [← Int.natCast_mul, ← Int.natCast_add, ofInt32_eq (by omega) (by omega), Int.toNat_natCast]
    rw [hdst, Int.toNat_natCast]
    refine (pixel_covered (by omega) (by omega) (by omega) (by omega)).trans ?_
    omega
  exact ⟨fun h => if_pos (hcovers.mpr h), fun h => if_neg fun hc => h (hcovers.mp hc)⟩

/-- A blit inside the range of an int sets the pixels of its rectangle. -/
theorem vgaBlit_stamps {x y : Int} {width height : Nat} (buffer : Buffer) (hx : -2147483648 ≤ x)
    (hw : width < 2147483648) (hxw : x + width < 2147483648) (hy : -2147483648 ≤ y)
    (hyh : y + height < 2147483648) :
    Stamps (screenColor S) (InRect S x y width height) (vgaBlit S x y width height buffer) := by
  have hrows : Stamps (screenColor S) (fun p => ∃ row < height, InRect S x (y + row) width 1 p)
      (loop height (blitRow S x y width buffer)) :=
    stamps_loop 0 fun row hrow => blitRow_stamps buffer hx hw hxw hy (by omega)
  refine (stamps_markDirty y (int32 (y + height - 1)) hrows).of_iff fun p => ?_
  unfold InRect
  constructor
  · rintro ⟨row, hrow, hcols, hlines⟩
    omega
  · rintro ⟨hcols, hlines⟩
    exact ⟨(p.1.2 - y).toNat, by omega, hcols, by omega⟩

end AdamOS.Vga

namespace AdamOS.Windows
open AdamOS.Drawing (fontRow fontSpacing)
open AdamOS.Overwrite AdamOS.Vga AdamOS.Word

def padding : Nat := 5
def white : UInt8 := 0x0F
def brightRed : UInt8 := 0x0C

/- What shows besides the fields of the windows: the mode, the font and the pixel buffers. -/
structure Surface where
  screen : Screen
  glyph : Glyphs
  bytes : Nat → Buffer

def wordBytes (n : Nat) : List UInt8 := (List.range 4).map fun k => UInt8.ofNat (n / 256 ^ k)

/- The string at window->title: with 32 letters it goes on with the bytes of pid and z_index. -/
def Window.titleText (w : Window) : List UInt8 :=
  if w.title.length < 32 then w.title
  else w.title ++ (wordBytes w.pid ++ wordBytes w.zIndex).takeWhile fun c => c != 0

def drawWindow (D : Surface) (w : Window) (s : Display) : Display :=
  let borderColor : UInt8 := if w.isFocused then 0x11 else 0x99
  let s := vgaBlit D.screen w.x w.y w.width (wrap (w.height + headerOffset)) (D.bytes w.pixelBuffer) s
  let s := vgaDrawRect D.screen w.x w.y (toInt32 w.width) headerOffset borderColor s
  let s := vgaDrawString D.screen D.glyph (int32 (w.x + padding)) (int32 (w.y + padding + 5)) w.titleText
    white s
  let s := vgaDrawRect D.screen (int32 (w.x + w.width - padding - 15)) (int32 (w.y + padding)) 15 15
    brightRed s
  vgaDrawString D.screen D.glyph (int32 (w.x + w.width - padding - 12)) (int32 (w.y + padding + 4)) [88]
    0xF s

/- The right and the lower edge are ints, and the header has room for the title and the close box. -/
def Window.Fits (w : Window) : Prop :=
  (-2147483648 ≤ w.x ∧ -2147483648 ≤ w.y ∧ w.width < 2147483648 ∧ w.height + headerOffset < 2147483648 ∧
    w.x + w.width < 2147483648 ∧ w.y + (w.height + headerOffset : Nat) < 2147483648) ∧
    20 ≤ w.width ∧ w.titleText.length * fontSpacing + 4 ≤ w.width

instance (w : Window) : Decidable w.Fits := inferInstanceAs (Decidable (_ ∧ _))

/-- Such a window sets the pixels of its rectangle and no others. -/
theorem Window.Fits.stamps {w : Window} (h : w.Fits) (D : Surface) :
    Stamps (screenColor D.screen) (InRect D.screen w.x w.y w.width (w.height + headerOffset : Nat))
      (drawWindow D w) := by
  obtain ⟨⟨hx, hy, hw, hh, hxw, hyh⟩, hbox, htitle⟩ := h
  have hheader : headerOffset = 25 := rfl
  have hpad : padding = 5 := rfl
  have hspace : fontSpacing = 9 := rfl
  have hrow : fontRow = 8 := rfl
  rw [hheader] at hh hyh
  rw [hspace] at htitle
  unfold drawWindow
  rw [hheader, hpad, wrap_eq (by omega), toInt32_eq hw, int32_eq (by omega) (by omega),
    int32_eq (by omega) (by omega), int32_eq (by omega) (by omega), int32_eq (by omega) (by omega),
    int32_eq (by omega) (by omega), int32_eq (by omega) (by omega)]
  have hblit : Stamps (screenColor D.screen) _
      (vgaBlit D.screen w.x w.y w.width (w.height + 25) (D.bytes w.pixelBuffer)) :=
    vgaBlit_stamps _ hx hw hxw hy (by omega)
  have hbar := drawRect_stamps (S := D.screen) (h := 25) hx hy hxw (by omega)
    (if w.isFocused then 0x11 else 0x99)
  have htext : Stamps (screenColor D.screen) _
      (vgaDrawString D.screen D.glyph (w.x + 5) (w.y + 5 + 5) w.titleText white) := drawString_stamps ..
  have hclose := drawRect_stamps (S := D.screen) (x := w.x + w.width - 5 - 15) (y := w.y + 5) (w := 15) (h := 15)
    (by omega) (by omega) (by omega) (by omega) brightRed
  have hcross : Stamps (screenColor D.screen) _
      (vgaDrawString D.screen D.glyph (w.x + w.width - 5 - 12) (w.y + 5 + 4) [88] 0xF) := drawString_stamps ..
  refine (((hblit.over hbar fun p hp => ?_).over htext fun p hp => ?_).over hclose fun p hp => ?_).over hcross
    fun p hp => ?_
  · unfold InRect at hp ⊢
    omega
  · have hin := text_inRect (w := w.width - 5) (h := 8) (by omega) (by omega) (by omega) (by omega)
      (by omega) (by rw [hspace]; omega) hp
    unfold InRect at hin ⊢
    omega
  · unfold InRect at hp ⊢
    omega
  · have hin := text_inRect (w := 8) (h := 8) (by omega) (by omega) (by omega) (by omega) (by omega)
      (by simp [hspace]) hp
    unfold InRect at hin ⊢
    omega

def blank (S : Screen) (color : UInt8) : Display := { initVga S with back := fun _ => color }

/- Drawing the window sets the pixel: what was there before makes no difference. -/
def Window.shownAt (D : Surface) (w : Window) (px py : Int) : Bool :=
  decide (0 ≤ px ∧ px < D.screen.width ∧ 0 ≤ py ∧ py < D.screen.height) &&
    (drawWindow D w (blank D.screen 0)).back (ofInt32 (py * D.screen.pitch + px)) ==
      (drawWindow D w (blank D.screen 1)).back (ofInt32 (py * D.screen.pitch + px))

/-- On the screen, such a window is drawn where point_in_rect finds it. -/
theorem Window.Fits.shownAt {w : Window} (h : w.Fits) (D : Surface) {px py : Nat} (hpx : px < D.screen.width)
    (hpy : py < D.screen.height) : w.shownAt D px py = w.covers px py := by
  have hstamps := h.stamps D
  obtain ⟨⟨hx, hy, hw, hh, hxw, hyh⟩, -⟩ := h
  have hsize := D.screen.size_lt
  have hwid := D.screen.width_le
  have hend := row_end hpy
  have hidx : ofInt32 ((py : Int) * D.screen.pitch + px) = D.screen.index px py := by
    rw [← Int.natCast_mul, ← Int.natCast_add, ofInt32_eq (by omega) (by omega), Int.toNat_natCast]
    rfl
  have hagree := hstamps.agree_at_iff (a := blank D.screen 0) (b := blank D.screen 1)
    (i := ⟨(px, py), hpx, hpy⟩) (by simp [screenColor, blank])
  unfold Window.shownAt Window.covers pointInRect
  rw [hidx, toInt32_eq hw, toInt32_eq hh, int32_eq (by omega) hxw, int32_eq (by omega) hyh, Bool.eq_iff_iff]
  unfold InRect screenColor at hagree
  simp only [Bool.and_eq_true, decide_eq_true_eq, beq_iff_eq, hagree]
  omega

end AdamOS.Windows
