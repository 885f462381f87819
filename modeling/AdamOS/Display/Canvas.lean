import AdamOS.Display.Vga
import AdamOS.Display.Window
import AdamOS.Kernel.Kmalloc

/-! Drawing into a window: window_put_pixel, window_draw_rect, window_draw_line and
window_draw_string compute their indices apart from the size wm_create_window asks kmalloc for. -/
namespace AdamOS.Drawing
open AdamOS.Fat16 AdamOS.Kmalloc AdamOS.Line AdamOS.Loop AdamOS.Transition AdamOS.Vga AdamOS.Windows
open AdamOS.Word

structure Canvas where
  heap : List HeapBlock
  (width height : Nat)
  /- window->pixel_buffer -/
  buffer : Nat
  pixels : Buffer
  /- one more than the largest index that was written, 0 before any write -/
  extent : Nat

/- memset(&window->pixel_buffer[i], color, n) -/
def put (i n : Nat) (color : UInt8) (c : Canvas) : Canvas :=
  { c with
    pixels := Vga.memset i n color c.pixels
    extent := if n = 0 then c.extent else max c.extent (i + n) }

/- sizeof(window_t), and where its title begins -/
def sizeofWindow : Nat := 1364
def titleOffset : Nat := 24

/- What wm_create_window does with the heap; none is a window that was not served, or whose title
   strcpy copies beyond its block, over the header of the next one. -/
def createCanvas (heap : List HeapBlock) (r : CreateWindow) : Option Canvas :=
  let window := kmalloc sizeofWindow heap
  let size := bufSize r.width.toNat r.height.toNat
  let buffer := kmalloc size window.2
  if window.1 = 0 ∨ sizeofWindow ≤ titleOffset + r.title.chars.length then none
  else some (put 0 size 0 ⟨buffer.2, r.width.toNat, r.height.toNat, buffer.1, fun _ => 0, 0⟩)

def windowPutPixel (x y : Int) (color : UInt8) (c : Canvas) : Canvas :=
  if ofInt32 x ≥ c.width ∨ x < 0 ∨ ofInt32 y ≥ c.height ∨ y < 0 then c
  else put (wrap (ofInt32 (y + headerOffset) * c.width + ofInt32 x)) 1 color c

/- x0, and y0: the lower edge is not below 0. -/
def clipLow (a : Int) : Int := if a < 0 then 0 else a

def clipHigh (a n : Int) (size : Nat) : Int :=
  if int32 (a + n) > toInt32 size then toInt32 size else int32 (a + n)

def windowDrawRect (x y w h : Int) (color : UInt8) (c : Canvas) : Canvas :=
  let x0 := clipLow x
  let y0 := clipLow y
  let y1 := clipHigh y h c.height
  let clippedW := int32 (clipHigh x w c.width - x0)
  if clippedW ≤ 0 ∨ y0 ≥ y1 then c
  else
    loop (y1 - y0).toNat (fun row c =>
      put (wrap (ofInt32 (y0 + row + headerOffset) * c.width + ofInt32 x0)) clippedW.toNat color c) c

def windowDrawLine (l : Segment) (color : UInt8) (c : Canvas) : Option Canvas :=
  drawLine (fun x y c => windowPutPixel x y color c) l c

def fontRow : Nat := 8
def fontCol : Nat := 8
def fontSpacing : Nat := 9

/- The rows of a glyph. 127 reads the row after font8x8's last. -/
abbrev Font := Nat → Nat → UInt8

variable (font : Font)

/- c < 32 on a signed char. -/
def unprintable (ch : UInt8) : Bool := ch < 32 || ch ≥ 128

def windowDrawChar (x y : Int) (ch : UInt8) (color : UInt8) (c : Canvas) : Canvas :=
  if unprintable ch then c
  else
    loop fontRow (fun row c => loop fontCol (fun col c =>
      if font (ch.toNat - 32) row &&& (0x80 >>> UInt8.ofNat col) ≠ 0 then
        windowPutPixel (int32 (x + col)) (int32 (y + row)) color c
      else c) c) c

def windowDrawString (x y : Int) (str : CString) (color : UInt8) (c : Canvas) : Canvas :=
  loop str.chars.length (fun i c =>
    windowDrawChar font (toInt32 (ofInt32 x + i * fontSpacing)) y (str.chars.getD i 0) color c) c

/-! ### Requests -/

inductive DrawCall where
  | rect (x y : Int32) (width height : UInt32) (color : UInt8)
  | line (x0 y0 x1 y1 : Int32) (color : UInt8)
  | text (x y : Int32) (str : CString) (color : UInt8)

def drawStep (c : Canvas) : DrawCall → Option Canvas
  | .rect x y width height color =>
    some (windowDrawRect x.toInt y.toInt (toInt32 width.toNat) (toInt32 height.toNat) color c)
  | .line x0 y0 x1 y1 color => windowDrawLine (segment x0 y0 x1 y1) color c
  | .text x y str color => some (windowDrawString font x.toInt y.toInt str color c)

/- The buffer is an allocation in use, and no index beyond it was written. -/
def InBuffer (c : Canvas) : Prop :=
  ∃ b ∈ c.heap, b.payload = c.buffer ∧ b.isFree = false ∧ c.extent ≤ b.size

instance (c : Canvas) : Decidable (InBuffer c) := inferInstanceAs (Decidable (∃ b ∈ c.heap, _))

/- width * (height + HEADER_OFFSET) does not wrap, or there is no row to draw in. -/
def SizeExact (width height : Nat) : Prop :=
  height = 0 ∨ width * (height + headerOffset) < 4294967296

/- The right edge of a rectangle is an int, or none of its rows lies in the window. -/
def RectInRange (c : Canvas) : DrawCall → Prop
  | .rect x y width height _ => x.toInt + toInt32 width.toNat < 2147483648 ∨
      clipHigh y.toInt (toInt32 height.toNat) c.height ≤ clipLow y.toInt
  | .line .. => True
  | .text .. => True

instance (c : Canvas) : (call : DrawCall) → Decidable (RectInRange c call)
  | .rect .. => inferInstanceAs (Decidable (_ ∨ _))
  | .line .. => .isTrue trivial
  | .text .. => .isTrue trivial

/-! ### Writes inside the buffer -/

variable {font} {c c' : Canvas}

structure Bounded (c : Canvas) : Prop where
  live : ∃ b ∈ c.heap, b.payload = c.buffer ∧ b.isFree = false ∧ b.size = bufSize c.width c.height
  extent : c.extent ≤ bufSize c.width c.height
  exact : SizeExact c.width c.height

theorem Bounded.inBuffer (h : Bounded c) : InBuffer c := by
  obtain ⟨b, hb, hp, hf, hs⟩ := h.live
  exact ⟨b, hb, hp, hf, hs ▸ h.extent⟩

theorem Bounded.put (h : Bounded c) {i n : Nat} (color : UInt8)
    (hi : i + n ≤ bufSize c.width c.height) : Bounded (Drawing.put i n color c) := by
  refine ⟨h.live, ?_, h.exact⟩
  unfold Drawing.put
  dsimp only
  split
  · exact h.extent
  · exact Nat.max_le.mpr ⟨h.extent, hi⟩

/-- A row of the window holds `width` bytes of the buffer. -/
theorem Bounded.row (h : Bounded c) {row x n : Nat} (hrow : row < c.height) (hx : x + n ≤ c.width)
    (hn : 0 < n) : wrap ((row + headerOffset) * c.width + x) + n ≤ bufSize c.width c.height := by
  have hexact := h.exact.resolve_left (Nat.ne_of_gt (Nat.lt_of_le_of_lt (Nat.zero_le _) hrow))
  have hmul : (row + headerOffset + 1) * c.width ≤ (c.height + headerOffset) * c.width :=
    Nat.mul_le_mul_right _ (by omega)
  rw [Nat.succ_mul, Nat.mul_comm (c.height + headerOffset)] at hmul
  rw [bufSize, wrap_eq hexact, wrap_eq (by omega)]
  omega

theorem ofInt32_add (i : Int) (n : Nat) : ofInt32 (i + n) = wrap (ofInt32 i + n) := by
  unfold ofInt32 wrap
  omega

theorem Bounded.putPixel (h : Bounded c) (x y : Int) (color : UInt8) :
    Bounded (windowPutPixel x y color c) := by
  unfold windowPutPixel
  split
  · exact h
  · rename_i hout
    obtain ⟨hx, hy⟩ : ofInt32 x < c.width ∧ ofInt32 y < c.height := by omega
    have hexact := h.exact.resolve_left (Nat.ne_of_gt (Nat.lt_of_le_of_lt (Nat.zero_le _) hy))
    have hheight : c.height + headerOffset ≤ c.width * (c.height + headerOffset) :=
      Nat.le_mul_of_pos_left _ (Nat.lt_of_le_of_lt (Nat.zero_le _) hx)
    have hrow : ofInt32 (y + headerOffset) = ofInt32 y + headerOffset := by
      rw [ofInt32_add, wrap_eq (by omega)]
    rw [hrow]
    exact h.put color (h.row hy hx Nat.one_pos)

theorem Bounded.drawLine (h : Bounded c) {l : Segment} {color : UInt8}
    (hd : windowDrawLine l color c = some c') : Bounded c' :=
  drawLine_keeps Bounded (fun p _ _ hs => hs.putPixel p.x p.y color) h hd

theorem Bounded.drawChar (h : Bounded c) (font : Font) (x y : Int) (ch color : UInt8) :
    Bounded (windowDrawChar font x y ch color c) := by
  unfold windowDrawChar
  split
  · exact h
  · refine loop_keeps Bounded h fun row _ c hc => loop_keeps Bounded hc fun col _ c hc => ?_
    split
    · exact hc.putPixel ..
    · exact hc

theorem Bounded.drawString (h : Bounded c) (font : Font) (x y : Int) (str : CString) (color : UInt8) :
    Bounded (windowDrawString font x y str color c) :=
  loop_keeps Bounded h fun _ _ _ hc => hc.drawChar ..

/-! ### Rectangles -/

theorem toInt32_le (n : Nat) : toInt32 n ≤ n := by
  unfold toInt32 wrap
  split <;> omega

theorem clipHigh_le (a n : Int) (size : Nat) : clipHigh a n size ≤ toInt32 size := by
  unfold clipHigh
  split <;> omega

theorem clipLow_nonneg (a : Int) : 0 ≤ clipLow a := by
  unfold clipLow
  split <;> omega

/-- x1 - x0 does not wrap, unless x + w does. -/
theorem clip_width {x w : Int} {width : Nat} (hx : -2147483648 ≤ x) (hx' : x < 2147483648)
    (hw : -2147483648 ≤ w) (hwidth : width < 2147483648) (hsum : x + w < 2147483648) :
    int32 (clipHigh x w width - clipLow x) = clipHigh x w width - clipLow x := by
  have hW : toInt32 width = width := toInt32_eq hwidth
  have hb := int32_bounds (x + w)
  have hle := clipHigh_le x w width
  have hlow := clipLow_nonneg x
  refine int32_eq ?_ (by omega)
  unfold clipHigh clipLow
  by_cases hneg : x < 0
  · split <;> omega
  · have he : int32 (x + w) = x + w := int32_eq (by omega) hsum
    rw [he]
    split <;> omega

/-- A window with a row to draw in is narrower than the ints. -/
theorem Bounded.width_lt (h : Bounded c) (hrow : 0 < c.height) : c.width < 2147483648 := by
  have hexact := h.exact.resolve_left (Nat.ne_of_gt hrow)
  have hmul : c.width * 2 ≤ c.width * (c.height + headerOffset) :=
    Nat.mul_le_mul_left _ (by unfold headerOffset; omega)
  omega

theorem Bounded.drawRect (h : Bounded c) {x y w hgt : Int} (color : UInt8) (hx : -2147483648 ≤ x)
    (hx' : x < 2147483648) (hw : -2147483648 ≤ w)
    (hin : x + w < 2147483648 ∨ clipHigh y hgt c.height ≤ clipLow y) :
    Bounded (windowDrawRect x y w hgt color c) := by
  unfold windowDrawRect
  dsimp only
  split
  · exact h
  · rename_i hdraw
    obtain ⟨hpos, hrows⟩ : 0 < int32 (clipHigh x w c.width - clipLow x) ∧
        clipLow y < clipHigh y hgt c.height := by omega
    have hy0 := clipLow_nonneg y
    have hy1 : clipHigh y hgt c.height ≤ c.height :=
      Int.le_trans (clipHigh_le y hgt c.height) (toInt32_le _)
    have hyint : clipHigh y hgt c.height < 2147483648 :=
      Int.lt_of_le_of_lt (clipHigh_le y hgt c.height) (toInt32_bounds _).2
    have hwidth := h.width_lt (by omega)
    have hclip := clip_width hx hx' hw hwidth (hin.resolve_right (by omega))
    have hx0 := clipLow_nonneg x
    have hx1 : clipHigh x w c.width ≤ c.width :=
      Int.le_trans (clipHigh_le x w c.width) (toInt32_le _)
    rw [hclip] at hpos ⊢
    generalize clipHigh y hgt c.height = y1 at *
    generalize clipHigh x w c.width = x1 at *
    obtain ⟨y0, he⟩ := Int.eq_ofNat_of_zero_le hy0
    obtain ⟨x0, hx0e⟩ := Int.eq_ofNat_of_zero_le hx0
    rw [he] at hrows ⊢
    rw [hx0e] at hpos ⊢
    let inv (c' : Canvas) : Prop := Bounded c' ∧ c'.width = c.width ∧ c'.height = c.height
    refine (loop_keeps inv ⟨h, rfl, rfl⟩ fun row hrow c' hc' => ?_).1
    obtain ⟨hc', hwid, hhgt⟩ := hc'
    have hidx : ofInt32 ((y0 : Int) + row + headerOffset) = y0 + row + headerOffset := by
      rw [ofInt32_eq (by omega) (by unfold headerOffset; omega)]
      omega
    have hx0i : ofInt32 (x0 : Int) = x0 := by
      rw [ofInt32_eq (by omega) (by omega), Int.toNat_natCast]
    rw [hidx, hx0i]
    exact ⟨hc'.put color (hc'.row (by omega) (by omega) (by omega)), hwid, hhgt⟩

/-! ### Runs -/

theorem drawStep_bounded {call : DrawCall} (h : Bounded c) (hg : RectInRange c call)
    (hs : drawStep font c call = some c') : Bounded c' := by
  cases call with
  | rect x y width height color =>
    cases hs
    exact h.drawRect color x.le_toInt x.toInt_lt (toInt32_bounds _).1 hg
  | line x0 y0 x1 y1 color => exact h.drawLine hs
  | text x y str color =>
    cases hs
    exact h.drawString ..

/-- A block that kmalloc hands out is in use and has the size asked for. -/
theorem kmalloc_live {size : Nat} {heap : List HeapBlock} (h : (kmalloc size heap).1 ≠ 0) :
    ∃ b ∈ (kmalloc size heap).2, b.payload = (kmalloc size heap).1 ∧ b.isFree = false ∧
      b.size = size := by
  have hwalk : ∀ {heap : List HeapBlock} {p : Nat} {heap' : List HeapBlock},
      kmallocWalk size heap = some (p, heap') →
      ∃ b ∈ heap', b.payload = p ∧ b.isFree = false ∧ b.size = size := by
    intro heap
    induction heap with
    | nil => exact fun h => nomatch h
    | cons b bs ih =>
      intro p heap' hk
      rw [kmallocWalk] at hk
      split at hk
      · cases hk
        refine ⟨{ b with size := size, isFree := false }, List.mem_append_left _ ?_, rfl, rfl, rfl⟩
        unfold splitBlock
        dsimp only
        split <;> exact List.mem_cons_self
      · obtain ⟨⟨q, cs⟩, hcs, he⟩ := Option.map_eq_some_iff.mp hk
        cases he
        obtain ⟨b', hb', hrest⟩ := ih hcs
        exact ⟨b', List.mem_cons_of_mem _ hb', hrest⟩
  unfold kmalloc at h ⊢
  split
  · rename_i h0
    rw [if_pos h0] at h
    exact absurd rfl h
  · rename_i h0
    rw [if_neg h0] at h
    cases hk : kmallocWalk size heap with
    | none =>
      rw [hk] at h
      exact absurd rfl h
    | some r => exact hwalk hk

theorem createCanvas_bounded {heap : List HeapBlock} {r : CreateWindow}
    (hc : createCanvas heap r = some c) (hserved : c.buffer ≠ 0)
    (hsize : SizeExact r.width.toNat r.height.toNat) : Bounded c := by
  unfold createCanvas at hc
  dsimp only at hc
  split at hc
  · cases hc
  · cases hc
    refine ⟨kmalloc_live hserved, ?_, hsize⟩
    unfold put
    dsimp only
    split
    · exact Nat.zero_le _
    · exact Nat.le_of_eq (by rw [Nat.zero_add, Nat.zero_max])

/-- Where the title fits the block of the window, the size of the buffer does not wrap, kmalloc serves it
and no rectangle has a right edge beyond the ints, drawing stays inside the buffer. -/
theorem drawing_in_buffer {heap : List HeapBlock} {r : CreateWindow} {c0 : Canvas}
    (hc : createCanvas heap r = some c0) (hserved : c0.buffer ≠ 0)
    (hsize : SizeExact r.width.toNat r.height.toNat)
    (hr : Reach (drawStep font) RectInRange c0 c) : InBuffer c :=
  (hr.invariant Bounded (createCanvas_bounded hc hserved hsize)
    fun _ _ _ h hg hs => drawStep_bounded h hg hs).inBuffer

/-! ### A small window, and one whose size wraps -/

def emptyTitle : CString := ⟨[], fun _ h => absurd h List.not_mem_nil⟩

def blankRequest (width height : UInt32) : CreateWindow := ⟨0, 0, width, height, emptyTitle⟩

def solidFont : Font := fun _ _ => 255

def edgeDrawing : List DrawCall :=
  [.rect (-5) 10 100 100 1, .line (-3) 2 50 30 2, .text 30 15 ⟨[65, 66], noNul_of_all rfl⟩ 3]

theorem edgeDrawing_inBuffer : ∃ c0 c, createCanvas initHeap (blankRequest 40 20) = some c0 ∧
    run (drawStep solidFont) edgeDrawing c0 = some c ∧ c.extent = 1800 ∧ InBuffer c := by
  have h : ((createCanvas initHeap (blankRequest 40 20)).bind (run (drawStep solidFont) edgeDrawing)).any
      fun c => decide (c.extent = 1800) := by decide +kernel
  obtain ⟨c, hc, he⟩ := (Option.any_eq_true _ _).mp h
  obtain ⟨c0, hc0, hrun⟩ := Option.bind_eq_some_iff.mp hc
  have hserved : (createCanvas initHeap (blankRequest 40 20)).all fun c => decide (c.buffer ≠ 0) := by
    decide +kernel
  rw [hc0, Option.all_some, decide_eq_true_iff] at hserved
  have hguard : Guarded (drawStep solidFont) RectInRange edgeDrawing c0 :=
    ⟨.inl (by decide), fun _ _ => ⟨trivial, fun _ _ => ⟨trivial, fun _ _ => trivial⟩⟩⟩
  exact ⟨c0, c, hc0, hrun, of_decide_eq_true he,
    drawing_in_buffer hc0 hserved (.inr (by decide)) (reach_of_run edgeDrawing hguard hrun)⟩

/-- 65536 * (65512 + 25) wraps to 65536 bytes; the first row begins at byte 1638400. -/
theorem wrapped_size_overrun : ¬ ∀ font heap r c0 c, createCanvas heap r = some c0 →
    Reach (drawStep font) anyStep c0 c → InBuffer c := by
  intro hall
  have h : ((createCanvas initHeap (blankRequest 65536 65512)).bind
      (run (drawStep solidFont) [.rect 0 0 1 1 7])).any fun c => !decide (InBuffer c) := by
    decide +kernel
  obtain ⟨c, hc, hout⟩ := (Option.any_eq_true _ _).mp h
  obtain ⟨c0, hc0, hrun⟩ := Option.bind_eq_some_iff.mp hc
  have hin := hall solidFont initHeap _ c0 c hc0 (reach_of_run _ (guarded_anyStep _ _) hrun)
  rw [decide_eq_true hin] at hout
  cases hout

end AdamOS.Drawing
