import AdamOS.Display.Line
import AdamOS.Lib.Loop
import AdamOS.Lib.Transition
import Mathlib.Data.Nat.Init

/-! vga-graphics.c: the primitives draw into the back buffer and note the rows they touch;
vga_flip copies those rows to the frame buffer. -/
namespace AdamOS.Vga
open AdamOS.Line AdamOS.Loop AdamOS.Word

/- The mode information block that init_vga reads: 8 bits a pixel, so a scan line has room for its
   pixels. -/
structure Screen where
  width : Nat
  height : Nat
  pitch : Nat
  width_le : width ≤ pitch
  pitch_lt : pitch < 65536
  height_pos : 0 < height
  height_lt : height < 65536

def Screen.size (S : Screen) : Nat := S.pitch * S.height

/- VBE mode 0x103 -/
def mode103 : Screen := ⟨800, 600, 800, by decide, by decide, by decide, by decide⟩

abbrev Buffer := Nat → UInt8

structure Display where
  /- back_buffer and vga_graphics_buffer -/
  back : Buffer
  front : Buffer
  dirtyYMin : Nat
  dirtyYMax : Nat

/- Setting the mode clears the frame buffer. -/
def initVga (S : Screen) : Display := ⟨fun _ => 0, fun _ => 0, S.height, 0⟩

/- i lies among the n bytes from `start` on; addresses are 32 bits wide. -/
def covers (start n i : Nat) : Bool := sub32 i start < n

def memset (start n : Nat) (c : UInt8) (b : Buffer) : Buffer :=
  fun i => if covers start n i then c else b i

def memcpy (start n : Nat) (src : Nat → UInt8) (b : Buffer) : Buffer :=
  fun i => if covers start n i then src (sub32 i start) else b i

variable (S : Screen)

def markDirty (yTop yBottom : Int) (s : Display) : Display :=
  let yTop := if yTop < 0 then 0 else yTop
  let yBottom := if yBottom ≥ S.height then (S.height : Int) - 1 else yBottom
  -- the comparisons with uint32_t are unsigned
  { s with
    dirtyYMin := if ofInt32 yTop < s.dirtyYMin then ofInt32 yTop else s.dirtyYMin
    dirtyYMax := if ofInt32 yBottom > s.dirtyYMax then ofInt32 yBottom else s.dirtyYMax }

def vgaPutPixel (x y : Int) (color : UInt8) (s : Display) : Display :=
  let s := markDirty S y y s
  if ofInt32 x ≥ S.width ∨ x < 0 ∨ ofInt32 y ≥ S.height ∨ y < 0 then s
  else { s with back := memset (wrap (ofInt32 y * S.pitch + ofInt32 x)) 1 color s.back }

def vgaClearScreen (color : UInt8) (s : Display) : Display :=
  let s := markDirty S 0 ((S.height : Int) - 1) s
  { s with back := memset 0 S.size color s.back }

/- The number of rounds of for (int i = x; i < x + w; i++). -/
def rounds (x w : Int) : Nat := (int32 (x + w) - x).toNat

def vgaDrawRect (x y w h : Int) (color : UInt8) (s : Display) : Display :=
  let s := markDirty S y (int32 (y + h - 1)) s
  loop (rounds x w) (fun i s =>
    loop (rounds y h) (fun j s => vgaPutPixel S (x + i) (y + j) color s) s) s

def vgaDrawLine (l : Segment) (color : UInt8) (s : Display) : Option Display :=
  drawLine (fun x y s => vgaPutPixel S x y color s) l s

/- dst_x, src_x and copy_width of vga_blit, before they are clipped on the right. -/
structure Clip where
  (srcX dstX copyWidth : Int)

def clipLeft (x : Int) (width : Nat) : Clip :=
  if x < 0 then ⟨int32 (-x), 0, int32 (toInt32 width + x)⟩ else ⟨0, x, toInt32 width⟩

def clipRight (c : Clip) : Clip :=
  if int32 (c.dstX + c.copyWidth) > S.width then
    { c with copyWidth := int32 ((S.width : Int) - c.dstX) }
  else c

def blitRow (x y : Int) (width : Nat) (buffer : Nat → UInt8) (row : Nat) (s : Display) : Display :=
  let destY := int32 (y + row)
  if destY < 0 ∨ destY ≥ S.height then s
  else
    let c := clipRight S (clipLeft x width)
    if c.copyWidth ≤ 0 then s
    else
      let dst := ofInt32 (destY * S.pitch + c.dstX)
      let src := ofInt32 ((row * width : Nat) + c.srcX)
      { s with back := memcpy dst c.copyWidth.toNat (fun k => buffer (wrap (src + k))) s.back }

def vgaBlit (x y : Int) (width height : Nat) (buffer : Nat → UInt8) (s : Display) : Display :=
  let s := markDirty S y (int32 (y + height - 1)) s
  loop height (blitRow S x y width buffer) s

def flipped (s : Display) (i : Nat) : Bool :=
  decide (s.dirtyYMin ≤ s.dirtyYMax) &&
    covers (wrap (s.dirtyYMin * S.pitch)) (wrap ((s.dirtyYMax - s.dirtyYMin + 1) * S.pitch)) i

def vgaFlip (s : Display) : Display :=
  if s.dirtyYMin > s.dirtyYMax then s
  else
    { s with
      front := fun i => if flipped S s i then s.back i else s.front i
      dirtyYMin := S.height
      dirtyYMax := 0 }

/-! ### Runs of the primitives -/

inductive Call where
  | putPixel (x y : Int32) (color : UInt8)
  | drawRect (x y w h : Int32) (color : UInt8)
  | drawLine (x0 y0 x1 y1 : Int32) (color : UInt8)
  | blit (x y : Int32) (width height : UInt32) (buffer : Nat → UInt8)
  | clearScreen (color : UInt8)
  | flip

def segment (x0 y0 x1 y1 : Int32) : Segment := ⟨x0.toInt, y0.toInt, x1.toInt, y1.toInt⟩

def vgaStep (s : Display) : Call → Option Display
  | .putPixel x y color => some (vgaPutPixel S x.toInt y.toInt color s)
  | .drawRect x y w h color => some (vgaDrawRect S x.toInt y.toInt w.toInt h.toInt color s)
  | .drawLine x0 y0 x1 y1 color => vgaDrawLine S (segment x0 y0 x1 y1) color s
  | .blit x y width height buffer =>
    some (vgaBlit S x.toInt y.toInt width.toNat height.toNat buffer s)
  | .clearScreen color => some (vgaClearScreen S color s)
  | .flip => some (vgaFlip S s)

end AdamOS.Vga
