import H3OS.Framebuffer.Line
import H3OS.Framebuffer.Surface
import H3OS.Kernel.Bytes
import H3OS.Lib.Loop
import H3OS.Lib.Picture
/-!
# Drawing into memory

The drawing functions of `drivers/framebuffer/framebuffer.c` on the bytes
behind the surface. Coordinates are integers, as C leaves signed overflow
undefined, but what is compared with the edges is their low 32 bits. A surface
whose rows are apart is a picture, and what a function does to its memory is
to lay a layer on that picture.
-/
open SysLib

namespace H3OS.Framebuffer.Paint

/-- `(u32)v`. -/
def u32 (v : Int) : Nat := (v % 2 ^ 32).toNat

/-- `for (i32 i = 0; i < n; i++)`. -/
def upTo (n : Int) (body : Int → Mem → Mem) : Mem → Mem := forRange 0 n.toNat fun i => body i

/-- The address of a row, before it wraps around. -/
def fb_row (g : Surface) (y : Int) : Int :=
  (if g.double_buffered then g.back.start else g.pixels.start : Nat) + y * g.pitch

/-- `&fb_row(y)[x]`. -/
def address (g : Surface) (x y : Int) : Nat := ((fb_row g y + 4 * x) % 2 ^ 64).toNat

def fb_put_pixel (g : Surface) (x y : Int) (color : UInt32) (m : Mem) : Mem :=
  if u32 x ≥ g.width ∨ u32 y ≥ g.height then m else store m (address g x y) 4 color.toNat

def fb_get_pixel (g : Surface) (m : Mem) (x y : Int) : UInt32 :=
  if u32 x ≥ g.width ∨ u32 y ≥ g.height then 0 else UInt32.ofNat (load m (address g x y) 4)

def fb_clear (g : Surface) (color : UInt32) : Mem → Mem :=
  forRange 0 g.height fun y => forRange 0 g.width fun x m => store m (address g x (i32 y)) 4 color.toNat

def fb_fill_rect (g : Surface) (x y w h : Int) (color : UInt32) : Mem → Mem :=
  upTo h fun j => upTo w fun i => fb_put_pixel g (x + i) (y + j) color

def fb_draw_rect (g : Surface) (x y w h : Int) (color : UInt32) (m : Mem) : Mem :=
  let m := upTo w (fun i m => fb_put_pixel g (x + i) (y + h - 1) color (fb_put_pixel g (x + i) y color m)) m
  upTo h (fun j m => fb_put_pixel g (x + w - 1) (y + j) color (fb_put_pixel g x (y + j) color m)) m

/-- The pixels of the loop's turns, one after another; `none` if it is not over after `fuel` turns. -/
def fb_draw_line (fuel : Nat) (g : Surface) (x0 y0 x1 y1 : Int) (color : UInt32) (m : Mem) : Option Mem :=
  (Framebuffer.fb_draw_line fuel x0 y0 x1 y1).map fun ts => ts.foldl (fun m t => fb_put_pixel g t.x t.y color m) m

def in_rounded_corner (px py x y w h r : Int) : Bool :=
  let round (cx cy : Int) : Bool := (px - cx) * (px - cx) + (py - cy) * (py - cy) ≤ r * r
  if px < x + r ∧ py < y + r then round (x + r) (y + r)
  else if px ≥ x + w - r ∧ py < y + r then round (x + w - r - 1) (y + r)
  else if px < x + r ∧ py ≥ y + h - r then round (x + r) (y + h - r - 1)
  else if px ≥ x + w - r ∧ py ≥ y + h - r then round (x + w - r - 1) (y + h - r - 1)
  else true

def fb_fill_rounded_rect (g : Surface) (x y w h r : Int) (color : UInt32) : Mem → Mem :=
  if r ≤ 0 then fb_fill_rect g x y w h color else
  upTo h fun j => upTo w fun i m =>
    if in_rounded_corner (x + i) (y + j) x y w h r then fb_put_pixel g (x + i) (y + j) color m else m

def fb_draw_rounded_rect (g : Surface) (x y w h _r : Int) (color : UInt32) : Mem → Mem := fb_draw_rect g x y w h color

/-- `&src[j * src_stride + i]`. -/
def source_address (src : Nat) (src_stride j i : Int) : Nat := ((src + 4 * (j * src_stride + i)) % 2 ^ 64 : Int).toNat

def fb_blit (g : Surface) (x y w h : Int) (src : Nat) (src_stride : Int) : Mem → Mem :=
  upTo h fun j => upTo w fun i m =>
    fb_put_pixel g (x + i) (y + j) (UInt32.ofNat (load m (source_address src src_stride j i) 4)) m

/-! ## Text -/

/-- The glyphs of the characters from 32 on, eight rows each, the leftmost pixel in the lowest bit. -/
def font8x8_basic : List (List UInt8) :=
  [[0x00, 0x00, 0x00, 0x00, 0x00, 0x00, 0x00, 0x00], [0x18, 0x3C, 0x3C, 0x18, 0x18, 0x00, 0x18, 0x00],
   [0x36, 0x36, 0x00, 0x00, 0x00, 0x00, 0x00, 0x00], [0x36, 0x36, 0x7F, 0x36, 0x7F, 0x36, 0x36, 0x00],
   [0x0C, 0x3E, 0x03, 0x1E, 0x30, 0x1F, 0x0C, 0x00], [0x00, 0x63, 0x33, 0x18, 0x0C, 0x66, 0x63, 0x00],
   [0x1C, 0x36, 0x1C, 0x6E, 0x3B, 0x33, 0x6E, 0x00], [0x06, 0x06, 0x03, 0x00, 0x00, 0x00, 0x00, 0x00],
   [0x18, 0x0C, 0x06, 0x06, 0x06, 0x0C, 0x18, 0x00], [0x06, 0x0C, 0x18, 0x18, 0x18, 0x0C, 0x06, 0x00],
   [0x00, 0x66, 0x3C, 0xFF, 0x3C, 0x66, 0x00, 0x00], [0x00, 0x0C, 0x0C, 0x3F, 0x0C, 0x0C, 0x00, 0x00],
   [0x00, 0x00, 0x00, 0x00, 0x00, 0x0C, 0x0C, 0x06], [0x00, 0x00, 0x00, 0x3F, 0x00, 0x00, 0x00, 0x00],
   [0x00, 0x00, 0x00, 0x00, 0x00, 0x0C, 0x0C, 0x00], [0x60, 0x30, 0x18, 0x0C, 0x06, 0x03, 0x01, 0x00],
   [0x3E, 0x63, 0x73, 0x7B, 0x6F, 0x67, 0x3E, 0x00], [0x0C, 0x0E, 0x0C, 0x0C, 0x0C, 0x0C, 0x3F, 0x00],
   [0x1E, 0x33, 0x30, 0x1C, 0x06, 0x33, 0x3F, 0x00], [0x1E, 0x33, 0x30, 0x1C, 0x30, 0x33, 0x1E, 0x00],
   [0x38, 0x3C, 0x36, 0x33, 0x7F, 0x30, 0x78, 0x00], [0x3F, 0x03, 0x1F, 0x30, 0x30, 0x33, 0x1E, 0x00],
   [0x1C, 0x06, 0x03, 0x1F, 0x33, 0x33, 0x1E, 0x00], [0x3F, 0x33, 0x30, 0x18, 0x0C, 0x0C, 0x0C, 0x00],
   [0x1E, 0x33, 0x33, 0x1E, 0x33, 0x33, 0x1E, 0x00], [0x1E, 0x33, 0x33, 0x3E, 0x30, 0x18, 0x0E, 0x00],
   [0x00, 0x0C, 0x0C, 0x00, 0x00, 0x0C, 0x0C, 0x00], [0x00, 0x0C, 0x0C, 0x00, 0x00, 0x0C, 0x0C, 0x06],
   [0x18, 0x0C, 0x06, 0x03, 0x06, 0x0C, 0x18, 0x00], [0x00, 0x00, 0x3F, 0x00, 0x00, 0x3F, 0x00, 0x00],
   [0x06, 0x0C, 0x18, 0x30, 0x18, 0x0C, 0x06, 0x00], [0x1E, 0x33, 0x30, 0x18, 0x0C, 0x00, 0x0C, 0x00],
   [0x3E, 0x63, 0x7B, 0x7B, 0x7B, 0x03, 0x1E, 0x00], [0x0C, 0x1E, 0x33, 0x33, 0x3F, 0x33, 0x33, 0x00],
   [0x3F, 0x66, 0x66, 0x3E, 0x66, 0x66, 0x3F, 0x00], [0x3C, 0x66, 0x03, 0x03, 0x03, 0x66, 0x3C, 0x00],
   [0x1F, 0x36, 0x66, 0x66, 0x66, 0x36, 0x1F, 0x00], [0x7F, 0x06, 0x06, 0x3E, 0x06, 0x06, 0x7F, 0x00],
   [0x7F, 0x06, 0x06, 0x3E, 0x06, 0x06, 0x06, 0x00], [0x3C, 0x66, 0x03, 0x03, 0x73, 0x66, 0x7C, 0x00],
   [0x33, 0x33, 0x33, 0x3F, 0x33, 0x33, 0x33, 0x00], [0x1E, 0x0C, 0x0C, 0x0C, 0x0C, 0x0C, 0x1E, 0x00],
   [0x78, 0x30, 0x30, 0x30, 0x33, 0x33, 0x1E, 0x00], [0x67, 0x66, 0x36, 0x1E, 0x36, 0x66, 0x67, 0x00],
   [0x06, 0x06, 0x06, 0x06, 0x06, 0x06, 0x7F, 0x00], [0x63, 0x77, 0x7F, 0x6B, 0x63, 0x63, 0x63, 0x00],
   [0x63, 0x67, 0x6F, 0x7B, 0x73, 0x63, 0x63, 0x00], [0x1C, 0x36, 0x63, 0x63, 0x63, 0x36, 0x1C, 0x00],
   [0x3F, 0x66, 0x66, 0x3E, 0x06, 0x06, 0x06, 0x00], [0x1E, 0x33, 0x33, 0x33, 0x3B, 0x1E, 0x38, 0x00],
   [0x3F, 0x66, 0x66, 0x3E, 0x36, 0x66, 0x67, 0x00], [0x1E, 0x33, 0x07, 0x0E, 0x38, 0x33, 0x1E, 0x00],
   [0x3F, 0x2D, 0x0C, 0x0C, 0x0C, 0x0C, 0x1E, 0x00], [0x33, 0x33, 0x33, 0x33, 0x33, 0x33, 0x3F, 0x00],
   [0x33, 0x33, 0x33, 0x33, 0x33, 0x1E, 0x0C, 0x00], [0x63, 0x63, 0x63, 0x6B, 0x7F, 0x77, 0x63, 0x00],
   [0x63, 0x63, 0x36, 0x1C, 0x1C, 0x36, 0x63, 0x00], [0x33, 0x33, 0x33, 0x1E, 0x0C, 0x0C, 0x1E, 0x00],
   [0x7F, 0x63, 0x31, 0x18, 0x4C, 0x66, 0x7F, 0x00], [0x1E, 0x06, 0x06, 0x06, 0x06, 0x06, 0x1E, 0x00],
   [0x03, 0x06, 0x0C, 0x18, 0x30, 0x60, 0x40, 0x00], [0x1E, 0x18, 0x18, 0x18, 0x18, 0x18, 0x1E, 0x00],
   [0x08, 0x1C, 0x36, 0x63, 0x00, 0x00, 0x00, 0x00], [0x00, 0x00, 0x00, 0x00, 0x00, 0x00, 0x00, 0xFF],
   [0x0C, 0x0C, 0x18, 0x00, 0x00, 0x00, 0x00, 0x00], [0x00, 0x00, 0x1E, 0x30, 0x3E, 0x33, 0x6E, 0x00],
   [0x07, 0x06, 0x06, 0x3E, 0x66, 0x66, 0x3B, 0x00], [0x00, 0x00, 0x1E, 0x33, 0x03, 0x33, 0x1E, 0x00],
   [0x38, 0x30, 0x30, 0x3E, 0x33, 0x33, 0x6E, 0x00], [0x00, 0x00, 0x1E, 0x33, 0x3F, 0x03, 0x1E, 0x00],
   [0x1C, 0x36, 0x06, 0x0F, 0x06, 0x06, 0x0F, 0x00], [0x00, 0x00, 0x6E, 0x33, 0x33, 0x3E, 0x30, 0x1F],
   [0x07, 0x06, 0x36, 0x6E, 0x66, 0x66, 0x67, 0x00], [0x0C, 0x00, 0x0E, 0x0C, 0x0C, 0x0C, 0x1E, 0x00],
   [0x30, 0x00, 0x30, 0x30, 0x30, 0x33, 0x33, 0x1E], [0x07, 0x06, 0x66, 0x36, 0x1E, 0x36, 0x67, 0x00],
   [0x0E, 0x0C, 0x0C, 0x0C, 0x0C, 0x0C, 0x1E, 0x00], [0x00, 0x00, 0x33, 0x7F, 0x7F, 0x6B, 0x63, 0x00],
   [0x00, 0x00, 0x1F, 0x33, 0x33, 0x33, 0x33, 0x00], [0x00, 0x00, 0x1E, 0x33, 0x33, 0x33, 0x1E, 0x00],
   [0x00, 0x00, 0x3B, 0x66, 0x66, 0x3E, 0x06, 0x0F], [0x00, 0x00, 0x6E, 0x33, 0x33, 0x3E, 0x30, 0x78],
   [0x00, 0x00, 0x3B, 0x6E, 0x66, 0x06, 0x0F, 0x00], [0x00, 0x00, 0x3E, 0x03, 0x1E, 0x30, 0x1F, 0x00],
   [0x08, 0x0C, 0x3E, 0x0C, 0x0C, 0x2C, 0x18, 0x00], [0x00, 0x00, 0x33, 0x33, 0x33, 0x33, 0x6E, 0x00],
   [0x00, 0x00, 0x33, 0x33, 0x33, 0x1E, 0x0C, 0x00], [0x00, 0x00, 0x63, 0x6B, 0x7F, 0x7F, 0x36, 0x00],
   [0x00, 0x00, 0x63, 0x36, 0x1C, 0x36, 0x63, 0x00], [0x00, 0x00, 0x33, 0x33, 0x33, 0x3E, 0x30, 0x1F],
   [0x00, 0x00, 0x3F, 0x19, 0x0C, 0x26, 0x3F, 0x00], [0x38, 0x0C, 0x0C, 0x07, 0x0C, 0x0C, 0x38, 0x00],
   [0x18, 0x18, 0x18, 0x00, 0x18, 0x18, 0x18, 0x00], [0x07, 0x0C, 0x0C, 0x38, 0x0C, 0x0C, 0x07, 0x00],
   [0x6E, 0x3B, 0x00, 0x00, 0x00, 0x00, 0x00, 0x00], [0x00, 0x00, 0x00, 0x00, 0x00, 0x00, 0x00, 0x00]]

/-- Whether a pixel of a character's cell is in the foreground. -/
def lit (c : UInt8) (row col : Int) : Bool :=
  let c : UInt8 := if c < 32 ∨ c > 127 then 63 else c
  (((font8x8_basic.getD (c - 32).toNat []).getD row.toNat 0).toNat).testBit col.toNat

/-- The background that is not painted. -/
def NO_BG : UInt32 := 0xFFFFFFFF

def fb_draw_char (g : Surface) (x y : Int) (c : UInt8) (fg bg : UInt32) : Mem → Mem :=
  upTo 8 fun row => upTo 8 fun col m =>
    let color := if lit c row col then fg else bg
    if bg ≠ NO_BG ∨ lit c row col then fb_put_pixel g (x + col) (y + row) color m else m

/-- The loop over the rest of the string, at the column `cx` of the line at `y`. -/
def draw_rest (g : Surface) (x : Int) (fg bg : UInt32) : List UInt8 → Int → Int → Mem → Mem
  | [], _, _, m => m
  | c :: s, cx, y, m =>
    if c = 10 then draw_rest g x fg bg s x (y + 10) m
    else draw_rest g x fg bg s (cx + 8) y (fb_draw_char g cx y c fg bg m)

def fb_draw_string (g : Surface) (x y : Int) (s : List UInt8) (fg bg : UInt32) : Mem → Mem := draw_rest g x fg bg s x y

def fb_swap (g : Surface) (m : Mem) : Mem :=
  if g.double_buffered = false then m else (memcpy m g.pixels.start g.back.start g.bytes).2

end H3OS.Framebuffer.Paint
