import H3OS.Framebuffer.Text
/-!
# The display

What all drawing comes to: a picture that is drawn and a picture that is shown.
Every command lays its layer on the one that is drawn, and `fb_swap` shows it;
without a back buffer the two are the same. The memory behind the surface that
`fb_init` sets up is such a display, whatever is drawn and in whatever order.
-/
open SysLib H3OS.Multiboot

namespace H3OS.Framebuffer.Paint

inductive Op where
  | put_pixel (x y : Int) (color : UInt32)
  | clear (color : UInt32)
  | fill_rect (x y w h : Int) (color : UInt32)
  | draw_rect (x y w h : Int) (color : UInt32)
  | draw_line (x0 y0 x1 y1 : Int) (color : UInt32)
  | fill_rounded_rect (x y w h r : Int) (color : UInt32)
  | draw_rounded_rect (x y w h r : Int) (color : UInt32)
  | blit (x y w h : Int) (src : Nat) (src_stride : Int)
  | draw_char (x y : Int) (c : UInt8) (fg bg : UInt32)
  | draw_string (x y : Int) (s : List UInt8) (fg bg : UInt32)
  | swap
deriving DecidableEq

/-- A call, with fuel for the loop of a line. -/
def exec (fuel : Nat) (g : Surface) (m : Mem) : Op → Option Mem
  | .put_pixel x y color => some (fb_put_pixel g x y color m)
  | .clear color => some (fb_clear g color m)
  | .fill_rect x y w h color => some (fb_fill_rect g x y w h color m)
  | .draw_rect x y w h color => some (fb_draw_rect g x y w h color m)
  | .draw_line x0 y0 x1 y1 color => fb_draw_line fuel g x0 y0 x1 y1 color m
  | .fill_rounded_rect x y w h r color => some (fb_fill_rounded_rect g x y w h r color m)
  | .draw_rounded_rect x y w h r color => some (fb_draw_rounded_rect g x y w h r color m)
  | .blit x y w h src src_stride => some (fb_blit g x y w h src src_stride m)
  | .draw_char x y c fg bg => some (fb_draw_char g x y c fg bg m)
  | .draw_string x y s fg bg => some (fb_draw_string g x y s fg bg m)
  | .swap => some (fb_swap g m)

def run (fuel : Nat) (g : Surface) (ops : List Op) (m : Mem) : Option Mem := ops.foldlM (exec fuel g) m

/-! ## Two pictures -/

abbrev Picture := Int × Int → UInt32

/-- What a command lays on the picture; `m` holds the blocks that are copied. -/
def Op.layer (m : Mem) : Op → Layer (Int × Int) UInt32
  | .put_pixel x y color => .shape (· = (x, y)) color
  | .clear color => fun _ => some color
  | .fill_rect x y w h color => .shape (InRect x y w h) color
  | .draw_rect x y w h color => .shape (OnFrame x y w h) color
  | .draw_line x0 y0 x1 y1 color => .shape (OnLine x0 y0 x1 y1) color
  | .fill_rounded_rect x y w h r color => .shape (Rounded x y w h r) color
  | .draw_rounded_rect x y w h _ color => .shape (OnFrame x y w h) color
  | .blit x y w h src stride => fun p => if InRect x y w h p then some (source m x y src stride p) else none
  | .draw_char x y c fg bg => cell x y c fg bg
  | .draw_string x y s fg bg => page x y s fg bg
  | .swap => .clear

structure Display where
  drawn : Picture
  shown : Picture

/-- A command on a display with a back buffer or without. -/
def Display.step (double : Bool) (m : Mem) (d : Display) (op : Op) : Display :=
  let drawn := (op.layer m).on d.drawn
  ⟨drawn, if double = false ∨ op = .swap then drawn else d.shown⟩

/-- The address of a point of what is shown. -/
def front_address (g : Surface) (p : Int × Int) : Nat := g.pixels.start + (p.2.toNat * g.pitch + 4 * p.1.toNat)

/-- The colour that is shown at a point. -/
def front (g : Surface) (m : Mem) (p : Int × Int) : UInt32 := UInt32.ofNat (load m (front_address g p) 4)

/-- The display that memory is. -/
def display (g : Surface) (m : Mem) : Display := ⟨pixel g m, front g m⟩

/-- Two displays look the same. -/
def Display.Same (g : Surface) (d d' : Display) : Prop :=
  ∀ p, Shows g p → d.drawn p = d'.drawn p ∧ d.shown p = d'.shown p

/-- An address at which nothing is drawn or shown. -/
def Beside (g : Surface) (a : Nat) : Prop :=
  OffPixels g a ∧ (a < g.pixels.start ∨ g.pixels.start + g.pitch * g.height ≤ a)

/-- No coordinate overflows, and a block that is copied is beside the surface. -/
def Op.InRange (g : Surface) : Op → Prop
  | .put_pixel x y _ => I32 x ∧ I32 y
  | .clear _ => True
  | .fill_rect x y w h _ => Span x w ∧ Span y h
  | .draw_rect x y w h _ => Span x w ∧ Span y h ∧ -2 ^ 31 ≤ x + w - 1 ∧ -2 ^ 31 ≤ y + h - 1
  | .draw_line x0 y0 x1 y1 _ => I32 x0 ∧ I32 y0 ∧ I32 x1 ∧ I32 y1 ∧ |x1 - x0| < 2 ^ 29 ∧ |y1 - y0| < 2 ^ 29
  | .fill_rounded_rect x y w h r _ => Span x w ∧ Span y h ∧ Span x r ∧ Span y r ∧ r < 2 ^ 15 ∧
    -2 ^ 31 ≤ x + w - r - 1 ∧ -2 ^ 31 ≤ y + h - r - 1
  | .draw_rounded_rect x y w h _ _ => Span x w ∧ Span y h ∧ -2 ^ 31 ≤ x + w - 1 ∧ -2 ^ 31 ≤ y + h - 1
  | .blit x y w h src stride => Span x w ∧ Span y h ∧ (∀ a, InSource w h src stride a → Beside g a) ∧
    ∀ j i, 0 ≤ j → j < h → 0 ≤ i → i < w → I32 (j * stride) ∧ I32 (j * stride + i)
  | .draw_char x y _ _ _ => Span x 8 ∧ Span y 8
  | .draw_string x y s _ _ => TextFits x y s
  | .swap => True

/-- The turns of a command's line. -/
def Op.turns : Op → Int
  | .draw_line x0 y0 x1 y1 _ => max |x1 - x0| |y1 - y0|
  | _ => 0

section
variable {g : Surface} {m m' : Mem} {p : Int × Int} {x y : Int} {c : UInt32} {fuel : Nat} {op : Op} {d d' : Display}

theorem turns_paint (hg : Framed g) {ts : List Turn} (hts : ∀ t ∈ ts, I32 t.x ∧ I32 t.y) {Q : Int × Int → Prop}
    [DecidablePred Q] (hQ : ∀ p, Q p ↔ ∃ t ∈ ts, p = (t.x, t.y)) :
    Paints g m (ts.foldl (fun m t => fb_put_pixel g t.x t.y c m) m) (.shape Q c) := by
  induction ts generalizing m Q with
  | nil =>
    refine Paints.refl.congr fun p _ => (Layer.shape_not ?_).symm
    rw [hQ]
    simp
  | cons t ts ih =>
    classical
    have hfirst := hts t (by simp)
    have hrest := ih (m := fb_put_pixel g t.x t.y c m) (Q := fun p => ∃ t ∈ ts, p = (t.x, t.y))
      (fun t ht => hts t (by simp [ht])) fun p => Iff.rfl
    refine ((put_paints hg hfirst.1 hfirst.2).trans hrest).congr fun p _ => ?_
    refine Layer.shape_atop.trans (if_congr ?_ rfl rfl)
    rw [hQ p]
    simp [or_comm]

theorem line_paints (hg : Framed g) {x0 y0 x1 y1 : Int} (h0 : I32 x0 ∧ I32 y0) (h1 : I32 x1 ∧ I32 y1)
    (hfuel : max |x1 - x0| |y1 - y0| < fuel) :
    ∃ m', fb_draw_line fuel g x0 y0 x1 y1 c m = some m' ∧ Paints g m m' (.shape (OnLine x0 y0 x1 y1) c) := by
  obtain ⟨ts, hloop, hon, -⟩ := line_turns x0 y0 x1 y1
  refine ⟨ts.foldl (fun m t => fb_put_pixel g t.x t.y c m) m, ?_, turns_paint hg (fun t ht => ?_) fun p => (hon p).symm⟩
  · unfold fb_draw_line
    rw [hloop, if_pos hfuel, Option.map_some]
  · obtain ⟨⟨h2, h3, h4, h5⟩, -⟩ := (hon (t.x, t.y)).1 ⟨t, ht, rfl⟩
    obtain ⟨hx0, hy0⟩ := h0
    obtain ⟨hx1, hy1⟩ := h1
    unfold I32 at *
    dsimp only at h2 h3 h4 h5
    omega

/-- A command other than `fb_swap` lays its layer. -/
theorem exec_paints (hg : Framed g) (hop : op.InRange g) (hswap : op ≠ .swap) (hfuel : op.turns < fuel) :
    ∃ m', exec fuel g m op = some m' ∧ Paints g m m' (op.layer m) := by
  cases op with
  | put_pixel x y color => exact ⟨_, rfl, put_paints hg hop.1 hop.2⟩
  | clear color => exact ⟨_, rfl, clear_paints hg⟩
  | fill_rect x y w h color => exact ⟨_, rfl, fill_rect_paints hg hop.1 hop.2⟩
  | draw_rect x y w h color => exact ⟨_, rfl, draw_rect_paints hg hop.1 hop.2.1 hop.2.2.1 hop.2.2.2⟩
  | draw_line x0 y0 x1 y1 color =>
    obtain ⟨h1, h2, h3, h4, -⟩ := hop
    exact line_paints hg ⟨h1, h2⟩ ⟨h3, h4⟩ hfuel
  | fill_rounded_rect x y w h r color => exact ⟨_, rfl, rounded_paints hg hop.1 hop.2.1⟩
  | draw_rounded_rect x y w h r color => exact ⟨_, rfl, draw_rect_paints hg hop.1 hop.2.1 hop.2.2.1 hop.2.2.2⟩
  | blit x y w h src stride =>
    obtain ⟨hx, hy, hsrc, -⟩ := hop
    exact ⟨_, rfl, blit_paints hg hx hy fun a ha => (hsrc a ha).1⟩
  | draw_char x y c fg bg => exact ⟨_, rfl, char_paints hg hop.1 hop.2⟩
  | draw_string x y s fg bg => exact ⟨_, rfl, string_paints hg hop⟩
  | swap => exact absurd rfl hswap

/-! ## Showing what is drawn -/

/-- A pixel of what is shown is in the buffer that is shown. -/
theorem Framed.front_in (hg : Framed g) (hp : Shows g p) : g.pixels.start ≤ front_address g p ∧
    front_address g p + 4 ≤ g.pixels.start + g.pitch * g.height := by
  have hroom := hg.room hp
  unfold front_address
  omega

/-- Without a back buffer what is drawn is what is shown. -/
theorem Framed.single (hg : Framed g) (hd : g.double_buffered = false) (hp : Shows g p) : pixel g m p = front g m p := by
  unfold pixel front front_address
  rw [hg.address_eq hp, Surface.base, hd]
  rfl

/-- With one, no pixel that is drawn is in the buffer that is shown. -/
theorem Framed.off_front (hg : Framed g) (hd : g.double_buffered = true) {a : Nat} (h1 : g.pixels.start ≤ a)
    (h2 : a < g.pixels.start + g.pitch * g.height) : OffPixels g a := by
  intro p hp
  have hapart := hg.apart hd a
  have hroom := hg.room hp
  have hback : g.base = g.back := by rw [Surface.base, hd, if_pos rfl]
  rw [hg.address_eq hp, hback]
  omega

theorem Framed.bytes_eq (hg : Framed g) : g.bytes = g.pitch * g.height := Nat.mod_eq_of_lt hg.bytes

/-- The bytes that `fb_swap` copies. -/
theorem swap_eq (hg : Framed g) (hd : g.double_buffered = true) :
    fb_swap g m = blit m g.pixels.start m g.back.start (g.pitch * g.height) := by
  have hback : g.base = g.back := by rw [Surface.base, hd, if_pos rfl]
  have hdrawn := hg.drawn
  have hshown := hg.shown
  have happle := hg.apart hd g.pixels.start
  have hback' := hg.apart hd g.back.start
  rw [hback] at hdrawn
  unfold fb_swap
  rw [if_neg (by simp [hd]), hg.bytes_eq, memcpy_eq m hshown hdrawn]
  refine copy_eq_blit ?_
  omega

theorem swap_front (hg : Framed g) (hd : g.double_buffered = true) (hp : Shows g p) :
    front g (fb_swap g m) p = pixel g m p := by
  have hback : g.base = g.back := by rw [Surface.base, hd, if_pos rfl]
  have hroom := hg.room hp
  unfold front pixel front_address
  rw [swap_eq hg hd, hg.address_eq hp, hback]
  refine congrArg UInt32.ofNat (load_within (n := g.pitch * g.height) (fun j hj => ?_) hroom)
  rw [blit_in (by omega) (by omega), Nat.add_sub_cancel_left]

theorem swap_kept (hg : Framed g) {a : Nat} (ha : a < g.pixels.start ∨ g.pixels.start + g.pitch * g.height ≤ a) :
    fb_swap g m a = m a := by
  cases hd : g.double_buffered with
  | false =>
    unfold fb_swap
    rw [if_pos hd]
  | true =>
    rw [swap_eq hg hd]
    exact blit_out ha

theorem swap_pixel (hg : Framed g) (hd : g.double_buffered = true) (hp : Shows g p) :
    pixel g (fb_swap g m) p = pixel g m p := by
  have hback : g.base = g.back := by rw [Surface.base, hd, if_pos rfl]
  have hroom := hg.room hp
  unfold pixel
  refine congrArg UInt32.ofNat (load_congr fun a h1 h2 => swap_kept hg ?_)
  rw [hg.address_eq hp, hback] at h1 h2
  have hapart := hg.apart hd a
  omega

/-! ## Runs -/

/-- What a command does to memory it does to the display, and to nothing else. -/
theorem exec_refines (hg : Framed g) (hop : op.InRange g) (hfuel : op.turns < fuel) : ∃ m', exec fuel g m op = some m' ∧
    Display.Same g (display g m') ((display g m).step g.double_buffered m op) ∧ ∀ a, Beside g a → m' a = m a := by
  by_cases hswap : op = .swap
  · subst hswap
    refine ⟨_, rfl, fun p hp => ?_, fun a ha => swap_kept hg ha.2⟩
    cases hd : g.double_buffered with
    | false =>
      have hsame : fb_swap g m = m := by
        unfold fb_swap
        rw [if_pos hd]
      rw [hsame]
      exact ⟨rfl, (hg.single hd hp).symm⟩
    | true => exact ⟨swap_pixel hg hd hp, swap_front hg hd hp⟩
  · obtain ⟨m', he, hpaints⟩ := exec_paints (m := m) hg hop hswap hfuel
    refine ⟨m', he, fun p hp => ⟨hpaints.shown p hp, ?_⟩, fun a ha => hpaints.kept a ha.1⟩
    unfold Display.step
    dsimp only
    cases hd : g.double_buffered with
    | false =>
      rw [if_pos (.inl rfl)]
      exact (hg.single hd hp).symm.trans (hpaints.shown p hp)
    | true =>
      rw [if_neg (by simp [hswap])]
      refine congrArg UInt32.ofNat (load_congr fun a h1 h2 => hpaints.kept a ?_)
      have hin := hg.front_in hp
      exact hg.off_front hd (by omega) (by omega)

theorem Display.Same.step (h : Display.Same g d d') (double : Bool) (m : Mem) (op : Op) :
    Display.Same g (d.step double m op) (d'.step double m op) := by
  intro p hp
  have hon : (op.layer m).on d.drawn p = (op.layer m).on d'.drawn p := Layer.on_congr (.inr (h p hp).1)
  refine ⟨hon, ?_⟩
  unfold Display.step
  dsimp only
  split_ifs
  · exact hon
  · exact (h p hp).2

/-- The blocks that are copied are the same in memories that agree beside the surface. -/
theorem Op.layer_congr (hop : op.InRange g) (hm : ∀ a, Beside g a → m' a = m a) : op.layer m' = op.layer m := by
  cases op with
  | blit x y w h src stride =>
    obtain ⟨-, -, hsrc, -⟩ := hop
    funext p
    unfold Op.layer
    dsimp only
    by_cases hp : InRect x y w h p
    · have hsame : source m' x y src stride p = source m x y src stride p := by
        refine congrArg UInt32.ofNat (load_congr fun a h1 h2 => hm a (hsrc a ?_))
        obtain ⟨h3, h4, h5, h6⟩ := hp
        exact ⟨p.1 - x, p.2 - y, by omega, by omega, by omega, by omega, h1, h2⟩
      rw [hsame]
    · rw [if_neg hp, if_neg hp]
  | _ => rfl

/-- Drawing, in whatever order, is what it is on a display, and leaves the memory beside the surface alone. -/
theorem run_refines (hg : Framed g) {ops : List Op} (hops : ∀ op ∈ ops, op.InRange g) (hfuel : ∀ op ∈ ops, op.turns < fuel) :
    ∃ m', run fuel g ops m = some m' ∧
      Display.Same g (display g m') (ops.foldl (Display.step g.double_buffered m) (display g m)) ∧
      ∀ a, Beside g a → m' a = m a := by
  induction ops using List.reverseRecOn with
  | nil => exact ⟨m, rfl, fun p _ => ⟨rfl, rfl⟩, fun a _ => rfl⟩
  | append_singleton ops op ih =>
    obtain ⟨m', hrun, hsame, hkept⟩ := ih (fun o ho => hops o (by simp [ho])) fun o ho => hfuel o (by simp [ho])
    have hop := hops op (by simp)
    obtain ⟨m'', he, hsame', hkept'⟩ := exec_refines (m := m') hg hop (hfuel op (by simp))
    refine ⟨m'', ?_, fun p hp => ?_, fun a ha => (hkept' a ha).trans (hkept a ha)⟩
    · unfold run at hrun ⊢
      rw [List.foldlM_append, hrun]
      simp [he]
    · have hlayer : (display g m').step g.double_buffered m' op = (display g m').step g.double_buffered m op := by
        unfold Display.step
        rw [Op.layer_congr hop hkept]
      rw [List.foldl_append, List.foldl_cons, List.foldl_nil]
      rw [hlayer] at hsame'
      have hnext := hsame.step g.double_buffered m op p hp
      exact ⟨(hsame' p hp).1.trans hnext.1, (hsame' p hp).2.trans hnext.2⟩

end

/-- The screen of a small machine. -/
def small_screen : Surface := ⟨⟨1024, 768⟩, ⟨0xFD000000, 0x300000⟩, 4096, 32, false, ⟨0xFD000000, 0x300000⟩⟩

theorem small_screen_framed : Framed small_screen := by
  refine ⟨by decide, by decide, by decide, by decide, by decide, by decide, nofun⟩

/-- A filled rounded rectangle whose corners have room is the disc of its radius moved over the rectangle inside, and not a
pixel more. -/
theorem rounded_swept {g : Surface} (hg : Framed g) {x y w h r : Int} {c : UInt32}
    (hin : (Op.fill_rounded_rect x y w h r c).InRange g) (hr : 0 < r) (hw : 2 * r < w) (hh : 2 * r < h) (m : Mem) :
    (∀ p, Shows g p → (Swept x y w h r p → pixel g (fb_fill_rounded_rect g x y w h r c m) p = c) ∧
      (¬ Swept x y w h r p → pixel g (fb_fill_rounded_rect g x y w h r c m) p = pixel g m p)) ∧
    Kept g m (fb_fill_rounded_rect g x y w h r c m) := by
  obtain ⟨hx, hy, -⟩ := hin
  have hpaints := rounded_paints (m := m) (r := r) (c := c) hg hx hy
  refine ⟨fun p hp => ?_, hpaints.kept⟩
  rw [hpaints.shown p hp, ← rounded_iff_swept hr hw hh p]
  exact ⟨fun hswept => Layer.on_of_some (Layer.shape_of hswept), fun hswept => Layer.on_of_none (Layer.shape_not hswept)⟩

/-- The tile behind an icon of the desktop. -/
theorem rounded_swept_icon :
    (∀ p, Shows small_screen p →
      (Swept 28 40 64 52 6 p → pixel small_screen (fb_fill_rounded_rect small_screen 28 40 64 52 6 0x55101820 fun _ => 0) p =
        0x55101820) ∧
      (¬ Swept 28 40 64 52 6 p → pixel small_screen (fb_fill_rounded_rect small_screen 28 40 64 52 6 0x55101820 fun _ => 0) p =
        pixel small_screen (fun _ => 0) p)) ∧
    Kept small_screen (fun _ => 0) (fb_fill_rounded_rect small_screen 28 40 64 52 6 0x55101820 fun _ => 0) := by
  refine rounded_swept small_screen_framed ?_ (by decide) (by decide) (by decide) fun _ => 0
  unfold Op.InRange Span I32
  decide

/-! ## From the boot information on -/

section
variable {info : Option Mem} {t : mb2_tag_framebuffer_t} {tag : Option mb2_tag_framebuffer_t} {fuel fallback : Nat}
  {s s' : Pmm.St} {held : List Pmm.Grant} {g : Surface}

/-- The framebuffer of the loader's is in no page that is free. -/
def Reserved (info : Option Mem) (s : Pmm.St) : Prop :=
  ∀ t, Loaded info t → ∀ p < s.total_pages, Pmm.bitmap_test s p = false → ∀ a, t.addr ≤ a → a < t.addr + t.pitch * t.height →
    a / PAGE_SIZE ≠ p

/-- A surface whose buffer is large enough and in no free page gets a back buffer of its own, or none. -/
theorem add_back_framed (hl : Pmm.Ledger s held) (hrows : 4 * g.width ≤ g.pitch) (hp : g.pitch < 2 ^ 32)
    (hh : g.height < 2 ^ 32) (hheight : g.width = 0 ∨ g.height ≤ 2 ^ 31)
    (hroom : g.pixels.start + g.pitch * g.height ≤ 2 ^ 64)
    (hfree : ∀ p < s.total_pages, Pmm.bitmap_test s p = false → ∀ a, g.pixels.start ≤ a →
      a < g.pixels.start + g.pitch * g.height → a / PAGE_SIZE ≠ p) : Framed (add_back g s).1 := by
  have hmul : g.pitch * g.height ≤ (2 ^ 32 - 1) * (2 ^ 32 - 1) := Nat.mul_le_mul (by omega) (by omega)
  have hbytes : g.bytes = g.pitch * g.height := Nat.mod_eq_of_lt (by omega)
  have hcount := page_count_eq (show g.bytes + 4095 < 2 ^ 64 by omega)
  have hend : g.bytes ≤ page_count g.bytes * PAGE_SIZE := by
    rw [hcount, PAGE_SIZE]
    omega
  rcases hl.alloc_cases (show page_count g.bytes < 2 ^ 64 by omega) with ⟨-, he⟩ | ⟨-, p, hp0, hrun, he⟩
  · have hsurface : (add_back g s).1 = { g with back := g.pixels, double_buffered := false } := by
      unfold add_back
      dsimp only
      rw [he]
      rfl
    rw [hsurface]
    exact ⟨hrows, hp, hheight, hroom, hroom, by dsimp only; omega, fun h => absurd h Bool.false_ne_true⟩
  · have htotal := hl.total
    unfold Pmm.PMM_MAX_PAGES at htotal
    have hlast := hrun.1
    have hsurface : (add_back g s).1 =
        { g with back := ⟨p * PAGE_SIZE, page_count g.bytes * PAGE_SIZE⟩, double_buffered := true } := by
      unfold add_back
      dsimp only
      rw [he]
      dsimp only
      rw [if_pos (Nat.mul_ne_zero hp0 (by unfold PAGE_SIZE; omega))]
    rw [hsurface]
    unfold PAGE_SIZE at hend hfree ⊢
    refine ⟨hrows, hp, hheight, ?_, hroom, by dsimp only; omega, fun _ a hin => ?_⟩
    · dsimp only [Surface.base]
      rw [if_pos rfl]
      dsimp only
      omega
    · obtain ⟨⟨h1, h2⟩, h3, h4⟩ := hin
      dsimp only at h1 h2 h3 h4
      have hpage : a / 4096 = p + (a / 4096 - p) ∧ a / 4096 - p < page_count g.bytes := by omega
      have hbit := hrun.2 _ hpage.2
      rw [← hpage.1] at hbit
      exact hfree _ (by omega) hbit a h1 h2 rfl

/-- What `fb_init` sets up is a display. -/
theorem init_framed (hl : Pmm.Ledger s held) (hinfo : ∀ t, Loaded info t → Described t)
    (hsound : Sound info s) (hreserved : Reserved info s) (h : fb_init fuel info fallback s = .ok (g, s')) : Framed g := by
  cases hfind : (mb2_find fuel info MB2_TAG_FRAMEBUFFER).val with
  | error crash =>
    unfold fb_init at h
    rw [hfind] at h
    cases h
  | ok r =>
    obtain ⟨tag, htag⟩ : ∃ tag : Option mb2_tag_framebuffer_t, tag = do return read_tag (← info) (← r) := ⟨_, rfl⟩
    have hloaded := fun t => loaded_iff (t := t) hfind htag
    rw [fb_init_eq hfind htag, Except.ok.injEq] at h
    rw [← show (add_back (open_surface tag fallback s).1 (open_surface tag fallback s).2).1 = g by rw [h]]
    unfold open_surface
    cases hopen : tag.filter (fun t => t.framebuffer_type = 1 ∧ t.bpp = 32) with
    | some t =>
      have ht := (hloaded t).1 hopen
      have hd := hinfo t ht
      exact add_back_framed hl hd.rows ht.small.1 ht.small.2 (hsound.1 t ht) hd.room (hreserved t ht)
    | none =>
      have hnone : ¬ ∃ t, Loaded info t := by
        rintro ⟨t, ht⟩
        rw [(hloaded t).2 ht] at hopen
        cases hopen
      obtain ⟨-, hpages⟩ := hsound
      have hpages := hpages.resolve_left hnone
      dsimp only
      rw [made_up_pages]
      rcases hl.alloc_cases (show 900 < 2 ^ 64 by omega) with ⟨hno, -⟩ | ⟨-, p, hp0, hrun, he⟩
      · exact absurd hpages (hno.resolve_left (by omega))
      · have hnext := hl.alloc_pages (show 900 < 2 ^ 64 by omega)
        have htotal := hl.total
        unfold Pmm.PMM_MAX_PAGES at htotal
        have hlast := hrun.1
        have hne : p * PAGE_SIZE ≠ 0 := by
          unfold PAGE_SIZE
          omega
        rw [he] at hnext ⊢
        dsimp only at hnext ⊢
        rw [if_pos hne]
        refine add_back_framed hnext (by norm_num) (by norm_num) (by norm_num) (by norm_num) ?_ fun q _ hq a h1 h2 => ?_
        · dsimp only
          unfold PAGE_SIZE
          omega
        · -- the pages of the surface are taken by now
          dsimp only at h1 h2
          rintro rfl
          unfold PAGE_SIZE at h1 h2 hq
          have hin : p ≤ a / 4096 ∧ a / 4096 < p + 900 := by omega
          rw [(Pmm.take_loop s p 900).2, decide_eq_true hin, Bool.or_true] at hq
          cases hq

/-- What a run of commands leaves in memory: the stack of their layers is drawn, and what was drawn at the last `fb_swap`
is shown, at once if there is no back buffer. -/
structure Draws (g : Surface) (m m' : Mem) (ops : List Op) : Prop where
  drawn : ∀ x y, I32 x → I32 y → fb_get_pixel g m' x y =
    if Shows g (x, y) then (Layer.stack (ops.map fun op => op.layer m)).on (pixel g m) (x, y) else 0
  shown : g.double_buffered = true → ∀ pre post, ops = pre ++ .swap :: post → .swap ∉ post → ∀ p, Shows g p →
    front g m' p = (Layer.stack (pre.map fun op => op.layer m)).on (pixel g m) p
  waiting : g.double_buffered = true → .swap ∉ ops → ∀ p, Shows g p → front g m' p = front g m p
  single : g.double_buffered = false → ∀ p, Shows g p → front g m' p = pixel g m' p
  beside : ∀ a, Beside g a → m' a = m a

theorem drawn_foldl (double : Bool) (m : Mem) (d : Display) (ops : List Op) :
    (ops.foldl (Display.step double m) d).drawn = (Layer.stack (ops.map fun op => op.layer m)).on d.drawn := by
  induction ops generalizing d with
  | nil => rfl
  | cons op ops ih =>
    rw [List.foldl_cons, ih, List.map_cons, Layer.stack_cons, Layer.atop_on]
    rfl

theorem shown_foldl (m : Mem) (d : Display) {ops : List Op} (h : .swap ∉ ops) :
    (ops.foldl (Display.step true m) d).shown = d.shown := by
  induction ops generalizing d with
  | nil => rfl
  | cons op ops ih =>
    rw [List.mem_cons, not_or] at h
    rw [List.foldl_cons, ih _ h.2]
    unfold Display.step
    dsimp only
    rw [if_neg (by simpa using Ne.symm h.1)]

theorem run_draws (hg : Framed g) {ops : List Op} (hops : ∀ op ∈ ops, op.InRange g) (hfuel : ∀ op ∈ ops, op.turns < fuel)
    (m : Mem) : ∃ m', run fuel g ops m = some m' ∧ Draws g m m' ops := by
  obtain ⟨m', hrun, hsame, hkept⟩ := run_refines (m := m) hg hops hfuel
  refine ⟨m', hrun, fun x y hx hy => ?_, fun hd pre post hsplit hpost p hp => ?_, fun hd hno p hp => ?_,
    fun hd p hp => (hg.single hd hp).symm, hkept⟩
  · rw [get_pixel_eq hg hx hy]
    refine if_ctx_congr Iff.rfl (fun hp => ?_) fun _ => rfl
    have hdrawn : (ops.foldl (Display.step g.double_buffered m) (display g m)).drawn =
        (Layer.stack (ops.map fun op => op.layer m)).on (pixel g m) := drawn_foldl g.double_buffered m (display g m) ops
    rw [← hdrawn]
    exact (hsame _ hp).1
  · have hshown : front g m' p = _ := (hsame p hp).2
    have hdrawn : (pre.foldl (Display.step true m) (display g m)).drawn =
        (Layer.stack (pre.map fun op => op.layer m)).on (pixel g m) := drawn_foldl true m (display g m) pre
    rw [hshown, hsplit, List.foldl_append, List.foldl_cons, hd, shown_foldl m _ hpost, ← hdrawn]
    rfl
  · have hshown : front g m' p = _ := (hsame p hp).2
    rw [hshown, hd, shown_foldl m _ hno]
    rfl

/-- On the surface that `fb_init` sets up in any state of the page allocator, whatever is drawn is drawn as on paper:
each command lays its layer, `fb_swap` shows what is drawn, and no other byte of memory changes. -/
theorem drawing_on_display {kernel_end : Nat} {mmap : Option (List Pmm.mb2_mmap_entry_t)}
    (hs : Pmm.Runs kernel_end mmap s held) (hinfo : ∀ t, Loaded info t → Described t) (hsound : Sound info s)
    (hreserved : Reserved info s) (hinit : fb_init fuel info fallback s = .ok (g, s')) {ops : List Op}
    (hops : ∀ op ∈ ops, op.InRange g) {turns : Nat} (hturns : ∀ op ∈ ops, op.turns < turns) (m : Mem) :
    ∃ m', run turns g ops m = some m' ∧ Draws g m m' ops :=
  run_draws (init_framed (Pmm.runs_ledger hs) hinfo hsound hreserved hinit) hops hturns m

theorem loader_reserved : Reserved (some loader_block) (Pmm.pmm_init 0x101000 Pmm.smallMap) := by
  have htotal : (Pmm.pmm_init 0x101000 Pmm.smallMap).total_pages = 261 :=
    (Pmm.init_total_eq _ _).trans (by decide +kernel)
  have haddr : (read_tag loader_block 8).addr = 0xFD000000 := by decide +kernel
  intro t ht p hp _ a ha _
  rw [(loader_block_tag t).1 ht, haddr] at ha
  unfold PAGE_SIZE
  omega

/-- A line of text, a window's outline and a line across it, shown on the loader's framebuffer. -/
theorem drawing_on_display_loader : ∃ fuel g s',
    fb_init fuel (some loader_block) 0 (Pmm.pmm_init 0x101000 Pmm.smallMap) = .ok (g, s') ∧ ∀ m, ∃ m',
      run 100 g [.draw_string 10 10 (str "H3OS") 0xFFFFFFFF NO_BG, .draw_rect 5 5 50 20 0xFF2EC4B6,
        .draw_line 5 5 54 24 0xFF2EC4B6, .swap] m = some m' ∧
      Draws g m m' [.draw_string 10 10 (str "H3OS") 0xFFFFFFFF NO_BG, .draw_rect 5 5 50 20 0xFF2EC4B6,
        .draw_line 5 5 54 24 0xFF2EC4B6, .swap] := by
  have hd : ∀ t, Loaded (some loader_block) t → Described t := by
    intro t ht
    rw [(loader_block_tag t).1 ht]
    exact ⟨by decide +kernel, by decide +kernel⟩
  have hsound : Sound (some loader_block) (Pmm.pmm_init 0x101000 Pmm.smallMap) := by
    refine ⟨fun t ht => .inr ?_, .inl ⟨_, (loader_block_tag _).2 rfl⟩⟩
    rw [(loader_block_tag t).1 ht]
    decide +kernel
  have hfits : TagsFit loader_block (load loader_block 0 4) 8 :=
    .tag (by decide +kernel) (by decide +kernel) (by decide +kernel) (.past (by decide +kernel))
  obtain ⟨fuel, ⟨r, hr⟩, -⟩ := hfits.scan_returns MB2_TAG_FRAMEBUFFER
  have hinit : fb_init fuel (some loader_block) 0 (Pmm.pmm_init 0x101000 Pmm.smallMap) = _ := fb_init_eq hr rfl
  refine ⟨fuel, _, _, hinit, drawing_on_display (.init : Pmm.Runs 0x101000 Pmm.smallMap _ _) hd hsound loader_reserved hinit
    ?_ ?_⟩
  · simp only [List.mem_cons, List.not_mem_nil, or_false, forall_eq_or_imp, forall_eq, Op.InRange, TextFits]
    decide
  · simp only [List.mem_cons, List.not_mem_nil, or_false, forall_eq_or_imp, forall_eq, Op.turns]
    decide

end

end H3OS.Framebuffer.Paint
