import H3OS.Framebuffer.Layers
/-!
# Shapes

What each drawing function paints, as the points of a shape: rectangles and
their frames, the pixels next to a line, rectangles with round corners, and
copied blocks. A line goes over the nearest pixel of every column, or of every
row if it is steep, and over no other; round corners are those of the disc that
is moved around inside the rectangle.
-/
open SysLib

namespace H3OS.Framebuffer.Paint

/-- `w` coordinates from `x` on; neither they nor their end overflow. -/
def Span (x w : Int) : Prop := I32 x ∧ x + w < 2 ^ 31

instance (v : Int) : Decidable (I32 v) := inferInstanceAs (Decidable (_ ∧ _))

instance (x w : Int) : Decidable (Span x w) := inferInstanceAs (Decidable (_ ∧ _))

/-- The frame of a rectangle; without a width or a height it is not all there. -/
def OnFrame (x y w h : Int) (p : Int × Int) : Prop :=
  (x ≤ p.1 ∧ p.1 < x + w ∧ (p.2 = y ∨ p.2 = y + h - 1)) ∨ (y ≤ p.2 ∧ p.2 < y + h ∧ (p.1 = x ∨ p.1 = x + w - 1))

instance (x y w h : Int) : DecidablePred (OnFrame x y w h) := fun _ => inferInstanceAs (Decidable (_ ∨ _))

/-- The pixels of a line: in the box of its ends, and there the nearest ones across its longer side. -/
def OnLine (x0 y0 x1 y1 : Int) (p : Int × Int) : Prop :=
  (min x0 x1 ≤ p.1 ∧ p.1 ≤ max x0 x1 ∧ min y0 y1 ≤ p.2 ∧ p.2 ≤ max y0 y1) ∧
    Pen.Near (x1 - x0).natAbs (y1 - y0).natAbs (p.1 - x0).natAbs (p.2 - y0).natAbs

instance (x0 y0 x1 y1 : Int) : DecidablePred (OnLine x0 y0 x1 y1) := fun _ => inferInstanceAs (Decidable (_ ∧ _))

/-- A rectangle as the code rounds it. -/
def Rounded (x y w h r : Int) (p : Int × Int) : Prop :=
  InRect x y w h p ∧ (0 < r → in_rounded_corner p.1 p.2 x y w h r = true)

instance (x y w h r : Int) : DecidablePred (Rounded x y w h r) := fun _ => inferInstanceAs (Decidable (_ ∧ _))

/-- What a block of colours in memory shows at a point of the rectangle it is copied to. -/
def source (m : Mem) (x y : Int) (src : Nat) (src_stride : Int) (p : Int × Int) : UInt32 :=
  UInt32.ofNat (load m (source_address src src_stride (p.2 - y) (p.1 - x)) 4)

/-- The bytes of a block of colours that is copied. -/
def InSource (w h : Int) (src : Nat) (src_stride : Int) (a : Nat) : Prop :=
  ∃ i j, 0 ≤ i ∧ i < w ∧ 0 ≤ j ∧ j < h ∧ source_address src src_stride j i ≤ a ∧ a < source_address src src_stride j i + 4

section
variable {g : Surface} {m : Mem} {p : Int × Int} {x y w h r : Int} {c : UInt32}

theorem Span.coord (hx : Span x w) {i : Int} (h0 : 0 ≤ i) (hi : i < w) : I32 (x + i) := by
  obtain ⟨⟨h1, h2⟩, h3⟩ := hx
  unfold I32
  omega

/-- A loop whose turns paint shapes of one colour. -/
theorem upTo_shape {body : Int → Mem → Mem} {P : Int → Int × Int → Prop} [∀ i, DecidablePred (P i)]
    {Q : Int × Int → Prop} [DecidablePred Q]
    (hbody : ∀ i, 0 ≤ i → i < w → ∀ m', Kept g m m' → Paints g m' (body i m') (.shape (P i) c))
    (hQ : ∀ p, Q p ↔ ∃ i, 0 ≤ i ∧ i < w ∧ P i p) : Paints g m (upTo w body m) (.shape Q c) := by
  refine (range_paints (fun i => .shape (P i) c) fun i hi => hbody i (by omega) (by omega)).congr fun p _ => ?_
  refine Layer.stack_shapes ((hQ p).trans ?_)
  constructor
  · rintro ⟨i, h0, hi, hp⟩
    exact ⟨i.toNat, by omega, by rwa [Int.toNat_of_nonneg h0]⟩
  · rintro ⟨i, hi, hp⟩
    exact ⟨i, by omega, by omega, hp⟩

/-! ## Rectangles -/

theorem clear_paints (hg : Framed g) : Paints g m (fb_clear g c m) fun _ => some c := by
  have hrow : ∀ j < g.height, ∀ m', Kept g m m' → Paints g m'
      (forRange 0 g.width (fun x m => store m (address g x (i32 j)) 4 c.toNat) m') (.shape (fun p => p.2 = j) c) := by
    intro j hj m' _
    refine (range_paints (fun i => .shape (· = ((i : Int), (j : Int))) c) fun i hi m'' _ => ?_).congr fun p hp => ?_
    · have hj32 : i32 j = j := by
        have := hg.height
        unfold i32
        omega
      rw [hj32]
      exact store_paints (p := ((i : Int), (j : Int))) hg ⟨by omega, by dsimp only; omega, by omega, by dsimp only; omega⟩
    · obtain ⟨h1, h2, -, -⟩ := hp
      refine Layer.stack_shapes (P := fun (i : Nat) p => p = ((i : Int), (j : Int))) ?_
      simp only [Prod.ext_iff]
      constructor
      · intro hpj
        exact ⟨p.1.toNat, by omega, by omega, hpj⟩
      · rintro ⟨i, -, -, hpj⟩
        exact hpj
  refine (range_paints _ hrow).congr fun p hp => ?_
  obtain ⟨-, -, h3, h4⟩ := hp
  refine (Layer.stack_shapes (P := fun (j : Nat) (p : Int × Int) => p.2 = j) (Q := fun _ => True) ?_).trans (if_pos trivial)
  exact iff_of_true trivial ⟨p.2.toNat, by omega, by omega⟩

theorem fill_rect_paints (hg : Framed g) (hx : Span x w) (hy : Span y h) :
    Paints g m (fb_fill_rect g x y w h c m) (.shape (InRect x y w h) c) := by
  refine rect_paints (fun _ => some c) fun j i hj0 hj hi0 hi m' _ => ?_
  exact put_paints hg (hx.coord hi0 hi) (hy.coord hj0 hj)

theorem draw_rect_paints (hg : Framed g) (hx : Span x w) (hy : Span y h) (hxe : -2 ^ 31 ≤ x + w - 1)
    (hye : -2 ^ 31 ≤ y + h - 1) : Paints g m (fb_draw_rect g x y w h c m) (.shape (OnFrame x y w h) c) := by
  have hxs := hx
  have hys := hy
  unfold Span at hxs hys
  have hacross : Paints g m (upTo w (fun i m => fb_put_pixel g (x + i) (y + h - 1) c (fb_put_pixel g (x + i) y c m)) m)
      (.shape (fun p => x ≤ p.1 ∧ p.1 < x + w ∧ (p.2 = y ∨ p.2 = y + h - 1)) c) := by
    refine upTo_shape (P := fun i p => p = (x + i, y + h - 1) ∨ p = (x + i, y)) (fun i h0 hi m' _ => ?_) fun p => ?_
    · have hi32 := hx.coord h0 hi
      refine ((put_paints hg hi32 hys.1).trans (put_paints hg hi32 ⟨hye, by omega⟩)).congr fun p _ => ?_
      exact Layer.shape_atop
    · simp only [Prod.ext_iff]
      constructor
      · rintro ⟨h1, h2, h3⟩
        exact ⟨p.1 - x, by omega, by omega, by omega⟩
      · rintro ⟨i, h1, h2, h3⟩
        omega
  have hdown : ∀ m', Paints g m' (upTo h (fun j m => fb_put_pixel g (x + w - 1) (y + j) c (fb_put_pixel g x (y + j) c m)) m')
      (.shape (fun p => y ≤ p.2 ∧ p.2 < y + h ∧ (p.1 = x ∨ p.1 = x + w - 1)) c) := by
    intro m'
    refine upTo_shape (P := fun j p => p = (x + w - 1, y + j) ∨ p = (x, y + j)) (fun j h0 hj m'' _ => ?_) fun p => ?_
    · have hj32 := hy.coord h0 hj
      refine ((put_paints hg hxs.1 hj32).trans (put_paints hg ⟨hxe, by omega⟩ hj32)).congr fun p _ => ?_
      exact Layer.shape_atop
    · simp only [Prod.ext_iff]
      constructor
      · rintro ⟨h1, h2, h3⟩
        exact ⟨p.2 - y, by omega, by omega, by omega⟩
      · rintro ⟨j, h1, h2, h3⟩
        omega
  refine (hacross.trans (hdown _)).congr fun p _ => ?_
  exact Layer.shape_atop.trans (if_congr or_comm rfl rfl)

theorem rounded_paints (hg : Framed g) (hx : Span x w) (hy : Span y h) :
    Paints g m (fb_fill_rounded_rect g x y w h r c m) (.shape (Rounded x y w h r) c) := by
  unfold fb_fill_rounded_rect
  by_cases hr : r ≤ 0
  · rw [if_pos hr]
    refine (fill_rect_paints hg hx hy).congr fun p _ => Layer.shape_congr ?_
    exact (and_iff_left fun h => absurd hr (by omega)).symm
  · rw [if_neg hr]
    refine (rect_paints (x := x) (y := y) (fun p => if in_rounded_corner p.1 p.2 x y w h r then some c else none)
      fun j i hj0 hj hi0 hi m' _ => ?_).congr fun p _ => ?_
    · by_cases hin : in_rounded_corner (x + i) (y + j) x y w h r = true
      · rw [if_pos hin]
        refine (put_paints hg (hx.coord hi0 hi) (hy.coord hj0 hj)).congr fun p _ => ?_
        unfold Layer.shape
        by_cases hp : p = (x + i, y + j)
        · rw [if_pos hp, if_pos hp, hp, if_pos hin]
        · rw [if_neg hp, if_neg hp]
      · rw [if_neg hin]
        refine Paints.refl.congr fun p _ => ?_
        by_cases hp : p = (x + i, y + j)
        · rw [if_pos hp, hp, if_neg hin]
          rfl
        · rw [if_neg hp]
          rfl
    · rw [← ite_and]
      exact if_congr (and_congr_right fun _ => ⟨fun h _ => h, fun h => h (by omega)⟩) rfl rfl

theorem blit_paints (hg : Framed g) (hx : Span x w) (hy : Span y h) {src : Nat} {stride : Int}
    (hsrc : ∀ a, InSource w h src stride a → OffPixels g a) :
    Paints g m (fb_blit g x y w h src stride m) fun p => if InRect x y w h p then some (source m x y src stride p) else none := by
  refine rect_paints (fun p => some (source m x y src stride p)) fun j i hj0 hj hi0 hi m' hm' => ?_
  have hread : load m' (source_address src stride j i) 4 = load m (source_address src stride j i) 4 := by
    exact load_congr fun a ha1 ha2 => hm' a (hsrc a ⟨i, j, hi0, hi, hj0, hj, ha1, ha2⟩)
  rw [hread]
  refine (put_paints hg (hx.coord hi0 hi) (hy.coord hj0 hj)).congr fun p _ => ?_
  unfold Layer.shape
  by_cases hp : p = (x + i, y + j)
  · rw [if_pos hp, if_pos hp, source, hp]
    dsimp only
    rw [add_sub_cancel_left, add_sub_cancel_left]
  · rw [if_neg hp, if_neg hp]

end

/-! ## Lines -/

section
variable {x0 y0 x1 y1 : Int}

/-- A place along an axis by its distance from the start. -/
theorem way_natAbs {v0 v1 v : Int} (h1 : min v0 v1 ≤ v) (h2 : v ≤ max v0 v1) :
    v0 + (if v0 < v1 then 1 else -1) * ((v - v0).natAbs : Int) = v := by
  split_ifs <;> omega

theorem natAbs_way {s : Int} (hs : s = 1 ∨ s = -1) (v0 : Int) (i : Nat) : (v0 + s * i - v0).natAbs = i := by
  rcases hs with rfl | rfl <;> omega

/-- The turns of a line, the pixels they plot, and how large the error variable becomes. -/
theorem line_turns (x0 y0 x1 y1 : Int) : ∃ ts,
    (∀ fuel, Framebuffer.fb_draw_line fuel x0 y0 x1 y1 = if max |x1 - x0| |y1 - y0| < fuel then some ts else none) ∧
      (∀ p, (∃ t ∈ ts, p = (t.x, t.y)) ↔ OnLine x0 y0 x1 y1 p) ∧
      ∀ t ∈ ts, ∀ v ∈ t.values, |v| ≤ 3 * max |x1 - x0| |y1 - y0| := by
  obtain ⟨a, ha, hdx, -, hx1⟩ := axis_eq x0 x1
  obtain ⟨b, hb, -, hdy, hy1⟩ := axis_eq y0 y1
  have hx := way_eq x0 x1
  have hy := way_eq y0 y1
  refine ⟨turnsFrom x0 y0 (if x0 < x1 then 1 else -1) (if y0 < y1 then 1 else -1) a b 0, fun fuel => ?_, fun p => ?_, ?_⟩
  · have hloop := line_loop_eq x0 y0 hx hy fuel (Nat.zero_le (max a b))
    rw [← hx1, ← hy1] at hloop
    simp only [Pen.after, Nat.cast_zero, mul_zero, add_zero, sub_eq_add_neg] at hloop
    unfold Framebuffer.fb_draw_line
    dsimp only
    rw [hdx, hdy, hloop, ← ha, ← hb]
    refine if_congr ?_ rfl rfl
    omega
  · have ha' : (x1 - x0).natAbs = a := by rw [← Int.natCast_inj, Int.natCast_natAbs, ha]
    have hb' : (y1 - y0).natAbs = b := by rw [← Int.natCast_inj, Int.natCast_natAbs, hb]
    unfold OnLine
    rw [ha', hb', Pen.near_iff]
    constructor
    · rintro ⟨t, ht, rfl⟩
      obtain ⟨n, hn, rfl⟩ := mem_turnsFrom ht
      have hway := Pen.onWay_after hn
      obtain ⟨h1, h2⟩ := between x0 hx hway.i_le
      obtain ⟨h3, h4⟩ := between y0 hy hway.j_le
      rw [← hx1] at h1 h2
      rw [← hy1] at h3 h4
      exact ⟨⟨h1, h2, h3, h4⟩, n, hn, (natAbs_way hx x0 _).symm, (natAbs_way hy y0 _).symm⟩
    · rintro ⟨⟨h1, h2, h3, h4⟩, n, hn, hi, hj⟩
      refine ⟨turnOf x0 y0 _ _ a b (Pen.after a b n), List.mem_map.2 ⟨n, ?_, rfl⟩, ?_⟩
      · rw [List.mem_range'_1]
        omega
      · unfold turnOf
        dsimp only
        rw [hi, hj, way_natAbs h1 h2, way_natAbs h3 h4]
  · intro t ht v hv
    obtain ⟨n, hn, rfl⟩ := mem_turnsFrom ht
    have hle := turnOf_values (Pen.onWay_after hn) v hv
    rw [← ha, ← hb]
    exact_mod_cast hle

theorem abs_way {s t : Int} (hs : s = 1 ∨ s = -1) (ht : t = 1 ∨ t = -1) (a b i j : Int) :
    |s * a * (t * j) - t * b * (s * i)| = |a * j - b * i| := by
  have hsign : s * a * (t * j) - t * b * (s * i) = s * t * (a * j - b * i) := by ring
  rw [hsign, abs_mul, abs_mul]
  rcases hs with rfl | rfl <;> rcases ht with rfl | rfl <;> simp

/-- How far a pixel of a line is from it, in units of one over the longer side. -/
theorem OnLine.close {p : Int × Int} (h : OnLine x0 y0 x1 y1 p) :
    2 * |(x1 - x0) * (p.2 - y0) - (y1 - y0) * (p.1 - x0)| ≤ max |x1 - x0| |y1 - y0| := by
  obtain ⟨⟨h1, h2, h3, h4⟩, hnear⟩ := h
  have hclose := hnear.close
  have hx1 : x1 - x0 = (if x0 < x1 then 1 else -1) * ((x1 - x0).natAbs : Int) := by
    linarith [way_natAbs (show min x0 x1 ≤ x1 by omega) (show x1 ≤ max x0 x1 by omega)]
  have hy1 : y1 - y0 = (if y0 < y1 then 1 else -1) * ((y1 - y0).natAbs : Int) := by
    linarith [way_natAbs (show min y0 y1 ≤ y1 by omega) (show y1 ≤ max y0 y1 by omega)]
  have hp1 : p.1 - x0 = (if x0 < x1 then 1 else -1) * ((p.1 - x0).natAbs : Int) := by linarith [way_natAbs h1 h2]
  have hp2 : p.2 - y0 = (if y0 < y1 then 1 else -1) * ((p.2 - y0).natAbs : Int) := by linarith [way_natAbs h3 h4]
  rw [hp1, hp2, Int.abs_eq_natAbs (x1 - x0), Int.abs_eq_natAbs (y1 - y0)]
  nth_rewrite 1 [hx1]
  nth_rewrite 1 [hy1]
  rw [abs_way (way_eq x0 x1) (way_eq y0 y1)]
  exact_mod_cast hclose

theorem OnLine.swap {x y : Int} (h : OnLine x0 y0 x1 y1 (x, y)) : OnLine y0 x0 y1 x1 (y, x) :=
  ⟨⟨h.1.2.2.1, h.1.2.2.2, h.1.1, h.1.2.1⟩, h.2.swap⟩

/-- A line that is not steep has one pixel in every column. -/
theorem onLine_column (hflat : |y1 - y0| ≤ |x1 - x0|) {x : Int} (h1 : min x0 x1 ≤ x) (h2 : x ≤ max x0 x1) :
    ∃! y, OnLine x0 y0 x1 y1 (x, y) := by
  have hab : (y1 - y0).natAbs ≤ (x1 - x0).natAbs := by
    rw [Int.abs_eq_natAbs, Int.abs_eq_natAbs] at hflat
    exact_mod_cast hflat
  have hi : (x - x0).natAbs ≤ max (x1 - x0).natAbs (y1 - y0).natAbs := by omega
  have hnear := Pen.near_after hi
  rw [Pen.after_i hab] at hnear
  have hin := between y0 (way_eq y0 y1) hnear.2.1
  rw [way_natAbs (show min y0 y1 ≤ y1 by omega) (show y1 ≤ max y0 y1 by omega)] at hin
  refine ⟨_, ⟨⟨h1, h2, hin.1, hin.2⟩, ?_⟩, ?_⟩
  · dsimp only
    rw [natAbs_way (way_eq y0 y1)]
    exact hnear
  · rintro y ⟨⟨-, -, h3, h4⟩, hy⟩
    have hj := hy.unique hab hnear
    dsimp only at hj h3 h4
    rw [← hj, way_natAbs h3 h4]

/-- Between ends less than 2^29 apart along each axis nothing in the loop of a line overflows, and it plots pixels that are
off the ideal line by half a step at most, one in every column, or in every row if it is steep. -/
theorem line_nearest {x0 y0 x1 y1 : Int} (h0 : I32 x0 ∧ I32 y0) (h1 : I32 x1 ∧ I32 y1) (hdx : |x1 - x0| < 2 ^ 29)
    (hdy : |y1 - y0| < 2 ^ 29) : ∃ ts,
    (∀ fuel, Framebuffer.fb_draw_line fuel x0 y0 x1 y1 = if max |x1 - x0| |y1 - y0| < fuel then some ts else none) ∧
    (∀ t ∈ ts, I32 t.x ∧ I32 t.y ∧ ∀ v ∈ t.values, I32 v) ∧
    (∀ t ∈ ts, 2 * |(x1 - x0) * (t.y - y0) - (y1 - y0) * (t.x - x0)| ≤ max |x1 - x0| |y1 - y0|) ∧
    (|y1 - y0| ≤ |x1 - x0| → ∀ x, min x0 x1 ≤ x → x ≤ max x0 x1 → ∃! y, ∃ t ∈ ts, (x, y) = (t.x, t.y)) ∧
    (|x1 - x0| ≤ |y1 - y0| → ∀ y, min y0 y1 ≤ y → y ≤ max y0 y1 → ∃! x, ∃ t ∈ ts, (x, y) = (t.x, t.y)) := by
  obtain ⟨ts, hfuel, hon, hvalues⟩ := line_turns x0 y0 x1 y1
  refine ⟨ts, hfuel, fun t ht => ?_, fun t ht => ?_, fun hflat x h2 h3 => ?_, fun hsteep y h2 h3 => ?_⟩
  · obtain ⟨⟨h2, h3, h4, h5⟩, -⟩ := (hon (t.x, t.y)).1 ⟨t, ht, rfl⟩
    obtain ⟨hx0, hy0⟩ := h0
    obtain ⟨hx1, hy1⟩ := h1
    dsimp only at h2 h3 h4 h5
    unfold I32 at *
    refine ⟨by omega, by omega, fun v hv => ?_⟩
    have hle := abs_le.1 (hvalues t ht v hv)
    have hmax : max |x1 - x0| |y1 - y0| < 2 ^ 29 := max_lt hdx hdy
    omega
  · exact ((hon (t.x, t.y)).1 ⟨t, ht, rfl⟩).close
  · simp only [hon]
    exact onLine_column hflat h2 h3
  · simp only [hon]
    obtain ⟨x, hx, hunique⟩ := onLine_column hsteep h2 h3
    exact ⟨x, hx.swap, fun z hz => hunique z hz.swap⟩

/-- A flat line to the left: its five columns have one pixel each, none more than half a step from the line. -/
theorem line_nearest_left : ∃ ts,
    (∀ fuel, Framebuffer.fb_draw_line fuel 10 7 6 8 = if max |(6 : Int) - 10| |(8 : Int) - 7| < fuel then some ts else none) ∧
    (∀ t ∈ ts, I32 t.x ∧ I32 t.y ∧ ∀ v ∈ t.values, I32 v) ∧
    (∀ t ∈ ts, 2 * |((6 : Int) - 10) * (t.y - 7) - (8 - 7) * (t.x - 10)| ≤ max |(6 : Int) - 10| |(8 : Int) - 7|) ∧
    ∀ x, min (10 : Int) 6 ≤ x → x ≤ max 10 6 → ∃! y, ∃ t ∈ ts, (x, y) = (t.x, t.y) := by
  obtain ⟨ts, hfuel, hrange, hclose, hflat, -⟩ := line_nearest (show I32 10 ∧ I32 7 from ⟨by decide, by decide⟩)
    (show I32 6 ∧ I32 8 from ⟨by decide, by decide⟩) (by decide) (by decide)
  exact ⟨ts, hfuel, hrange, hclose, hflat (by decide)⟩

end

/-! ## Round corners -/

section
variable {g : Surface} {m : Mem} {x y w h r : Int} {c : UInt32}

/-- The disc of radius `r` moved over the rectangle that leaves room for it. -/
def Swept (x y w h r : Int) (p : Int × Int) : Prop :=
  ∃ cx cy, x + r ≤ cx ∧ cx ≤ x + w - r - 1 ∧ y + r ≤ cy ∧ cy ≤ y + h - r - 1 ∧
    (p.1 - cx) * (p.1 - cx) + (p.2 - cy) * (p.2 - cy) ≤ r * r

/-- The coordinate between two others that is nearest to `v`. -/
def nearest (lo hi v : Int) : Int := max lo (min v hi)

theorem nearest_cases {lo hi : Int} (h : lo ≤ hi) (v : Int) :
    (v < lo ∧ nearest lo hi v = lo) ∨ (lo ≤ v ∧ v ≤ hi ∧ nearest lo hi v = v) ∨ (hi < v ∧ nearest lo hi v = hi) := by
  unfold nearest
  omega

theorem mul_self_le_of_abs {a b : Int} (h1 : -b ≤ a) (h2 : a ≤ b) : a * a ≤ b * b := by
  nlinarith

/-- No other coordinate in between is nearer. -/
theorem nearest_le {lo hi u : Int} (hlo : lo ≤ u) (hhi : u ≤ hi) (v : Int) :
    (v - nearest lo hi v) * (v - nearest lo hi v) ≤ (v - u) * (v - u) := by
  rcases nearest_cases (hlo.trans hhi) v with ⟨hv, he⟩ | ⟨-, -, he⟩ | ⟨hv, he⟩
  · rw [he, ← neg_mul_neg (v - u)]
    exact mul_self_le_of_abs (by omega) (by omega)
  · rw [he, sub_self, mul_zero]
    exact mul_self_nonneg _
  · rw [he]
    exact mul_self_le_of_abs (by omega) (by omega)

/-- The test of the code is the distance from the inner rectangle. -/
theorem in_rounded_corner_iff (hr : 0 < r) (hw : 2 * r < w) (hh : 2 * r < h) {px py : Int} (hin : InRect x y w h (px, py)) :
    in_rounded_corner px py x y w h r = true ↔
      (px - nearest (x + r) (x + w - r - 1) px) * (px - nearest (x + r) (x + w - r - 1) px) +
        (py - nearest (y + r) (y + h - r - 1) py) * (py - nearest (y + r) (y + h - r - 1) py) ≤ r * r := by
  obtain ⟨h1, h2, h3, h4⟩ := hin
  dsimp only at h1 h2 h3 h4
  unfold in_rounded_corner
  rcases nearest_cases (show x + r ≤ x + w - r - 1 by omega) px with ⟨hx, hcx⟩ | ⟨hx, hx', hcx⟩ | ⟨hx, hcx⟩
  · rcases nearest_cases (show y + r ≤ y + h - r - 1 by omega) py with ⟨hy, hcy⟩ | ⟨hy, hy', hcy⟩ | ⟨hy, hcy⟩
    · rw [if_pos ⟨hx, hy⟩, hcx, hcy, decide_eq_true_eq]
    · rw [if_neg (by omega), if_neg (by omega), if_neg (by omega), if_neg (by omega), hcx, hcy, sub_self, mul_zero, add_zero]
      exact iff_of_true rfl (mul_self_le_of_abs (by omega) (by omega))
    · rw [if_neg (by omega), if_neg (by omega), if_pos (by omega), hcx, hcy, decide_eq_true_eq]
  · rw [if_neg (by omega), if_neg (by omega), if_neg (by omega), if_neg (by omega), hcx, sub_self, mul_zero, zero_add]
    refine iff_of_true rfl ?_
    rcases nearest_cases (show y + r ≤ y + h - r - 1 by omega) py with ⟨hy, hcy⟩ | ⟨hy, hy', hcy⟩ | ⟨hy, hcy⟩
    · rw [hcy]
      exact mul_self_le_of_abs (by omega) (by omega)
    · rw [hcy, sub_self, mul_zero]
      exact mul_self_nonneg r
    · rw [hcy]
      exact mul_self_le_of_abs (by omega) (by omega)
  · rcases nearest_cases (show y + r ≤ y + h - r - 1 by omega) py with ⟨hy, hcy⟩ | ⟨hy, hy', hcy⟩ | ⟨hy, hcy⟩
    · rw [if_neg (by omega), if_pos (by omega), hcx, hcy, decide_eq_true_eq]
    · rw [if_neg (by omega), if_neg (by omega), if_neg (by omega), if_neg (by omega), hcx, hcy, sub_self, mul_zero, add_zero]
      exact iff_of_true rfl (mul_self_le_of_abs (by omega) (by omega))
    · rw [if_neg (by omega), if_neg (by omega), if_neg (by omega), if_pos (by omega), hcx, hcy, decide_eq_true_eq]

theorem abs_le_of_squares {a b : Int} (hr : 0 < r) (h : a * a + b * b ≤ r * r) : -r ≤ a ∧ a ≤ r := by
  constructor <;> nlinarith [mul_self_nonneg b]

/-- The code's corners are those of the disc. -/
theorem rounded_iff_swept (hr : 0 < r) (hw : 2 * r < w) (hh : 2 * r < h) (p : Int × Int) :
    Rounded x y w h r p ↔ Swept x y w h r p := by
  obtain ⟨px, py⟩ := p
  constructor
  · rintro ⟨hin, hcorner⟩
    refine ⟨nearest (x + r) (x + w - r - 1) px, nearest (y + r) (y + h - r - 1) py, ?_, ?_, ?_, ?_,
      (in_rounded_corner_iff hr hw hh hin).1 (hcorner hr)⟩
    all_goals
      unfold nearest
      omega
  · rintro ⟨cx, cy, h1, h2, h3, h4, hdisc⟩
    dsimp only at hdisc
    obtain ⟨h5, h6⟩ := abs_le_of_squares hr hdisc
    rw [add_comm] at hdisc
    obtain ⟨h7, h8⟩ := abs_le_of_squares hr hdisc
    have hin : InRect x y w h (px, py) := ⟨by dsimp only; omega, by dsimp only; omega, by dsimp only; omega, by dsimp only; omega⟩
    refine ⟨hin, fun _ => (in_rounded_corner_iff hr hw hh hin).2 ?_⟩
    linarith [nearest_le h1 h2 px, nearest_le h3 h4 py]

end

end H3OS.Framebuffer.Paint
