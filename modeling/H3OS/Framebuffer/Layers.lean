import H3OS.Framebuffer.Paint
/-!
# What is drawn

Each drawing function lays a layer on the picture in memory and leaves every
byte between the pixels and around the surface alone. A loop lays the stack of
its turns' layers; the shape that comes out is read off from the one turn that
may paint a given point.
-/
open SysLib

namespace H3OS.Framebuffer.Paint

/-- A point of the surface. -/
def Shows (g : Surface) (p : Int × Int) : Prop := 0 ≤ p.1 ∧ p.1 < g.width ∧ 0 ≤ p.2 ∧ p.2 < g.height

instance (g : Surface) : DecidablePred (Shows g) := fun _ => inferInstanceAs (Decidable (_ ∧ _))

/-- The colour that is drawn at a point. -/
def pixel (g : Surface) (m : Mem) (p : Int × Int) : UInt32 := UInt32.ofNat (load m (address g p.1 p.2) 4)

/-- Rows are apart and have numbers, and the buffers end within the address space; a back buffer shares no byte with what
is shown. -/
structure Framed (g : Surface) : Prop where
  rows : 4 * g.width ≤ g.pitch
  pitch : g.pitch < 2 ^ 32
  height : g.width = 0 ∨ g.height ≤ 2 ^ 31
  drawn : g.base.start + g.pitch * g.height ≤ 2 ^ 64
  shown : g.pixels.start + g.pitch * g.height ≤ 2 ^ 64
  bytes : g.pitch * g.height < 2 ^ 64
  apart : g.double_buffered = true → ∀ a, ¬ ((g.pixels.start ≤ a ∧ a < g.pixels.start + g.pitch * g.height) ∧
    g.back.start ≤ a ∧ a < g.back.start + g.pitch * g.height)

/-- A coordinate that does not overflow. -/
def I32 (v : Int) : Prop := -2 ^ 31 ≤ v ∧ v < 2 ^ 31

/-- An address at which there is no pixel. -/
def OffPixels (g : Surface) (a : Nat) : Prop := ∀ p, Shows g p → a < address g p.1 p.2 ∨ address g p.1 p.2 + 4 ≤ a

/-- `m'` is `m` but for the pixels. -/
def Kept (g : Surface) (m m' : Mem) : Prop := ∀ a, OffPixels g a → m' a = m a

/-- The way from `m` to `m'` is to lay a layer. -/
structure Paints (g : Surface) (m m' : Mem) (l : Layer (Int × Int) UInt32) : Prop where
  shown : ∀ p, Shows g p → pixel g m' p = l.on (pixel g m) p
  kept : Kept g m m'

section
variable {g : Surface} {m m' m'' : Mem} {p q : Int × Int} {x y v : Int} {c : UInt32} {n : Nat}
  {l l' : Layer (Int × Int) UInt32}

/-! ## Where pixels are -/

theorem fb_row_eq (g : Surface) (y : Int) : fb_row g y = g.base.start + y * g.pitch := by
  unfold fb_row Surface.base
  split_ifs <;> rfl

theorem row_le (hrows : 4 * g.width ≤ g.pitch) {i j : Nat} (hi : i < g.width) {k : Nat} (hj : j < k) :
    j * g.pitch + 4 * i + 4 ≤ k * g.pitch := by
  have hrow : (j + 1) * g.pitch ≤ k * g.pitch := Nat.mul_le_mul_right _ hj
  rw [Nat.add_mul, Nat.one_mul] at hrow
  omega

theorem Framed.room (hg : Framed g) (hp : Shows g p) :
    p.2.toNat * g.pitch + 4 * p.1.toNat + 4 ≤ g.pitch * g.height := by
  obtain ⟨h1, h2, h3, h4⟩ := hp
  rw [Nat.mul_comm g.pitch]
  exact row_le hg.rows (by omega) (by omega)

theorem Framed.address_eq (hg : Framed g) (hp : Shows g p) :
    address g p.1 p.2 = g.base.start + (p.2.toNat * g.pitch + 4 * p.1.toNat) := by
  have hroom := hg.room hp
  have hend := hg.drawn
  obtain ⟨h1, -, h3, -⟩ := hp
  have hx : p.1 = (p.1.toNat : Int) := (Int.toNat_of_nonneg h1).symm
  have hy : p.2 = (p.2.toNat : Int) := (Int.toNat_of_nonneg h3).symm
  have hrow : p.2 * (g.pitch : Int) = ((p.2.toNat * g.pitch : Nat) : Int) := by
    rw [hy, Nat.cast_mul, Int.toNat_natCast]
  unfold address
  rw [fb_row_eq, hrow]
  omega

/-- Pixels do not share bytes. -/
theorem Framed.pixels_apart (hg : Framed g) (hp : Shows g p) (hq : Shows g q) (hne : p ≠ q) :
    Apart (address g p.1 p.2) 4 (address g q.1 q.2) 4 := by
  rw [hg.address_eq hp, hg.address_eq hq]
  obtain ⟨h1, h2, h3, h4⟩ := hp
  obtain ⟨h5, h6, h7, h8⟩ := hq
  unfold Apart
  rcases lt_trichotomy p.2.toNat q.2.toNat with hlt | heq | hgt
  · have := row_le hg.rows (show p.1.toNat < g.width by omega) hlt
    omega
  · have hx : p.1.toNat ≠ q.1.toNat := by
      intro hx
      exact hne (Prod.ext (by omega) (by omega))
    rw [heq]
    omega
  · have := row_le hg.rows (show q.1.toNat < g.width by omega) hgt
    omega

/-- What is tested at the edges is whether a coordinate is on the surface. -/
theorem u32_lt (hv : I32 v) (hn : n ≤ 2 ^ 31) : u32 v < n ↔ 0 ≤ v ∧ v < n := by
  unfold I32 at hv
  unfold u32
  omega

theorem Framed.accepts (hg : Framed g) (hx : I32 x) (hy : I32 y) :
    ¬ (u32 x ≥ g.width ∨ u32 y ≥ g.height) ↔ Shows g (x, y) := by
  have hwidth : g.width ≤ 2 ^ 31 := by
    have := hg.rows
    have := hg.pitch
    omega
  rw [not_or, not_le, not_le, u32_lt hx hwidth]
  unfold Shows
  dsimp only
  rcases hg.height with hzero | hheight
  · rw [hzero]
    omega
  · rw [u32_lt hy hheight]
    exact and_assoc

/-! ## Laying layers -/

theorem Kept.refl : Kept g m m := fun _ _ => rfl

theorem Kept.trans (h : Kept g m m') (h' : Kept g m' m'') : Kept g m m'' := fun a ha => (h' a ha).trans (h a ha)

theorem Paints.refl : Paints g m m .clear := ⟨fun _ _ => rfl, .refl⟩

theorem Paints.trans (h : Paints g m m' l) (h' : Paints g m' m'' l') : Paints g m m'' (l'.atop l) := by
  refine ⟨fun p hp => ?_, h.kept.trans h'.kept⟩
  rw [Layer.atop_on, h'.shown p hp]
  unfold Layer.on
  rw [h.shown p hp]
  rfl

/-- Only the points of the surface count. -/
theorem Paints.congr (h : Paints g m m' l) (hl : ∀ p, Shows g p → l p = l' p) : Paints g m m' l' := by
  refine ⟨fun p hp => ?_, h.kept⟩
  rw [h.shown p hp]
  unfold Layer.on
  rw [hl p hp]

theorem store_paints (hg : Framed g) (hp : Shows g p) : Paints g m (store m (address g p.1 p.2) 4 c.toNat) (.shape (· = p) c) := by
  refine ⟨fun q hq => ?_, fun a ha => store_out (ha p hp)⟩
  unfold pixel Layer.on
  by_cases hqp : q = p
  · rw [hqp, Layer.shape_of (P := (· = p)) rfl, load_store_of_lt c.toNat_lt]
    simp
  · rw [Layer.shape_not (P := (· = p)) hqp, load_store_apart (hg.pixels_apart hp hq (Ne.symm hqp))]
    rfl

theorem put_paints (hg : Framed g) (hx : I32 x) (hy : I32 y) : Paints g m (fb_put_pixel g x y c m) (.shape (· = (x, y)) c) := by
  unfold fb_put_pixel
  by_cases hin : Shows g (x, y)
  · rw [if_neg ((hg.accepts hx hy).2 hin)]
    exact store_paints (p := (x, y)) hg hin
  · rw [if_pos (not_not.1 (mt (hg.accepts hx hy).1 hin))]
    refine Paints.refl.congr fun p hp => (Layer.shape_not ?_).symm
    rintro rfl
    exact hin hp

theorem get_pixel_eq (hg : Framed g) (hx : I32 x) (hy : I32 y) :
    fb_get_pixel g m x y = if Shows g (x, y) then pixel g m (x, y) else 0 := by
  unfold fb_get_pixel
  by_cases hin : Shows g (x, y)
  · rw [if_neg ((hg.accepts hx hy).2 hin), if_pos hin]
    rfl
  · rw [if_pos (not_not.1 (mt (hg.accepts hx hy).1 hin)), if_neg hin]

/-! ## Loops -/

section
variable {lo hi : Nat} {w h : Int}

/-- A loop lays the layers of its turns, each at a memory that is the first one but for the pixels. -/
theorem range_paints {body : Nat → Mem → Mem} (ly : Nat → Layer (Int × Int) UInt32)
    (hbody : ∀ i < n, ∀ m', Kept g m m' → Paints g m' (body i m') (ly i)) :
    Paints g m (forRange 0 n body m) (.stack ((List.range n).map ly)) := by
  refine forRange_inv (I := fun k m' => Paints g m m' (.stack ((List.range k).map ly))) (Nat.zero_le n) .refl ?_
  intro i m' _ hi h
  rw [List.range_succ, List.map_append, List.map_singleton, Layer.stack_concat]
  exact h.trans (hbody i hi m' h.kept)

/-- A loop in whose turns only one may paint a given point. -/
theorem upTo_paints {body : Int → Mem → Mem} {ly : Int → Layer (Int × Int) UInt32} (turn : Int × Int → Int)
    (hbody : ∀ i, 0 ≤ i → i < w → ∀ m', Kept g m m' → Paints g m' (body i m') (ly i))
    (hturn : ∀ i p, 0 ≤ i → i < w → i ≠ turn p → ly i p = none) :
    Paints g m (upTo w body m) fun p => if 0 ≤ turn p ∧ turn p < w then ly (turn p) p else none := by
  refine (range_paints (fun i => ly i) fun i hi => hbody i (by omega) (by omega)).congr fun p _ => ?_
  by_cases h : 0 ≤ turn p ∧ turn p < w
  · rw [if_pos h, Layer.stack_range (k := (turn p).toNat) fun i hi hne => hturn i p (by omega) (by omega) (by omega),
      if_pos (by omega), Int.toNat_of_nonneg h.1]
  · rw [if_neg h, Layer.stack_eq_none]
    intro l hl
    obtain ⟨i, hi, rfl⟩ := List.mem_map.1 hl
    rw [List.mem_range] at hi
    exact hturn i p (by omega) (by omega) (by omega)

/-- The rectangle of `w` by `h` points at `x`, `y`. -/
def InRect (x y w h : Int) (p : Int × Int) : Prop := x ≤ p.1 ∧ p.1 < x + w ∧ y ≤ p.2 ∧ p.2 < y + h

instance (x y w h : Int) : DecidablePred (InRect x y w h) := fun _ => inferInstanceAs (Decidable (_ ∧ _))

/-- Row by row over a rectangle, where a turn paints its own point at most. -/
theorem rect_paints {body : Int → Int → Mem → Mem} (ly : Int × Int → Option UInt32)
    (hbody : ∀ j i, 0 ≤ j → j < h → 0 ≤ i → i < w → ∀ m', Kept g m m' →
      Paints g m' (body j i m') fun p => if p = (x + i, y + j) then ly p else none) :
    Paints g m (upTo h (fun j => upTo w (body j)) m) fun p => if InRect x y w h p then ly p else none := by
  have hrow : ∀ j, 0 ≤ j → j < h → ∀ m', Kept g m m' → Paints g m' (upTo w (body j) m')
      fun p => if p.2 = y + j ∧ x ≤ p.1 ∧ p.1 < x + w then ly p else none := by
    intro j h0 hj m' hm'
    refine (upTo_paints (fun p => p.1 - x) (fun i hi hw m'' h'' => hbody j i h0 hj hi hw m'' (hm'.trans h'')) ?_).congr ?_
    · intro i p _ _ hne
      rw [if_neg]
      rintro rfl
      exact hne (by dsimp only; omega)
    · intro p _
      rw [← ite_and]
      refine if_congr ?_ rfl rfl
      rw [Prod.ext_iff]
      dsimp only
      omega
  refine (upTo_paints (fun p => p.2 - y) hrow ?_).congr ?_
  · intro j p _ _ hne
    rw [if_neg]
    rintro ⟨hy, -⟩
    exact hne (by omega)
  · intro p _
    rw [← ite_and]
    refine if_congr ?_ rfl rfl
    unfold InRect
    omega

end

end

end H3OS.Framebuffer.Paint
