import H3OS.Framebuffer.Shapes
/-!
# Text

`fb_draw_string` goes along its string with a cursor. What comes out is a
grid: lines are ten points apart and characters eight, so that no two share a
point and each point belongs to the character in its line and column.
-/
open SysLib

namespace H3OS.Framebuffer.Paint

/-- The character at a place of a text in lines. -/
def charAt (s : List UInt8) (row col : Nat) : Option UInt8 := (s.splitOn 10)[row]?.bind (·[col]?)

/-- The cell of a character at `x`, `y`. -/
def cell (x y : Int) (c : UInt8) (fg bg : UInt32) : Layer (Int × Int) UInt32 := fun p =>
  if InRect x y 8 8 p then
    if lit c (p.2 - y) (p.1 - x) then some fg else if bg = NO_BG then none else some bg
  else none

/-- A text in the grid whose first cell is at `x`, `y`. -/
def page (x y : Int) (s : List UInt8) (fg bg : UInt32) : Layer (Int × Int) UInt32 := fun p =>
  if x ≤ p.1 ∧ y ≤ p.2 then
    (charAt s ((p.2 - y) / 10).toNat ((p.1 - x) / 8).toNat).bind fun c =>
      cell (x + (p.1 - x) / 8 * 8) (y + (p.2 - y) / 10 * 10) c fg bg p
  else none

section
variable {g : Surface} {m : Mem} {x y : Int} {c : UInt8} {fg bg : UInt32} {s : List UInt8} {k row col : Nat}

theorem char_paints (hg : Framed g) (hx : Span x 8) (hy : Span y 8) :
    Paints g m (fb_draw_char g x y c fg bg m) (cell x y c fg bg) := by
  refine rect_paints (fun p => if lit c (p.2 - y) (p.1 - x) then some fg else if bg = NO_BG then none else some bg)
    fun row col hj0 hj hi0 hi m' _ => ?_
  have hput : ∀ color, Paints g m' (fb_put_pixel g (x + col) (y + row) color m') (.shape (· = (x + col, y + row)) color) :=
    fun color => put_paints hg (hx.coord hi0 hi) (hy.coord hj0 hj)
  by_cases hlit : lit c row col = true
  · simp only [hlit, or_true, if_true]
    refine (hput fg).congr fun p _ => if_ctx_congr Iff.rfl (fun hp => ?_) fun _ => rfl
    rw [hp, add_sub_cancel_left, add_sub_cancel_left, if_pos hlit]
  · by_cases hbg : bg = NO_BG
    · simp only [hlit, hbg, ne_eq, not_true]
      refine Paints.refl.congr fun p _ => ?_
      by_cases hp : p = (x + col, y + row)
      · rw [if_pos hp, hp, add_sub_cancel_left, add_sub_cancel_left, if_neg hlit]
        rfl
      · rw [if_neg hp]
        rfl
    · simp only [hlit, hbg, ne_eq, not_false_iff, true_or, if_true, if_false]
      refine (hput bg).congr fun p _ => if_ctx_congr Iff.rfl (fun hp => ?_) fun _ => rfl
      rw [hp, add_sub_cancel_left, add_sub_cancel_left, if_neg hlit]

/-! ## Along the string -/

theorem charAt_newline (s : List UInt8) (row col : Nat) :
    charAt (10 :: s) row col = if row = 0 then none else charAt s (row - 1) col := by
  unfold charAt List.splitOn
  rw [List.splitOnP_cons_eq_if_modifyHead, if_pos (beq_self_eq_true 10)]
  cases row <;> simp

theorem charAt_cons (hc : c ≠ 10) (s : List UInt8) (row col : Nat) : charAt (c :: s) row col =
    if row = 0 then if col = 0 then some c else charAt s 0 (col - 1) else charAt s row col := by
  obtain ⟨l, ls, hs⟩ := List.exists_cons_of_ne_nil (List.splitOnP_ne_nil (· == 10) s)
  unfold charAt List.splitOn
  rw [List.splitOnP_cons_eq_if_modifyHead, if_neg (by simpa using hc), hs]
  cases row with
  | zero => cases col <;> simp
  | succ row => simp

/-- The character at a place when the first line of the text starts at column `k`. -/
def ahead (s : List UInt8) (k row col : Nat) : Option UInt8 :=
  if row = 0 then if k ≤ col then charAt s 0 (col - k) else none else charAt s row col

theorem ahead_newline (s : List UInt8) (k row col : Nat) :
    ahead (10 :: s) k row col = if row = 0 then none else ahead s 0 (row - 1) col := by
  unfold ahead
  rw [charAt_newline, charAt_newline]
  by_cases hrow : row = 0
  · simp [hrow]
  · rw [if_neg hrow, if_neg hrow, if_neg hrow]
    by_cases hrow' : row - 1 = 0
    · simp [hrow']
    · simp [hrow']

theorem ahead_cons (hc : c ≠ 10) (s : List UInt8) (k row col : Nat) :
    ahead (c :: s) k row col = if row = 0 ∧ col = k then some c else ahead s (k + 1) row col := by
  unfold ahead
  rw [charAt_cons hc, charAt_cons hc]
  by_cases hrow : row = 0
  · simp only [hrow, if_true, true_and]
    rcases lt_trichotomy col k with hlt | rfl | hgt
    · rw [if_neg (by omega), if_neg (by omega), if_neg (by omega)]
    · simp
    · rw [if_pos hgt.le, if_neg (by omega), if_neg (by omega), if_pos (by omega), Nat.sub_sub]
  · simp [hrow]

/-- What is still to be drawn with the cursor at column `k`. -/
def pageFrom (x y : Int) (s : List UInt8) (fg bg : UInt32) (k : Nat) : Layer (Int × Int) UInt32 := fun p =>
  if x ≤ p.1 ∧ y ≤ p.2 then
    (ahead s k ((p.2 - y) / 10).toNat ((p.1 - x) / 8).toNat).bind fun c =>
      cell (x + (p.1 - x) / 8 * 8) (y + (p.2 - y) / 10 * 10) c fg bg p
  else none

theorem pageFrom_newline (p : Int × Int) : pageFrom x y (10 :: s) fg bg k p = pageFrom x (y + 10) s fg bg 0 p := by
  unfold pageFrom
  simp only [ahead_newline]
  by_cases hin : x ≤ p.1 ∧ y ≤ p.2
  · rw [if_pos hin]
    by_cases hrow : y + 10 ≤ p.2
    · have hdiv : (p.2 - (y + 10)) / 10 = (p.2 - y) / 10 - 1 := by omega
      have hat : y + 10 + ((p.2 - y) / 10 - 1) * 10 = y + (p.2 - y) / 10 * 10 := by omega
      have hnat : ((p.2 - y) / 10 - 1).toNat = ((p.2 - y) / 10).toNat - 1 := by omega
      rw [if_neg (by omega), if_pos ⟨hin.1, hrow⟩, hdiv, hat, hnat]
    · rw [if_pos (by omega), if_neg (fun h => hrow h.2)]
      rfl
  · rw [if_neg hin, if_neg (by omega)]

theorem pageFrom_cons (hc : c ≠ 10) (p : Int × Int) : pageFrom x y (c :: s) fg bg k p =
    ((pageFrom x y s fg bg (k + 1)).atop (cell (x + 8 * k) y c fg bg)) p := by
  have hcell : InRect (x + 8 * k) y 8 8 p → (x ≤ p.1 ∧ y ≤ p.2) ∧
      ((p.2 - y) / 10).toNat = 0 ∧ ((p.1 - x) / 8).toNat = k := by
    rintro ⟨h1, h2, h3, h4⟩
    omega
  by_cases hin : x ≤ p.1 ∧ y ≤ p.2
  · by_cases hhere : ((p.2 - y) / 10).toNat = 0 ∧ ((p.1 - x) / 8).toNat = k
    · have hnone : pageFrom x y s fg bg (k + 1) p = none := by
        unfold pageFrom ahead
        rw [if_pos hin, hhere.1, hhere.2, if_pos rfl, if_neg (by omega)]
        rfl
      have hx : x + (p.1 - x) / 8 * 8 = x + 8 * k := by omega
      have hy : y + (p.2 - y) / 10 * 10 = y := by omega
      rw [Layer.atop_of_none hnone]
      unfold pageFrom
      rw [if_pos hin, ahead_cons hc, if_pos hhere, Option.bind_some, hx, hy]
    · have hnone : cell (x + 8 * k) y c fg bg p = none := if_neg fun h => hhere (hcell h).2
      unfold Layer.atop
      rw [hnone, Option.or_none]
      unfold pageFrom
      rw [if_pos hin, if_pos hin, ahead_cons hc, if_neg hhere]
  · have hnone : cell (x + 8 * k) y c fg bg p = none := if_neg fun h => hin (hcell h).1
    unfold Layer.atop
    rw [hnone, Option.or_none]
    unfold pageFrom
    rw [if_neg hin, if_neg hin]

/-- No coordinate of the text overflows, nor the cursor. -/
def TextFits (x y : Int) (s : List UInt8) : Prop := Span x (8 * s.length + 8) ∧ Span y (10 * s.length + 10)

theorem draw_rest_paints (hg : Framed g) (hx : Span x (8 * (k + s.length) + 8)) (hy : Span y (10 * s.length + 10)) :
    Paints g m (draw_rest g x fg bg s (x + 8 * k) y m) (pageFrom x y s fg bg k) := by
  induction s generalizing y k m with
  | nil =>
    refine Paints.refl.congr fun p _ => ?_
    unfold pageFrom ahead charAt
    rw [List.splitOn_nil]
    cases ((p.2 - y) / 10).toNat <;> simp [Layer.clear]
  | cons c s ih =>
    obtain ⟨⟨hx1, hx2⟩, hx3⟩ := hx
    obtain ⟨⟨hy1, hy2⟩, hy3⟩ := hy
    rw [List.length_cons] at hx3 hy3
    push_cast at hx3 hy3
    rw [draw_rest]
    by_cases hnl : c = 10
    · subst hnl
      have hrest := ih (y := y + 10) (k := 0) (m := m) ⟨⟨hx1, hx2⟩, by push_cast; omega⟩ ⟨⟨by omega, by omega⟩, by omega⟩
      rw [if_pos rfl]
      rw [Nat.cast_zero, mul_zero, add_zero] at hrest
      exact hrest.congr fun p _ => (pageFrom_newline p).symm
    · rw [if_neg hnl, show x + 8 * (k : Int) + 8 = x + 8 * ((k + 1 : Nat) : Int) by push_cast; ring]
      have hchar : Paints g m (fb_draw_char g (x + 8 * k) y c fg bg m) (cell (x + 8 * k) y c fg bg) :=
        char_paints hg ⟨⟨by omega, by omega⟩, by omega⟩ ⟨⟨hy1, hy2⟩, by omega⟩
      refine (hchar.trans (ih ⟨⟨hx1, hx2⟩, by push_cast; omega⟩ ⟨⟨hy1, hy2⟩, by omega⟩)).congr fun p _ => ?_
      exact (pageFrom_cons hnl p).symm

theorem string_paints (hg : Framed g) (hfits : TextFits x y s) :
    Paints g m (fb_draw_string g x y s fg bg m) (page x y s fg bg) := by
  have h : Paints g m (draw_rest g x fg bg s (x + 8 * (0 : Nat)) y m) (pageFrom x y s fg bg 0) :=
    draw_rest_paints hg (by simpa using hfits.1) hfits.2
  rw [Nat.cast_zero, mul_zero, add_zero] at h
  refine h.congr fun p _ => ?_
  unfold pageFrom page ahead
  by_cases hrow : ((p.2 - y) / 10).toNat = 0
  · simp [hrow]
  · simp [hrow]

end

end H3OS.Framebuffer.Paint
