import H3OS.Lib.Line
/-!
# Drawing a line

`fb_draw_line` of `drivers/framebuffer/framebuffer.c`. The loop leaves only
where both coordinates are those of the far end, so that it ends at all rests
on its error variable. It is a pen whose sides are the distances along the
axes; the values of `err` and `e2` are kept as integers beside each pixel.
-/
open SysLib

namespace H3OS.Framebuffer

/-- A turn of the loop: the pixel it plots, and what `err` and `e2` hold in it. -/
structure Turn where
  x : Int
  y : Int
  values : List Int
deriving DecidableEq

/-- The loop; `none` if it is not over after `fuel` turns. -/
def line_loop (x1 y1 dx sx dy sy : Int) : Nat → Int → Int → Int → Option (List Turn)
  | 0, _, _, _ => none
  | fuel + 1, x0, y0, err =>
    if x0 = x1 ∧ y0 = y1 then some [⟨x0, y0, [err]⟩] else
    let e2 := 2 * err
    let err1 := if e2 ≥ dy then err + dy else err
    let err2 := if e2 ≤ dx then err1 + dx else err1
    (line_loop x1 y1 dx sx dy sy fuel (if e2 ≥ dy then x0 + sx else x0) (if e2 ≤ dx then y0 + sy else y0) err2).map
      (⟨x0, y0, [err, e2, err1, err2]⟩ :: ·)

def fb_draw_line (fuel : Nat) (x0 y0 x1 y1 : Int) : Option (List Turn) :=
  let dx := if x1 > x0 then x1 - x0 else x0 - x1
  let sx := if x0 < x1 then 1 else -1
  let dy := if y1 > y0 then y0 - y1 else y1 - y0
  let sy := if y0 < y1 then 1 else -1
  line_loop x1 y1 dx sx dy sy fuel x0 y0 (dx + dy)

/-- What is promised of the turns of a line. -/
structure Drawn (x0 y0 x1 y1 : Int) (ts : List Turn) : Prop where
  length : (ts.length : Int) = max |x1 - x0| |y1 - y0| + 1
  in_range : ∀ t ∈ ts, ∀ v ∈ t.values, -2 ^ 31 ≤ v ∧ v < 2 ^ 31
  last : (ts.getLast?.map fun t => (t.x, t.y)) = some (x1, y1)
  adjacent : ts.IsChain fun s t => |t.x - s.x| ≤ 1 ∧ |t.y - s.y| ≤ 1
  distinct : (ts.map fun t => (t.x, t.y)).Nodup
  boxed : ∀ t ∈ ts, min x0 x1 ≤ t.x ∧ t.x ≤ max x0 x1 ∧ min y0 y1 ≤ t.y ∧ t.y ≤ max y0 y1

/-! ## The loop is a pen -/

/-- The turn a pen stands for, from the start `x0`, `y0`. -/
def turnOf (x0 y0 sx sy : Int) (a b : Nat) (p : Pen) : Turn where
  x := x0 + sx * p.i
  y := y0 + sy * p.j
  values :=
    if p.i = a ∧ p.j = b then [p.err]
    else [p.err, 2 * p.err, p.err + (if -(b : Int) ≤ 2 * p.err then -(b : Int) else 0), (p.turn a b).err]

/-- The turns from the `n`-th to the far end. -/
def turnsFrom (x0 y0 sx sy : Int) (a b n : Nat) : List Turn :=
  (List.range' n (max a b + 1 - n)).map fun k => turnOf x0 y0 sx sy a b (Pen.after a b k)

section
variable {x0 y0 x1 y1 sx sy : Int} {a b n : Nat}

/-- A step of one either way along an axis. -/
theorem unit_mul_inj (hs : sx = 1 ∨ sx = -1) {i j : Nat} : x0 + sx * i = x0 + sx * j ↔ i = j := by
  rcases hs with rfl | rfl <;> omega

/-- The loop at a pen: it is at the far end, or it turns. -/
theorem line_loop_turn (hx : sx = 1 ∨ sx = -1) (hy : sy = 1 ∨ sy = -1) (fuel : Nat) (p : Pen) :
    line_loop (x0 + sx * a) (y0 + sy * b) a sx (-b) sy (fuel + 1) (x0 + sx * p.i) (y0 + sy * p.j) p.err =
    if p.i = a ∧ p.j = b then some [turnOf x0 y0 sx sy a b p]
    else (line_loop (x0 + sx * a) (y0 + sy * b) a sx (-b) sy fuel (x0 + sx * (p.turn a b).i) (y0 + sy * (p.turn a b).j)
      (p.turn a b).err).map (turnOf x0 y0 sx sy a b p :: ·) := by
  rw [line_loop]
  by_cases hfar : p.i = a ∧ p.j = b
  · rw [if_pos hfar, if_pos ⟨(unit_mul_inj hx).2 hfar.1, (unit_mul_inj hy).2 hfar.2⟩]
    simp [turnOf, hfar]
  · have hfar' : ¬ (x0 + sx * p.i = x0 + sx * a ∧ y0 + sy * p.j = y0 + sy * b) := fun h =>
      hfar ⟨(unit_mul_inj hx).1 h.1, (unit_mul_inj hy).1 h.2⟩
    have hleft : (if 2 * p.err ≥ -(b : Int) then x0 + sx * p.i + sx else x0 + sx * p.i) = x0 + sx * (p.turn a b).i := by
      dsimp only [Pen.turn]
      split_ifs <;> push_cast <;> ring
    have hup : (if 2 * p.err ≤ a then y0 + sy * p.j + sy else y0 + sy * p.j) = y0 + sy * (p.turn a b).j := by
      dsimp only [Pen.turn]
      split_ifs <;> push_cast <;> ring
    have herr1 : (if 2 * p.err ≥ -(b : Int) then p.err + -b else p.err) =
        p.err + (if -(b : Int) ≤ 2 * p.err then -(b : Int) else 0) := by
      split_ifs <;> ring
    have herr2 : (if 2 * p.err ≤ a then p.err + (if -(b : Int) ≤ 2 * p.err then -(b : Int) else 0) + a
        else p.err + (if -(b : Int) ≤ 2 * p.err then -(b : Int) else 0)) = (p.turn a b).err := by
      dsimp only [Pen.turn]
      split_ifs <;> ring
    have hturn : turnOf x0 y0 sx sy a b p = ⟨x0 + sx * p.i, y0 + sy * p.j,
        [p.err, 2 * p.err, p.err + (if -(b : Int) ≤ 2 * p.err then -(b : Int) else 0), (p.turn a b).err]⟩ := by
      unfold turnOf
      rw [if_neg hfar]
    rw [if_neg hfar, if_neg hfar']
    dsimp only
    rw [hleft, hup, herr1, herr2, hturn]

/-- From the `n`-th turn on the loop makes the turns up to the far end, if it has fuel for them. -/
theorem line_loop_eq (x0 y0 : Int) (hx : sx = 1 ∨ sx = -1) (hy : sy = 1 ∨ sy = -1) (fuel : Nat) (hn : n ≤ max a b) :
    line_loop (x0 + sx * a) (y0 + sy * b) a sx (-b) sy fuel (x0 + sx * (Pen.after a b n).i)
      (y0 + sy * (Pen.after a b n).j) (Pen.after a b n).err =
    if max a b - n < fuel then some (turnsFrom x0 y0 sx sy a b n) else none := by
  induction fuel generalizing n with
  | zero => rfl
  | succ fuel ih =>
    rw [line_loop_turn hx hy]
    by_cases hend : n = max a b
    · have hfar := Pen.after_far_end a b
      rw [hend, if_pos hfar, if_pos (by omega)]
      simp [turnsFrom]
    · have hfar : ¬ ((Pen.after a b n).i = a ∧ (Pen.after a b n).j = b) := by
        rintro ⟨hi, hj⟩
        obtain ⟨hi', hj'⟩ := Pen.after_far_end a b
        exact hend (Pen.after_inj (hi.trans hi'.symm) (hj.trans hj'.symm))
      have hcons : turnsFrom x0 y0 sx sy a b n =
          turnOf x0 y0 sx sy a b (Pen.after a b n) :: turnsFrom x0 y0 sx sy a b (n + 1) := by
        unfold turnsFrom
        rw [show max a b + 1 - n = max a b + 1 - (n + 1) + 1 by omega, List.range'_succ, List.map_cons]
      have ih := ih (show n + 1 ≤ max a b by omega)
      rw [Pen.after] at ih
      rw [if_neg hfar, ih, hcons]
      by_cases hfuel : max a b - (n + 1) < fuel
      · rw [if_pos hfuel, if_pos (by omega), Option.map_some]
      · rw [if_neg hfuel, if_neg (by omega), Option.map_none]

/-! ## The turns of a line -/

theorem turnsFrom_length : (turnsFrom x0 y0 sx sy a b 0).length = max a b + 1 := by
  simp [turnsFrom]

theorem mem_turnsFrom {t : Turn} (h : t ∈ turnsFrom x0 y0 sx sy a b 0) :
    ∃ n ≤ max a b, t = turnOf x0 y0 sx sy a b (Pen.after a b n) := by
  obtain ⟨n, hn, rfl⟩ := List.mem_map.1 h
  rw [List.mem_range'_1] at hn
  exact ⟨n, by omega, rfl⟩

/-- Whatever the error variable holds stays below three times the longer side. -/
theorem turnOf_values {p : Pen} (h : Pen.OnWay a b p) : ∀ v ∈ (turnOf x0 y0 sx sy a b p).values, |v| ≤ 3 * max a b := by
  have herr := h.err_bound
  have hmin := neg_abs_le p.err
  have hmax := le_abs_self p.err
  have hfirst : |p.err + (if -(b : Int) ≤ 2 * p.err then -(b : Int) else 0)| ≤ 3 * max a b := by
    rw [abs_le]
    split_ifs <;> omega
  have hturn : |(p.turn a b).err| ≤ 3 * max a b := by
    dsimp only [Pen.turn]
    rw [abs_le]
    split_ifs <;> omega
  have htwice : |2 * p.err| ≤ 3 * max a b := by
    rw [abs_le]
    omega
  intro v hv
  unfold turnOf at hv
  by_cases hfar : p.i = a ∧ p.j = b
  · rw [if_pos hfar, List.mem_singleton] at hv
    rw [hv]
    omega
  · rw [if_neg hfar] at hv
    simp only [List.mem_cons, List.not_mem_nil, or_false] at hv
    rcases hv with rfl | rfl | rfl | rfl
    · omega
    · exact htwice
    · exact hfirst
    · exact hturn

/-- A pen on its way is between the start and the far end. -/
theorem between (x0 : Int) (hs : sx = 1 ∨ sx = -1) {i : Nat} (h : i ≤ a) :
    min x0 (x0 + sx * a) ≤ x0 + sx * i ∧ x0 + sx * i ≤ max x0 (x0 + sx * a) := by
  rcases hs with rfl | rfl <;> omega

/-- A turn takes at most one step along an axis. -/
theorem adjacent_turn (hs : sx = 1 ∨ sx = -1) {i : Nat} {c : Prop} [Decidable c] :
    |x0 + sx * ((i + if c then 1 else 0 : Nat) : Int) - (x0 + sx * i)| ≤ 1 := by
  rw [abs_le]
  rcases hs with rfl | rfl <;> split_ifs <;> push_cast <;> constructor <;> omega

theorem turnsFrom_drawn (x0 y0 : Int) (hx : sx = 1 ∨ sx = -1) (hy : sy = 1 ∨ sy = -1) (ha : a < 2 ^ 29) (hb : b < 2 ^ 29) :
    Drawn x0 y0 (x0 + sx * a) (y0 + sy * b) (turnsFrom x0 y0 sx sy a b 0) := by
  have habs : ∀ {s : Int} {k : Nat}, s = 1 ∨ s = -1 → |s * k| = k := by
    rintro s k (rfl | rfl) <;> simp
  refine ⟨?_, ?_, ?_, ?_, ?_, ?_⟩
  · rw [turnsFrom_length, add_sub_cancel_left, add_sub_cancel_left, habs hx, habs hy]
    push_cast
    rfl
  · intro t ht v hv
    obtain ⟨n, hn, rfl⟩ := mem_turnsFrom ht
    have hle := turnOf_values (Pen.onWay_after hn) v hv
    rw [abs_le] at hle
    constructor <;> omega
  · obtain ⟨hi, hj⟩ := Pen.after_far_end a b
    unfold turnsFrom
    rw [Nat.sub_zero, List.range'_concat]
    simp [turnOf, hi, hj]
  · unfold turnsFrom
    rw [List.isChain_map]
    refine (List.isChain_range' 0 _ 1).imp ?_
    rintro n _ rfl
    exact ⟨adjacent_turn hx, adjacent_turn hy⟩
  · unfold turnsFrom
    rw [List.map_map]
    refine (List.nodup_range' (s := 0) (n := max a b + 1 - 0)).map ?_
    intro n m h
    obtain ⟨h1, h2⟩ := Prod.mk.inj h
    exact Pen.after_inj ((unit_mul_inj hx).1 h1) ((unit_mul_inj hy).1 h2)
  · intro t ht
    obtain ⟨n, hn, rfl⟩ := mem_turnsFrom ht
    have hway := Pen.onWay_after hn
    obtain ⟨h1, h2⟩ := between x0 hx hway.i_le
    obtain ⟨h3, h4⟩ := between y0 hy hway.j_le
    exact ⟨h1, h2, h3, h4⟩

/-- The distance along an axis and the way to go, as the code works them out. -/
theorem axis_eq (x0 x1 : Int) : ∃ a : Nat, (a : Int) = |x1 - x0| ∧ (if x1 > x0 then x1 - x0 else x0 - x1) = a ∧
    (if x1 > x0 then x0 - x1 else x1 - x0) = -a ∧ x1 = x0 + (if x0 < x1 then 1 else -1) * a := by
  refine ⟨(x1 - x0).natAbs, Int.natCast_natAbs _, ?_, ?_, ?_⟩ <;> split_ifs <;> omega

theorem way_eq (x0 x1 : Int) : (if x0 < x1 then (1 : Int) else -1) = 1 ∨ (if x0 < x1 then (1 : Int) else -1) = -1 := by
  split_ifs
  · exact .inl rfl
  · exact .inr rfl

end

/-- The loop of a line is over after as many turns as the longer distance and one more, not before, and its turns keep
the promise. -/
theorem fb_draw_line_reaches (x0 y0 x1 y1 : Int) (hx : |x1 - x0| < 2 ^ 29) (hy : |y1 - y0| < 2 ^ 29) :
    ∃ ts, Drawn x0 y0 x1 y1 ts ∧
      ∀ fuel, fb_draw_line fuel x0 y0 x1 y1 = if max |x1 - x0| |y1 - y0| < fuel then some ts else none := by
  obtain ⟨a, ha, hdx, -, hx1⟩ := axis_eq x0 x1
  obtain ⟨b, hb, -, hdy, hy1⟩ := axis_eq y0 y1
  refine ⟨turnsFrom x0 y0 (if x0 < x1 then 1 else -1) (if y0 < y1 then 1 else -1) a b 0, ?_, fun fuel => ?_⟩
  · have hdrawn := turnsFrom_drawn x0 y0 (way_eq x0 x1) (way_eq y0 y1)
      (show a < 2 ^ 29 by omega) (show b < 2 ^ 29 by omega)
    rwa [← hx1, ← hy1] at hdrawn
  · have hloop := line_loop_eq x0 y0 (way_eq x0 x1) (way_eq y0 y1) fuel (Nat.zero_le (max a b))
    rw [← hx1, ← hy1] at hloop
    simp only [Pen.after, Nat.cast_zero, mul_zero, add_zero, sub_eq_add_neg] at hloop
    unfold fb_draw_line
    dsimp only
    rw [hdx, hdy, hloop, ← ha, ← hb]
    congr 1
    simp only [eq_iff_iff]
    omega

/-- A line down and to the left. -/
theorem fb_draw_line_reaches_down : ∃ ts, Drawn 5 12 0 0 ts ∧ ∀ fuel, fb_draw_line fuel 5 12 0 0 =
    if max |(0 : Int) - 5| |(0 : Int) - 12| < fuel then some ts else none :=
  fb_draw_line_reaches 5 12 0 0 (by decide) (by decide)

end H3OS.Framebuffer
