import Mathlib
/-!
# Lines by accumulated error

A pen goes from the origin to a point `a` to the right and `b` up, along each
axis by at most one at a time. What it does in a turn depends on an error
only, which each step along an axis moves by the length of the other. The
error stays near zero, so the pen takes a step along the longer axis in every
turn and meets the far end exactly.
-/

namespace SysLib

/-- The error of a pen and the steps it has taken along each axis. -/
@[ext] structure Pen where
  err : Int
  i : Nat
  j : Nat

namespace Pen

/-- One turn; both tests look at the error before it. -/
def turn (a b : Nat) (p : Pen) : Pen where
  err := p.err + (if -(b : Int) ≤ 2 * p.err then -(b : Int) else 0) + (if 2 * p.err ≤ a then (a : Int) else 0)
  i := p.i + (if -(b : Int) ≤ 2 * p.err then 1 else 0)
  j := p.j + (if 2 * p.err ≤ a then 1 else 0)

/-- The pen after `n` turns. -/
def after (a b : Nat) : Nat → Pen
  | 0 => ⟨a - b, 0, 0⟩
  | n + 1 => turn a b (after a b n)

/-- The same pen with the axes exchanged. -/
def swap (p : Pen) : Pen := ⟨-p.err, p.j, p.i⟩

section
variable {a b n : Nat} {p : Pen}

theorem swap_turn (a b : Nat) (p : Pen) : (turn a b p).swap = turn b a p.swap := by
  have hx : -(b : Int) ≤ 2 * p.err ↔ 2 * -p.err ≤ b := by omega
  have hy : 2 * p.err ≤ a ↔ -(a : Int) ≤ 2 * -p.err := by omega
  unfold turn swap
  simp only [hx, hy]
  ext
  · dsimp only
    split_ifs <;> omega
  · rfl
  · rfl

theorem swap_after (a b n : Nat) : (after a b n).swap = after b a n := by
  induction n with
  | zero => simp [after, swap]
  | succ n ih => rw [after, after, swap_turn, ih]

/-! ## Along the longer axis -/

/-- A pen after `n` turns when `a` is the longer side: it has taken every step along that axis. -/
structure Steady (a b n : Nat) (p : Pen) : Prop where
  steps : p.i = n
  err_eq : p.err = a * (p.j + 1) - b * (p.i + 1)
  low : -(b : Int) ≤ 2 * p.err
  high : 2 * p.err ≤ 3 * a - 2 * b

theorem Steady.turn (h : Steady a b n p) (hab : b ≤ a) : Steady a b (n + 1) (turn a b p) := by
  have hlow := h.low
  have hhigh := h.high
  by_cases hy : 2 * p.err ≤ a
  · have heq : Pen.turn a b p = ⟨p.err - b + a, p.i + 1, p.j + 1⟩ := by
      simp [Pen.turn, hlow, hy, sub_eq_add_neg]
    rw [heq]
    refine ⟨congrArg (· + 1) h.steps, ?_, ?_, ?_⟩
    · rw [h.err_eq]
      push_cast
      ring
    · dsimp only
      omega
    · dsimp only
      omega
  · have heq : Pen.turn a b p = ⟨p.err - b, p.i + 1, p.j⟩ := by
      simp [Pen.turn, hlow, hy, sub_eq_add_neg]
    rw [heq]
    refine ⟨congrArg (· + 1) h.steps, ?_, ?_, ?_⟩
    · rw [h.err_eq]
      push_cast
      ring
    · dsimp only
      omega
    · dsimp only
      omega

theorem steady_after (hab : b ≤ a) (n : Nat) : Steady a b n (after a b n) := by
  induction n with
  | zero =>
    refine ⟨rfl, ?_, ?_, ?_⟩
    · simp [after]
    · dsimp only [after]
      omega
    · dsimp only [after]
      omega
  | succ n ih => exact ih.turn hab

/-- Up to the far end the pen does not go above it. -/
theorem Steady.j_le (h : Steady a b n p) (hn : n ≤ a) (ha : 0 < a) : p.j ≤ b := by
  by_contra hj
  have hhigh := h.high
  rw [h.err_eq, h.steps] at hhigh
  have hnb : (b : Int) * n ≤ b * a := by
    exact_mod_cast Nat.mul_le_mul_left b hn
  have hja : (a : Int) * (b + 1) ≤ a * p.j := by
    exact_mod_cast Nat.mul_le_mul_left a (show b + 1 ≤ p.j by omega)
  have hcomm : (b : Int) * a = a * b := mul_comm _ _
  -- more than `b` steps up would make the error too large
  simp only [mul_add, mul_one] at hhigh hja
  omega

/-- After as many turns as the longer side is long the pen is at the far end. -/
theorem Steady.j_eq (h : Steady a b a p) (ha : 0 < a) : p.j = b := by
  refine le_antisymm (h.j_le (le_refl a) ha) ?_
  by_contra hj
  have hlow := h.low
  rw [h.err_eq, h.steps] at hlow
  have hja : (a : Int) * (p.j + 1) ≤ a * b := by
    exact_mod_cast Nat.mul_le_mul_left a (show p.j + 1 ≤ b by omega)
  have hcomm : (b : Int) * a = a * b := mul_comm _ _
  simp only [mul_add, mul_one] at hlow hja
  omega

theorem Steady.err_bound (h : Steady a b n p) : 2 * |p.err| ≤ 3 * max a b := by
  have hlow := h.low
  have hhigh := h.high
  rcases abs_cases p.err with ⟨habs, -⟩ | ⟨habs, -⟩ <;> omega

/-! ## Along either axis -/

theorem after_i (hab : b ≤ a) (n : Nat) : (after a b n).i = n := (steady_after hab n).steps

theorem after_j (hab : a ≤ b) (n : Nat) : (after a b n).j = n := by
  rw [← swap_after]
  exact after_i hab n

/-- A pen on its way: inside the box, with a small error, and about to take a step. -/
structure OnWay (a b : Nat) (p : Pen) : Prop where
  i_le : p.i ≤ a
  j_le : p.j ≤ b
  err_bound : 2 * |p.err| ≤ 3 * max a b
  moves : -(b : Int) ≤ 2 * p.err ∨ 2 * p.err ≤ a

theorem Steady.onWay (h : Steady a b n p) (hn : n ≤ a) (ha : 0 < a) : OnWay a b p :=
  ⟨h.steps.trans_le hn, h.j_le hn ha, h.err_bound, .inl h.low⟩

theorem OnWay.swap (h : OnWay a b p) : OnWay b a p.swap where
  i_le := h.j_le
  j_le := h.i_le
  err_bound := by
    rw [max_comm]
    simpa [Pen.swap] using h.err_bound
  moves := by
    have := h.moves
    dsimp only [Pen.swap]
    omega

theorem onWay_after (hn : n ≤ max a b) : OnWay a b (after a b n) := by
  rcases Nat.eq_zero_or_pos (max a b) with h0 | hpos
  · have ha : a = 0 := by omega
    have hb : b = 0 := by omega
    have hn0 : n = 0 := by omega
    subst ha hb hn0
    exact ⟨le_refl 0, le_refl 0, by simp [after], by simp [after]⟩
  · rcases le_total b a with hab | hab
    · exact (steady_after hab n).onWay (by omega) (by omega)
    · rw [← swap_after]
      exact ((steady_after hab n).onWay (by omega) (by omega)).swap

/-- The pen meets the far end after as many turns as the longer side is long. -/
theorem after_far_end (a b : Nat) : (after a b (max a b)).i = a ∧ (after a b (max a b)).j = b := by
  rcases Nat.eq_zero_or_pos (max a b) with h0 | hpos
  · have ha : a = 0 := by omega
    have hb : b = 0 := by omega
    subst ha hb
    exact ⟨rfl, rfl⟩
  · rcases le_total b a with hab | hab
    · rw [max_eq_left hab] at hpos ⊢
      exact ⟨after_i hab a, (steady_after hab a).j_eq hpos⟩
    · rw [max_eq_right hab] at hpos ⊢
      refine ⟨?_, after_j hab b⟩
      rw [← swap_after]
      exact (steady_after hab b).j_eq hpos

/-- Pens at different turns are at different places. -/
theorem after_inj {m : Nat} (hi : (after a b n).i = (after a b m).i) (hj : (after a b n).j = (after a b m).j) : n = m := by
  rcases le_total b a with hab | hab
  · rwa [after_i hab, after_i hab] at hi
  · rwa [after_j hab, after_j hab] at hj

/-! ## Along the ideal line -/

/-- The place `i`, `j` is the one nearest to the line from the origin to `a`, `b` among those beside it across the longer
side. Of two at half a step the one ahead along the shorter side counts. -/
def Near (a b i j : Nat) : Prop :=
  i ≤ a ∧ j ≤ b ∧
    if b < a then -(a : Int) < 2 * (a * j - b * i) ∧ 2 * ((a : Int) * j - b * i) ≤ a
    else if a < b then -(b : Int) < 2 * (b * i - a * j) ∧ 2 * ((b : Int) * i - a * j) ≤ b
    else i = j

instance (a b i j : Nat) : Decidable (Near a b i j) := inferInstanceAs (Decidable (_ ∧ _))

theorem Near.swap {i j : Nat} (h : Near a b i j) : Near b a j i := by
  obtain ⟨hi, hj, hnear⟩ := h
  refine ⟨hj, hi, ?_⟩
  rcases lt_trichotomy a b with hab | rfl | hab
  · rw [if_neg (by omega), if_pos hab] at hnear
    rwa [if_pos hab]
  · rw [if_neg (lt_irrefl a), if_neg (lt_irrefl a)] at hnear ⊢
    exact hnear.symm
  · rw [if_pos hab] at hnear
    rwa [if_neg (by omega), if_pos hab]

theorem Near.close {i j : Nat} (h : Near a b i j) : 2 * |(a : Int) * j - b * i| ≤ max a b := by
  obtain ⟨-, -, hnear⟩ := h
  rcases lt_trichotomy a b with hab | rfl | hab
  · rw [if_neg (by omega), if_pos hab] at hnear
    rcases abs_cases ((a : Int) * j - b * i) with ⟨habs, -⟩ | ⟨habs, -⟩ <;> omega
  · rw [if_neg (lt_irrefl a), if_neg (lt_irrefl a)] at hnear
    simp [hnear]
  · rw [if_pos hab] at hnear
    rcases abs_cases ((a : Int) * j - b * i) with ⟨habs, -⟩ | ⟨habs, -⟩ <;> omega

/-- How far the pen is from the line, in units of one over the longer side. -/
theorem Steady.close (hab : b < a) (n : Nat) :
    -(a : Int) < 2 * (a * (after a b n).j - b * (after a b n).i) ∧
      2 * ((a : Int) * (after a b n).j - b * (after a b n).i) ≤ a := by
  induction n with
  | zero =>
    simp only [after]
    omega
  | succ n ih =>
    have h := steady_after hab.le n
    have hlow := h.low
    obtain ⟨ih1, ih2⟩ := ih
    -- the error is the distance that the next diagonal step would leave
    have herr : (after a b n).err = ((a : Int) * (after a b n).j - b * (after a b n).i) + a - b := by
      rw [h.err_eq]
      ring
    rw [after, Pen.turn, if_pos hlow, if_pos hlow]
    by_cases hup : 2 * (after a b n).err ≤ a
    · simp only [if_pos hup]
      push_cast
      constructor <;> linarith
    · simp only [if_neg hup]
      push_cast
      constructor <;> linarith

theorem diagonal_after (a n : Nat) : (after a a n).i = (after a a n).j := by
  rw [after_i (le_refl a), after_j (le_refl a)]

theorem near_after (hn : n ≤ max a b) : Near a b (after a b n).i (after a b n).j := by
  have hway := onWay_after hn
  refine ⟨hway.i_le, hway.j_le, ?_⟩
  rcases lt_trichotomy a b with hab | rfl | hab
  · rw [if_neg (by omega), if_pos hab, ← swap_after]
    exact Steady.close hab n
  · rw [if_neg (lt_irrefl a), if_neg (lt_irrefl a)]
    exact diagonal_after a n
  · rw [if_pos hab]
    exact Steady.close hab n

/-- Across the longer side there is one nearest place. -/
theorem Near.unique (hab : b ≤ a) {i j k : Nat} (hj : Near a b i j) (hk : Near a b i k) : j = k := by
  obtain ⟨-, -, hj⟩ := hj
  obtain ⟨-, -, hk⟩ := hk
  rcases hab.lt_or_eq with hlt | rfl
  · rw [if_pos hlt] at hj hk
    by_contra hne
    have hpos : (0 : Int) < a := by omega
    rcases Nat.lt_or_gt_of_ne hne with h | h
    · have hstep : (a : Int) * (j + 1) ≤ a * k := mul_le_mul_of_nonneg_left (by omega) hpos.le
      rw [mul_add, mul_one] at hstep
      omega
    · have hstep : (a : Int) * (k + 1) ≤ a * j := mul_le_mul_of_nonneg_left (by omega) hpos.le
      rw [mul_add, mul_one] at hstep
      omega
  · rw [if_neg (lt_irrefl b), if_neg (lt_irrefl b)] at hj hk
    exact hj.symm.trans hk

/-- The pen goes over the nearest places and no others. -/
theorem near_iff {i j : Nat} : Near a b i j ↔ ∃ n ≤ max a b, (after a b n).i = i ∧ (after a b n).j = j := by
  constructor
  · intro h
    rcases le_total b a with hab | hab
    · refine ⟨i, le_max_of_le_left h.1, after_i hab i, ?_⟩
      have hnear := near_after (show i ≤ max a b from le_max_of_le_left h.1)
      rw [after_i hab] at hnear
      exact hnear.unique hab h
    · refine ⟨j, le_max_of_le_right h.2.1, ?_, after_j hab j⟩
      have hnear := near_after (show j ≤ max a b from le_max_of_le_right h.2.1)
      rw [after_j hab] at hnear
      exact hnear.swap.unique hab h.swap
  · rintro ⟨n, hn, rfl, rfl⟩
    exact near_after hn

end

end Pen

end SysLib
