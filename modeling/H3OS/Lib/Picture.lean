import Mathlib
/-!
# Pictures in layers

A picture has a colour at every point, a layer only at some and is clear at
the others. Where several layers lie on a picture, the colour of a point is that
of the topmost layer that is not clear there. A loop that lays one layer a
turn lays their stack; its points are found from the turn that may
paint them.
-/

namespace SysLib

/-- A colour at some points. -/
abbrev Layer (α β : Type*) := α → Option β

namespace Layer

variable {α β : Type*} {f : α → β} {p : α} {c : β}

/-- Nothing at all. -/
def clear : Layer α β := fun _ => none

/-- One layer on top of another. -/
def atop (top bottom : Layer α β) : Layer α β := fun p => (top p).or (bottom p)

/-- A layer on a picture. -/
def on (l : Layer α β) (f : α → β) : α → β := fun p => (l p).getD (f p)

/-- One colour on the points of a shape. -/
def shape (P : α → Prop) [DecidablePred P] (c : β) : Layer α β := fun p => if P p then some c else none

/-- The layers of a list, the first one at the bottom. -/
def stack : List (Layer α β) → Layer α β
  | [] => clear
  | l :: ls => (stack ls).atop l

section
variable {l t b : Layer α β} {ls ms : List (Layer α β)}

@[simp] theorem clear_atop : clear.atop l = l := rfl

@[simp] theorem atop_clear : l.atop clear = l := by
  funext p
  exact Option.or_none

theorem atop_assoc (t l b : Layer α β) : (t.atop l).atop b = t.atop (l.atop b) := by
  funext p
  exact Option.or_assoc

@[simp] theorem clear_on : (clear : Layer α β).on f = f := rfl

/-- What is laid last is seen through nothing. -/
theorem atop_on : (t.atop b).on f = t.on (b.on f) := by
  funext p
  unfold on atop
  cases t p with
  | none => rfl
  | some c => rfl

theorem on_of_some (h : l p = some c) : l.on f p = c := by
  unfold on
  rw [h, Option.getD_some]

theorem on_of_none (h : l p = none) : l.on f p = f p := by
  unfold on
  rw [h, Option.getD_none]

theorem atop_of_some (h : t p = some c) : t.atop b p = some c := by
  unfold atop
  rw [h, Option.some_or]

theorem atop_of_none (h : t p = none) : t.atop b p = b p := by
  unfold atop
  rw [h, Option.none_or]

/-- Where a layer is not clear, what was there before does not matter. -/
theorem on_congr {g : α → β} (h : l p ≠ none ∨ f p = g p) : l.on f p = l.on g p := by
  unfold on
  cases hl : l p with
  | none => exact h.resolve_left (absurd hl)
  | some c => rfl

/-! ## Shapes -/

section
variable {P Q : α → Prop} [DecidablePred P] [DecidablePred Q]

theorem shape_of (h : P p) : shape P c p = some c := if_pos h

theorem shape_not (h : ¬ P p) : shape P c p = none := if_neg h

theorem shape_eq_none : shape P c p = none ↔ ¬ P p := by
  unfold shape
  split_ifs with h <;> simp [h]

/-- Two shapes of one colour are one shape. -/
theorem shape_atop : (shape P c).atop (shape Q c) p = if P p ∨ Q p then some c else none := by
  unfold atop shape
  by_cases hp : P p
  · simp [hp]
  · simp [hp]

theorem shape_congr (h : P p ↔ Q p) : shape P c p = shape Q c p := by
  unfold shape
  simp only [h]

end

/-! ## Stacks -/

@[simp] theorem stack_nil : stack ([] : List (Layer α β)) = clear := rfl

theorem stack_cons : stack (l :: ls) = (stack ls).atop l := rfl

@[simp] theorem stack_append : stack (ls ++ ms) = (stack ms).atop (stack ls) := by
  induction ls with
  | nil => exact atop_clear.symm
  | cons l ls ih => rw [List.cons_append, stack_cons, ih, stack_cons, atop_assoc]

theorem stack_concat : stack (ls ++ [l]) = l.atop (stack ls) := stack_append

theorem stack_eq_none : stack ls p = none ↔ ∀ l ∈ ls, l p = none := by
  induction ls with
  | nil => simp [clear]
  | cons l ls ih => simp [stack_cons, atop, ih, and_comm]

/-- Shapes of one colour, however many and in whatever order, are one shape. -/
theorem stack_shapes {n : Nat} {P : Nat → α → Prop} [∀ i, DecidablePred (P i)] {Q : α → Prop} [DecidablePred Q]
    (h : Q p ↔ ∃ i < n, P i p) : stack ((List.range n).map fun i => shape (P i) c) p = shape Q c p := by
  induction n generalizing Q with
  | zero =>
    rw [shape_not fun hq => absurd (h.1 hq) (by simp)]
    rfl
  | succ n ih =>
    classical
    have hlast : Q p ↔ P n p ∨ ∃ i < n, P i p := by
      rw [h]
      constructor
      · rintro ⟨i, hi, hp⟩
        rcases Nat.lt_succ_iff_lt_or_eq.1 hi with hi | rfl
        · exact .inr ⟨i, hi, hp⟩
        · exact .inl hp
      · rintro (hp | ⟨i, hi, hp⟩)
        · exact ⟨n, Nat.lt_succ_self n, hp⟩
        · exact ⟨i, Nat.lt_succ_of_lt hi, hp⟩
    rw [List.range_succ, List.map_append, List.map_singleton, stack_concat]
    unfold atop
    rw [ih (Q := fun p => ∃ i < n, P i p) Iff.rfl]
    exact shape_atop.trans (if_congr hlast.symm rfl rfl)

/-- A point that only the turn `k` may paint. -/
theorem stack_range {n k : Nat} {ly : Nat → Layer α β} (h : ∀ i < n, i ≠ k → ly i p = none) :
    stack ((List.range n).map ly) p = if k < n then ly k p else none := by
  induction n with
  | zero => rfl
  | succ n ih =>
    have ih := ih fun i hi => h i (by omega)
    rw [List.range_succ, List.map_append, List.map_singleton, stack_concat]
    by_cases hk : n = k
    · rw [← hk, if_neg (lt_irrefl n)] at ih
      rw [← hk, if_pos (by omega)]
      unfold atop
      rw [ih, Option.or_none]
    · rw [atop_of_none (h n (by omega) hk), ih]
      simp only [show k < n ↔ k < n + 1 by omega]

end

end Layer

end SysLib
