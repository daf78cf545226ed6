import H3OS.Lib.Memory
/-!
# Tilings of an interval

Pieces with a start and an end tile `[a, e)` when the first starts at `a`,
each starts where the one before it ends, and the last ends at `e`. Pieces of
one tiling do not overlap, and a run of pieces may be cut or joined as long
as it covers the same interval.
-/

namespace SysLib

variable {α : Type*}

/-- `l` tiles `[a, e)`. -/
def Tiles (start stop : α → Nat) : Nat → List α → Nat → Prop
  | a, [], e => a = e
  | a, x :: l, e => start x = a ∧ Tiles start stop (stop x) l e

section
variable {start stop : α → Nat} {a e : Nat} {x : α} {l l₁ l₂ l₃ mid : List α}

@[simp] theorem tiles_nil : Tiles start stop a [] e ↔ a = e := Iff.rfl

@[simp] theorem tiles_cons : Tiles start stop a (x :: l) e ↔ start x = a ∧ Tiles start stop (stop x) l e := Iff.rfl

theorem tiles_append : Tiles start stop a (l₁ ++ l₂) e ↔ ∃ b, Tiles start stop a l₁ b ∧ Tiles start stop b l₂ e := by
  induction l₁ generalizing a with
  | nil => simp
  | cons x l₁ ih => simp only [List.cons_append, tiles_cons, ih, and_assoc, exists_and_left]

/-- A run of pieces may be replaced by one that covers the same interval. -/
theorem Tiles.replace (l₂ : List α) (h : Tiles start stop a (l₁ ++ mid ++ l₃) e)
    (hm : ∀ b c, Tiles start stop b mid c → Tiles start stop b l₂ c) : Tiles start stop a (l₁ ++ l₂ ++ l₃) e := by
  obtain ⟨c, h12, h3⟩ := tiles_append.1 h
  obtain ⟨b, h1, h2⟩ := tiles_append.1 h12
  exact tiles_append.2 ⟨c, tiles_append.2 ⟨b, h1, hm b c h2⟩, h3⟩

/-- A tiling seen through the starts of its pieces. -/
theorem Tiles.starts {f : Nat → Nat} (h : Tiles start stop a l e) (hf : ∀ x ∈ l, f (start x) = stop x) :
    Tiles id f a (l.map start) e := by
  induction l generalizing a with
  | nil => exact h
  | cons x l ih =>
    refine ⟨h.1, ?_⟩
    rw [hf x (by simp)]
    exact ih h.2 (fun y hy => hf y (by simp [hy]))

variable (hle : ∀ x, start x ≤ stop x)
include hle

theorem Tiles.le (h : Tiles start stop a l e) : a ≤ e := by
  induction l generalizing a with
  | nil => exact h.le
  | cons x l ih =>
    obtain ⟨rfl, hl⟩ := h
    exact (hle x).trans (ih hl)

/-- Every piece lies in the interval. -/
theorem Tiles.bounds (h : Tiles start stop a l e) : ∀ x ∈ l, a ≤ start x ∧ stop x ≤ e := by
  induction l generalizing a with
  | nil => simp
  | cons y l ih =>
    obtain ⟨rfl, hl⟩ := h
    intro x hx
    rcases List.mem_cons.1 hx with rfl | hx
    · exact ⟨le_refl _, hl.le hle⟩
    · exact ⟨(hle y).trans (ih hl x hx).1, (ih hl x hx).2⟩

/-- An earlier piece ends before a later one starts. -/
theorem Tiles.ordered (h : Tiles start stop a l e) : l.Pairwise (fun x y => stop x ≤ start y) := by
  induction l generalizing a with
  | nil => exact .nil
  | cons x l ih => exact .cons (fun y hy => (h.2.bounds hle y hy).1) (ih h.2)

end

end SysLib
