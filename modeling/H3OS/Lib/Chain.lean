import Mathlib
/-!
# Intrusive linked lists

A list threaded through its own elements is a function `next` and a first
pointer. `Seg next p l q` says that following `next` from `p` passes the
elements of `l` in order and arrives at `q`; a list that ends in a null
pointer is a `Chain`. The walk is deterministic, so a pointer has at most one
chain, and an element cannot come twice in one.
-/

namespace SysLib

variable {α : Type*}

/-- Following `next` from `p` passes `l` and arrives at `q`. -/
def Seg (next : α → Option α) : Option α → List α → Option α → Prop
  | p, [], q => p = q
  | p, x :: l, q => p = some x ∧ Seg next (next x) l q

/-- Following `next` from `p` passes exactly `l` before the null pointer. -/
def Chain (next : α → Option α) (p : Option α) (l : List α) : Prop := Seg next p l none

section
variable {next next' : α → Option α} {p q r : Option α} {l l₁ l₂ : List α} {x : α}

@[simp] theorem seg_nil : Seg next p [] q ↔ p = q := Iff.rfl

@[simp] theorem seg_cons : Seg next p (x :: l) q ↔ p = some x ∧ Seg next (next x) l q := Iff.rfl

@[simp] theorem chain_nil : Chain next p [] ↔ p = none := Iff.rfl

@[simp] theorem chain_cons : Chain next p (x :: l) ↔ p = some x ∧ Chain next (next x) l := Iff.rfl

theorem seg_append : Seg next p (l₁ ++ l₂) q ↔ ∃ r, Seg next p l₁ r ∧ Seg next r l₂ q := by
  induction l₁ generalizing p with
  | nil => simp
  | cons y l₁ ih => simp only [List.cons_append, seg_cons, ih, and_assoc, exists_and_left]

theorem seg_concat : Seg next p (l ++ [x]) q ↔ Seg next p l (some x) ∧ next x = q := by
  rw [seg_append]
  constructor
  · rintro ⟨r, hl, rfl, hx⟩
    exact ⟨hl, hx⟩
  · rintro ⟨hl, hx⟩
    exact ⟨some x, hl, rfl, hx⟩

/-- A segment depends only on the links of its own elements. -/
theorem Seg.congr (h : Seg next p l q) (hn : ∀ y ∈ l, next' y = next y) : Seg next' p l q := by
  induction l generalizing p with
  | nil => exact h
  | cons y l ih =>
    refine ⟨h.1, ?_⟩
    rw [hn y (by simp)]
    exact ih h.2 (fun z hz => hn z (by simp [hz]))

/-- Changing a link outside the segment leaves it as it was. -/
theorem Seg.update [DecidableEq α] {v : Option α} (h : Seg next p l q) (hx : x ∉ l) :
    Seg (Function.update next x v) p l q :=
  h.congr (fun y hy => Function.update_of_ne (by rintro rfl; exact hx hy) _ _)

theorem Chain.congr (h : Chain next p l) (hn : ∀ y ∈ l, next' y = next y) : Chain next' p l := Seg.congr h hn

/-- A chain starts with any segment from the same pointer. -/
theorem Chain.split (h : Chain next p l) (hs : Seg next p l₁ r) : ∃ l₂, l = l₁ ++ l₂ ∧ Chain next r l₂ := by
  induction l₁ generalizing p l with
  | nil =>
    rw [seg_nil] at hs
    exact ⟨l, rfl, hs ▸ h⟩
  | cons y l₁ ih =>
    obtain ⟨rfl, hs⟩ := hs
    cases l with
    | nil => simp at h
    | cons z l =>
      obtain ⟨hz, h⟩ := h
      cases hz
      obtain ⟨l₂, rfl, h₂⟩ := ih h hs
      exact ⟨l₂, rfl, h₂⟩

theorem Chain.unique (h₁ : Chain next p l₁) (h₂ : Chain next p l₂) : l₁ = l₂ := by
  obtain ⟨l, rfl, hl⟩ := Chain.split h₁ h₂
  cases l with
  | nil => simp
  | cons y l => simp at hl

/-- An element that a chain passes is passed only once. -/
theorem Chain.nodup (h : Chain next p l) : l.Nodup := by
  induction l generalizing p with
  | nil => exact List.nodup_nil
  | cons x l ih =>
    refine List.nodup_cons.2 ⟨fun hx => ?_, ih h.2⟩
    -- the rest of the chain from the second visit would be the whole chain again
    obtain ⟨l₁, l₂, rfl⟩ := List.append_of_mem hx
    obtain ⟨r, -, rfl, hr⟩ := seg_append.1 h.2
    have e : x :: (l₁ ++ x :: l₂) = x :: l₂ := Chain.unique (p := some x) ⟨rfl, h.2⟩ ⟨rfl, hr⟩
    have := congrArg List.length e
    simp only [List.length_cons, List.length_append] at this
    omega

/-- A pointer whose walk enters a self-loop has no chain. -/
theorem Seg.no_chain (hs : Seg next p l₁ (some x)) (hx : next x = some x) : ¬ Chain next p l := by
  intro h
  obtain ⟨l₂, -, h₂⟩ := Chain.split h hs
  cases l₂ with
  | nil => simp at h₂
  | cons y l₂ =>
    obtain ⟨hy, h₂⟩ := h₂
    cases hy
    rw [hx] at h₂
    have e : x :: l₂ = l₂ := Chain.unique (p := some x) ⟨rfl, by rw [hx]; exact h₂⟩ h₂
    have := congrArg List.length e
    simp at this

end

end SysLib
