import Mathlib
/-!
# Forests with parent pointers

Nodes with a list of kids each, where every kid's parent pointer leads back
and goes down in rank. Ancestors of a node are then linearly ordered, so two
kids of one node share no descendant, and the preorder walk passes every node
at most once.
-/

namespace SysLib

variable {α : Type*}

/-- `a` is `x` or above it. -/
inductive Anc (parent : α → Option α) : α → α → Prop
  | refl (x : α) : Anc parent x x
  | up {x p a : α} (hp : parent x = some p) (h : Anc parent p a) : Anc parent x a

section
variable {parent : α → Option α} {x y a b : α}

theorem Anc.trans (h₁ : Anc parent x a) (h₂ : Anc parent a b) : Anc parent x b := by
  induction h₁ with
  | refl _ => exact h₂
  | up hp _ ih => exact .up hp (ih h₂)

/-- The ancestors of a node are in line. -/
theorem Anc.linear (h₁ : Anc parent x a) (h₂ : Anc parent x b) : Anc parent a b ∨ Anc parent b a := by
  induction h₁ with
  | refl _ => exact .inl h₂
  | up hp h ih =>
    cases h₂ with
    | refl _ => exact .inr (.up hp h)
    | up hq h₂ =>
      cases Option.some.inj (hp.symm.trans hq)
      exact ih h₂

variable {rank : α → Nat} (hr : ∀ x p, parent x = some p → rank p < rank x)
include hr

theorem Anc.rank_le (h : Anc parent x a) : rank a ≤ rank x := by
  induction h with
  | refl _ => exact le_refl _
  | up hp _ ih => exact ih.trans (hr _ _ hp).le

/-- Of two nodes with one parent, neither is above the other. -/
theorem Anc.eq_of_siblings {p : α} (hx : parent x = some p) (hy : parent y = some p) (h : Anc parent x y) : x = y := by
  cases h with
  | refl _ => rfl
  | up hq h =>
    cases Option.some.inj (hx.symm.trans hq)
    exact absurd (h.rank_le hr) (not_le.2 (hr y p hy))

end

/-- The nodes below `x` in preorder, to a given depth. -/
def preorder (kids : α → List α) : Nat → α → List α
  | 0, _ => []
  | fuel + 1, x => x :: (kids x).flatMap (preorder kids fuel)

section
variable {kids : α → List α} {parent : α → Option α} {fuel : Nat} {x y : α}
  (hk : ∀ x, ∀ c ∈ kids x, parent c = some x)
include hk

theorem anc_of_mem_preorder (h : y ∈ preorder kids fuel x) : Anc parent y x := by
  induction fuel generalizing x with
  | zero => simp [preorder] at h
  | succ fuel ih =>
    rcases List.mem_cons.1 h with rfl | h
    · exact .refl _
    · obtain ⟨c, hc, h⟩ := List.mem_flatMap.1 h
      exact (ih h).trans (.up (hk x c hc) (.refl x))

variable {rank : α → Nat} (hr : ∀ x p, parent x = some p → rank p < rank x) (hn : ∀ x, (kids x).Nodup)
include hr

/-- The preorder walk passes no node twice. -/
theorem preorder_nodup (fuel : Nat) (x : α) (hn : ∀ x, (kids x).Nodup) : (preorder kids fuel x).Nodup := by
  induction fuel generalizing x with
  | zero => exact List.nodup_nil
  | succ fuel ih =>
    refine List.nodup_cons.2 ⟨fun h => ?_, List.nodup_flatMap.2 ⟨fun c _ => ih c, ?_⟩⟩
    · -- a node below a kid of `x` ranks above `x`
      obtain ⟨c, hc, h⟩ := List.mem_flatMap.1 h
      exact absurd ((anc_of_mem_preorder hk h).rank_le hr) (not_le.2 (hr c x (hk x c hc)))
    · refine (hn x).imp_of_mem ?_
      intro c d hc hd hcd y hyc hyd
      have hcx := hk x c hc
      have hdx := hk x d hd
      rcases (anc_of_mem_preorder hk hyc).linear (anc_of_mem_preorder hk hyd) with h | h
      · exact hcd (h.eq_of_siblings hr hcx hdx)
      · exact hcd (h.eq_of_siblings hr hdx hcx).symm

/-- With fuel for every rank below a bound, the walk is closed under kids. -/
theorem preorder_kids {bound : Nat} (hb : ∀ x, ∀ c ∈ kids x, rank c < bound) (hf : bound ≤ rank x + fuel)
    (hy : y ∈ preorder kids fuel x) {c : α} (hc : c ∈ kids y) : c ∈ preorder kids fuel x := by
  induction fuel generalizing x with
  | zero => simp [preorder] at hy
  | succ fuel ih =>
    rcases List.mem_cons.1 hy with rfl | hy
    · refine List.mem_cons_of_mem _ (List.mem_flatMap.2 ⟨c, hc, ?_⟩)
      have h1 := hr c y (hk y c hc)
      have h2 := hb y c hc
      cases fuel with
      | zero => omega
      | succ fuel => exact List.mem_cons_self
    · obtain ⟨d, hd, hy⟩ := List.mem_flatMap.1 hy
      have h1 := hr d x (hk x d hd)
      exact List.mem_cons_of_mem _ (List.mem_flatMap.2 ⟨d, hd, ih (by omega) hy⟩)

end

end SysLib
