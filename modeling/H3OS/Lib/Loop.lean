import Mathlib
/-!
# Counting loops and runs

`forRange lo hi body s` is `for (i = lo; i < hi; i++) s = body(i, s)`. What
its body keeps, the loop keeps; what every step of a relation keeps holds
wherever its steps lead.
-/

namespace SysLib

variable {σ : Type*}

def forRange (lo hi : Nat) (body : Nat → σ → σ) (s : σ) : σ :=
  (List.range' lo (hi - lo)).foldl (fun s i => body i s) s

variable {lo hi : Nat} {body : Nat → σ → σ} {s : σ}

theorem forRange_of_le (h : hi ≤ lo) : forRange lo hi body s = s := by
  simp [forRange, Nat.sub_eq_zero_of_le h]

theorem forRange_succ (h : lo ≤ hi) : forRange lo (hi + 1) body s = body hi (forRange lo hi body s) := by
  unfold forRange
  rw [show hi + 1 - lo = (hi - lo) + 1 by omega, List.range'_concat, List.foldl_append]
  simp only [List.foldl_cons, List.foldl_nil]
  congr 1
  omega

/-- The loop rule: an invariant that each turn moves on by one holds at the end. -/
theorem forRange_inv (I : Nat → σ → Prop) (hle : lo ≤ hi) (h0 : I lo s)
    (hs : ∀ i s, lo ≤ i → i < hi → I i s → I (i + 1) (body i s)) : I hi (forRange lo hi body s) := by
  induction hi, hle using Nat.le_induction with
  | base => rw [forRange_of_le (le_refl _)]; exact h0
  | succ hi hle ih =>
    rw [forRange_succ hle]
    exact hs hi _ hle (by omega) (ih (fun i s h1 h2 => hs i s h1 (by omega)))

/-- The loop rule for an invariant that does not name the counter. -/
theorem forRange_keeps (I : σ → Prop) (h0 : I s) (hs : ∀ i s, lo ≤ i → i < hi → I s → I (body i s)) :
    I (forRange lo hi body s) := by
  rcases Nat.le_total lo hi with h | h
  · exact forRange_inv (fun _ => I) h h0 hs
  · rw [forRange_of_le h]; exact h0

section
variable {α : Type*} {I P : List α → Prop} {K : List α → α → Prop} {l : List α}

/-- The steps of a run that goes on by one are its own and the new one. -/
theorem step_prefix_concat {pre : List α} {a b : α} : pre ++ [a] <+: l ++ [b] ↔ pre ++ [a] <+: l ∨ pre = l ∧ a = b := by
  rw [List.prefix_concat_iff]
  constructor
  · rintro (heq | hpre)
    · obtain ⟨rfl, hab⟩ := List.append_inj' heq rfl
      exact .inr ⟨rfl, List.singleton_inj.1 hab⟩
    · exact .inl hpre
  · rintro (hpre | ⟨rfl, rfl⟩)
    · exact .inr hpre
    · exact .inl rfl

/-- If `I` is kept by the steps `K` allows, holds wherever `P` still does, and is enough for `P`, then `P` holds all along
a run iff `K` allows every step. -/
theorem prefixes_iff_of_inv (h0 : I []) (hP : ∀ pre, I pre → P pre)
    (hI : ∀ pre a, pre ++ [a] <+: l → I pre → K pre a → I (pre ++ [a]))
    (hK : ∀ pre a, pre ++ [a] <+: l → I pre → P (pre ++ [a]) → K pre a) :
    (∀ pre, pre <+: l → P pre) ↔ ∀ pre a, pre ++ [a] <+: l → K pre a := by
  have hall : (∀ pre a, pre ++ [a] <+: l → I pre → K pre a) → ∀ pre, pre <+: l → I pre := by
    intro h pre
    induction pre using List.reverseRecOn with
    | nil => exact fun _ => h0
    | append_singleton pre a ih =>
      intro hpre
      have hnow := ih ((List.prefix_append pre [a]).trans hpre)
      exact hI pre a hpre hnow (h pre a hpre hnow)
  constructor
  · intro h pre a hpre
    have hstep : ∀ pre a, pre ++ [a] <+: l → I pre → K pre a := fun pre a hpre hnow => hK pre a hpre hnow (h _ hpre)
    exact hstep pre a hpre (hall hstep pre ((List.prefix_append pre [a]).trans hpre))
  · intro h pre hpre
    exact hP pre (hall (fun pre a hpre _ => h pre a hpre) pre hpre)

/-- What holds at the start and is kept by exactly the steps `K` allows holds all along a run iff `K` allows every step. -/
theorem prefixes_iff (h0 : P []) (hstep : ∀ pre a, pre ++ [a] <+: l → P pre → (P (pre ++ [a]) ↔ K pre a)) :
    (∀ pre, pre <+: l → P pre) ↔ ∀ pre a, pre ++ [a] <+: l → K pre a :=
  prefixes_iff_of_inv h0 (fun _ h => h) (fun pre a hpre h => (hstep pre a hpre h).2)
    (fun pre a hpre h => (hstep pre a hpre h).1)

end

-- long loops are reasoned about by the rules above, never unrolled
attribute [irreducible] forRange

end SysLib
