import Mathlib
/-!
# One holder, and counting who is under way

`Exclusive free inside`: nobody is inside while the word says free, and never
two at once. `Underway P n`: exactly `n` of possibly infinitely many threads
are at a point `P`. Each has one lemma for entering, one for leaving, and one
for the steps of everybody else.
-/

namespace SysLib

variable {ι : Type*} {free free' : Prop} {inside inside' : ι → Prop} {i : ι}

structure Exclusive (free : Prop) (inside : ι → Prop) : Prop where
  out : free → ∀ i, ¬ inside i
  unique : ∀ i j, inside i → inside j → i = j

namespace Exclusive

theorem congr (h : Exclusive free inside) (hfree : free' → free) (hin : ∀ j, inside' j → inside j) :
    Exclusive free' inside' :=
  ⟨fun hf j hj => h.out (hfree hf) j (hin j hj), fun j k hj hk => h.unique j k (hin j hj) (hin k hk)⟩

theorem acquire (h : Exclusive free inside) (hf : free) (hf' : ¬ free')
    (hin : ∀ j, inside' j → inside j ∨ j = i) : Exclusive free' inside' := by
  have heq : ∀ j, inside' j → j = i := by
    intro j hj
    obtain hj | hj := hin j hj
    · exact absurd hj (h.out hf j)
    · exact hj
  exact ⟨fun hf => absurd hf hf', fun j k hj hk => (heq j hj).trans (heq k hk).symm⟩

theorem release (h : Exclusive free inside) (hi : inside i) (hin : ∀ j, inside' j → inside j ∧ j ≠ i) :
    Exclusive free' inside' := by
  have hout : ∀ j, ¬ inside' j := by
    intro j hj
    obtain ⟨hj, hne⟩ := hin j hj
    exact hne (h.unique j i hj hi)
  exact ⟨fun _ => hout, fun j _ hj => absurd hj (hout j)⟩

theorem empty (h : ∀ j, ¬ inside j) : Exclusive free inside := ⟨fun _ => h, fun j _ hj => absurd hj (h j)⟩

/-- One holder hands over to another. -/
theorem transfer {k : ι} (h : Exclusive free inside) (hi : inside i) (hfree : free' → free)
    (hin : ∀ j, inside' j → (inside j ∧ j ≠ i) ∨ j = k) : Exclusive free' inside' := by
  have heq : ∀ j, inside' j → j = k := by
    intro j hj
    obtain ⟨hj, hne⟩ | hj := hin j hj
    · exact absurd (h.unique j i hj hi) hne
    · exact hj
  exact ⟨fun hf => absurd hi (h.out (hfree hf) i), fun j l hj hl => (heq j hj).trans (heq l hl).symm⟩

end Exclusive

def Underway (P : ι → Prop) (n : Nat) : Prop := ∃ F : Finset ι, (∀ i, i ∈ F ↔ P i) ∧ F.card = n

namespace Underway

variable {P P' : ι → Prop} {n : Nat}

theorem congr (h : Underway P n) (hP : ∀ j, P' j ↔ P j) : Underway P' n := by
  obtain ⟨F, hF, hcard⟩ := h
  exact ⟨F, fun j => (hF j).trans (hP j).symm, hcard⟩

theorem enter [DecidableEq ι] (h : Underway P n) (hi : ¬ P i) (hP : ∀ j, P' j ↔ P j ∨ j = i) :
    Underway P' (n + 1) := by
  obtain ⟨F, hF, hcard⟩ := h
  refine ⟨insert i F, fun j => ?_, ?_⟩
  · rw [hP, Finset.mem_insert, hF, or_comm]
  · rw [Finset.card_insert_of_notMem (fun hmem => hi ((hF i).1 hmem)), hcard]

theorem leave [DecidableEq ι] (h : Underway P n) (hi : P i) (hP : ∀ j, P' j ↔ P j ∧ j ≠ i) :
    ∃ m, n = m + 1 ∧ Underway P' m := by
  obtain ⟨F, hF, hcard⟩ := h
  have hmem : i ∈ F := (hF i).2 hi
  refine ⟨(F.erase i).card, ?_, F.erase i, fun j => ?_, rfl⟩
  · rw [← hcard, Finset.card_erase_add_one hmem]
  · rw [hP, Finset.mem_erase, hF, and_comm]

theorem zero (hP : ∀ j, ¬ P j) : Underway P 0 := ⟨∅, fun j => by simp [hP j], rfl⟩

end Underway

end SysLib
