import Mathlib
/-!
# Ring buffers

A buffer of `k` cells with the index of the next cell to write and of the next
one to read. The two are equal when nothing is in it, so it never holds more
than `k - 1`. `Holds r l` names what is in it, the oldest first.
-/

namespace SysLib

structure RingBuf (α : Type*) where
  buf : Nat → α
  head : Nat
  tail : Nat

variable {α : Type*} {k : Nat} {r : RingBuf α} {l : List α} {a : α}

structure RingBuf.Holds (k : Nat) (r : RingBuf α) (l : List α) : Prop where
  room : l.length < k
  tail : r.tail < k
  head : r.head = (r.tail + l.length) % k
  cells : ∀ i (h : i < l.length), r.buf ((r.tail + i) % k) = l[i]

namespace RingBuf.Holds

/-- Cells at less than `k` from each other are different ones. -/
theorem cell_ne {t i j : Nat} (hij : i < j) (hj : j < k) : (t + i) % k ≠ (t + j) % k := by
  intro h
  have hmod : i ≡ j [MOD k] := Nat.ModEq.add_left_cancel' t h
  rw [Nat.ModEq, Nat.mod_eq_of_lt (hij.trans hj), Nat.mod_eq_of_lt hj] at hmod
  omega

theorem empty_iff (h : Holds k r l) : r.head = r.tail ↔ l = [] := by
  rw [h.head]
  constructor
  · intro heq
    by_contra hne
    refine cell_ne (List.length_pos_iff.2 hne) h.room (t := r.tail) ?_
    rw [Nat.add_zero, Nat.mod_eq_of_lt h.tail, heq]
  · rintro rfl
    rw [List.length_nil, Nat.add_zero, Nat.mod_eq_of_lt h.tail]

theorem full_iff (h : Holds k r l) : (r.head + 1) % k = r.tail ↔ l.length = k - 1 := by
  have hroom := h.room
  rw [h.head, Nat.mod_add_mod]
  constructor
  · intro heq
    by_contra hne
    refine cell_ne (Nat.succ_pos l.length) (k := k) (t := r.tail) (by omega) ?_
    rw [Nat.add_zero, Nat.mod_eq_of_lt h.tail]
    exact heq.symm
  · intro heq
    rw [Nat.add_assoc, show l.length + 1 = k by omega, Nat.add_mod_right, Nat.mod_eq_of_lt h.tail]

/-- Writing behind the last cell appends. -/
theorem push (h : Holds k r l) (hroom : l.length + 1 < k) (a : α) :
    Holds k ⟨Function.update r.buf r.head a, (r.head + 1) % k, r.tail⟩ (l ++ [a]) := by
  refine ⟨by simpa using hroom, h.tail, ?_, fun i hi => ?_⟩
  · rw [h.head, Nat.mod_add_mod, List.length_append, List.length_singleton, Nat.add_assoc]
  · rw [List.length_append, List.length_singleton] at hi
    by_cases hlast : i < l.length
    · have hne : (r.tail + i) % k ≠ r.head := by
        rw [h.head]
        exact cell_ne hlast h.room
      dsimp only
      rw [Function.update_of_ne hne, List.getElem_append_left hlast]
      exact h.cells i hlast
    · obtain rfl : i = l.length := by omega
      dsimp only
      rw [← h.head, Function.update_self, List.getElem_append_right (le_refl _)]
      simp

theorem front (h : Holds k r (a :: l)) : r.buf r.tail = a := by
  have hcell := h.cells 0 (Nat.succ_pos _)
  rwa [Nat.add_zero, Nat.mod_eq_of_lt h.tail] at hcell

/-- Moving past the oldest cell takes it out. -/
theorem pop (h : Holds k r (a :: l)) : Holds k { r with tail := (r.tail + 1) % k } l := by
  have hroom := h.room
  have hhead := h.head
  rw [List.length_cons] at hroom hhead
  refine ⟨by omega, Nat.mod_lt _ (by omega), ?_, fun i hi => ?_⟩
  · dsimp only
    rw [hhead, Nat.mod_add_mod, Nat.add_right_comm, Nat.add_assoc]
  · dsimp only
    rw [Nat.mod_add_mod, Nat.add_right_comm, Nat.add_assoc, h.cells (i + 1) (by simpa using hi)]
    rfl

theorem nil {r : RingBuf α} (ht : r.tail < k) (heq : r.head = r.tail) : Holds k r [] := by
  refine ⟨by rw [List.length_nil]; omega, ht, ?_, fun i hi => absurd hi (Nat.not_lt_zero i)⟩
  rw [List.length_nil, Nat.add_zero, Nat.mod_eq_of_lt ht, heq]

end RingBuf.Holds

end SysLib
