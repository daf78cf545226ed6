import Mathlib
/-!
# Numerals

The text of a number in a base up to 16, most significant digit first, and
the number that a text of digits stands for.
-/

namespace SysLib

def digitChar (d : Nat) : UInt8 := UInt8.ofNat (if d < 10 then 48 + d else 87 + d)

def digitVal (c : UInt8) : Nat := if c.toNat < 58 then c.toNat - 48 else c.toNat - 87

/-- A lower-case digit of base `b`. -/
def IsDigit (b : Nat) (c : UInt8) : Prop := ((48 ≤ c ∧ c ≤ 57) ∨ (97 ≤ c ∧ c ≤ 102)) ∧ digitVal c < b

instance (b : Nat) (c : UInt8) : Decidable (IsDigit b c) := inferInstanceAs (Decidable (_ ∧ _))

def numeral (b v : Nat) : List UInt8 := if v = 0 then [48] else ((Nat.digits b v).map digitChar).reverse

/-- The number that digits stand for. -/
def valueOf (b : Nat) (ds : List UInt8) : Nat := ds.foldl (fun v c => v * b + digitVal c) 0

section
variable {b v d : Nat}

theorem digitVal_digitChar (h : d < 16) : digitVal (digitChar d) = d := by
  have hall : ∀ d < 16, digitVal (digitChar d) = d := by decide
  exact hall d h

theorem isDigit_digitChar (h : d < 16) (hb : d < b) : IsDigit b (digitChar d) := by
  have hall : ∀ d < 16, (48 ≤ digitChar d ∧ digitChar d ≤ 57) ∨ (97 ≤ digitChar d ∧ digitChar d ≤ 102) := by decide
  refine ⟨hall d h, ?_⟩
  rwa [digitVal_digitChar h]

theorem digitChar_eq_zero (h : d < 16) : digitChar d = 48 ↔ d = 0 := by
  have hall : ∀ d < 16, digitChar d = 48 ↔ d = 0 := by decide
  exact hall d h

theorem IsDigit.ne_zero {c : UInt8} (h : IsDigit b c) : c ≠ 0 := by
  rintro rfl
  exact absurd h.1 (by decide)

theorem valueOf_concat (b : Nat) (ds : List UInt8) (c : UInt8) : valueOf b (ds ++ [c]) = valueOf b ds * b + digitVal c := by
  unfold valueOf
  rw [List.foldl_append]
  rfl

theorem valueOf_reverse {l : List Nat} (h : ∀ d ∈ l, d < 16) : valueOf b (l.map digitChar).reverse = Nat.ofDigits b l := by
  induction l with
  | nil => rfl
  | cons d l ih =>
    rw [List.map_cons, List.reverse_cons, valueOf_concat, ih (fun d hd => h d (List.mem_cons_of_mem _ hd)),
      digitVal_digitChar (h d List.mem_cons_self), Nat.ofDigits_cons]
    ring

/-! ## The text of a number -/

variable (h2 : 2 ≤ b) (h16 : b ≤ 16)
include h2 h16

theorem valueOf_numeral (v : Nat) : valueOf b (numeral b v) = v := by
  unfold numeral
  split_ifs with hv
  · rw [hv]
    simp [valueOf, digitVal]
  · rw [valueOf_reverse (fun d hd => lt_of_lt_of_le (Nat.digits_lt_base h2 hd) h16), Nat.ofDigits_digits]

theorem numeral_digits (v : Nat) : ∀ c ∈ numeral b v, IsDigit b c := by
  intro c hc
  unfold numeral at hc
  split_ifs at hc with hv
  · rw [List.mem_singleton.1 hc]
    exact isDigit_digitChar (show 0 < 16 by omega) (by omega)
  · obtain ⟨d, hd, rfl⟩ := List.mem_map.1 (List.mem_reverse.1 hc)
    have hlt := Nat.digits_lt_base h2 hd
    exact isDigit_digitChar (by omega) hlt

/-- Only the number zero starts with a zero. -/
theorem numeral_head : (numeral b v).head? = some 48 ↔ v = 0 := by
  unfold numeral
  split_ifs with hv
  · simp [hv]
  · have hne : Nat.digits b v ≠ [] := Nat.digits_ne_nil_iff_ne_zero.2 hv
    have hlt := Nat.digits_lt_base h2 (List.getLast_mem hne)
    have hlast := Nat.getLast_digit_ne_zero b hv
    rw [List.head?_reverse, List.getLast?_map, List.getLast?_eq_some_getLast hne, Option.map_some, Option.some_inj,
      digitChar_eq_zero (by omega)]
    exact ⟨fun h => absurd h hlast, fun h => absurd h hv⟩

omit h16 in
theorem numeral_length {k : Nat} (hk : 0 < k) (h : v < b ^ k) : 0 < (numeral b v).length ∧ (numeral b v).length ≤ k := by
  unfold numeral
  split_ifs with hv
  · exact ⟨Nat.one_pos, hk⟩
  · rw [List.length_reverse, List.length_map]
    exact ⟨List.length_pos_of_ne_nil (Nat.digits_ne_nil_iff_ne_zero.2 hv), (Nat.digits_length_le_iff h2 v).2 h⟩

end

end SysLib
