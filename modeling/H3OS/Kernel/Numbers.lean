import H3OS.Types
import H3OS.Lib.Numeral
/-!
# Numbers as text

`utoa` and `itoa` of `kernel/core/string.c`. Both give the bytes they write
into the caller's buffer, the terminator last.
-/
open SysLib

namespace H3OS

/-- The division loop; `tmp` gets a digit a turn, the lowest first. -/
def utoa_loop (base : UInt64) : Nat → UInt64 → List UInt8 → List UInt8
  | 0, _, tmp => tmp
  | fuel + 1, value, tmp =>
    if value = 0 then tmp else utoa_loop base fuel (value / base) (tmp ++ [digitChar (value % base).toNat])

/-- Each turn at least halves the value, so 64 turns are enough. -/
def utoa (value : UInt64) (base : Int) : List UInt8 :=
  if base < 2 ∨ base > 16 then [0]
  else if value = 0 then [48, 0]
  else (utoa_loop (UInt64.ofNat base.toNat) 64 value []).reverse ++ [0]

def MINUS : UInt8 := 45

def itoa (value : Int64) (base : Int) : List UInt8 :=
  if value < 0 ∧ base = 10 then MINUS :: utoa (-value).toUInt64 base else utoa value.toUInt64 base

/-- The number that a text starts with, read up to its terminator. -/
def atoi (text : List UInt8) : Int :=
  let s := text.takeWhile (· ≠ 0)
  if s.head? = some MINUS then -(valueOf 10 s.tail : Int) else valueOf 10 s

section
variable {base : Int}

theorem utoa_loop_eq {b : UInt64} (hb : 2 ≤ b.toNat) {fuel : Nat} {value : UInt64} (h : value.toNat < 2 ^ fuel)
    (tmp : List UInt8) : utoa_loop b fuel value tmp = tmp ++ (Nat.digits b.toNat value.toNat).map digitChar := by
  induction fuel generalizing value tmp with
  | zero =>
    have h0 : value.toNat = 0 := by omega
    simp [utoa_loop, h0]
  | succ fuel ih =>
    rw [utoa_loop]
    split_ifs with h0
    · simp [h0]
    · have hpos : 0 < value.toNat := Nat.pos_of_ne_zero fun hz => h0 (UInt64.toNat_inj.1 hz)
      have hdiv : (value / b).toNat < 2 ^ fuel := by
        rw [UInt64.toNat_div]
        refine Nat.div_lt_of_lt_mul ?_
        calc value.toNat < 2 ^ (fuel + 1) := h
          _ = 2 * 2 ^ fuel := by ring
          _ ≤ b.toNat * 2 ^ fuel := Nat.mul_le_mul_right _ hb
      rw [ih hdiv, Nat.digits_def' hb hpos, UInt64.toNat_div, UInt64.toNat_mod, List.map_cons, List.append_assoc,
        List.singleton_append]

/-- In a base from 2 to 16, `utoa` writes the numeral. -/
theorem utoa_eq (value : UInt64) (h2 : 2 ≤ base) (h16 : base ≤ 16) :
    utoa value base = numeral base.toNat value.toNat ++ [0] := by
  have hbase : (UInt64.ofNat base.toNat).toNat = base.toNat := by
    rw [UInt64.toNat_ofNat']
    omega
  unfold utoa numeral
  rw [if_neg (by omega)]
  by_cases h0 : value = 0
  · simp [h0]
  · have hne : value.toNat ≠ 0 := fun hz => h0 (UInt64.toNat_inj.1 hz)
    have hloop := utoa_loop_eq (b := UInt64.ofNat base.toNat) (by omega) (UInt64.toNat_lt value) []
    rw [if_neg h0, if_neg hne, hloop, hbase, List.nil_append]

/-- A signed word by the unsigned one with the same bits. -/
theorem toInt_eq (value : Int64) : value.toInt =
    if 2 * value.toUInt64.toNat < 2 ^ 64 then (value.toUInt64.toNat : Int) else value.toUInt64.toNat - 2 ^ 64 :=
  BitVec.toInt_eq_toNat_cond value.toBitVec

theorem neg_iff (value : Int64) : value < 0 ↔ value.toInt < 0 := Int64.lt_iff_toInt_lt

/-- Negation wraps around, so that it gives the magnitude of the least number too. -/
theorem toUInt64_neg {value : Int64} (h : value < 0) : (-value).toUInt64.toNat = value.toInt.natAbs := by
  have hneg := (neg_iff value).1 h
  have hcond := toInt_eq value
  have hlt := value.toUInt64.toNat_lt
  have hnat : (-value).toUInt64.toNat = (2 ^ 64 - value.toUInt64.toNat) % 2 ^ 64 := BitVec.toNat_neg value.toBitVec
  rw [hnat]
  split_ifs at hcond <;> omega

theorem toUInt64_of_not_neg {value : Int64} (h : ¬ value < 0) : value.toUInt64.toNat = value.toInt.natAbs := by
  have hneg : ¬ value.toInt < 0 := fun h' => h ((neg_iff value).2 h')
  have hcond := toInt_eq value
  have hlt := value.toUInt64.toNat_lt
  split_ifs at hcond <;> omega

/-- In base ten, `itoa` writes the sign of a negative number and the numeral of its magnitude. -/
theorem itoa_eq (value : Int64) :
    itoa value 10 = (if value < 0 then [MINUS] else []) ++ numeral 10 value.toInt.natAbs ++ [0] := by
  unfold itoa
  by_cases h : value < 0
  · rw [if_pos ⟨h, rfl⟩, if_pos h, utoa_eq _ (by omega) (by omega), toUInt64_neg h]
    rfl
  · rw [if_neg (fun h' => h h'.1), if_neg h, utoa_eq _ (by omega) (by omega), toUInt64_of_not_neg h]
    rfl

end

/-- The digits `ds` write the number `v` in base `b`. -/
structure Writes (b v : Nat) (ds : List UInt8) : Prop where
  length : 0 < ds.length ∧ ds.length ≤ 64
  digits : ∀ c ∈ ds, IsDigit b c
  leading : ds.head? = some 48 → ds = [48]
  value : valueOf b ds = v

theorem numeral_writes {b v : Nat} (h2 : 2 ≤ b) (h16 : b ≤ 16) (hv : v < 2 ^ 64) : Writes b v (numeral b v) where
  length := numeral_length h2 (by omega) (lt_of_lt_of_le hv (Nat.pow_le_pow_left h2 64))
  digits := numeral_digits h2 h16 v
  leading := by
    intro h
    rw [(numeral_head h2 h16).1 h]
    rfl
  value := valueOf_numeral h2 h16 v

/-- Reading a sign and digits up to the terminator gives the number back. -/
theorem atoi_signed {ds : List UInt8} (hne : ds ≠ []) (hd : ∀ c ∈ ds, IsDigit 10 c) (neg : Prop) [Decidable neg] :
    atoi ((if neg then [MINUS] else []) ++ ds ++ [0]) = if neg then -(valueOf 10 ds : Int) else valueOf 10 ds := by
  have hread : ∀ s : List UInt8, (∀ c ∈ s, c ≠ 0) → (s ++ [0]).takeWhile (· ≠ 0) = s := by
    intro s hs
    rw [List.takeWhile_append_of_pos (by simpa using hs)]
    simp
  have hzero : ∀ c ∈ ds, c ≠ 0 := fun c hc => (hd c hc).ne_zero
  unfold atoi
  split_ifs with hneg
  · rw [hread _ (by simpa [MINUS] using hzero)]
    simp
  · obtain ⟨c, ds, rfl⟩ := List.exists_cons_of_ne_nil hne
    have hc : c ≠ MINUS := by
      rintro rfl
      exact absurd (hd MINUS List.mem_cons_self) (by decide)
    rw [List.nil_append, hread _ hzero]
    simp [hc]

/-- Every number can be read back from what `utoa` and `itoa` write of it. -/
theorem formats_invert :
    (∀ (value : UInt64) (base : Int), 2 ≤ base → base ≤ 16 →
      ∃ ds, utoa value base = ds ++ [0] ∧ Writes base.toNat value.toNat ds) ∧
    ∀ value : Int64, (∃ ds, itoa value 10 = (if value < 0 then [MINUS] else []) ++ ds ++ [0] ∧
      Writes 10 value.toInt.natAbs ds) ∧ atoi (itoa value 10) = value.toInt := by
  constructor
  · intro value base h2 h16
    exact ⟨_, utoa_eq value h2 h16, numeral_writes (by omega) (by omega) value.toNat_lt⟩
  · intro value
    have hlt : value.toInt.natAbs < 2 ^ 64 := by
      have hcond := toInt_eq value
      have hlt := value.toUInt64.toNat_lt
      split_ifs at hcond <;> omega
    have hw := numeral_writes (b := 10) (by omega) (by omega) hlt
    refine ⟨⟨_, itoa_eq value, hw⟩, ?_⟩
    rw [itoa_eq, atoi_signed (List.ne_nil_of_length_pos hw.length.1) hw.digits, hw.value]
    simp only [neg_iff]
    split_ifs <;> omega

theorem formats_invert_extremes : (∃ ds, utoa 0xFFFFFFFFFFFFFFFF 2 = ds ++ [0] ∧ Writes 2 (2 ^ 64 - 1) ds) ∧
    atoi (itoa Int64.minValue 10) = -2 ^ 63 :=
  ⟨formats_invert.1 0xFFFFFFFFFFFFFFFF 2 (by decide) (by decide), (formats_invert.2 Int64.minValue).2⟩

end H3OS
