import H3OS.Lib.Memory
/-!
# Strings in memory

`StrAt m p w`: the bytes from `p` on are those of `w` and a NUL behind them.
-/

namespace SysLib

variable {m m' : Mem} {p : Nat} {w : List UInt8} {c : UInt8}

def StrAt (m : Mem) (p : Nat) : List UInt8 → Prop
  | [] => m p = 0
  | c :: w => c ≠ 0 ∧ m p = c ∧ StrAt m (p + 1) w

namespace StrAt

instance decidable (m : Mem) : (p : Nat) → (w : List UInt8) → Decidable (StrAt m p w)
  | p, [] => inferInstanceAs (Decidable (m p = 0))
  | p, c :: w =>
    have := decidable m (p + 1) w
    inferInstanceAs (Decidable (c ≠ 0 ∧ m p = c ∧ StrAt m (p + 1) w))

/-- Only the bytes of the string and its NUL matter. -/
theorem congr (h : StrAt m p w) (hm : ∀ a, p ≤ a → a ≤ p + w.length → m' a = m a) : StrAt m' p w := by
  induction w generalizing p with
  | nil =>
    have hp := hm p (le_refl p) (le_refl p)
    exact hp.trans h
  | cons c w ih =>
    rw [List.length_cons] at hm
    obtain ⟨hc, hp, hw⟩ := h
    refine ⟨hc, ?_, ih hw fun a h1 h2 => hm a (by omega) (by omega)⟩
    rw [hm p (le_refl p) (by omega), hp]

theorem nul (h : StrAt m p w) : m (p + w.length) = 0 := by
  induction w generalizing p with
  | nil => exact h
  | cons c w ih =>
    have hw := ih h.2.2
    rwa [Nat.add_assoc, Nat.add_comm 1] at hw

/-- A character and a new NUL over the old one make the string longer by one. -/
theorem append (h : StrAt m p w) (hc : c ≠ 0) :
    StrAt (Function.update (Function.update m (p + w.length) c) (p + w.length + 1) 0) p (w ++ [c]) := by
  induction w generalizing p with
  | nil =>
    refine ⟨hc, ?_, Function.update_self _ _ _⟩
    rw [List.length_nil, Nat.add_zero, Function.update_of_ne (by omega), Function.update_self]
  | cons d w ih =>
    obtain ⟨hd, hp, hw⟩ := h
    refine ⟨hd, ?_, ?_⟩
    · rw [List.length_cons, Function.update_of_ne (by omega), Function.update_of_ne (by omega), hp]
    · have hih := ih hw
      rwa [show p + 1 + w.length = p + (d :: w).length by rw [List.length_cons]; omega] at hih

theorem head (h : StrAt m p (c :: w)) : c ≠ 0 ∧ m p = c := ⟨h.1, h.2.1⟩

theorem ne_zero (h : StrAt m p w) : ∀ d ∈ w, d ≠ 0 := by
  induction w generalizing p with
  | nil => simp
  | cons e w ih =>
    intro d hd
    rcases List.mem_cons.1 hd with rfl | hd
    · exact h.1
    · exact ih h.2.2 d hd

/-- The rest of a string is a string. -/
theorem drop {u v : List UInt8} (h : StrAt m p (u ++ v)) : StrAt m (p + u.length) v := by
  induction u generalizing p with
  | nil => exact h
  | cons d u ih =>
    have hu := ih h.2.2
    rwa [Nat.add_assoc, Nat.add_comm 1] at hu

/-- A NUL over one of its bytes cuts a string there. -/
theorem cut {u v : List UInt8} (h : StrAt m p (u ++ v)) : StrAt (Function.update m (p + u.length) 0) p u := by
  induction u generalizing p with
  | nil => exact Function.update_self _ _ _
  | cons d u ih =>
    obtain ⟨hd, hp, hu⟩ := h
    refine ⟨hd, ?_, ?_⟩
    · rw [List.length_cons, Function.update_of_ne (by omega), hp]
    · have hu := ih hu
      rwa [Nat.add_assoc, Nat.add_comm 1] at hu

/-- What a reader that stops at the NUL sees. -/
theorem takeWhile_eq {n : Nat} (h : StrAt m p w) (hn : w.length < n) :
    ((List.range' p n).map m).takeWhile (· ≠ 0) = w := by
  induction w generalizing p n with
  | nil =>
    obtain ⟨n, rfl⟩ := Nat.exists_eq_succ_of_ne_zero (Nat.ne_of_gt hn)
    have hp : m p = 0 := h
    simp [List.range'_succ, hp]
  | cons c w ih =>
    rw [List.length_cons] at hn
    obtain ⟨n, rfl⟩ := Nat.exists_eq_succ_of_ne_zero (show n ≠ 0 by omega)
    obtain ⟨hc, hp, hw⟩ := h
    have hih := ih hw (n := n) (by omega)
    rw [List.range'_succ, List.map_cons, hp, List.takeWhile_cons_of_pos (by simpa using hc), hih]

end StrAt

end SysLib
