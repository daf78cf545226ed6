import H3OS.Lib.Memory
/-!
# Blocks of bytes

`memset`, `memcpy` and `memmove` of `kernel/core/string.c`: loops that move
64-bit pointers over byte memory. What they leave in memory is `fill`, `copy`
and `blit`, by which the rest of the development speaks of them. `memmove`
chooses its direction by the order of its pointers, so that no byte is
written before it was read.
-/
open SysLib

namespace H3OS

/-! ## The code -/

/-- `while (n--) *p++ = c`. -/
def set_up (c : UInt8) : Nat → Nat → Mem → Mem
  | 0, _, m => m
  | n + 1, p, m => set_up c n (add64 p 1) (Function.update m p c)

/-- `while (n--) *d++ = *s++`. -/
def copy_up : Nat → Nat → Nat → Mem → Mem
  | 0, _, _, m => m
  | n + 1, d, s, m => copy_up n (add64 d 1) (add64 s 1) (Function.update m d (m s))

/-- `while (n--) *--d = *--s`. -/
def copy_down : Nat → Nat → Nat → Mem → Mem
  | 0, _, _, m => m
  | n + 1, d, s, m => copy_down n (sub64 d 1) (sub64 s 1) (Function.update m (sub64 d 1) (m (sub64 s 1)))

def memset (m : Mem) (dst : Nat) (c : Int32) (n : Nat) : Nat × Mem := (dst, set_up c.toUInt32.toUInt8 n dst m)

def memcpy (m : Mem) (dst src n : Nat) : Nat × Mem := (dst, copy_up n dst src m)

def memmove (m : Mem) (dst src n : Nat) : Nat × Mem :=
  (dst, if dst < src then copy_up n dst src m else copy_down n (add64 dst n) (add64 src n) m)

/-! ## The loops -/

section
variable {m : Mem} {dst src n k r p d s : Nat} {c : UInt8}

/-- With `r` bytes to go, `k` are set; where the pointer is counts only while there are bytes to go, since behind the last
one it may wrap around. -/
theorem set_up_eq (hp : 0 < r → p = dst + k) (hn : k + r = n) (hdst : dst + n ≤ 2 ^ 64) :
    set_up c r p (fill m dst k c) = fill m dst n c := by
  induction r generalizing k p with
  | zero =>
    obtain rfl : k = n := hn
    rfl
  | succ r ih =>
    rw [hp (Nat.succ_pos r), set_up, ← fill_succ]
    exact ih (fun h => add64_of_lt (by omega)) (by omega)

/-- With `r` bytes to go, `k` are copied. -/
theorem copy_up_eq (hd : 0 < r → d = dst + k) (hs : 0 < r → s = src + k) (hn : k + r = n) (hdst : dst + n ≤ 2 ^ 64)
    (hsrc : src + n ≤ 2 ^ 64) : copy_up r d s (copy m dst src k) = copy m dst src n := by
  induction r generalizing k d s with
  | zero =>
    obtain rfl : k = n := hn
    rfl
  | succ r ih =>
    have hstep : Function.update (copy m dst src k) (dst + k) (copy m dst src k (src + k)) = copy m dst src (k + 1) := rfl
    rw [hd (Nat.succ_pos r), hs (Nat.succ_pos r), copy_up, hstep]
    exact ih (fun h => add64_of_lt (by omega)) (fun h => add64_of_lt (by omega)) (by omega)

/-- Going down, the pointers are behind the bytes that are still to be copied. -/
theorem copy_down_eq (hdst : dst + n ≤ 2 ^ 64) (hsrc : src + n ≤ 2 ^ 64) :
    copy_down n (add64 dst n) (add64 src n) m = copyDown m dst src n := by
  have hback : ∀ {a n : Nat}, a + (n + 1) ≤ 2 ^ 64 → sub64 (add64 a (n + 1)) 1 = add64 a n ∧ add64 a n = a + n := by
    intro a n h
    unfold sub64 add64
    omega
  induction n generalizing m with
  | zero => rfl
  | succ n ih =>
    obtain ⟨hd, hdn⟩ := hback hdst
    obtain ⟨hs, hsn⟩ := hback hsrc
    rw [copy_down, copyDown, hd, hs, ih (by omega) (by omega), hdn, hsn]

end

/-! ## What is left in memory -/

section
variable {dst src n : Nat}

theorem memset_eq (m : Mem) (c : Int32) (h : dst + n ≤ 2 ^ 64) :
    memset m dst c n = (dst, fill m dst n c.toUInt32.toUInt8) := by
  have hnone : fill m dst 0 c.toUInt32.toUInt8 = m := funext fun x => fill_out (by omega)
  have hloop : set_up c.toUInt32.toUInt8 n dst (fill m dst 0 c.toUInt32.toUInt8) = fill m dst n c.toUInt32.toUInt8 :=
    set_up_eq (fun _ => rfl) (Nat.zero_add n) h
  rw [hnone] at hloop
  exact congrArg (Prod.mk dst) hloop

theorem memcpy_eq (m : Mem) (hdst : dst + n ≤ 2 ^ 64) (hsrc : src + n ≤ 2 ^ 64) :
    memcpy m dst src n = (dst, copy m dst src n) := by
  have hloop : copy_up n dst src (copy m dst src 0) = copy m dst src n :=
    copy_up_eq (fun _ => rfl) (fun _ => rfl) (Nat.zero_add n) hdst hsrc
  exact congrArg (Prod.mk dst) hloop

/-- In the direction that is taken, every byte is read before it is written. -/
theorem memmove_eq (m : Mem) (hdst : dst + n ≤ 2 ^ 64) (hsrc : src + n ≤ 2 ^ 64) :
    memmove m dst src n = (dst, blit m dst m src n) := by
  unfold memmove
  split_ifs with hlt
  · have hcopy := memcpy_eq m hdst hsrc
    rw [copy_eq_blit (.inl hlt.le)] at hcopy
    exact hcopy
  · rw [copy_down_eq hdst hsrc, copyDown_eq_blit (.inl (not_lt.1 hlt))]

end

/-- Whatever the overlap, `memmove` puts the bytes that were at `src` at `dst` and changes no other byte. -/
theorem memmove_moves (m : Mem) {dst src n : Nat} (hdst : dst + n ≤ 2 ^ 64) (hsrc : src + n ≤ 2 ^ 64) :
    (∀ i < n, (memmove m dst src n).2 (dst + i) = m (src + i)) ∧
      ∀ x, x < dst ∨ dst + n ≤ x → (memmove m dst src n).2 x = m x := by
  rw [memmove_eq m hdst hsrc]
  constructor
  · intro i hi
    have hin : blit m dst m src n (dst + i) = m (src + (dst + i - dst)) := blit_in (by omega) (by omega)
    rw [Nat.add_sub_cancel_left] at hin
    exact hin
  · intro x hx
    exact blit_out hx

/-- The last four bytes of the address space, from two bytes below. -/
theorem memmove_moves_up : (memmove (fun x => .ofNat x) (2 ^ 64 - 4) (2 ^ 64 - 6) 4).2 (2 ^ 64 - 4 + 2) = 252 ∧
    (memmove (fun x => .ofNat x) (2 ^ 64 - 4) (2 ^ 64 - 6) 4).2 (2 ^ 64 - 5) = 251 := by
  obtain ⟨hin, hout⟩ := memmove_moves (fun x => .ofNat x) (show 2 ^ 64 - 4 + 4 ≤ 2 ^ 64 by omega)
    (show 2 ^ 64 - 6 + 4 ≤ 2 ^ 64 by omega)
  exact ⟨(hin 2 (by omega)).trans (by decide), (hout _ (.inl (by omega))).trans (by decide)⟩

end H3OS
