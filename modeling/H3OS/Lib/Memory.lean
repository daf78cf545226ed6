import Mathlib
/-!
# Machine words and byte memory

Words are natural numbers below a power of two; a memory is a byte at every
address, and a `w`-byte word is stored at an address little end first. The
lemmas say what a load sees after a store: the stored word where the two
coincide, the old word where they are apart.
-/

namespace SysLib

/-! ## Words -/

/-- 64-bit addition. -/
def add64 (a b : Nat) : Nat := (a + b) % 2 ^ 64

/-- 64-bit subtraction. -/
def sub64 (a b : Nat) : Nat := (a + (2 ^ 64 - b % 2 ^ 64)) % 2 ^ 64

theorem add64_of_lt {a b : Nat} (h : a + b < 2 ^ 64) : add64 a b = a + b := Nat.mod_eq_of_lt h

theorem sub64_of_le {a b : Nat} (h : b ≤ a) (ha : a < 2 ^ 64) : sub64 a b = a - b := by
  unfold sub64
  rw [Nat.mod_eq_of_lt (a := b) (by omega), show a + (2 ^ 64 - b) = (a - b) + 2 ^ 64 by omega, Nat.add_mod_right]
  exact Nat.mod_eq_of_lt (by omega)

theorem two_pow_sub_two_pow {w k : Nat} (hk : k ≤ w) : 2 ^ w - 2 ^ k = (2 ^ (w - k) - 1) <<< k := by
  rw [Nat.shiftLeft_eq, Nat.sub_mul, ← pow_add, Nat.sub_add_cancel hk, one_mul]

/-- Masking off the low `k` bits of a `w`-bit word rounds it down to a multiple of `2 ^ k`. -/
theorem and_high_mask {w k x : Nat} (hk : k ≤ w) (hx : x < 2 ^ w) :
    x &&& (2 ^ w - 2 ^ k) = x / 2 ^ k * 2 ^ k := by
  rw [two_pow_sub_two_pow hk, ← Nat.shiftRight_eq_div_pow, ← Nat.shiftLeft_eq]
  apply Nat.eq_of_testBit_eq
  intro i
  simp only [Nat.testBit_and, Nat.testBit_shiftLeft, Nat.testBit_two_pow_sub_one, Nat.testBit_shiftRight]
  by_cases hi : k ≤ i
  · by_cases hw : i < w
    · simp [hi, show i - k < w - k by omega, show k + (i - k) = i by omega]
    · have : x.testBit i = false := Nat.testBit_lt_two_pow (lt_of_lt_of_le hx (Nat.pow_le_pow_right (by omega) (by omega)))
      simp [hi, this, show k + (i - k) = i by omega]
  · simp [hi]

/-- Or-ing flags into the clear low bits of an aligned word adds them. -/
theorem or_low {k x f : Nat} (hx : x % 2 ^ k = 0) (hf : f < 2 ^ k) : x ||| f = x + f := by
  obtain ⟨c, rfl⟩ := Nat.dvd_of_mod_eq_zero hx
  exact (Nat.two_pow_add_eq_or_of_lt hf c).symm

/-! ## Loads and stores -/

/-- Byte-addressed memory. -/
abbrev Mem := Nat → UInt8

/-- The `w`-byte word at `a`, little end first. -/
def load (m : Mem) (a : Nat) : Nat → Nat
  | 0 => 0
  | w + 1 => (m a).toNat + 256 * load m (a + 1) w

/-- `m` with the low `w` bytes of `v` written at `a`. -/
def store (m : Mem) (a w v : Nat) : Mem := fun x =>
  if a ≤ x ∧ x < a + w then UInt8.ofNat (v / 256 ^ (x - a)) else m x

/-- Two ranges, each a start and a length, that share no address. -/
def Apart (a n b k : Nat) : Prop := a + n ≤ b ∨ b + k ≤ a

instance (a n b k : Nat) : Decidable (Apart a n b k) := inferInstanceAs (Decidable (_ ∨ _))

theorem Apart.symm {a n b k : Nat} (h : Apart a n b k) : Apart b k a n := Or.symm h

theorem load_lt (m : Mem) (a w : Nat) : load m a w < 256 ^ w := by
  induction w generalizing a with
  | zero => simp [load]
  | succ w ih =>
    have h := ih (a + 1)
    have hb : (m a).toNat < 256 := (m a).toNat_lt
    rw [load, pow_succ]
    omega

theorem load64_lt (m : Mem) (a : Nat) : load m a 8 < 2 ^ 64 := load_lt m a 8

/-- A load reads only its own bytes. -/
theorem load_congr {m m' : Mem} {a w : Nat} (h : ∀ x, a ≤ x → x < a + w → m' x = m x) : load m' a w = load m a w := by
  induction w generalizing a with
  | zero => rfl
  | succ w ih =>
    rw [load, load, h a (by omega) (by omega), ih (fun x h1 h2 => h x (by omega) (by omega))]

/-- Equal bytes at two places are equal words. -/
theorem load_shift {m m' : Mem} {a a' w : Nat} (h : ∀ k < w, m' (a' + k) = m (a + k)) : load m' a' w = load m a w := by
  induction w generalizing a a' with
  | zero => rfl
  | succ w ih =>
    have h0 : m' a' = m a := h 0 (by omega)
    rw [load, load, h0, ih (fun k hk => ?_)]
    rw [Nat.add_right_comm, Nat.add_right_comm a 1 k]
    exact h (k + 1) (by omega)

/-- Equal stretches of memory have equal words inside. -/
theorem load_within {m m' : Mem} {a a' n k w : Nat} (h : ∀ j < n, m' (a' + j) = m (a + j)) (hk : k + w ≤ n) :
    load m' (a' + k) w = load m (a + k) w := by
  refine load_shift (fun j hj => ?_)
  rw [Nat.add_assoc, Nat.add_assoc]
  exact h (k + j) (by omega)

/-- A word is its low bytes and, above them, its high bytes. -/
theorem load_add (m : Mem) (a w k : Nat) : load m a (w + k) = load m a w + 256 ^ w * load m (a + w) k := by
  induction w generalizing a with
  | zero => simp [load]
  | succ w ih =>
    rw [Nat.add_right_comm, load, load, ih, pow_succ', Nat.add_assoc a 1 w, Nat.add_comm 1 w]
    ring

/-- Two memories with the same word at `a` have the same bytes there. -/
theorem load_inj {m m' : Mem} {a w x : Nat} (h : load m a w = load m' a w) (h1 : a ≤ x) (h2 : x < a + w) : m x = m' x := by
  induction w generalizing a with
  | zero => omega
  | succ w ih =>
    have hlt := (m a).toNat_lt
    have hlt' := (m' a).toNat_lt
    simp only [load] at h
    by_cases hx : x = a
    · subst hx
      exact UInt8.toNat_inj.1 (by omega)
    · exact ih (a := a + 1) (by omega) (by omega) (by omega)

theorem store_out {m : Mem} {a w v x : Nat} (h : x < a ∨ a + w ≤ x) : store m a w v x = m x := by
  unfold store
  rw [if_neg (by omega)]

theorem load_store_apart {m : Mem} {a w v b k : Nat} (h : Apart a w b k) :
    load (store m a w v) b k = load m b k :=
  load_congr (fun x h1 h2 => store_out (by unfold Apart at h; omega))

theorem load_store_same (m : Mem) (a w v : Nat) : load (store m a w v) a w = v % 256 ^ w := by
  induction w generalizing m a v with
  | zero => simp [load, Nat.mod_one]
  | succ w ih =>
    have htail : load (store m a (w + 1) v) (a + 1) w = load (store m (a + 1) w (v / 256)) (a + 1) w := by
      refine load_congr (fun x h1 h2 => ?_)
      unfold store
      rw [if_pos (by omega), if_pos (by omega), show x - a = (x - (a + 1)) + 1 by omega, pow_succ',
        Nat.div_div_eq_div_mul]
    have hhead : (store m a (w + 1) v a).toNat = v % 256 := by simp [store]
    rw [load, htail, ih, hhead, pow_succ', Nat.mod_mul]

theorem load_store_of_lt {m : Mem} {a w v : Nat} (h : v < 256 ^ w) : load (store m a w v) a w = v := by
  rw [load_store_same, Nat.mod_eq_of_lt h]

/-! ## Blocks of bytes -/

/-- `n` bytes at `a` set to `c`. -/
def fill (m : Mem) (a n : Nat) (c : UInt8) : Mem := fun x => if a ≤ x ∧ x < a + n then c else m x

theorem fill_out {m : Mem} {a n x : Nat} {c : UInt8} (h : x < a ∨ a + n ≤ x) : fill m a n c x = m x := by
  unfold fill
  rw [if_neg (by omega)]

/-- One byte more behind the others. -/
theorem fill_succ (m : Mem) (a n : Nat) (c : UInt8) : fill m a (n + 1) c = Function.update (fill m a n c) (a + n) c := by
  funext x
  by_cases hx : x = a + n
  · rw [hx, Function.update_self, fill, if_pos (by omega)]
  · rw [Function.update_of_ne hx]
    unfold fill
    simp only [show a ≤ x ∧ x < a + (n + 1) ↔ a ≤ x ∧ x < a + n by omega]

theorem load_fill_apart {m : Mem} {a n b k : Nat} {c : UInt8} (h : Apart a n b k) :
    load (fill m a n c) b k = load m b k :=
  load_congr (fun x h1 h2 => fill_out (by unfold Apart at h; omega))

/-- A word inside a cleared range is zero. -/
theorem load_fill_zero {m : Mem} {a n b k : Nat} (h1 : a ≤ b) (h2 : b + k ≤ a + n) : load (fill m a n 0) b k = 0 := by
  induction k generalizing b with
  | zero => rfl
  | succ k ih => rw [load, ih (by omega) (by omega), fill, if_pos (by omega)]; rfl

/-- `n` bytes copied from `src` to `dst`, one at a time and upwards. -/
def copy (m : Mem) (dst src : Nat) : Nat → Mem
  | 0 => m
  | n + 1 =>
    let m' := copy m dst src n
    Function.update m' (dst + n) (m' (src + n))

theorem copy_out {m : Mem} {dst src n x : Nat} (h : x < dst ∨ dst + n ≤ x) : copy m dst src n x = m x := by
  induction n with
  | zero => rfl
  | succ n ih =>
    rw [copy, Function.update_of_ne (by omega)]
    exact ih (by omega)

/-- `m` with the `n` bytes that another memory holds at `off` put at `dst`. -/
def blit (m : Mem) (dst : Nat) (src : Mem) (off n : Nat) : Mem := fun x =>
  if dst ≤ x ∧ x < dst + n then src (off + (x - dst)) else m x

theorem blit_in {m src : Mem} {dst off n x : Nat} (h1 : dst ≤ x) (h2 : x < dst + n) :
    blit m dst src off n x = src (off + (x - dst)) := by
  unfold blit
  rw [if_pos ⟨h1, h2⟩]

theorem blit_out {m src : Mem} {dst off n x : Nat} (h : x < dst ∨ dst + n ≤ x) : blit m dst src off n x = m x := by
  unfold blit
  rw [if_neg (by omega)]

theorem blit_zero (m src : Mem) (dst off : Nat) : blit m dst src off 0 = m := by
  funext x
  exact blit_out (by omega)

/-- One byte more behind the others. -/
theorem blit_succ (m src : Mem) (dst off n : Nat) :
    blit m dst src off (n + 1) = Function.update (blit m dst src off n) (dst + n) (src (off + n)) := by
  funext x
  by_cases hx : x = dst + n
  · rw [hx, blit_in (by omega) (by omega), Function.update_self, Nat.add_sub_cancel_left]
  · rw [Function.update_of_ne hx]
    unfold blit
    simp only [show dst ≤ x ∧ x < dst + (n + 1) ↔ dst ≤ x ∧ x < dst + n by omega]

/-- Upwards a copy keeps what it has yet to read, unless the destination starts inside the source. -/
theorem copy_eq_blit {m : Mem} {dst src n : Nat} (h : dst ≤ src ∨ src + n ≤ dst) : copy m dst src n = blit m dst m src n := by
  induction n with
  | zero => exact (blit_zero ..).symm
  | succ n ih =>
    rw [copy, ih (by omega), blit_succ, blit_out (show src + n < dst ∨ dst + n ≤ src + n by omega)]

/-- `n` bytes copied from `src` to `dst`, one at a time and downwards. -/
def copyDown (m : Mem) (dst src : Nat) : Nat → Mem
  | 0 => m
  | n + 1 => copyDown (Function.update m (dst + n) (m (src + n))) dst src n

/-- Downwards it does unless the source starts inside the destination. -/
theorem copyDown_eq_blit {m : Mem} {dst src n : Nat} (h : src ≤ dst ∨ dst + n ≤ src) :
    copyDown m dst src n = blit m dst m src n := by
  induction n generalizing m with
  | zero => exact (blit_zero ..).symm
  | succ n ih =>
    rw [copyDown, ih (by omega)]
    funext x
    by_cases hx : dst ≤ x ∧ x < dst + n
    · rw [blit_in hx.1 hx.2, blit_in hx.1 (by omega), Function.update_of_ne (by omega)]
    · rw [blit_out (by omega), blit_succ]
      by_cases hlast : x = dst + n
      · rw [hlast, Function.update_self, Function.update_self]
      · rw [Function.update_of_ne hlast, Function.update_of_ne hlast, blit_out (by omega)]

end SysLib
