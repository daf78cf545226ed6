import H3OS.Lib.Memory
/-!
# Types and macros shared by the kernel's modules

`sdk/include/h3os/types.h`: 64-bit words are numbers below `2 ^ 64`, and
strings are the bytes before their terminator.
-/
open SysLib

namespace H3OS

/-- The bytes of a string literal. -/
def str (s : String) : List UInt8 := s.toUTF8.data.toList

/-- An unsigned number as the 32-bit signed one with the same low bits. -/
def i32 (n : Nat) : Int := ((n + 2 ^ 31) % 2 ^ 32 : Nat) - 2 ^ 31

/-- The size of the framebuffer, of what `fb_get` gives. -/
structure fb_t where
  width : Nat
  height : Nat

def PAGE_SIZE : Nat := 4096

/-- `(x + (a - 1)) & ~(a - 1)` on 64-bit words. -/
def H3OS_ALIGN_UP (x a : Nat) : Nat := add64 x (a - 1) &&& (2 ^ 64 - a)

/-- `x & ~(a - 1)` on 64-bit words. -/
def H3OS_ALIGN_DOWN (x a : Nat) : Nat := x &&& (2 ^ 64 - a)

theorem align_down_eq {x k : Nat} (hk : k ≤ 64) (hx : x < 2 ^ 64) : H3OS_ALIGN_DOWN x (2 ^ k) = x / 2 ^ k * 2 ^ k :=
  and_high_mask hk hx

theorem align_up_eq {x k : Nat} (hk : k ≤ 64) (hx : x + (2 ^ k - 1) < 2 ^ 64) :
    H3OS_ALIGN_UP x (2 ^ k) = (x + (2 ^ k - 1)) / 2 ^ k * 2 ^ k := by
  unfold H3OS_ALIGN_UP
  rw [add64_of_lt hx, and_high_mask hk hx]

end H3OS
