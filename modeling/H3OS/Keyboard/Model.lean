import H3OS.Types
import H3OS.Lib.Ring
/-!
# The keyboard driver

`drivers/keyboard/keyboard.c`: the interrupt turns scancodes into characters
and puts them into a ring of 256 cells, from which the kernel reads. The
interrupt can come between any two statements of `keyboard_try_read`, so the
reader is also given statement by statement.
-/
open SysLib

namespace H3OS.Keyboard

def KBD_BUF_SIZE : Nat := 256

structure St where
  kbd_buf : Nat → UInt8
  kbd_head : Nat
  kbd_tail : Nat
  shift : Bool
  caps : Bool
  ctrl : Bool

/-- The first entries of the table; the others are zero. -/
def scancode_map : List UInt8 :=
  [0, 27] ++ str "1234567890-=\x08" ++
  str "\tqwertyuiop[]\n" ++ [0] ++
  str "asdfghjkl;'`" ++ [0] ++ str "\\" ++
  str "zxcvbnm,./" ++ [0] ++ str "*" ++ [0] ++ str " "

def scancode_map_shift : List UInt8 :=
  [0, 27] ++ str "!@#$%^&*()_+\x08" ++
  str "\tQWERTYUIOP\x7b\x7d\n" ++ [0] ++
  str "ASDFGHJKL:\"~" ++ [0] ++ str "|" ++
  str "ZXCVBNM<>?" ++ [0] ++ str "*" ++ [0] ++ str " "

/-- What `keyboard_init` leaves; the buffer is not cleared. -/
def keyboard_init (kbd_buf : Nat → UInt8) : St := ⟨kbd_buf, 0, 0, false, false, false⟩

def kbd_push (s : St) (c : UInt8) : St :=
  let next := (s.kbd_head + 1) % KBD_BUF_SIZE
  if next = s.kbd_tail then s
  else { s with kbd_buf := Function.update s.kbd_buf s.kbd_head c, kbd_head := next }

/-- The character of a key that goes down. -/
def key_char (s : St) (sc : UInt8) : UInt8 :=
  let upper := s.shift ^^ s.caps
  let c := (if upper then scancode_map_shift else scancode_map).getD sc.toNat 0
  let c := if !s.shift ∧ s.caps ∧ 97 ≤ c ∧ c ≤ 122 then c - 32 else c
  if s.shift ∧ s.caps ∧ 65 ≤ c ∧ c ≤ 90 then c + 32 else c

/-- What Ctrl makes of a character: letters become control codes. -/
def ctrl_char (c : UInt8) : UInt8 :=
  let base := if 65 ≤ c ∧ c ≤ 90 then c - 65 + 97 else c
  if 97 ≤ base ∧ base ≤ 122 then base - 97 + 1 else c

/-- `keyboard_irq`, where `sc` is what port 0x60 gives. -/
def keyboard_irq (s : St) (sc : UInt8) : St :=
  if sc = 0x1D then { s with ctrl := true } else
  if sc = 0x9D then { s with ctrl := false } else
  if sc = 0x2A ∨ sc = 0x36 then { s with shift := true } else
  if sc = 0xAA ∨ sc = 0xB6 then { s with shift := false } else
  if sc = 0x3A then { s with caps := !s.caps } else
  if sc &&& 0x80 ≠ 0 then s else
  let c := key_char s sc
  if c = 0 then s else kbd_push s (if s.ctrl then ctrl_char c else c)

def keyboard_has_char (s : St) : Bool := s.kbd_head ≠ s.kbd_tail

def keyboard_try_read (s : St) : Option UInt8 × St :=
  if s.kbd_head = s.kbd_tail then (none, s)
  else (some (s.kbd_buf s.kbd_tail), { s with kbd_tail := (s.kbd_tail + 1) % KBD_BUF_SIZE })

def keyboard_read_char (s : St) : UInt8 × St :=
  match keyboard_try_read s with
  | (none, s) => (0, s)
  | (some c, s) => (c, s)

/-! ## Reading under interrupts -/

/-- Where a call of `keyboard_try_read` is: before its test, before the buffer is read, before `kbd_tail` is updated. -/
inductive Reader where
  | test
  | load
  | update (out : UInt8)
deriving DecidableEq

structure Sys where
  kbd : St
  reader : Reader
  -- the characters that pushes put into the ring and that reads returned, in order
  accepted : List UInt8
  returned : List UInt8

inductive Event where
  | push (c : UInt8)
  | irq (sc : UInt8)
  /-- The next statement of the reader, who calls again when a call has returned. -/
  | read

/-- The test of `kbd_push` lets a character in. -/
def Accepts (s : St) : Prop := (s.kbd_head + 1) % KBD_BUF_SIZE ≠ s.kbd_tail

instance (s : St) : Decidable (Accepts s) := inferInstanceAs (Decidable (_ ≠ _))

/-- The character that an interrupt hands to `kbd_push`, if any. -/
def irq_push (s : St) (sc : UInt8) : Option UInt8 :=
  if sc = 0x1D ∨ sc = 0x9D ∨ sc = 0x2A ∨ sc = 0x36 ∨ sc = 0xAA ∨ sc = 0xB6 ∨ sc = 0x3A ∨ sc &&& 0x80 ≠ 0 ∨
      key_char s sc = 0 then none
  else some (if s.ctrl then ctrl_char (key_char s sc) else key_char s sc)

/-- The history after a push: the character is in it if it was accepted. -/
def note (s : Sys) (c : UInt8) : List UInt8 := if Accepts s.kbd then s.accepted ++ [c] else s.accepted

def exec (s : Sys) : Event → Sys
  | .push c => { s with kbd := kbd_push s.kbd c, accepted := note s c }
  | .irq sc => { s with kbd := keyboard_irq s.kbd sc, accepted := (irq_push s.kbd sc).elim s.accepted (note s) }
  | .read =>
    match s.reader with
    | .test => if s.kbd.kbd_head = s.kbd.kbd_tail then s else { s with reader := .load }
    | .load => { s with reader := .update (s.kbd.kbd_buf s.kbd.kbd_tail) }
    | .update out =>
      { s with
        kbd := { s.kbd with kbd_tail := (s.kbd.kbd_tail + 1) % KBD_BUF_SIZE }
        reader := .test
        returned := s.returned ++ [out] }

/-- Right after `keyboard_init`, nothing pushed or read. -/
def start (kbd_buf : Nat → UInt8) : Sys := ⟨keyboard_init kbd_buf, .test, [], []⟩

end H3OS.Keyboard
