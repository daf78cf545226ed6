import H3OS.Types
import H3OS.Lib.Cstr
/-!
# The terminal's screen

`applications/terminal/terminal.c` keeps 24 lines of 72 characters and a NUL
each, one behind the other in memory, and prints by appending to the line
`row`. The string functions of `kernel/core/string.c` walk over the bytes; here
they give `none` when they walk out of `lines`.
-/
open SysLib

namespace H3OS.Terminal

def TERM_COLS : Nat := 72
def TERM_ROWS : Nat := 24

/-- `sizeof(lines)`. -/
def LINES_SIZE : Nat := TERM_ROWS * (TERM_COLS + 1)

/-- Where `lines[i][j]` is from the beginning of `lines`. -/
def cell (i j : Nat) : Nat := i * (TERM_COLS + 1) + j

def NEWLINE : UInt8 := 10

structure term_state_t where
  lines : Mem
  row : Nat

/-! ## Bytes -/

/-- Bytes before the NUL, of at most `n`. -/
def count_chars (m : Mem) : Nat → Nat → Option Nat
  | 0, _ => none
  | n + 1, s => if m s = 0 then some 0 else (count_chars m n (s + 1)).map (· + 1)

def strlen (m : Mem) (s : Nat) : Option Nat := count_chars m (LINES_SIZE - s) s

/-- The loop of `strcpy`, at most `n` turns. -/
def copy_chars : Nat → Mem → Nat → Nat → Option Mem
  | 0, _, _, _ => none
  | n + 1, m, dst, src =>
    let c := m src
    let m := Function.update m dst c
    if c = 0 then some m else copy_chars n m (dst + 1) (src + 1)

def strcpy (m : Mem) (dst src : Nat) : Option Mem := copy_chars (LINES_SIZE - max dst src) m dst src

/-- A byte of `lines` written. -/
def store (m : Mem) (a : Nat) (c : UInt8) : Option Mem :=
  if a < LINES_SIZE then some (Function.update m a c) else none

/-! ## Printing -/

/-- Every line copied over the one above it. -/
def scroll (m : Mem) : Option Mem :=
  (List.range (TERM_ROWS - 1)).foldlM (fun m i => strcpy m (cell i 0) (cell (i + 1) 0)) m

def term_newline (t : term_state_t) : Option term_state_t := do
  let t ←
    if t.row < TERM_ROWS - 1 then some { t with row := t.row + 1 }
    else do
      let m ← scroll t.lines
      let m ← store m (cell (TERM_ROWS - 1) 0) 0
      some { t with lines := m }
  let m ← store t.lines (cell t.row 0) 0
  some { t with lines := m }

/-- The second half of a turn of `term_print`'s loop. -/
def put_char (t : term_state_t) (len : Nat) (c : UInt8) : Option term_state_t := do
  let m ← store t.lines (cell t.row len) c
  let m ← store m (cell t.row (len + 1)) 0
  some { t with lines := m }

/-- `s` is read up to its first NUL. -/
def term_print (t : term_state_t) : List UInt8 → Option term_state_t
  | [] => some t
  | c :: s =>
    if c = 0 then some t
    else if c = NEWLINE then do term_print (← term_newline t) s
    else do
      let len ← strlen t.lines (cell t.row 0)
      if len ≥ TERM_COLS then do term_print (← put_char (← term_newline t) 0 c) s
      else do term_print (← put_char t len c) s

def term_println (t : term_state_t) (s : List UInt8) : Option term_state_t := do
  term_newline (← term_print t s)

/-- The `clear` command, and the state at boot. -/
def cleared : term_state_t := ⟨fun _ => 0, 0⟩

inductive Call where
  | term_print (s : List UInt8)
  | term_println (s : List UInt8)
  | term_newline

def exec (t : term_state_t) : Call → Option term_state_t
  | .term_print s => term_print t s
  | .term_println s => term_println t s
  | .term_newline => term_newline t

/-- The string in a buffer: it ends at its first NUL. -/
def cstr (s : List UInt8) : List UInt8 := s.takeWhile (· ≠ 0)

/-- The string in line `i`. -/
def line_text (t : term_state_t) (i : Nat) : List UInt8 :=
  ((List.range' (cell i 0) (TERM_COLS + 1)).map t.lines).takeWhile (· ≠ 0)

end H3OS.Terminal
