import H3OS.Kernel.Numbers
/-!
# The kernel's formatted output

`kvprintf` of `kernel/core/log.c`. It scans a format byte by byte and takes an
argument where it knows the conversion; of one that it does not know it prints the first
two bytes and takes none. `printf` is what C says of the conversions
that the kernel's callers use. Two of them, those padded with zeros, are not known.

Arguments are the words they are passed in; `text` gives the bytes of the
string at an address.
-/
open SysLib

namespace H3OS.Log

def ch (c : Char) : UInt8 := UInt8.ofNat c.toNat

def PERCENT : UInt8 := ch '%'

/-- A string: the bytes before its terminator. -/
def CString := {s : List UInt8 // 0 ∉ s}

/-! ## The code -/

/-- The bytes of a text before its terminator, given to `ring_putc` one after the other. -/
def ring_puts (s : List UInt8) : List UInt8 := s.takeWhile (· ≠ 0)

/-- The next argument is taken and printed; `none` if there is none. -/
def with_arg (fmt : List UInt8) (ap : List UInt64) (print : UInt64 → List UInt8) :
    Option (List UInt8 × List UInt8 × List UInt64) :=
  match ap with
  | [] => none
  | w :: ap => some (print w, fmt, ap)

/-- `case 'l'`, on the format behind it. -/
def long_turn (fmt : List UInt8) (ap : List UInt64) : Option (List UInt8 × List UInt8 × List UInt64) :=
  if fmt.head? = some (ch 'l') then
    let fmt := fmt.tail
    if fmt.head? = some (ch 'u') then with_arg fmt.tail ap fun w => ring_puts (utoa w 10)
    else if fmt.head? = some (ch 'x') then with_arg fmt.tail ap fun w => ring_puts (utoa w 16)
    else if fmt.head? = some (ch 'd') then with_arg fmt.tail ap fun w => ring_puts (itoa w.toInt64 10)
    else some ([], fmt, ap)
  else some ([], fmt, ap)

/-- A turn of the loop: what it prints, and the format and the arguments behind it. After a `%` at the end it would go
on behind the terminator. -/
def turn (text : UInt64 → CString) (fmt : List UInt8) (ap : List UInt64) :
    Option (List UInt8 × List UInt8 × List UInt64) :=
  match fmt with
  | [] => none
  | c :: fmt =>
    if c ≠ PERCENT then some ([c], fmt, ap) else
    match fmt with
    | [] => none
    | k :: fmt =>
      if k = ch 's' then with_arg fmt ap fun w => ring_puts (if w ≠ 0 then (text w).1 else str "(null)")
      else if k = ch 'c' then with_arg fmt ap fun w => [w.toUInt8]
      else if k = ch 'd' ∨ k = ch 'i' then with_arg fmt ap fun w => ring_puts (itoa w.toUInt32.toInt32.toInt64 10)
      else if k = ch 'u' then with_arg fmt ap fun w => ring_puts (utoa w.toUInt32.toUInt64 10)
      else if k = ch 'x' then with_arg fmt ap fun w => ring_puts (utoa w.toUInt32.toUInt64 16)
      else if k = ch 'p' then with_arg fmt ap fun w => ring_puts (str "0x") ++ ring_puts (utoa w 16)
      else if k = ch 'l' then long_turn fmt ap
      else if k = PERCENT then some ([PERCENT], fmt, ap)
      else some ([PERCENT, k], fmt, ap)

/-- The loop of `kvprintf`; each turn goes on in the format. -/
def loop (text : UInt64 → CString) : Nat → List UInt8 → List UInt64 → Option (List UInt8 × List UInt64)
  | _, [], ap => some ([], ap)
  | 0, _, _ => none
  | fuel + 1, fmt, ap => do
    let (out, fmt, ap) ← turn text fmt ap
    let (rest, ap) ← loop text fuel fmt ap
    return (out ++ rest, ap)

/-- The bytes printed, and the arguments not taken. -/
def kvprintf (text : UInt64 → CString) (fmt : List UInt8) (ap : List UInt64) : Option (List UInt8 × List UInt64) :=
  loop text fmt.length fmt ap

/-! ## What C says -/

inductive Conversion where
  | s
  | c
  | d
  | i
  | u
  | x
  | p
  | llu
  | llx
  | lld
  | x02
  | x04
deriving DecidableEq

/-- The bytes of a conversion behind the `%`. -/
def Conversion.spelling : Conversion → List UInt8
  | s => [ch 's']
  | c => [ch 'c']
  | d => [ch 'd']
  | i => [ch 'i']
  | u => [ch 'u']
  | x => [ch 'x']
  | p => [ch 'p']
  | llu => [ch 'l', ch 'l', ch 'u']
  | llx => [ch 'l', ch 'l', ch 'x']
  | lld => [ch 'l', ch 'l', ch 'd']
  | x02 => [ch '0', ch '2', ch 'x']
  | x04 => [ch '0', ch '4', ch 'x']

def Conversion.Padded (k : Conversion) : Prop := k = .x02 ∨ k = .x04

def signed (v : Int) : List UInt8 := (if v < 0 then [MINUS] else []) ++ numeral 10 v.natAbs

/-- At least `width` digits. -/
def zero_padded (width : Nat) (ds : List UInt8) : List UInt8 := List.replicate (width - ds.length) 48 ++ ds

/-- What the conversion makes of an argument. -/
def Conversion.shows (text : UInt64 → CString) (w : UInt64) : Conversion → List UInt8
  | s => if w ≠ 0 then (text w).1 else str "(null)"
  | c => [w.toUInt8]
  | d | i => signed w.toUInt32.toInt32.toInt
  | u => numeral 10 w.toUInt32.toNat
  | x => numeral 16 w.toUInt32.toNat
  | p => str "0x" ++ numeral 16 w.toNat
  | llu => numeral 10 w.toNat
  | llx => numeral 16 w.toNat
  | lld => signed w.toInt64.toInt
  | x02 => zero_padded 2 (numeral 16 w.toUInt32.toNat)
  | x04 => zero_padded 4 (numeral 16 w.toUInt32.toNat)

/-- A piece of a format: an ordinary character, a `%%`, or a conversion together with its argument. -/
inductive Piece where
  | char (c : UInt8) (ordinary : c ≠ PERCENT ∧ c ≠ 0)
  | percent
  | conv (k : Conversion) (w : UInt64)

def Piece.spelling : Piece → List UInt8
  | char c _ => [c]
  | percent => [PERCENT, PERCENT]
  | conv k _ => PERCENT :: k.spelling

def Piece.arg : Piece → List UInt64
  | conv _ w => [w]
  | _ => []

def Piece.shows (text : UInt64 → CString) : Piece → List UInt8
  | char c _ => [c]
  | percent => [PERCENT]
  | conv k w => k.shows text w

/-- A conversion that pads with zeros. -/
def Piece.Padded : Piece → Prop
  | conv k _ => k.Padded
  | _ => False

def format (f : List Piece) : List UInt8 := f.flatMap Piece.spelling

/-- One argument for each conversion, in order. -/
def args (f : List Piece) : List UInt64 := f.flatMap Piece.arg

def printf (text : UInt64 → CString) (f : List Piece) : List UInt8 := f.flatMap (Piece.shows text)

/-! ## A conversion -/

section
variable {text : UInt64 → CString} {k : Conversion} {w : UInt64} {fmt : List UInt8} {ap : List UInt64}

/-- The text of a number has no terminator in it. -/
theorem ring_puts_numeral {b : Nat} (h2 : 2 ≤ b) (h16 : b ≤ 16) (pre : List UInt8) (hpre : 0 ∉ pre) (v : Nat) :
    ring_puts (pre ++ numeral b v ++ [0]) = pre ++ numeral b v := by
  have hclean : ∀ c ∈ pre ++ numeral b v, decide (c ≠ 0) = true := by
    intro c hc
    apply decide_eq_true
    rcases List.mem_append.1 hc with hc | hc
    · exact fun h => hpre (h ▸ hc)
    · exact (numeral_digits h2 h16 v c hc).ne_zero
  unfold ring_puts
  rw [List.takeWhile_append_of_pos hclean]
  simp

theorem ring_puts_utoa (w : UInt64) {base : Int} (h2 : 2 ≤ base) (h16 : base ≤ 16) :
    ring_puts (utoa w base) = numeral base.toNat w.toNat := by
  rw [utoa_eq w h2 h16]
  exact ring_puts_numeral (by omega) (by omega) [] (by simp) _

theorem ring_puts_itoa (v : Int64) : ring_puts (itoa v 10) = signed v.toInt := by
  have hsign : (0 : UInt8) ∉ if v < 0 then [MINUS] else [] := by
    split_ifs <;> decide
  rw [itoa_eq, ring_puts_numeral (by omega) (by omega) _ hsign, signed]
  simp only [neg_iff]

theorem ring_puts_clean {s : List UInt8} (h : 0 ∉ s) : ring_puts s = s := by
  refine List.takeWhile_eq_self_iff.2 fun c hc => decide_eq_true ?_
  rintro rfl
  exact h hc

/-- A known conversion takes its argument and shows it. -/
theorem turn_conv (hk : ¬ k.Padded) :
    turn text (PERCENT :: (k.spelling ++ fmt)) (w :: ap) = some (k.shows text w, fmt, ap) := by
  have h10 : ∀ v, ring_puts (utoa v 10) = numeral 10 v.toNat := fun v => ring_puts_utoa v (by omega) (by omega)
  have h16 : ∀ v, ring_puts (utoa v 16) = numeral 16 v.toNat := fun v => ring_puts_utoa v (by omega) (by omega)
  cases k with
  | s =>
    have hnull : (0 : UInt8) ∉ str "(null)" := by decide +kernel
    show some (ring_puts (if w ≠ 0 then (text w).1 else str "(null)"), fmt, ap) = some (if w ≠ 0 then _ else _, fmt, ap)
    split_ifs
    · rw [ring_puts_clean (text w).2]
    · rw [ring_puts_clean hnull]
  | c => rfl
  | d =>
    show some (ring_puts (itoa w.toUInt32.toInt32.toInt64 10), fmt, ap) = _
    rw [ring_puts_itoa, Int32.toInt_toInt64]
    rfl
  | i =>
    show some (ring_puts (itoa w.toUInt32.toInt32.toInt64 10), fmt, ap) = _
    rw [ring_puts_itoa, Int32.toInt_toInt64]
    rfl
  | u =>
    show some (ring_puts (utoa w.toUInt32.toUInt64 10), fmt, ap) = _
    rw [h10, UInt32.toNat_toUInt64]
    rfl
  | x =>
    show some (ring_puts (utoa w.toUInt32.toUInt64 16), fmt, ap) = _
    rw [h16, UInt32.toNat_toUInt64]
    rfl
  | p =>
    show some (ring_puts (str "0x") ++ ring_puts (utoa w 16), fmt, ap) = _
    rw [h16, ring_puts_clean (by decide +kernel)]
    rfl
  | llu =>
    show some (ring_puts (utoa w 10), fmt, ap) = _
    rw [h10]
    rfl
  | llx =>
    show some (ring_puts (utoa w 16), fmt, ap) = _
    rw [h16]
    rfl
  | lld =>
    show some (ring_puts (itoa w.toInt64 10), fmt, ap) = _
    rw [ring_puts_itoa]
    rfl
  | x02 => exact absurd (.inl rfl) hk
  | x04 => exact absurd (.inr rfl) hk

/-- A padded one is not known, and takes none. -/
theorem turn_padded (hk : k.Padded) : ∃ rest,
    turn text (PERCENT :: (k.spelling ++ fmt)) ap = some ([PERCENT, ch '0'], rest, ap) := by
  rcases hk with rfl | rfl
  · exact ⟨ch '2' :: ch 'x' :: fmt, rfl⟩
  · exact ⟨ch '4' :: ch 'x' :: fmt, rfl⟩

/-- Digits there are, and nothing else. -/
theorem shows_padded (hk : k.Padded) : k.shows text w ≠ [] ∧ PERCENT ∉ k.shows text w := by
  have hpad : ∀ width, zero_padded width (numeral 16 w.toUInt32.toNat) ≠ [] ∧
      PERCENT ∉ zero_padded width (numeral 16 w.toUInt32.toNat) := by
    intro width
    have hlen := (numeral_length (b := 16) (by omega) (show 0 < 8 by omega) w.toUInt32.toNat_lt).1
    unfold zero_padded
    constructor
    · exact List.append_ne_nil_of_right_ne_nil _ (List.ne_nil_of_length_pos hlen)
    · intro hmem
      rcases List.mem_append.1 hmem with hzero | hdigit
      · exact absurd (List.eq_of_mem_replicate hzero) (by decide)
      · exact absurd (numeral_digits (by omega) (by omega) _ _ hdigit) (by decide)
  rcases hk with rfl | rfl
  · exact hpad 2
  · exact hpad 4

/-! ## The whole format -/

variable {p : Piece}

theorem turn_piece (hp : ¬ p.Padded) :
    turn text (p.spelling ++ fmt) (p.arg ++ ap) = some (p.shows text, fmt, ap) := by
  cases p with
  | char c hc =>
    show turn text (c :: fmt) ap = _
    unfold turn
    exact if_pos hc.1
  | percent => rfl
  | conv k w => exact turn_conv hp

theorem spelling_ne_nil (p : Piece) : p.spelling ≠ [] := by
  cases p <;> exact List.cons_ne_nil _ _

theorem loop_succ {n : Nat} (h : fmt ≠ []) : loop text (n + 1) fmt ap =
    (turn text fmt ap).bind fun r => (loop text n r.2.1 r.2.2).bind fun q => some (r.1 ++ q.1, q.2) := by
  obtain ⟨c, fmt, rfl⟩ := List.exists_cons_of_ne_nil h
  rfl

/-- One piece more: what is printed and taken is right exactly if it is of the rest and the piece is not padded. -/
theorem loop_piece {n : Nat} {rest : List UInt8} {more : List UInt64} :
    loop text (n + 1) (p.spelling ++ fmt) (p.arg ++ ap) = some (p.shows text ++ rest, more) ↔
      ¬ p.Padded ∧ loop text n fmt ap = some (rest, more) := by
  rw [loop_succ (List.append_ne_nil_of_left_ne_nil (spelling_ne_nil p) _)]
  by_cases hp : p.Padded
  · refine iff_of_false ?_ fun h => h.1 hp
    cases p with
    | char c hc => cases hp
    | percent => cases hp
    | conv k w =>
      obtain ⟨fmt', ht⟩ : ∃ rest, turn text (PERCENT :: (k.spelling ++ fmt)) (w :: ap) =
          some ([PERCENT, ch '0'], rest, w :: ap) := turn_padded hp
      obtain ⟨hne, hno⟩ : k.shows text w ≠ [] ∧ PERCENT ∉ k.shows text w := shows_padded hp
      have hturn : turn text ((Piece.conv k w).spelling ++ fmt) ((Piece.conv k w).arg ++ ap) = _ := ht
      rw [hturn, Option.bind_some]
      intro h
      -- the first byte is a `%` on one side and a digit on the other
      obtain ⟨q, -, hq⟩ := Option.bind_eq_some_iff.1 h
      obtain ⟨c, ds, hds⟩ := List.exists_cons_of_ne_nil hne
      have hout := congrArg (fun r => r.map fun x => x.1.head?) hq
      simp only [Piece.shows, hds, Option.map_some, List.cons_append, List.head?_cons, Option.some.injEq] at hout
      rw [hds, ← hout] at hno
      exact hno List.mem_cons_self
  · rw [turn_piece hp, Option.bind_some]
    simp only [hp, not_false_eq_true, true_and]
    cases loop text n fmt ap with
    | none => simp
    | some q => simp [Prod.ext_iff]

theorem loop_format_iff (text : UInt64 → CString) (more : List UInt64) (f : List Piece) {n : Nat}
    (hn : (format f).length ≤ n) :
    loop text n (format f) (args f ++ more) = some (printf text f, more) ↔ ∀ p ∈ f, ¬ p.Padded := by
  induction f generalizing n with
  | nil =>
    refine iff_of_true ?_ (by simp)
    cases n <;> rfl
  | cons p f ih =>
    have hspell : format (p :: f) = p.spelling ++ format f := rfl
    have hargs : args (p :: f) ++ more = p.arg ++ (args f ++ more) := List.append_assoc _ _ _
    have hshows : printf text (p :: f) = p.shows text ++ printf text f := rfl
    have hpos := List.length_pos_of_ne_nil (spelling_ne_nil p)
    rw [hspell, List.length_append] at hn
    obtain ⟨n, rfl⟩ := Nat.exists_eq_add_of_le' (show 1 ≤ n by omega)
    rw [hspell, hargs, hshows, loop_piece, ih (by omega), List.forall_mem_cons]

end

/-- Of every format and its arguments, `kvprintf` prints what C says and takes exactly the arguments exactly if no
conversion pads with zeros. -/
theorem kvprintf_faithful_iff (text : UInt64 → CString) (f : List Piece) (more : List UInt64) :
    kvprintf text (format f) (args f ++ more) = some (printf text f, more) ↔ ∀ p ∈ f, ¬ p.Padded :=
  loop_format_iff text more f (le_refl _)

/-- The number five to two digits: the conversion itself is printed, and the five is still to be taken. -/
theorem padding_not_known : ¬ ∀ text f more, kvprintf text (format f) (args f ++ more) = some (printf text f, more) := by
  intro h
  have heq := h (fun _ => ⟨[], nofun⟩) [.conv .x02 5] []
  revert heq
  decide +kernel

end H3OS.Log
