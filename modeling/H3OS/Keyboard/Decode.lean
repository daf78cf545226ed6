import H3OS.Keyboard.Model
/-!
# Keys and modifiers

The characters that the interrupt makes of a sequence of scancodes, against
the keys held while each key goes down. The handler keeps one flag for both
Shift keys, so letting go of either clears it, and it looks the key up in the
shifted table when one of Shift and Caps Lock is on, whatever the key is.
-/

namespace H3OS.Keyboard

/-- A key that prints: its make code, and its character without and with Shift. -/
structure Key where
  sc : UInt8
  plain : UInt8
  shifted : UInt8
deriving DecidableEq

/-- Keys with make codes from `sc` on. -/
def keyRow (sc : Nat) (plain shifted : String) : List Key :=
  ((str plain).zip (str shifted)).zipIdx.map fun x => ⟨UInt8.ofNat (sc + x.2), x.1.1, x.1.2⟩

def us_qwerty : List Key :=
  keyRow 0x02 "1234567890-=" "!@#$%^&*()_+" ++
  keyRow 0x10 "qwertyuiop[]" "QWERTYUIOP\x7b\x7d" ++
  keyRow 0x1E "asdfghjkl;'`" "ASDFGHJKL:\"~" ++
  keyRow 0x2B "\\zxcvbnm,./" "|ZXCVBNM<>?" ++
  keyRow 0x37 "*" "*" ++
  keyRow 0x39 " " " "

def Key.letter (k : Key) : Bool := 97 ≤ k.plain && k.plain ≤ 122

/-- The character of a key: Caps Lock inverts the case of letters. -/
def Key.char (k : Key) (shift caps : Bool) : UInt8 :=
  if k.letter then (if shift ^^ caps then k.shifted else k.plain) else if shift then k.shifted else k.plain

/-! ## What a history of scancodes says -/

/-- A key is held when its last scancode was the make code. -/
def held (make : UInt8) (h : List UInt8) : Bool :=
  h.foldl (fun b sc => if sc = make then true else if sc = make ||| 0x80 then false else b) false

def shiftHeld (h : List UInt8) : Bool := held 0x2A h || held 0x36 h

def ctrlHeld (h : List UInt8) : Bool := held 0x1D h

/-- Each make code of the key toggles it. -/
def capsOn (h : List UInt8) : Bool := h.count 0x3A % 2 = 1

/-- The last scancode of a Shift key, of either one, was a make code. -/
def shiftLast (h : List UInt8) : Bool :=
  h.foldl (fun b sc => if sc = 0x2A ∨ sc = 0x36 then true else if sc = 0xAA ∨ sc = 0xB6 then false else b) false

/-- The flag tells whether Shift is held, or for a key other than a letter Caps Lock makes up for it. -/
def Agrees (h : List UInt8) (k : Key) : Prop :=
  k.plain = k.shifted ∨
    if k.letter then shiftLast h = shiftHeld h else (shiftLast h ^^ capsOn h) = shiftHeld h

/-- The scancodes of a run. -/
def codes (l : List Event) : List UInt8 := l.filterMap fun
  | .irq sc => some sc
  | _ => none

/-- The driver after a run, from `keyboard_init` on. -/
def after (kbd_buf : Nat → UInt8) (l : List Event) : St := (l.foldl exec (start kbd_buf)).kbd

/-- The promise for the key `k` going down after the run `l`, no Ctrl key held. -/
def Decodes (kbd_buf : Nat → UInt8) (l : List Event) (k : Key) : Prop :=
  irq_push (after kbd_buf l) k.sc = some (k.char (shiftHeld (codes l)) (capsOn (codes l)))

/-! ## The flags follow the history -/

/-- The handler's flags for a history. -/
structure Flags (h : List UInt8) (s : St) : Prop where
  shift : s.shift = shiftLast h
  caps : s.caps = capsOn h
  ctrl : s.ctrl = ctrlHeld h

section
variable {h : List UInt8} {s s' : St} {sc : UInt8}

theorem Flags.same (hf : Flags h s) (h1 : s'.shift = s.shift) (h2 : s'.caps = s.caps) (h3 : s'.ctrl = s.ctrl) :
    Flags h s' :=
  ⟨h1.trans hf.shift, h2.trans hf.caps, h3.trans hf.ctrl⟩

theorem held_concat (make : UInt8) :
    held make (h ++ [sc]) = if sc = make then true else if sc = make ||| 0x80 then false else held make h := by
  unfold held
  rw [List.foldl_append]
  rfl

theorem shiftLast_concat : shiftLast (h ++ [sc]) =
    if sc = 0x2A ∨ sc = 0x36 then true else if sc = 0xAA ∨ sc = 0xB6 then false else shiftLast h := by
  unfold shiftLast
  rw [List.foldl_append]
  rfl

theorem capsOn_concat : capsOn (h ++ [sc]) = if sc = 0x3A then !capsOn h else capsOn h := by
  unfold capsOn
  rw [List.count_append]
  split_ifs with hsc
  · subst hsc
    rw [List.count_singleton_self]
    by_cases hodd : h.count 0x3A % 2 = 1
    · simp [hodd, show ¬ (h.count 0x3A + 1) % 2 = 1 by omega]
    · simp [hodd, show (h.count 0x3A + 1) % 2 = 1 by omega]
  · rw [List.count_singleton, if_neg (by simpa using hsc), Nat.add_zero]

theorem kbd_push_flags (s : St) (c : UInt8) :
    (kbd_push s c).shift = s.shift ∧ (kbd_push s c).caps = s.caps ∧ (kbd_push s c).ctrl = s.ctrl := by
  unfold kbd_push
  dsimp only
  split_ifs <;> exact ⟨rfl, rfl, rfl⟩

/-- What an interrupt does to the flags. -/
theorem keyboard_irq_flags (s : St) (sc : UInt8) :
    (keyboard_irq s sc).shift =
      (if sc = 0x2A ∨ sc = 0x36 then true else if sc = 0xAA ∨ sc = 0xB6 then false else s.shift) ∧
    (keyboard_irq s sc).caps = (if sc = 0x3A then !s.caps else s.caps) ∧
    (keyboard_irq s sc).ctrl = (if sc = 0x1D then true else if sc = 0x9D then false else s.ctrl) := by
  unfold keyboard_irq
  by_cases h1 : sc = 0x1D
  · subst h1
    exact ⟨rfl, rfl, rfl⟩
  by_cases h2 : sc = 0x9D
  · subst h2
    exact ⟨rfl, rfl, rfl⟩
  rw [if_neg h1, if_neg h2, if_neg h1, if_neg h2]
  by_cases h3 : sc = 0x2A ∨ sc = 0x36
  · rcases h3 with rfl | rfl <;> exact ⟨rfl, rfl, rfl⟩
  by_cases h4 : sc = 0xAA ∨ sc = 0xB6
  · rcases h4 with rfl | rfl <;> exact ⟨rfl, rfl, rfl⟩
  rw [if_neg h3, if_neg h4, if_neg h3, if_neg h4]
  by_cases h5 : sc = 0x3A
  · subst h5
    exact ⟨rfl, rfl, rfl⟩
  rw [if_neg h5, if_neg h5]
  dsimp only
  split_ifs
  · exact ⟨rfl, rfl, rfl⟩
  · exact ⟨rfl, rfl, rfl⟩
  · exact kbd_push_flags s _
  · exact kbd_push_flags s _

theorem Flags.irq (hf : Flags h s) (sc : UInt8) : Flags (h ++ [sc]) (keyboard_irq s sc) := by
  obtain ⟨h1, h2, h3⟩ := keyboard_irq_flags s sc
  refine ⟨?_, ?_, ?_⟩
  · rw [h1, shiftLast_concat, hf.shift]
  · rw [h2, capsOn_concat, hf.caps]
  · rw [h3, hf.ctrl]
    exact (held_concat 0x1D).symm

/-- A read and a push from elsewhere leave the flags alone. -/
theorem flags_after (kbd_buf : Nat → UInt8) (l : List Event) : Flags (codes l) (after kbd_buf l) := by
  induction l using List.reverseRecOn with
  | nil => exact ⟨rfl, rfl, rfl⟩
  | append_singleton l e ih =>
    have hafter : after kbd_buf (l ++ [e]) = (exec (l.foldl exec (start kbd_buf)) e).kbd := by
      unfold after
      rw [List.foldl_append]
      rfl
    unfold after at ih
    generalize l.foldl exec (start kbd_buf) = s at hafter ih
    have hcodes : codes (l ++ [e]) = codes l ++ codes [e] := List.filterMap_append
    rw [hafter, hcodes]
    cases e with
    | irq sc => exact ih.irq sc
    | push c =>
      obtain ⟨h1, h2, h3⟩ := kbd_push_flags s.kbd c
      have hsame := ih.same h1 h2 h3
      rwa [show codes [Event.push c] = [] from rfl, List.append_nil]
    | read =>
      rw [show codes [Event.read] = [] from rfl, List.append_nil]
      unfold exec
      cases hr : s.reader with
      | test =>
        dsimp only
        split_ifs
        · exact ih
        · exact ih
      | load => exact ih
      | update out => exact ih.same rfl rfl rfl

end

/-! ## The character of a key -/

/-- The tables hold the keys of the layout; no modifier and no control code is among them. -/
theorem qwerty_table : ∀ k ∈ us_qwerty, ∀ shift caps : Bool,
    irq_push ⟨fun _ => 0, 0, 0, shift, caps, false⟩ k.sc = some (if shift ^^ caps then k.shifted else k.plain) := by
  decide +kernel

theorem irq_push_key {k : Key} (hk : k ∈ us_qwerty) {s : St} (hctrl : s.ctrl = false) :
    irq_push s k.sc = some (if s.shift ^^ s.caps then k.shifted else k.plain) := by
  rw [← qwerty_table k hk s.shift s.caps]
  unfold irq_push
  rw [hctrl]
  rfl

/-- The handler picks the character of the layout exactly when the flag agrees with the keys. -/
theorem decodes_iff {kbd_buf : Nat → UInt8} {l : List Event} {k : Key} (hk : k ∈ us_qwerty)
    (hctrl : ctrlHeld (codes l) = false) : Decodes kbd_buf l k ↔ Agrees (codes l) k := by
  have hf := flags_after kbd_buf l
  unfold Decodes Agrees Key.char
  rw [irq_push_key hk (hf.ctrl.trans hctrl), hf.shift, hf.caps, Option.some_inj]
  by_cases hsame : k.plain = k.shifted
  · simp [hsame]
  · have hsame' := Ne.symm hsame
    cases k.letter <;> cases shiftLast (codes l) <;> cases capsOn (codes l) <;> cases shiftHeld (codes l) <;>
      simp [hsame, hsame']

/-- Every key that goes down with no Ctrl key held gives its character in a run exactly when each of them agrees with the
scancodes before it. -/
theorem keys_decode_iff (kbd_buf : Nat → UInt8) (l : List Event) :
    (∀ pre k, pre ++ [.irq k.sc] <+: l → k ∈ us_qwerty → ctrlHeld (codes pre) = false → Decodes kbd_buf pre k) ↔
      ∀ pre k, pre ++ [.irq k.sc] <+: l → k ∈ us_qwerty → ctrlHeld (codes pre) = false → Agrees (codes pre) k :=
  forall₂_congr fun _ _ => imp_congr_right fun _ => imp_congr_right fun hk => imp_congr_right fun hctrl =>
    decodes_iff hk hctrl

/-- Both Shift keys go down, one comes up, and `a` goes down. -/
theorem one_shift_released : ¬ ∀ kbd_buf l pre k, pre ++ [.irq k.sc] <+: l → k ∈ us_qwerty →
    ctrlHeld (codes pre) = false → Decodes kbd_buf pre k := by
  intro h
  have ha := h (fun _ => 0) [.irq 0x2A, .irq 0x36, .irq 0xB6, .irq 0x1E] [.irq 0x2A, .irq 0x36, .irq 0xB6]
    ⟨0x1E, 97, 65⟩ List.prefix_rfl (by decide +kernel) (by decide +kernel)
  unfold Decodes at ha
  revert ha
  decide +kernel

end H3OS.Keyboard
