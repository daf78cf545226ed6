import H3OS.Lib.Cstr
import H3OS.Lib.Words
import H3OS.Terminal.Packages
/-!
# The words of a line, in place

`next_arg` of `applications/terminal/terminal.c` on the memory that holds the
line. It ends a word by writing a NUL over the space behind it, and the next
call goes on behind that NUL. So the words stand in the line's own bytes, and
what is unread is still the end of the line as it was typed.
-/
open SysLib

namespace H3OS.Terminal

/-! ## The words of a line -/

section
variable {w gap x sep rest : List UInt8}

theorem next_arg_blank (h : ∀ y ∈ w, y = SPACE) : next_arg w = (none, []) := by
  have hdrop : w.dropWhile (· = SPACE) = [] := List.dropWhile_eq_nil_iff.2 (by simpa using h)
  simp [next_arg, hdrop]

theorem next_arg_first (h : First SPACE w gap x sep rest) : next_arg w = (some x, rest) := by
  obtain ⟨b, x', rfl⟩ := List.exists_cons_of_ne_nil h.ne_nil
  have hb : b ≠ SPACE := fun hb => h.no_sep (hb ▸ List.mem_cons_self)
  have hdrop : w.dropWhile (· = SPACE) = b :: x' ++ (sep ++ rest) := by
    rw [h.split, List.append_assoc, List.append_assoc, List.dropWhile_append_of_pos (by simpa using h.gap),
      List.cons_append, List.dropWhile_cons_of_neg (by simpa using hb)]
  have hclean : ∀ y ∈ b :: x', decide (y ≠ SPACE) = true := by
    intro y hy
    exact decide_eq_true fun hs => h.no_sep (hs ▸ hy)
  have hnext : (sep ++ rest).takeWhile (· ≠ SPACE) = [] ∧ (sep ++ rest).dropWhile (· ≠ SPACE) = sep ++ rest := by
    rcases h.stop with rfl | ⟨rfl, rfl⟩ <;> simp
  have htail : (sep ++ rest).tail = rest := by
    rcases h.stop with rfl | ⟨rfl, rfl⟩ <;> rfl
  unfold next_arg
  rw [hdrop]
  dsimp only
  rw [if_neg (by simp), List.takeWhile_append_of_pos hclean, List.dropWhile_append_of_pos hclean, hnext.1, hnext.2,
    htail, List.append_nil]

end

namespace Raw

/-- The loop `while (c(*p)) p++`. -/
def advance (c : UInt8 → Bool) (m : Mem) : Nat → Nat → Option Nat
  | 0, _ => none
  | fuel + 1, p => if c (m p) then advance c m fuel (p + 1) else some p

/-- The word, the memory and the cursor behind a call; `none` if a loop ran out of fuel. -/
def next_arg (fuel : Nat) (m : Mem) (p : Nat) : Option (Option Nat × Mem × Nat) := do
  let p ← advance (· = SPACE) m fuel p
  if m p = 0 then return (none, m, p)
  let start := p
  let p ← advance (fun c => c ≠ 0 ∧ c ≠ SPACE) m fuel p
  if m p ≠ 0 then return (some start, Function.update m p 0, p + 1)
  return (some start, m, p)

/-- What `k` calls on one cursor return. -/
def calls (fuel : Nat) : Nat → Mem → Nat → Option (List (Option Nat) × Mem × Nat)
  | 0, m, p => some ([], m, p)
  | k + 1, m, p => do
    let (starts, m, p) ← calls fuel k m p
    let (start, m, p) ← next_arg fuel m p
    return (starts ++ [start], m, p)

/-! ## One call -/

section
variable {m : Mem} {p fuel : Nat} {w u v : List UInt8}

theorem advance_eq {c : UInt8 → Bool} (h : StrAt m p (u ++ v)) (hu : ∀ x ∈ u, c x = true)
    (hv : c (m (p + u.length)) = false) (hf : u.length < fuel) : advance c m fuel p = some (p + u.length) := by
  induction fuel generalizing p u with
  | zero => omega
  | succ fuel ih =>
    rw [advance]
    cases u with
    | nil =>
      rw [List.length_nil, Nat.add_zero] at hv ⊢
      rw [if_neg (by simp [hv])]
      rfl
    | cons d u =>
      obtain ⟨-, hp, hrest⟩ := h
      rw [List.length_cons, Nat.add_comm u.length, ← Nat.add_assoc] at hv
      rw [List.length_cons] at hf
      rw [hp, if_pos (hu d List.mem_cons_self), ih hrest (fun x hx => hu x (List.mem_cons_of_mem _ hx)) hv (by omega),
        List.length_cons]
      congr 1
      omega

/-- Spaces only: there is no word, and the cursor is at the end. -/
theorem next_arg_none (h : StrAt m p w) (hw : ∀ x ∈ w, x = SPACE) (hf : w.length < fuel) :
    next_arg fuel m p = some (none, m, p + w.length) := by
  have hend := h.nul
  have hskip : advance (· = SPACE) m fuel p = some (p + w.length) := by
    refine advance_eq (v := []) ?_ (fun x hx => by simp [hw x hx]) ?_ hf
    · rwa [List.append_nil]
    · rw [hend]
      decide
  unfold next_arg
  rw [hskip]
  simp [hend]

/-- A first word: its space, if there is one, becomes its NUL. -/
theorem next_arg_word {gap x sep rest : List UInt8} (h : StrAt m p w) (hw : First SPACE w gap x sep rest)
    (hf : w.length < fuel) : next_arg fuel m p = some (some (p + gap.length),
      (if sep = [] then m else Function.update m (p + (gap ++ x).length) 0), p + (gap ++ x ++ sep).length) := by
  have hlen := congrArg List.length hw.split
  simp only [List.length_append] at hlen
  have hx : StrAt m (p + gap.length) (x ++ (sep ++ rest)) := by
    have hgap : StrAt m p (gap ++ (x ++ (sep ++ rest))) := by
      rw [hw.split] at h
      simpa using h
    exact hgap.drop
  have hskip : advance (· = SPACE) m fuel p = some (p + gap.length) := by
    refine advance_eq (v := x ++ (sep ++ rest)) ?_ (fun y hy => by simp [hw.gap y hy]) ?_ (by omega)
    · rw [hw.split] at h
      simpa using h
    · obtain ⟨b, x', rfl⟩ := List.exists_cons_of_ne_nil hw.ne_nil
      rw [hx.head.2]
      have hb : b ≠ SPACE := fun hb => hw.no_sep (hb ▸ List.mem_cons_self)
      simp [hb]
  have hfirst : m (p + gap.length) ≠ 0 := by
    obtain ⟨b, x', rfl⟩ := List.exists_cons_of_ne_nil hw.ne_nil
    rw [hx.head.2]
    exact hx.head.1
  -- behind the word stands the space or the terminator
  have hbehind : m (p + gap.length + x.length) = if sep = [] then 0 else SPACE := by
    have hsep := hx.drop
    rcases hw.stop with rfl | ⟨rfl, rfl⟩
    · exact hsep.head.2
    · exact hsep
  have hword : advance (fun c => c ≠ 0 ∧ c ≠ SPACE) m fuel (p + gap.length) = some (p + gap.length + x.length) := by
    refine advance_eq hx (fun y hy => ?_) ?_ (by omega)
    · have hzero := hx.ne_zero y (List.mem_append_left _ hy)
      have hspace : y ≠ SPACE := fun h => hw.no_sep (h ▸ hy)
      simp [hzero, hspace]
    · rw [hbehind]
      split_ifs <;> decide
  unfold next_arg
  rw [hskip]
  simp only [Option.bind_eq_bind, Option.bind_some, if_neg hfirst, hword]
  rcases hw.stop with rfl | ⟨rfl, rfl⟩
  · rw [if_neg (by simp)] at hbehind
    rw [if_pos (by rw [hbehind]; decide), if_neg (by simp)]
    simp [Nat.add_assoc]
  · rw [if_pos rfl] at hbehind
    rw [if_neg (by simp [hbehind])]
    simp [Nat.add_assoc]

/-- What a call leaves in memory: the word and the rest are strings, and one space of the line may be gone. -/
theorem next_arg_memory {gap x sep rest : List UInt8} {m' : Mem} (h : StrAt m p w) (hw : First SPACE w gap x sep rest)
    (hm : m' = if sep = [] then m else Function.update m (p + (gap ++ x).length) 0) :
    StrAt m' (p + gap.length) x ∧ StrAt m' (p + (gap ++ x ++ sep).length) rest ∧
      ∀ a, (a < p ∨ p + w.length ≤ a ∨ m a = 0) → m' a = m a := by
  have hline : StrAt m p (gap ++ x ++ sep ++ rest) := hw.split ▸ h
  have hlen := congrArg List.length hw.split
  simp only [List.length_append] at hlen
  have hpos := List.length_pos_of_ne_nil hw.ne_nil
  rcases hw.stop with rfl | ⟨rfl, rfl⟩
  · rw [if_neg (by simp)] at hm
    have hspace : m (p + (gap ++ x).length) = SPACE := by
      rw [List.append_assoc _ [SPACE]] at hline
      exact hline.drop.head.2
    rw [List.length_singleton] at hlen
    subst hm
    refine ⟨?_, ?_, ?_⟩
    · rw [List.append_assoc, List.append_assoc] at hline
      rw [List.length_append, ← Nat.add_assoc]
      exact hline.drop.cut
    · refine hline.drop.congr fun a ha _ => Function.update_of_ne ?_ _ _
      simp only [List.length_append, List.length_singleton] at ha ⊢
      omega
    · intro a ha
      refine Function.update_of_ne ?_ _ _
      rintro rfl
      rw [List.length_append] at ha hspace
      rcases ha with ha | ha | ha
      · omega
      · omega
      · rw [ha] at hspace
        cases hspace
  · rw [if_pos rfl] at hm
    subst hm
    rw [List.append_nil, List.append_nil] at hline
    refine ⟨hline.drop, ?_, fun _ _ => rfl⟩
    rw [List.append_nil]
    have hend := hline.nul
    exact hend

/-- The call on the line's bytes is the call on the line. -/
theorem next_arg_refines (h : StrAt m p w) (hf : w.length < fuel) :
    ∃ start m' p', next_arg fuel m p = some (start, m', p') ∧ StrAt m' p' (Terminal.next_arg w).2 ∧
      Option.Rel (StrAt m') start (Terminal.next_arg w).1 := by
  rcases first_word SPACE w with hw | ⟨gap, x, sep, rest, hw⟩
  · rw [next_arg_blank hw]
    exact ⟨_, _, _, next_arg_none h hw hf, h.nul, .none⟩
  · obtain ⟨hx, hrest, -⟩ := next_arg_memory h hw rfl
    rw [next_arg_first hw]
    exact ⟨_, _, _, next_arg_word h hw hf, hrest, .some hx⟩

end

/-! ## Calls on one cursor -/

/-- `rest` is what is left of the line behind its `k`-th word and at most one space. -/
structure Behind (w : List UInt8) (k : Nat) (pre rest : List UInt8) : Prop where
  split : w = pre ++ rest
  left : words SPACE rest = (words SPACE w).drop k
  start : k = 0 → pre = []
  stop : ∀ j x, k = j + 1 → (words SPACE w)[j]? = some x →
    ∃ front sep, pre = front ++ x ++ sep ∧ (sep = [SPACE] ∨ (sep = [] ∧ rest = []))
  done : (words SPACE w).length < k → rest = []

/-- After `k` calls the cursor is behind `pre`, and the words read so far are strings at `starts`. -/
structure Scanned (m : Mem) (p : Nat) (w : List UInt8) (k : Nat) (starts : List Nat) (m' : Mem) (pre rest : List UInt8) :
    Prop where
  read : List.Forall₂ (fun a x => StrAt m' a x ∧ p ≤ a ∧ a + x.length ≤ p + pre.length) starts
    ((words SPACE w).take k)
  behind : Behind w k pre rest
  unread : StrAt m' (p + pre.length) rest
  cursor : p + pre.length ≤ p + w.length
  outside : ∀ a, (a < p ∨ p + w.length ≤ a) → m' a = m a

section
variable {m m' : Mem} {p fuel k : Nat} {w pre rest : List UInt8} {starts : List Nat}

theorem scanned_start (h : StrAt m p w) : Scanned m p w 0 [] m [] w where
  read := .nil
  behind := ⟨rfl, rfl, fun _ => rfl, nofun, fun h => absurd h (Nat.not_lt_zero _)⟩
  unread := h
  cursor := by simp
  outside := fun _ _ => rfl

/-- A call with no word left goes to the end of the line. -/
theorem Scanned.blank (h : Scanned m p w k starts m' pre rest) (hr : ∀ y ∈ rest, y = SPACE) :
    (words SPACE w).length ≤ k ∧ Scanned m p w (k + 1) starts m' w [] := by
  have hdrop : (words SPACE w).drop k = [] := h.behind.left.symm.trans (words_eq_nil hr)
  have hk := List.drop_eq_nil_iff.1 hdrop
  have hcursor := h.cursor
  refine ⟨hk, ?_, ⟨?_, ?_, ?_, ?_, fun _ => rfl⟩, ?_, le_refl _, h.outside⟩
  · have hread := h.read
    rw [List.take_of_length_le hk] at hread
    rw [List.take_of_length_le (by omega)]
    exact hread.imp fun a x hx => ⟨hx.1, hx.2.1, by omega⟩
  · rw [List.append_nil]
  · rw [List.drop_eq_nil_iff.2 (by omega)]
    rfl
  · intro h0
    omega
  · intro j x hj hx
    obtain rfl : k = j := by omega
    rw [List.getElem?_eq_none hk] at hx
    cases hx
  · have hend := h.unread.nul
    have hlen := congrArg List.length h.behind.split
    rw [List.length_append] at hlen
    rw [hlen, ← Nat.add_assoc]
    exact hend

/-- A call with a word left reads it; the words before it stay as they are. -/
theorem Scanned.word {gap x sep rest' : List UInt8} {m'' : Mem} (h : Scanned m p w k starts m' pre rest)
    (hw : First SPACE rest gap x sep rest')
    (hm : m'' = if sep = [] then m' else Function.update m' (p + pre.length + (gap ++ x).length) 0) :
    k < (words SPACE w).length ∧
      Scanned m p w (k + 1) (starts ++ [p + pre.length + gap.length]) m'' (pre ++ (gap ++ x ++ sep)) rest' := by
  obtain ⟨hx, hrest, hsame⟩ := next_arg_memory h.unread hw hm
  have hdrop : (words SPACE w).drop k = x :: words SPACE rest' := h.behind.left.symm.trans hw.words
  have hget : (words SPACE w)[k]? = some x := by
    rw [← List.head?_drop, hdrop]
    rfl
  obtain ⟨hk, -⟩ := List.getElem?_eq_some_iff.1 hget
  have hsplit : w = pre ++ (gap ++ x ++ sep) ++ rest' := by
    rw [List.append_assoc, ← hw.split]
    exact h.behind.split
  have hlen := congrArg List.length hsplit
  have hlen' := congrArg List.length hw.split
  simp only [List.length_append] at hlen hlen'
  refine ⟨hk, ?_, ⟨hsplit, ?_, ?_, ?_, ?_⟩, ?_, ?_, ?_⟩
  · rw [List.take_add_one, hget]
    refine List.rel_append (h.read.imp ?_) (.cons ⟨hx, by omega, ?_⟩ .nil)
    · rintro a y ⟨hy, hpa, hle⟩
      refine ⟨hy.congr fun b h1 h2 => hsame b ?_, hpa, ?_⟩
      · -- the NUL behind a word that was read is not a space
        by_cases hb : b = a + y.length
        · exact .inr (.inr (hb ▸ hy.nul))
        · exact .inl (by omega)
      · rw [List.length_append]
        omega
    · simp only [List.length_append]
      omega
  · rw [← List.drop_drop, hdrop]
    rfl
  · intro h0
    omega
  · intro j y hj hy
    obtain rfl : k = j := by omega
    cases hget.symm.trans hy
    exact ⟨pre ++ gap, sep, by simp, hw.stop⟩
  · intro hlt
    omega
  · rw [List.length_append, ← Nat.add_assoc]
    exact hrest
  · simp only [List.length_append]
    omega
  · intro a ha
    rw [hsame a (by omega), h.outside a ha]

/-- Calls on one cursor return the words of the line in order and then `NULL`, each word a string that stays. -/
theorem next_arg_tokenises (h : StrAt m p w) (hf : w.length < fuel) (k : Nat) :
    ∃ starts m' pre rest, Scanned m p w k starts m' pre rest ∧ calls fuel k m p =
      some (starts.map some ++ List.replicate (k - (words SPACE w).length) none, m', p + pre.length) := by
  induction k with
  | zero => exact ⟨[], m, [], w, scanned_start h, by simp [calls]⟩
  | succ k ih =>
    obtain ⟨starts, m', pre, rest, hs, hc⟩ := ih
    have hlen := congrArg List.length hs.behind.split
    rw [List.length_append] at hlen
    rw [calls, hc]
    simp only [Option.bind_eq_bind, Option.bind_some]
    rcases first_word SPACE rest with hr | ⟨gap, x, sep, rest', hr⟩
    · obtain ⟨hk, hs'⟩ := hs.blank hr
      refine ⟨starts, m', w, [], hs', ?_⟩
      rw [next_arg_none hs.unread hr (by omega), Nat.succ_sub hk, List.replicate_succ', hlen]
      simp [Nat.add_assoc]
    · obtain ⟨hk, hs'⟩ := hs.word hr rfl
      refine ⟨_, _, _, rest', hs', ?_⟩
      rw [next_arg_word hs.unread hr (by omega), Nat.sub_eq_zero_of_le hk.le, Nat.sub_eq_zero_of_le hk]
      simp [Nat.add_assoc]

end

/-- A line in a memory that holds nothing else. -/
def typed (w : List UInt8) : Mem := fun a => w.getD a 0

theorem next_arg_tokenises_cp : ∃ starts m' pre rest,
    Scanned (typed (str " cp  a b ")) 0 (str " cp  a b ") 4 starts m' pre rest ∧
    calls 10 4 (typed (str " cp  a b ")) 0 =
      some (starts.map some ++ List.replicate (4 - (words SPACE (str " cp  a b ")).length) none, m', 0 + pre.length) :=
  next_arg_tokenises (by decide +kernel) (by decide +kernel) 4

end Raw

end H3OS.Terminal
