import H3OS.Terminal.Screen
/-!
# The screen is the end of an unbounded scrollback

`rows` breaks a text at its newlines and then every line after each 72
characters. `Shows t rs` says that the screen holds the last 24 of the rows
`rs`; a newline and a character keep it, for the rows that they make of `rs`.
-/
open SysLib

namespace H3OS.Terminal

/-! ## Rows of a text -/

/-- One line of text over as many rows as it takes, at least one. -/
def breakLine (l : List UInt8) : List (List UInt8) :=
  if l.length ≤ TERM_COLS then [l] else l.take TERM_COLS :: breakLine (l.drop TERM_COLS)
termination_by l.length
decreasing_by
  rw [List.length_drop, TERM_COLS] at *
  omega

def rows (text : List UInt8) : List (List UInt8) := (text.splitOn NEWLINE).flatMap breakLine

/-- A character on the last row, or on a new one if that is full. -/
def feed (rs : List (List UInt8)) (c : UInt8) : List (List UInt8) :=
  if (rs.getLastD []).length = TERM_COLS then rs ++ [[c]] else rs.dropLast ++ [rs.getLastD [] ++ [c]]

theorem breakLine_ne_nil (l : List UInt8) : breakLine l ≠ [] := by
  unfold breakLine
  split_ifs <;> exact List.cons_ne_nil _ _

theorem feed_append (rs : List (List UInt8)) {rs' : List (List UInt8)} (h : rs' ≠ []) (c : UInt8) :
    feed (rs ++ rs') c = rs ++ feed rs' c := by
  have hlast : (rs ++ rs').getLastD [] = rs'.getLastD [] := by
    rw [List.getLastD_eq_getLast?, List.getLastD_eq_getLast?, List.getLast?_append_of_ne_nil _ h]
  unfold feed
  rw [hlast, List.dropLast_append_of_ne_nil h]
  split_ifs <;> simp

theorem feed_singleton (l : List UInt8) (c : UInt8) :
    feed [l] c = if l.length = TERM_COLS then [l, [c]] else [l ++ [c]] := rfl

theorem breakLine_concat (l : List UInt8) (c : UInt8) : breakLine (l ++ [c]) = feed (breakLine l) c := by
  fun_induction breakLine l with
  | case1 l hle =>
    rw [feed_singleton, breakLine]
    by_cases hfull : l.length = TERM_COLS
    · have hlong : ¬ (l ++ [c]).length ≤ TERM_COLS := by
        rw [List.length_append, List.length_singleton]
        omega
      rw [if_neg hlong, if_pos hfull, ← hfull, List.take_left, List.drop_left, breakLine]
      rfl
    · have hshort : (l ++ [c]).length ≤ TERM_COLS := by
        rw [List.length_append, List.length_singleton]
        omega
      rw [if_pos hshort, if_neg hfull]
  | case2 l hlong ih =>
    have hle : TERM_COLS ≤ l.length := by omega
    rw [breakLine]
    have hlong' : ¬ (l ++ [c]).length ≤ TERM_COLS := by
      rw [List.length_append, List.length_singleton]
      omega
    rw [if_neg hlong', List.take_append_of_le_length hle, List.drop_append_of_le_length hle, ih]
    exact (feed_append [_] (breakLine_ne_nil _) c).symm

theorem splitOn_concat_char (text : List UInt8) {c : UInt8} (hc : c ≠ NEWLINE) :
    ∃ ls l, text.splitOn NEWLINE = ls ++ [l] ∧ (text ++ [c]).splitOn NEWLINE = ls ++ [l ++ [c]] := by
  induction text with
  | nil =>
    refine ⟨[], [], rfl, ?_⟩
    exact List.splitOn_eq_singleton (by simpa using hc.symm)
  | cons d text ih =>
    obtain ⟨ls, l, h1, h2⟩ := ih
    rw [List.cons_append, List.splitOn_cons_eq_if_modifyHead, List.splitOn_cons_eq_if_modifyHead, h1, h2]
    by_cases hd : (d == NEWLINE) = true
    · rw [if_pos hd, if_pos hd]
      exact ⟨[] :: ls, l, rfl, rfl⟩
    · rw [if_neg hd, if_neg hd]
      cases ls with
      | nil => exact ⟨[], d :: l, rfl, rfl⟩
      | cons l' ls => exact ⟨(d :: l') :: ls, l, rfl, rfl⟩

theorem rows_newline (text : List UInt8) : rows (text ++ [NEWLINE]) = rows text ++ [[]] := by
  unfold rows
  rw [List.splitOn_append_cons_self text [], List.flatMap_append]
  congr 1
  simp [breakLine]

theorem rows_char {c : UInt8} (text : List UInt8) (hc : c ≠ NEWLINE) : rows (text ++ [c]) = feed (rows text) c := by
  obtain ⟨ls, l, h1, h2⟩ := splitOn_concat_char text hc
  unfold rows
  rw [h1, h2, List.flatMap_append, List.flatMap_append, feed_append]
  · simp [breakLine_concat]
  · simpa using breakLine_ne_nil l

theorem rows_nil : rows [] = [[]] := by
  simp [rows, breakLine]

/-! ## Bytes -/

section Bytes

variable {m : Mem} {w : List UInt8}

theorem count_chars_eq {n s : Nat} (h : StrAt m s w) (hn : w.length < n) : count_chars m n s = some w.length := by
  induction w generalizing n s with
  | nil =>
    obtain ⟨n, rfl⟩ := Nat.exists_eq_succ_of_ne_zero (Nat.ne_of_gt hn)
    exact if_pos h
  | cons c w ih =>
    rw [List.length_cons] at hn
    obtain ⟨n, rfl⟩ := Nat.exists_eq_succ_of_ne_zero (show n ≠ 0 by omega)
    obtain ⟨hc, hs, hw⟩ := h
    rw [count_chars, hs, if_neg hc, ih hw (by omega)]
    rfl

/-- Copying a string downwards leaves it at its new place and everything outside of that as it was. -/
theorem copy_chars_spec {n dst src : Nat} (h : StrAt m src w) (hn : w.length < n) (hdst : dst + w.length < src) :
    ∃ m', copy_chars n m dst src = some m' ∧ StrAt m' dst w ∧
      ∀ a, a < dst ∨ dst + w.length < a → m' a = m a := by
  induction w generalizing n dst src m with
  | nil =>
    obtain ⟨n, rfl⟩ := Nat.exists_eq_succ_of_ne_zero (Nat.ne_of_gt hn)
    refine ⟨Function.update m dst (m src), if_pos h, ?_, fun a ha => Function.update_of_ne ?_ _ _⟩
    · exact (Function.update_self _ _ _).trans h
    · rw [List.length_nil] at ha
      omega
  | cons c w ih =>
    rw [List.length_cons] at hn hdst
    obtain ⟨n, rfl⟩ := Nat.exists_eq_succ_of_ne_zero (show n ≠ 0 by omega)
    obtain ⟨hc, hs, hw⟩ := h
    -- the byte written now is below the rest of the source
    have hw' : StrAt (Function.update m dst c) (src + 1) w :=
      hw.congr fun a h1 _ => Function.update_of_ne (by omega) _ _
    have hdst' : dst + 1 + w.length < src + 1 := by omega
    obtain ⟨m', hcopy, hstr, hrest⟩ := ih hw' (Nat.lt_of_succ_lt_succ hn) hdst'
    refine ⟨m', ?_, ⟨hc, ?_, hstr⟩, fun a ha => ?_⟩
    · rw [copy_chars, hs, if_neg hc, hcopy]
    · rw [hrest dst (.inl (by omega)), Function.update_self]
    · rw [List.length_cons] at ha
      rw [hrest a (by omega), Function.update_of_ne (by omega)]

theorem strlen_eq {i : Nat} (h : StrAt m (cell i 0) w) (hi : i < TERM_ROWS) (hw : w.length ≤ TERM_COLS) :
    strlen m (cell i 0) = some w.length := by
  apply count_chars_eq h
  unfold LINES_SIZE cell
  unfold TERM_ROWS at *
  unfold TERM_COLS at *
  omega

theorem store_eq {i j : Nat} (c : UInt8) (hi : i < TERM_ROWS) (hj : j ≤ TERM_COLS) :
    store m (cell i j) c = some (Function.update m (cell i j) c) := by
  apply if_pos
  unfold LINES_SIZE cell
  unfold TERM_ROWS at *
  unfold TERM_COLS at *
  omega

/-- What is written to one line leaves the others. -/
theorem other_line {m' : Mem} {i k : Nat} (h : StrAt m (cell i 0) w) (hw : w.length ≤ TERM_COLS) (hik : i ≠ k)
    (hm : ∀ a, a < cell k 0 ∨ cell k TERM_COLS < a → m' a = m a) : StrAt m' (cell i 0) w := by
  refine h.congr fun a h1 h2 => hm a ?_
  unfold cell at *
  unfold TERM_COLS at *
  omega

/-- The lines while they move up: those above `k` have moved. -/
theorem scroll_upto {f : Nat → List UInt8} (h : ∀ i < TERM_ROWS, StrAt m (cell i 0) (f i))
    (hf : ∀ i, (f i).length ≤ TERM_COLS) {k : Nat} (hk : k ≤ TERM_ROWS - 1) :
    ∃ m', (List.range k).foldlM (fun m i => strcpy m (cell i 0) (cell (i + 1) 0)) m = some m' ∧
      ∀ i < TERM_ROWS, StrAt m' (cell i 0) (if i < k then f (i + 1) else f i) := by
  induction k with
  | zero => exact ⟨m, rfl, fun i hi => h i hi⟩
  | succ k ih =>
    obtain ⟨m1, hm1, hlines⟩ := ih (by omega)
    have hsrc : StrAt m1 (cell (k + 1) 0) (f (k + 1)) := by
      have hline := hlines (k + 1) (by omega)
      rwa [if_neg (by omega)] at hline
    have hlen := hf (k + 1)
    have hfuel : (f (k + 1)).length < LINES_SIZE - max (cell k 0) (cell (k + 1) 0) := by
      unfold LINES_SIZE cell
      unfold TERM_ROWS at *
      unfold TERM_COLS at *
      omega
    have hbelow : cell k 0 + (f (k + 1)).length < cell (k + 1) 0 := by
      unfold cell
      unfold TERM_COLS at *
      omega
    obtain ⟨m2, hcopy, hstr, hrest⟩ := copy_chars_spec hsrc hfuel hbelow
    refine ⟨m2, ?_, fun i hi => ?_⟩
    · rw [List.range_succ, List.foldlM_append, hm1]
      simp [strcpy, hcopy]
    · by_cases hik : i = k
      · subst hik
        rw [if_pos (Nat.lt_succ_self i)]
        exact hstr
      · have hlt : i < k + 1 ↔ i < k := by omega
        simp only [hlt]
        refine other_line (hlines i hi) ?_ hik fun a ha => hrest a ?_
        · split_ifs
          · exact hf _
          · exact hf _
        · unfold cell at *
          omega

end Bytes

/-! ## The screen -/

/-- Line `i` of a screen that shows the end of `rs`. -/
def shown (rs : List (List UInt8)) (i : Nat) : List UInt8 := rs.getD (rs.length - TERM_ROWS + i) []

structure Shows (t : term_state_t) (rs : List (List UInt8)) : Prop where
  row : t.row + 1 = min rs.length TERM_ROWS
  short : ∀ r ∈ rs, r.length ≤ TERM_COLS
  lines : ∀ i < TERM_ROWS, StrAt t.lines (cell i 0) (shown rs i)

theorem shown_concat (rs : List (List UInt8)) (r : List UInt8) (i : Nat) :
    shown (rs ++ [r]) i =
      if rs.length + 1 - TERM_ROWS + i = rs.length then r else rs.getD (rs.length + 1 - TERM_ROWS + i) [] := by
  unfold shown
  rw [List.length_append, List.length_singleton]
  split_ifs with hi
  · rw [hi]
    simp
  · rw [List.getD_eq_getElem?_getD, List.getD_eq_getElem?_getD, List.getElem?_append]
    split_ifs with hlt
    · rfl
    · rw [List.getElem?_eq_none, List.getElem?_eq_none]
      · omega
      · rw [List.length_singleton]
        omega

theorem Shows.shown_short {t : term_state_t} {rs : List (List UInt8)} (h : Shows t rs) (i : Nat) :
    (shown rs i).length ≤ TERM_COLS := by
  unfold shown
  rw [List.getD_eq_getElem?_getD]
  cases hget : rs[rs.length - TERM_ROWS + i]? with
  | none => exact Nat.zero_le _
  | some r => exact h.short r (List.mem_of_getElem? hget)

theorem Shows.row_lt {t : term_state_t} {rs : List (List UInt8)} (h : Shows t rs) : t.row < TERM_ROWS := by
  have hrow := h.row
  omega

section Steps

variable {t : term_state_t} {rs : List (List UInt8)}

theorem short_concat {r : List UInt8} (h : ∀ r ∈ rs, r.length ≤ TERM_COLS) (hr : r.length ≤ TERM_COLS) :
    ∀ r' ∈ rs ++ [r], r'.length ≤ TERM_COLS := by
  intro r' hr'
  rw [List.mem_append, List.mem_singleton] at hr'
  rcases hr' with hr' | rfl
  · exact h r' hr'
  · exact hr

/-- Line `k` cleared, the others kept. -/
theorem clear_line {m : Mem} {f g : Nat → List UInt8} {k : Nat} (h : ∀ i < TERM_ROWS, StrAt m (cell i 0) (f i))
    (hf : ∀ i, (f i).length ≤ TERM_COLS) (hk : g k = []) (hg : ∀ i < TERM_ROWS, i ≠ k → g i = f i) :
    ∀ i < TERM_ROWS, StrAt (Function.update m (cell k 0) 0) (cell i 0) (g i) := by
  intro i hi
  by_cases hik : i = k
  · subst hik
    rw [hk]
    exact Function.update_self _ _ _
  · rw [hg i hi hik]
    refine other_line (h i hi) (hf i) hik fun a ha => Function.update_of_ne ?_ _ _
    unfold cell at *
    omega

theorem Shows.newline (h : Shows t rs) : ∃ t', term_newline t = some t' ∧ Shows t' (rs ++ [[]]) := by
  have hrow := h.row
  have hlen : (rs ++ [[]]).length = rs.length + 1 := by simp
  have hshort := short_concat (r := []) h.short (Nat.zero_le TERM_COLS)
  by_cases hroom : t.row < TERM_ROWS - 1
  · refine ⟨⟨Function.update t.lines (cell (t.row + 1) 0) 0, t.row + 1⟩, ?_, ?_, hshort, ?_⟩
    · unfold term_newline
      rw [if_pos hroom]
      simp [store_eq (m := t.lines) 0 (show t.row + 1 < TERM_ROWS by omega) (Nat.zero_le _)]
    · rw [hlen]
      dsimp only
      omega
    · refine clear_line h.lines h.shown_short ?_ fun i hi hik => ?_
      · rw [shown_concat, if_pos (by omega)]
      · rw [shown_concat, if_neg (by omega), shown]
        congr 1
        omega
  · -- the last line: the others move up
    have hlast : t.row = TERM_ROWS - 1 := by omega
    obtain ⟨m1, hscroll, hlines⟩ := scroll_upto h.lines h.shown_short (le_refl (TERM_ROWS - 1))
    have hlt : TERM_ROWS - 1 < TERM_ROWS := Nat.lt_succ_self 23
    refine ⟨⟨Function.update (Function.update m1 (cell (TERM_ROWS - 1) 0) 0) (cell (TERM_ROWS - 1) 0) 0, t.row⟩,
      ?_, ?_, hshort, ?_⟩
    · unfold term_newline scroll
      rw [if_neg hroom, hscroll]
      simp [store_eq (m := m1) 0 hlt (Nat.zero_le _), hlast,
        store_eq (m := Function.update m1 (cell (TERM_ROWS - 1) 0) 0) 0 hlt (Nat.zero_le _)]
    · rw [hlen]
      dsimp only
      omega
    · rw [Function.update_idem]
      refine clear_line hlines (fun i => ?_) ?_ fun i hi hik => ?_
      · split_ifs <;> exact h.shown_short _
      · rw [shown_concat, if_pos (by omega)]
      · rw [if_pos (by omega), shown_concat, if_neg (by omega), shown]
        congr 1
        omega

theorem Shows.put_char {r : List UInt8} {c : UInt8} (h : Shows t (rs ++ [r])) (hr : r.length < TERM_COLS) (hc : c ≠ 0) :
    ∃ t', put_char t r.length c = some t' ∧ Shows t' (rs ++ [r ++ [c]]) := by
  have hrow := h.row
  have hlt := h.row_lt
  have hlen : ∀ r : List UInt8, (rs ++ [r]).length = rs.length + 1 := fun r => by simp
  rw [hlen] at hrow
  have hlast : shown (rs ++ [r]) t.row = r := by
    rw [shown_concat, if_pos (by omega)]
  have hline : StrAt t.lines (cell t.row 0) r := by
    have hline := h.lines t.row hlt
    rwa [hlast] at hline
  refine ⟨⟨Function.update (Function.update t.lines (cell t.row r.length) c) (cell t.row (r.length + 1)) 0, t.row⟩,
    ?_, ?_, ?_, fun i hi => ?_⟩
  · unfold Terminal.put_char
    simp [store_eq (m := t.lines) c hlt (show r.length ≤ TERM_COLS by omega),
      store_eq (m := Function.update t.lines (cell t.row r.length) c) 0 hlt (show r.length + 1 ≤ TERM_COLS by omega)]
  · rw [hlen]
    exact hrow
  · refine short_concat (fun r' hr' => h.short r' (List.mem_append_left _ hr')) ?_
    rw [List.length_append, List.length_singleton]
    omega
  · rw [shown_concat]
    by_cases hik : i = t.row
    · subst hik
      rw [if_pos (by omega)]
      exact hline.append hc
    · rw [if_neg (by omega)]
      have hkeep := h.lines i hi
      have hshort := h.shown_short i
      rw [shown_concat, if_neg (by omega)] at hkeep hshort
      refine other_line hkeep hshort hik fun a ha => ?_
      dsimp only
      rw [Function.update_of_ne, Function.update_of_ne]
      · unfold cell at *
        omega
      · unfold cell at *
        omega

theorem Shows.ne_nil (h : Shows t rs) : rs ≠ [] := by
  rintro rfl
  have hrow := h.row
  rw [List.length_nil] at hrow
  omega

/-- One turn of the loop for a character that is no newline. -/
theorem Shows.char {c : UInt8} (h : Shows t rs) (hc : c ≠ 0) (hn : c ≠ NEWLINE) (s : List UInt8) :
    ∃ t', term_print t (c :: s) = term_print t' s ∧ Shows t' (feed rs c) := by
  obtain ⟨rs, r, rfl⟩ := List.eq_nil_or_concat' rs |>.resolve_left h.ne_nil
  have hlt := h.row_lt
  have hrow := h.row
  rw [List.length_append, List.length_singleton] at hrow
  have hr : r.length ≤ TERM_COLS := h.short r (List.mem_append_right _ (List.mem_singleton_self r))
  have hlen : strlen t.lines (cell t.row 0) = some r.length := by
    have hline := h.lines t.row hlt
    rw [shown_concat, if_pos (by omega)] at hline
    exact strlen_eq hline hlt hr
  rw [feed_append rs (List.cons_ne_nil _ _), feed_singleton, term_print, if_neg hc, if_neg hn, hlen]
  by_cases hfull : r.length = TERM_COLS
  · obtain ⟨t1, hnew, h1⟩ := h.newline
    obtain ⟨t2, hput, h2⟩ := h1.put_char (Nat.succ_pos 71) hc
    rw [if_pos hfull]
    refine ⟨t2, ?_, by simpa using h2⟩
    rw [List.length_nil] at hput
    simp [hfull, hnew, hput]
  · obtain ⟨t', hput, h'⟩ := h.put_char (by omega) hc
    rw [if_neg hfull]
    refine ⟨t', ?_, h'⟩
    simp [show ¬ TERM_COLS ≤ r.length by omega, hput]

theorem cstr_cons {c : UInt8} (hc : c ≠ 0) (s : List UInt8) : cstr (c :: s) = c :: cstr s :=
  List.takeWhile_cons_of_pos (by simpa using hc)

theorem Shows.print {text : List UInt8} (h : Shows t (rows text)) (s : List UInt8) :
    ∃ t', term_print t s = some t' ∧ Shows t' (rows (text ++ cstr s)) := by
  induction s generalizing t text with
  | nil => exact ⟨t, rfl, by rwa [cstr, List.takeWhile_nil, List.append_nil]⟩
  | cons c s ih =>
    by_cases hc : c = 0
    · subst hc
      exact ⟨t, if_pos rfl, by simpa [cstr] using h⟩
    rw [cstr_cons hc, List.append_cons]
    by_cases hn : c = NEWLINE
    · subst hn
      obtain ⟨t1, hnew, h1⟩ := h.newline
      rw [← rows_newline] at h1
      obtain ⟨t', hprint, h'⟩ := ih h1
      refine ⟨t', ?_, h'⟩
      rw [term_print, if_neg hc, if_pos rfl, hnew]
      exact hprint
    · obtain ⟨t1, hstep, h1⟩ := h.char hc hn s
      rw [← rows_char text hn] at h1
      obtain ⟨t', hprint, h'⟩ := ih h1
      exact ⟨t', hstep.trans hprint, h'⟩

/-- Printing `b` after `a` is printing `a` and `b` in one. -/
theorem print_append (t : term_state_t) (a b : List UInt8) :
    (term_print t a).bind (fun t => term_print t b) = term_print t (cstr a ++ b) := by
  induction a generalizing t with
  | nil => rfl
  | cons c a ih =>
    by_cases hc : c = 0
    · subst hc
      rfl
    rw [cstr_cons hc, List.cons_append, term_print, term_print, if_neg hc, if_neg hc]
    by_cases hn : c = NEWLINE
    · rw [if_pos hn, if_pos hn]
      cases term_newline t with
      | none => rfl
      | some t => exact ih t
    · rw [if_neg hn, if_neg hn]
      cases strlen t.lines (cell t.row 0) with
      | none => rfl
      | some len =>
        dsimp only [Option.bind_eq_bind, Option.bind_some]
        split_ifs
        · cases term_newline t with
          | none => rfl
          | some t =>
            dsimp only [Option.bind_some]
            cases put_char t 0 c with
            | none => rfl
            | some t => exact ih t
        · cases put_char t len c with
          | none => rfl
          | some t => exact ih t

/-! ## Whole runs -/

/-- What a call adds to the text. -/
def Call.text : Call → List UInt8
  | .term_print s => cstr s
  | .term_println s => cstr s ++ [NEWLINE]
  | .term_newline => [NEWLINE]

theorem Shows.exec {text : List UInt8} (h : Shows t (rows text)) (c : Call) :
    ∃ t', exec t c = some t' ∧ Shows t' (rows (text ++ c.text)) := by
  cases c with
  | term_print s => exact h.print s
  | term_println s =>
    obtain ⟨t1, hprint, h1⟩ := h.print s
    obtain ⟨t', hnew, h'⟩ := h1.newline
    refine ⟨t', ?_, ?_⟩
    · rw [Terminal.exec, term_println, hprint]
      exact hnew
    · rwa [← rows_newline, List.append_assoc] at h'
  | term_newline =>
    obtain ⟨t', hnew, h'⟩ := h.newline
    exact ⟨t', hnew, by rwa [← rows_newline] at h'⟩

theorem Shows.cleared : Shows cleared (rows []) := by
  rw [rows_nil]
  refine ⟨rfl, by simp, fun i hi => ?_⟩
  have hshown : shown [[]] i = [] := by
    rw [← List.nil_append [[]], shown_concat]
    split_ifs <;> rfl
  rw [hshown]
  rfl

theorem Shows.run (calls : List Call) :
    ∃ t, calls.foldlM Terminal.exec Terminal.cleared = some t ∧ Shows t (rows (calls.flatMap Call.text)) := by
  induction calls using List.reverseRecOn with
  | nil => exact ⟨_, rfl, Shows.cleared⟩
  | append_singleton calls c ih =>
    obtain ⟨t, hrun, h⟩ := ih
    obtain ⟨t', hexec, h'⟩ := h.exec c
    refine ⟨t', ?_, by simpa using h'⟩
    rw [List.foldlM_append, hrun]
    simp [hexec]

theorem Shows.line_text (h : Shows t rs) {i : Nat} (hi : i < TERM_ROWS) : line_text t i = shown rs i :=
  (h.lines i hi).takeWhile_eq (Nat.lt_succ_of_le (h.shown_short i))

/-- The lines up to `row` are the last rows of the text. -/
theorem Shows.lines_eq (h : Shows t rs) :
    (List.range (t.row + 1)).map (Terminal.line_text t) = rs.drop (rs.length - TERM_ROWS) := by
  have hrow := h.row
  apply List.ext_getElem
  · rw [List.length_map, List.length_range, List.length_drop]
    omega
  · intro i h1 h2
    rw [List.length_map, List.length_range] at h1
    rw [List.getElem_map, List.getElem_range, List.getElem_drop, h.line_text (by omega), shown,
      List.getD_eq_getElem]

end Steps

/-- After any sequence of calls the screen is the end of the text printed so far, broken into rows; every line ends
within its 72 characters, and printing in pieces is printing at once. -/
theorem terminal_scrollback (calls : List Call) :
    let rs := rows (calls.flatMap Call.text)
    ∃ t, calls.foldlM exec cleared = some t ∧ t.row < TERM_ROWS ∧
      (∀ i < TERM_ROWS, ∃ j ≤ TERM_COLS, t.lines (cell i j) = 0) ∧
      t.row + 1 = min rs.length TERM_ROWS ∧
      (List.range (t.row + 1)).map (line_text t) = rs.drop (rs.length - TERM_ROWS) ∧
      ∀ a b, (term_print t a).bind (fun t => term_print t b) = term_print t (cstr a ++ b) := by
  intro rs
  obtain ⟨t, hrun, h⟩ := Shows.run calls
  refine ⟨t, hrun, h.row_lt, fun i hi => ?_, h.row, h.lines_eq, print_append t⟩
  exact ⟨_, h.shown_short i, (h.lines i hi).nul⟩

end H3OS.Terminal
