import H3OS.Wm.Model
/-!
# The table of windows

`win_count` is the number of active slots, and `wm_get` counts them off in
order. Only `wm_create` and `wm_destroy` change which slots are active, the
close button through the latter. Painting and hit testing walk the table in
opposite directions and agree on which window is on top.
-/
open H3OS.Mouse

namespace H3OS.Wm

theorem set_same (s : St) (i : WinPtr) (v : window_t) : (s.set i v).windows i = v := by
  simp [St.set]

theorem set_other (s : St) {i j : WinPtr} (v : window_t) (h : j ≠ i) : (s.set i v).windows j = s.windows j := by
  simp [St.set, h]

theorem mem_slots (i : WinPtr) : i ∈ slots := List.mem_finRange i

theorem slots_nodup : slots.Nodup := List.nodup_finRange _

/-- The active slots, in order. -/
def actives (s : St) : List WinPtr := slots.filter (fun i => (s.windows i).active)

theorem actives_nodup (s : St) : (actives s).Nodup := slots_nodup.filter _

theorem mem_actives {s : St} {i : WinPtr} : i ∈ actives s ↔ (s.windows i).active = true := by
  simp [actives, mem_slots]

/-! ## What the operations do to the table -/

/-- The same slots are active, and as many are counted. -/
structure SameActive (s s' : St) : Prop where
  active : ∀ i, (s'.windows i).active = (s.windows i).active
  count : s'.win_count = s.win_count

/-- Only the geometry of window `i` and its state change, and it is not minimised by it. -/
structure Touched (s : St) (i : WinPtr) (s' : St) : Prop where
  others : ∀ j, j ≠ i → s'.windows j = s.windows j
  active : (s'.windows i).active = (s.windows i).active
  flag : (s'.windows i).focused = (s.windows i).focused
  state : (s'.windows i).state = (s.windows i).state ∨ (s'.windows i).state ≠ .WIN_MINIMIZED
  focused : s'.focused = s.focused
  count : s'.win_count = s.win_count

section
variable {s s' t : St} {i : WinPtr}

theorem SameActive.rfl (s : St) : SameActive s s := ⟨fun _ => Eq.refl _, Eq.refl _⟩

theorem SameActive.trans (h : SameActive s s') (h' : SameActive s' t) : SameActive s t :=
  ⟨fun i => (h'.active i).trans (h.active i), h'.count.trans h.count⟩

theorem SameActive.actives (h : SameActive s s') : actives s' = actives s := by
  unfold Wm.actives
  simp only [h.active]

theorem Touched.sameActive (h : Touched s i s') : SameActive s s' := by
  refine ⟨fun j => ?_, h.count⟩
  by_cases hj : j = i
  · rw [hj, h.active]
  · rw [h.others j hj]

theorem Touched.rfl (s : St) (i : WinPtr) : Touched s i s :=
  ⟨fun _ _ => Eq.refl _, Eq.refl _, Eq.refl _, .inl (Eq.refl _), Eq.refl _, Eq.refl _⟩

theorem Touched.trans (h : Touched s i s') (h' : Touched s' i t) : Touched s i t := by
  refine ⟨fun j hj => (h'.others j hj).trans (h.others j hj), h'.active.trans h.active, h'.flag.trans h.flag, ?_,
    h'.focused.trans h.focused, h'.count.trans h.count⟩
  rcases h'.state with hs | hs
  · rw [hs]
    exact h.state
  · exact .inr hs

theorem Touched.set {v : window_t} (ha : v.active = (s.windows i).active) (hf : v.focused = (s.windows i).focused)
    (hs : v.state = (s.windows i).state ∨ v.state ≠ .WIN_MINIMIZED) : Touched s i (s.set i v) := by
  refine ⟨fun j hj => set_other s v hj, ?_, ?_, ?_, Eq.refl _, Eq.refl _⟩
  · rw [set_same, ha]
  · rw [set_same, hf]
  · rw [set_same]
    exact hs

theorem touched_move (s : St) (i : WinPtr) (x y : Int) : Touched s i (wm_move s (some i) x y) :=
  .set (Eq.refl _) (Eq.refl _) (.inl (Eq.refl _))

theorem touched_resize (s : St) (i : WinPtr) (w h : Int) : Touched s i (wm_resize s (some i) w h) :=
  .set (Eq.refl _) (Eq.refl _) (.inl (Eq.refl _))

/-- Setting a state touches geometry and state only. -/
theorem set_state_kept (fb : fb_t) (v : window_t) (state : win_state_t) :
    (set_state fb v state).active = v.active ∧ (set_state fb v state).focused = v.focused ∧
      (set_state fb v state).state = state := by
  unfold set_state
  split_ifs <;> exact ⟨Eq.refl _, Eq.refl _, Eq.refl _⟩

theorem touched_set_state (fb : fb_t) (s : St) (i : WinPtr) {state : win_state_t} (h : state ≠ .WIN_MINIMIZED) :
    Touched s i (wm_set_state fb s (some i) state) := by
  obtain ⟨ha, hf, hs⟩ := set_state_kept fb (s.windows i) state
  exact .set ha hf (.inr (fun hmin => h (hs.symm.trans hmin)))

/-- A snapped window is not minimised. -/
theorem snap_kept (fb : fb_t) (v : window_t) (layout : Int) :
    (snap fb v layout).active = v.active ∧ (snap fb v layout).focused = v.focused ∧
      (snap fb v layout).state ≠ .WIN_MINIMIZED := by
  unfold snap
  dsimp only
  generalize hu : (if v.state ≠ .WIN_MAXIMIZED ∧ layout ≠ 6 then save_geometry v else v) = u
  have hkept : u.active = v.active ∧ u.focused = v.focused := by
    rw [← hu]
    split_ifs <;> exact ⟨Eq.refl _, Eq.refl _⟩
  by_cases h6 : layout = 6
  · rw [if_pos h6]
    obtain ⟨ha, hf, hs⟩ := set_state_kept fb u .WIN_MAXIMIZED
    exact ⟨ha.trans hkept.1, hf.trans hkept.2, by rw [hs]; decide⟩
  · rw [if_neg h6]
    cases snap_rect fb layout with
    | none => exact ⟨hkept.1, hkept.2, by simp⟩
    | some r => exact ⟨hkept.1, hkept.2, by simp⟩

theorem touched_snap (fb : fb_t) (s : St) (i : WinPtr) (layout : Int) : Touched s i (wm_snap fb s (some i) layout) := by
  obtain ⟨ha, hf, hs⟩ := snap_kept fb (s.windows i) layout
  exact .set ha hf (.inr hs)

theorem touched_drag (fb : fb_t) (s : St) (i : WinPtr) (m : mouse_state_t) : Touched s i (drag fb s i m) := by
  have hoff : ∀ t : St, Touched s i t → ∀ win x y b, Touched s i
      { t with drag_win := win, drag_off_x := x, drag_off_y := y, dragging := b } := fun t ht _ _ _ _ =>
    ⟨ht.others, ht.active, ht.flag, ht.state, ht.focused, ht.count⟩
  unfold drag
  by_cases hleft : m.left = true
  · rw [if_pos hleft]
    refine Touched.trans ?_ (touched_move _ i _ _)
    by_cases hmax : (s.windows i).state = .WIN_MAXIMIZED
    · rw [if_pos hmax]
      exact hoff _ (touched_set_state fb s i (by decide)) _ _ _ _
    · rw [if_neg hmax]
      exact .rfl s i
  · rw [if_neg hleft]
    refine hoff _ ?_ _ _ _ _
    split_ifs
    · exact touched_snap fb s i 0
    · exact touched_snap fb s i 1
    · exact touched_snap fb s i 6
    · exact .rfl s i

/-- Of a window that is focused, and of every other one, all but focus and state stay. -/
theorem wm_focus_windows (s : St) (i j : WinPtr) :
    (wm_focus s (some i)).windows j = if j = i then { s.windows i with
        focused := true, state := if (s.windows i).state = .WIN_MINIMIZED then .WIN_NORMAL else (s.windows i).state }
      else { s.windows j with focused := false } := by
  unfold wm_focus St.set
  dsimp only
  by_cases h : j = i
  · rw [if_pos h, h, Function.update_self]
  · rw [if_neg h, Function.update_of_ne h]

theorem sameActive_focus (s : St) (win : Option WinPtr) : SameActive s (wm_focus s win) := by
  cases win with
  | none => exact ⟨fun _ => Eq.refl _, Eq.refl _⟩
  | some i =>
    refine ⟨fun j => ?_, Eq.refl _⟩
    rw [wm_focus_windows]
    by_cases h : j = i
    · rw [if_pos h, h]
    · rw [if_neg h]

/-- Minimising a window, as three of the paths do. -/
theorem sameActive_minimise (s : St) (i : WinPtr) (f : Option WinPtr) :
    SameActive s { s.set i { s.windows i with state := .WIN_MINIMIZED } with focused := f } := by
  refine ⟨fun j => ?_, Eq.refl _⟩
  dsimp only
  by_cases hj : j = i
  · rw [hj, set_same]
  · rw [set_other s _ hj]

theorem sameActive_restore (s : St) (win : Option WinPtr) : SameActive s (wm_restore_or_focus s win) := by
  unfold wm_restore_or_focus
  cases win with
  | none => exact .rfl s
  | some i =>
    dsimp only
    split_ifs
    · exact sameActive_minimise s i none
    · exact sameActive_focus s (some i)

theorem sameActive_set_state (fb : fb_t) (s : St) (win : Option WinPtr) (state : win_state_t) :
    SameActive s (wm_set_state fb s win state) := by
  cases win with
  | none => exact .rfl s
  | some i =>
    refine ⟨fun j => ?_, Eq.refl _⟩
    unfold wm_set_state
    by_cases hj : j = i
    · rw [hj, set_same]
      exact (set_state_kept fb _ state).1
    · rw [set_other s _ hj]

/-! ## Whole operations -/

/-- The minimise button of a window is under the mouse. -/
def OnButton (v : window_t) (m : mouse_state_t) : Prop :=
  (m.y ≥ v.y ∧ m.y < v.y + 32) ∧ (m.x ≥ v.x + v.w - 138 ∧ m.x < v.x + v.w - 92)

/-- What a press on a window does: it closes or minimises it, or it touches it. -/
theorem press_cases (fb : fb_t) (s : St) (i : WinPtr) (m : mouse_state_t) :
    press fb s i m = wm_destroy s (some i) ∨
    (OnButton (s.windows i) m ∧ press fb s i m = { s.set i { s.windows i with state := .WIN_MINIMIZED } with
      focused := if s.focused = some i then none else s.focused }) ∨
    Touched s i (press fb s i m) := by
  unfold press
  dsimp only
  by_cases hbar : m.y ≥ (s.windows i).y ∧ m.y < (s.windows i).y + 32
  · rw [if_pos hbar]
    by_cases hclose : m.x ≥ (s.windows i).x + (s.windows i).w - 46 ∧ m.x < (s.windows i).x + (s.windows i).w
    · rw [if_pos hclose]
      exact .inl (Eq.refl _)
    rw [if_neg hclose]
    by_cases hmax : m.x ≥ (s.windows i).x + (s.windows i).w - 92 ∧ m.x < (s.windows i).x + (s.windows i).w - 46
    · rw [if_pos hmax]
      refine .inr (.inr ?_)
      split_ifs
      · exact touched_set_state fb s i (by decide)
      · exact touched_set_state fb s i (by decide)
    rw [if_neg hmax]
    by_cases hmin : m.x ≥ (s.windows i).x + (s.windows i).w - 138 ∧ m.x < (s.windows i).x + (s.windows i).w - 92
    · rw [if_pos hmin]
      exact .inr (.inl ⟨⟨hbar, hmin⟩, Eq.refl _⟩)
    · rw [if_neg hmin]
      exact .inr (.inr ⟨fun _ _ => Eq.refl _, Eq.refl _, Eq.refl _, .inl (Eq.refl _), Eq.refl _, Eq.refl _⟩)
  · rw [if_neg hbar]
    exact .inr (.inr (.rfl s i))

theorem press_minimise (fb : fb_t) {m : mouse_state_t} (h : OnButton (s.windows i) m) :
    press fb s i m = { s.set i { s.windows i with state := .WIN_MINIMIZED } with
      focused := if s.focused = some i then none else s.focused } := by
  obtain ⟨hbar, hmin⟩ := h
  unfold press
  rw [if_pos hbar, if_neg (by omega), if_neg (by omega), if_pos hmin]
  exact Eq.refl _

/-- What handling the mouse does: a turn of a drag, nothing, or a press on the window on top. -/
theorem wm_handle_mouse_cases (fb : fb_t) (s : St) (m : mouse_state_t) :
    (∃ i, s.drag_win = some i ∧ s.dragging = true ∧ (s.windows i).active = true ∧ wm_handle_mouse fb s m = drag fb s i m) ∨
    ((∀ i, s.drag_win = some i → s.dragging = true → (s.windows i).active = false) ∧
      wm_handle_mouse fb s m = click fb s m) := by
  unfold wm_handle_mouse
  cases s.drag_win with
  | none => exact .inr ⟨fun i hi => (by cases hi), Eq.refl _⟩
  | some i =>
    dsimp only
    by_cases hd : s.dragging = true ∧ (s.windows i).active = true
    · rw [if_pos hd]
      exact .inl ⟨i, Eq.refl _, hd.1, hd.2, Eq.refl _⟩
    · rw [if_neg hd]
      refine .inr ⟨fun j hj hdrag => ?_, Eq.refl _⟩
      cases hj
      simpa [hdrag] using hd

/-- Every operation but creating a window destroys one or leaves the table as it is. -/
theorem exec_cases (p : perf_settings_t) (fb : fb_t) (s : St) (op : Op) :
    (∃ title x y w h, op = .create title x y w h) ∨
    (∃ s₁ win, SameActive s s₁ ∧ exec p fb s op = wm_destroy s₁ win) ∨ SameActive s (exec p fb s op) := by
  cases op with
  | create title x y w h => exact .inl ⟨title, x, y, w, h, Eq.refl _⟩
  | destroy win => exact .inr (.inl ⟨s, win, .rfl s, Eq.refl _⟩)
  | focus win => exact .inr (.inr (sameActive_focus s win))
  | restore_or_focus win => exact .inr (.inr (sameActive_restore s win))
  | move win x y =>
    cases win with
    | none => exact .inr (.inr (.rfl s))
    | some i => exact .inr (.inr (touched_move s i x y).sameActive)
  | resize win w h =>
    cases win with
    | none => exact .inr (.inr (.rfl s))
    | some i => exact .inr (.inr (touched_resize s i w h).sameActive)
  | set_state win state => exact .inr (.inr (sameActive_set_state fb s win state))
  | snap win layout =>
    cases win with
    | none => exact .inr (.inr (.rfl s))
    | some i => exact .inr (.inr (touched_snap fb s i layout).sameActive)
  | handle_mouse m =>
    rw [exec]
    rcases wm_handle_mouse_cases fb s m with ⟨i, -, -, -, h⟩ | ⟨-, h⟩
    · rw [h]
      exact .inr (.inr (touched_drag fb s i m).sameActive)
    · rw [h, click]
      split_ifs
      · exact .inr (.inr (.rfl s))
      · cases wm_at s m.x m.y with
        | none => exact .inr (.inr (.rfl s))
        | some i =>
          have hf := sameActive_focus s (some i)
          rcases press_cases fb (wm_focus s (some i)) i m with h | ⟨-, h⟩ | h
          · exact .inr (.inl ⟨_, some i, hf, h⟩)
          · refine .inr (.inr (hf.trans ?_))
            dsimp only
            rw [h]
            exact sameActive_minimise _ i _
          · exact .inr (.inr (hf.trans h.sameActive))

/-! ## Counting -/

/-- The count is that of the active slots, and the settings allow it. -/
structure Counted (p : perf_settings_t) (s : St) : Prop where
  count : s.win_count = (actives s).length
  bound : s.win_count ≤ p.max_windows

theorem SameActive.counted {p : perf_settings_t} (h : SameActive s s') (hc : Counted p s) : Counted p s' := by
  refine ⟨?_, ?_⟩
  · rw [h.count, h.actives]
    exact hc.count
  · rw [h.count]
    exact hc.bound

/-- While a slot is free, the table has one active slot less than it will have. -/
theorem actives_insert {v : window_t} (hi : (s.windows i).active = false) (hv : v.active = true) :
    (actives (s.set i v)).length = (actives s).length + 1 := by
  have hperm : (actives (s.set i v)).Perm (i :: actives s) := by
    refine (List.perm_ext_iff_of_nodup (actives_nodup _) ?_).2 (fun j => ?_)
    · refine List.nodup_cons.2 ⟨?_, actives_nodup _⟩
      rw [mem_actives, hi]
      decide
    · rw [List.mem_cons, mem_actives, mem_actives]
      by_cases hj : j = i
      · rw [hj, set_same]
        simp [hv]
      · rw [set_other s v hj]
        simp [hj]
  rw [hperm.length_eq, List.length_cons]

theorem actives_erase {v : window_t} (hi : (s.windows i).active = true) (hv : v.active = false) :
    (actives (s.set i v)).length + 1 = (actives s).length := by
  -- putting the window back is an insertion into the free slot
  have hback : (s.set i v).set i (s.windows i) = s := by
    unfold St.set
    simp
  have hins := actives_insert (s := s.set i v) (v := s.windows i) (by rw [set_same]; exact hv) hi
  rw [hback] at hins
  exact hins.symm

/-- What creating a window does: nothing when the settings allow no more, else it takes a free slot and the focus. -/
theorem Counted.wm_create_cases {p : perf_settings_t} (hp : p.max_windows ≤ WM_MAX_WINDOWS) (hc : Counted p s)
    (title : Option (List UInt8)) (x y w h : Int) :
    (s.win_count ≥ p.max_windows ∧ wm_create p s title x y w h = (none, s)) ∨
    (s.win_count < p.max_windows ∧ ∃ i v, (s.windows i).active = false ∧ v.active = true ∧ v.state = .WIN_NORMAL ∧
      wm_create p s title x y w h =
        (some i, wm_focus { s.set i v with win_count := (s.win_count + 1) % 2 ^ 32 } (some i))) := by
  unfold wm_create
  by_cases hfull : s.win_count ≥ p.max_windows
  · rw [if_pos hfull]
    exact .inl ⟨hfull, Eq.refl _⟩
  · rw [if_neg hfull]
    refine .inr ⟨by omega, ?_⟩
    cases hf : slots.find? (fun i => !(s.windows i).active) with
    | some i =>
      have hi := List.find?_some hf
      exact ⟨i, _, by simpa using hi, Eq.refl _, Eq.refl _, Eq.refl _⟩
    | none =>
      -- every slot is active, so the count has reached the size of the table
      have hall : actives s = slots := by
        refine List.filter_eq_self.2 (fun i hi => ?_)
        simpa using List.find?_eq_none.1 hf i hi
      have hcount := hc.count
      rw [hall, slots, List.length_finRange] at hcount
      omega

theorem Counted.create {p : perf_settings_t} (hp : p.max_windows ≤ WM_MAX_WINDOWS) (hc : Counted p s)
    (title : Option (List UInt8)) (x y w h : Int) : Counted p (wm_create p s title x y w h).2 := by
  rcases hc.wm_create_cases hp title x y w h with ⟨-, he⟩ | ⟨hlt, i, v, hi, hv, -, he⟩
  · rw [he]
    exact hc
  · rw [he]
    have hmod : (s.win_count + 1) % 2 ^ 32 = s.win_count + 1 := by
      unfold WM_MAX_WINDOWS at hp
      omega
    refine (sameActive_focus _ (some i)).counted ⟨?_, ?_⟩
    · dsimp only
      rw [hmod, hc.count]
      exact (actives_insert hi hv).symm
    · dsimp only
      rw [hmod]
      exact hlt

theorem Counted.destroy {p : perf_settings_t} (hp : p.max_windows ≤ WM_MAX_WINDOWS) (hc : Counted p s)
    (win : Option WinPtr) : Counted p (wm_destroy s win) := by
  unfold wm_destroy
  cases win with
  | none => exact hc
  | some i =>
    dsimp only
    by_cases hi : (s.windows i).active = false
    · rw [if_pos hi]
      exact hc
    · rw [if_neg hi]
      have hlen := actives_erase (v := { s.windows i with active := false }) (by simpa using hi) (Eq.refl _)
      have hcount := hc.count
      have hbound := hc.bound
      -- an active slot was counted, so the counter does not wrap
      have hdec : (s.win_count + (2 ^ 32 - 1)) % 2 ^ 32 = s.win_count - 1 := by
        unfold WM_MAX_WINDOWS at hp
        omega
      refine ⟨?_, ?_⟩
      · refine hdec.trans ?_
        rw [hcount, ← hlen, Nat.add_sub_cancel]
        rfl
      · refine hdec.trans_le ?_
        omega

theorem Counted.exec {p : perf_settings_t} (hp : p.max_windows ≤ WM_MAX_WINDOWS) (hc : Counted p s) (fb : fb_t) (op : Op) :
    Counted p (exec p fb s op) := by
  rcases exec_cases p fb s op with ⟨title, x, y, w, h, rfl⟩ | ⟨s₁, win, hs, he⟩ | hs
  · exact hc.create hp title x y w h
  · rw [he]
    exact (hs.counted hc).destroy hp win
  · exact hs.counted hc

theorem counted_runs {p : perf_settings_t} (hp : p.max_windows ≤ WM_MAX_WINDOWS) (fb : fb_t) (ops : List Op) :
    Counted p (ops.foldl (Wm.exec p fb) wm_init) := by
  refine List.foldlRecOn ops _ ⟨?_, Nat.zero_le _⟩ (fun s hs op _ => hs.exec hp fb op)
  unfold actives wm_init blank
  simp

/-! ## Counting off -/

theorem get_from_eq (s : St) (index : Nat) (l : List WinPtr) (n : Nat) (h : n ≤ index) :
    get_from s index l n = (l.filter (fun i => (s.windows i).active))[index - n]? := by
  induction l generalizing n with
  | nil => rfl
  | cons i l ih =>
    rw [get_from]
    by_cases hi : (s.windows i).active = false
    · rw [if_pos hi, ih n h, List.filter_cons_of_neg (by simp [hi])]
    · rw [if_neg hi, List.filter_cons_of_pos (by simpa using hi)]
      by_cases hn : n = index
      · rw [if_pos hn, hn, Nat.sub_self]
        rfl
      · rw [if_neg hn, ih (n + 1) (by omega), show index - n = (index - (n + 1)) + 1 by omega, List.getElem?_cons_succ]

theorem wm_get_eq (s : St) (index : Nat) : wm_get s index = (actives s)[index]? := by
  rw [wm_get, get_from_eq s index slots 0 (Nat.zero_le _)]
  rfl

end

/-- The bookkeeping of the table. -/
structure Bookkept (p : perf_settings_t) (s : St) : Prop where
  count : wm_count s = (slots.filter (fun i => (s.windows i).active)).length
  bound : wm_count s ≤ p.max_windows
  get_active : ∀ k < wm_count s, ∃ i, wm_get s k = some i ∧ (s.windows i).active = true
  get_inj : ∀ k l i, wm_get s k = some i → wm_get s l = some i → k = l
  get_surj : ∀ i, (s.windows i).active = true → ∃ k < wm_count s, wm_get s k = some i
  get_beyond : ∀ k, wm_count s ≤ k → wm_get s k = none
  create_none : ∀ title x y w h, (wm_create p s title x y w h).1 = none ↔ wm_count s ≥ p.max_windows
  create_slot : ∀ title x y w h i, (wm_create p s title x y w h).1 = some i →
    (s.windows i).active = false ∧ ((wm_create p s title x y w h).2.windows i).active = true ∧
    ∀ j, j ≠ i → (wm_create p s title x y w h).2.windows j = { s.windows j with focused := false }

theorem Counted.bookkept {p : perf_settings_t} {s : St} (hp : p.max_windows ≤ WM_MAX_WINDOWS) (hc : Counted p s) :
    Bookkept p s where
  count := hc.count
  bound := hc.bound
  get_active k hk := by
    have hlt : k < (actives s).length := hc.count ▸ hk
    refine ⟨(actives s)[k], ?_, mem_actives.1 (List.getElem_mem hlt)⟩
    rw [wm_get_eq, List.getElem?_eq_getElem hlt]
  get_inj k l i hk hl := by
    rw [wm_get_eq] at hk hl
    obtain ⟨h1, h2⟩ := List.getElem?_eq_some_iff.1 hk
    obtain ⟨h3, h4⟩ := List.getElem?_eq_some_iff.1 hl
    exact (List.Nodup.getElem_inj_iff (actives_nodup s)).1 (h2.trans h4.symm)
  get_surj i hi := by
    obtain ⟨k, hk, he⟩ := List.getElem_of_mem (mem_actives.2 hi)
    refine ⟨k, hk.trans_eq hc.count.symm, ?_⟩
    rw [wm_get_eq, List.getElem?_eq_getElem hk, he]
  get_beyond k hk := by
    rw [wm_get_eq]
    exact List.getElem?_eq_none (hc.count ▸ hk)
  create_none title x y w h := by
    rcases hc.wm_create_cases hp title x y w h with ⟨hfull, he⟩ | ⟨hlt, i, v, -, -, -, he⟩
    · rw [he]
      exact ⟨fun _ => hfull, fun _ => rfl⟩
    · rw [he]
      exact ⟨fun hn => (by cases hn), fun hge => absurd hlt (not_lt.2 hge)⟩
  create_slot title x y w h i hi := by
    rcases hc.wm_create_cases hp title x y w h with ⟨-, he⟩ | ⟨-, j, v, hj, hv, -, he⟩
    · rw [he] at hi
      cases hi
    · rw [he] at hi ⊢
      cases hi
      refine ⟨hj, ?_, fun k hk => ?_⟩
      · rw [wm_focus_windows, if_pos rfl]
        dsimp only
        rw [set_same]
        exact hv
      · rw [wm_focus_windows, if_neg hk]
        dsimp only
        rw [set_other s v hk]

/-- In every run the table is in step with its count, its enumeration and its free slots. -/
theorem bookkeeping {p : perf_settings_t} (hp : p.max_windows ≤ WM_MAX_WINDOWS) (fb : fb_t) (ops : List Op) :
    Bookkept p (ops.foldl (exec p fb) wm_init) :=
  (counted_runs hp fb ops).bookkept hp

/-- Every profile that `adaptive_init` sets up allows no more windows than there are slots. -/
theorem adaptive_max_windows (total_bytes : Nat) (cpu : cpu_info_t) :
    (adaptive_init total_bytes cpu).max_windows ≤ WM_MAX_WINDOWS := by
  unfold adaptive_init
  dsimp only
  split_ifs <;> decide

/-- One window, destroyed twice. -/
theorem bookkeeping_twice_destroyed :
    Bookkept ⟨.PERF_LOW, 4⟩ ([.create none 0 0 100 100, .destroy (some ⟨0, by decide⟩),
      .destroy (some ⟨0, by decide⟩)].foldl (exec ⟨.PERF_LOW, 4⟩ ⟨1280, 720⟩) wm_init) :=
  bookkeeping (by decide) _ _

/-! ## Painting and hit testing -/

/-- The pointer names the one active window with the focused flag, if there is one. -/
def OneFocus (s : St) : Prop :=
  ∀ i, s.focused = some i ↔ (s.windows i).active = true ∧ (s.windows i).focused = true

section
variable {s : St} (h : OneFocus s) (x y : Int)
include h

/-- Where the focused window does not cover the point, the loop of `wm_at` finds the last one of the first sweep. -/
theorem OneFocus.top_slot_eq (hf : ∀ f, s.focused = some f → covers (s.windows f) x y = true → visible (s.windows f) = false) :
    top_slot s x y = ((slots.filter (fun i => (s.windows i).active && !(s.windows i).focused &&
      (s.windows i).state ≠ .WIN_MINIMIZED)).filter (fun i => covers (s.windows i) x y)).getLast? := by
  rw [top_slot, ← List.getLast?_filter, List.filter_filter]
  congr 1
  refine List.filter_congr (fun i _ => ?_)
  rw [Bool.eq_iff_iff]
  unfold visible
  simp only [Bool.and_eq_true, decide_eq_true_eq, Bool.not_eq_true']
  constructor
  · rintro ⟨⟨ha, hs⟩, hc⟩
    refine ⟨hc, ⟨ha, ?_⟩, hs⟩
    by_contra hflag
    have hvis := hf i ((h i).2 ⟨ha, by simpa using hflag⟩) hc
    simp [visible, ha, hs] at hvis
  · rintro ⟨hc, ⟨ha, -⟩, hs⟩
    exact ⟨⟨ha, hs⟩, hc⟩

/-- A hit test returns the window that is painted last over the point. -/
theorem wm_at_last_painted :
    wm_at s x y = ((wm_render s).filter (fun i => covers (s.windows i) x y)).getLast? ∧
    (wm_at s x y = none ↔ ∀ i ∈ wm_render s, covers (s.windows i) x y = false) := by
  have heq : wm_at s x y = ((wm_render s).filter (fun i => covers (s.windows i) x y)).getLast? := by
    unfold wm_at wm_render
    -- the focused window is painted last and asked first; for the others the two loops run against each other
    cases hf : s.focused with
    | none =>
      dsimp only
      rw [List.append_nil]
      exact h.top_slot_eq x y (fun f hn => by rw [hf] at hn; cases hn)
    | some f =>
      dsimp only
      rw [List.filter_append]
      by_cases hv : visible (s.windows f) = true
      · rw [if_pos hv, hv, Bool.true_and]
        by_cases hc : covers (s.windows f) x y = true
        · rw [if_pos hc, List.filter_singleton, hc, cond_true, List.getLast?_append]
          rfl
        · rw [if_neg hc, List.filter_singleton, Bool.eq_false_of_not_eq_true hc, cond_false, List.append_nil]
          refine h.top_slot_eq x y (fun g hg hcg => ?_)
          rw [hf] at hg
          cases hg
          exact absurd hcg hc
      · -- a minimised window keeps the pointer, but is neither painted nor hit
        rw [if_neg hv, List.filter_nil, List.append_nil, if_neg (by simp [hv])]
        refine h.top_slot_eq x y (fun g hg _ => ?_)
        rw [hf] at hg
        cases hg
        simpa using hv
  refine ⟨heq, ?_⟩
  rw [heq, List.getLast?_eq_none_iff, List.filter_eq_nil_iff]
  simp

end

/-- Two windows that overlap, the lower slot with the focus: it is hit and painted last. -/
def overlapping : St := [Op.create none 0 0 300 300, .create none 100 100 300 300, .focus (some ⟨0, by decide⟩)].foldl
  (exec ⟨.PERF_LOW, 4⟩ ⟨1280, 720⟩) wm_init

theorem wm_at_last_painted_overlapping :
    wm_at overlapping 150 150 = some ⟨0, by decide⟩ ∧
    wm_at overlapping 150 150 =
      ((wm_render overlapping).filter (fun i => covers (overlapping.windows i) 150 150)).getLast? :=
  ⟨by decide +kernel, (wm_at_last_painted (by unfold OneFocus; decide +kernel) 150 150).1⟩

end H3OS.Wm
