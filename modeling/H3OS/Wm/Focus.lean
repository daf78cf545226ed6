import H3OS.Lib.Loop
import H3OS.Wm.Table
/-!
# Focus

The focus is kept twice, in a pointer and in a flag of each window. Focusing
writes both; the paths that minimise a window write the pointer only, or
neither. From a state where the two agree, an operation keeps them in
agreement exactly when `Keeps` says so.
-/
open SysLib H3OS.Mouse

namespace H3OS.Wm

/-- Flag and pointer agree, the focused window can be seen, and every window that should be painted is. -/
structure Consistent (s : St) : Prop where
  flag : ∀ i, (s.windows i).active = true → ((s.windows i).focused = true ↔ wm_focused s = some i)
  shown : ∀ f, wm_focused s = some f → (s.windows f).active = true ∧ (s.windows f).state ≠ .WIN_MINIMIZED
  painted : ∀ i, (s.windows i).active = true → (s.windows i).state ≠ .WIN_MINIMIZED → i ∈ wm_render s

/-- A press on the minimise button of the window `i`, which is on top. -/
def OnMinimise (s : St) (m : mouse_state_t) (i : WinPtr) : Prop :=
  (∀ j, s.drag_win = some j → s.dragging = true → (s.windows j).active = false) ∧ m.left_pressed = true ∧
  wm_at s m.x m.y = some i ∧ OnButton (s.windows i) m

/-- The operations that keep flag and pointer in agreement. -/
def Keeps (s : St) : Op → Prop
  | .focus none => wm_focused s = none
  | .focus (some i) => (s.windows i).active = true
  | .restore_or_focus (some i) =>
    if (s.windows i).focused = true ∧ (s.windows i).state ≠ .WIN_MINIMIZED then
      (s.windows i).active = false ∧ wm_focused s = none
    else (s.windows i).active = true
  | .set_state (some i) state => ¬ (wm_focused s = some i ∧ state = .WIN_MINIMIZED)
  | .handle_mouse m => ∀ i, ¬ OnMinimise s m i
  | _ => True

section
variable {s s' : St} {i : WinPtr}

/-- Agreement is enough for every window to be painted. -/
theorem consistent_of_flags
    (hflag : ∀ i, (s.windows i).active = true → ((s.windows i).focused = true ↔ s.focused = some i))
    (hshown : ∀ f, s.focused = some f → (s.windows f).active = true ∧ (s.windows f).state ≠ .WIN_MINIMIZED) :
    Consistent s := by
  refine ⟨hflag, hshown, fun i ha hs => ?_⟩
  unfold wm_render
  by_cases hf : (s.windows i).focused = true
  · rw [(hflag i ha).1 hf]
    refine List.mem_append_right _ ?_
    simp [visible, ha, hs]
  · refine List.mem_append_left _ (List.mem_filter.2 ⟨mem_slots i, ?_⟩)
    simp [ha, hf, hs]

theorem Touched.consistent (ht : Touched s i s') (h : Consistent s) : Consistent s' := by
  have hkeep : ∀ j, (s'.windows j).active = (s.windows j).active ∧ (s'.windows j).focused = (s.windows j).focused := by
    intro j
    by_cases hj : j = i
    · rw [hj]
      exact ⟨ht.active, ht.flag⟩
    · rw [ht.others j hj]
      exact ⟨Eq.refl _, Eq.refl _⟩
  refine consistent_of_flags (fun j ha => ?_) (fun f hf => ?_)
  · rw [(hkeep j).2, ht.focused]
    exact h.flag j ((hkeep j).1 ▸ ha)
  · rw [ht.focused] at hf
    obtain ⟨ha, hs⟩ := h.shown f hf
    refine ⟨(hkeep f).1.trans ha, ?_⟩
    by_cases hfi : f = i
    · rw [hfi] at hs ⊢
      rcases ht.state with hst | hst
      · rw [hst]
        exact hs
      · exact hst
    · rw [ht.others f hfi]
      exact hs

/-- Focusing a window makes the two agree if it is active, whatever was before. -/
theorem consistent_focus (s : St) (i : WinPtr) : Consistent (wm_focus s (some i)) ↔ (s.windows i).active = true := by
  have hptr : (wm_focus s (some i)).focused = some i := rfl
  constructor
  · intro h
    have ha := (h.shown i hptr).1
    rw [wm_focus_windows, if_pos rfl] at ha
    exact ha
  · intro ha
    refine consistent_of_flags (fun j hj => ?_) (fun f hf => ?_)
    · rw [hptr, wm_focus_windows]
      by_cases hji : j = i
      · rw [if_pos hji, hji]
        simp
      · rw [if_neg hji]
        simp [Ne.symm hji]
    · rw [hptr] at hf
      cases hf
      rw [wm_focus_windows, if_pos rfl]
      refine ⟨ha, ?_⟩
      dsimp only
      split_ifs with hs
      · decide
      · exact hs

theorem Consistent.wm_destroy (h : Consistent s) (win : Option WinPtr) : Consistent (wm_destroy s win) := by
  unfold Wm.wm_destroy
  cases win with
  | none => exact h
  | some i =>
    dsimp only
    by_cases hi : (s.windows i).active = false
    · rw [if_pos hi]
      exact h
    · rw [if_neg hi]
      have hptr : ∀ j, j ≠ i → ((if s.focused = some i then none else s.focused) = some j ↔ s.focused = some j) := by
        intro j hj
        split_ifs with hf
        · rw [hf]
          simp [Ne.symm hj]
        · rfl
      refine consistent_of_flags (fun j hj => ?_) (fun f hf => ?_)
      · by_cases hji : j = i
        · rw [hji] at hj
          dsimp only at hj
          rw [set_same] at hj
          cases hj
        · dsimp only at hj ⊢
          rw [set_other s _ hji] at hj ⊢
          exact (h.flag j hj).trans (hptr j hji).symm
      · dsimp only at hf ⊢
        have hfi : f ≠ i := by
          rintro rfl
          split_ifs at hf with hfoc
          exact hfoc hf
        rw [set_other s _ hfi]
        exact h.shown f ((hptr f hfi).1 hf)

/-- A window that is minimised while it has the focus keeps its flag. -/
theorem not_consistent_minimised {f : Option WinPtr} (ha : (s.windows i).active = true)
    (hflag : (s.windows i).focused = true) :
    ¬ Consistent { s.set i { s.windows i with state := .WIN_MINIMIZED } with focused := f } := by
  intro h
  have hi := h.flag i
  have hs := h.shown i
  dsimp only [wm_focused] at hi hs
  rw [set_same] at hi hs
  exact (hs ((hi ha).1 hflag)).2 rfl

theorem wm_at_visible {x y : Int} (h : wm_at s x y = some i) :
    (s.windows i).active = true ∧ (s.windows i).state ≠ .WIN_MINIMIZED := by
  have hvis : visible (s.windows i) = true := by
    have htop : top_slot s x y = some i → visible (s.windows i) = true := by
      intro h
      have := List.find?_some h
      exact (Bool.and_eq_true_iff.1 this).1
    unfold wm_at at h
    cases hf : s.focused with
    | none =>
      rw [hf] at h
      exact htop h
    | some f =>
      rw [hf] at h
      dsimp only at h
      split_ifs at h with hc
      · cases h
        exact (Bool.and_eq_true_iff.1 hc).1
      · exact htop h
  simpa [visible] using hvis

/-! ## One operation -/

theorem Consistent.wm_create (h : Consistent s) (p : perf_settings_t) (title : Option (List UInt8)) (x y w ht : Int) :
    Consistent (wm_create p s title x y w ht).2 := by
  unfold Wm.wm_create
  by_cases hfull : s.win_count ≥ p.max_windows
  · rw [if_pos hfull]
    exact h
  · rw [if_neg hfull]
    cases slots.find? (fun i => !(s.windows i).active) with
    | none => exact h
    | some i =>
      refine (consistent_focus _ i).2 ?_
      dsimp only
      rw [set_same]

theorem Consistent.focus_none_iff (h : Consistent s) : Consistent (wm_focus s none) ↔ wm_focused s = none := by
  constructor
  · intro h'
    cases hf : wm_focused s with
    | none => rfl
    | some f =>
      have hflag := (h'.flag f (h.shown f hf).1).2 hf
      cases hflag
  · intro hf
    have hnone : ∀ i, s.focused ≠ some i := fun i hi => by
      rw [wm_focused, hi] at hf
      cases hf
    exact consistent_of_flags (fun i _ => ⟨fun hi => (by cases hi), fun hi => absurd hi (hnone i)⟩)
      (fun i hi => absurd hi (hnone i))

theorem Consistent.restore_iff (h : Consistent s) (i : WinPtr) :
    Consistent (wm_restore_or_focus s (some i)) ↔ Keeps s (.restore_or_focus (some i)) := by
  unfold wm_restore_or_focus Keeps
  dsimp only
  by_cases hc : (s.windows i).focused = true ∧ (s.windows i).state ≠ .WIN_MINIMIZED
  · rw [if_pos hc, if_pos hc]
    constructor
    · intro h'
      have hi : (s.windows i).active = false := by
        by_contra ha
        exact not_consistent_minimised (by simpa using ha) hc.1 h'
      refine ⟨hi, ?_⟩
      cases hf : wm_focused s with
      | none => rfl
      | some f =>
        -- the flag of the window that had the focus has no pointer any more
        obtain ⟨ha, -⟩ := h.shown f hf
        have hfi : f ≠ i := by
          rintro rfl
          rw [hi] at ha
          cases ha
        have hflag := h'.flag f
        dsimp only [wm_focused] at hflag
        rw [set_other s _ hfi] at hflag
        cases (hflag ha).1 ((h.flag f ha).2 hf)
    · rintro ⟨hi, hf⟩
      refine consistent_of_flags (fun j hj => ?_) (fun f hf' => by cases hf')
      dsimp only at hj ⊢
      by_cases hji : j = i
      · rw [hji, set_same] at hj
        rw [hi] at hj
        cases hj
      · rw [set_other s _ hji] at hj ⊢
        rw [← hf]
        exact h.flag j hj
  · rw [if_neg hc, if_neg hc]
    exact consistent_focus s i

theorem Consistent.set_state_iff (h : Consistent s) (fb : fb_t) (i : WinPtr) (state : win_state_t) :
    Consistent (wm_set_state fb s (some i) state) ↔ Keeps s (.set_state (some i) state) := by
  unfold Keeps
  -- only hiding a window can go wrong: neither copy of the focus is written
  by_cases hs : state = .WIN_MINIMIZED
  · obtain ⟨ha, hf, hst⟩ := set_state_kept fb (s.windows i) state
    unfold wm_set_state
    constructor
    · rintro h' ⟨hptr, -⟩
      have hshown := (h'.shown i hptr).2
      rw [set_same, hst] at hshown
      exact hshown hs
    · intro hk
      have hptr : ∀ f, s.focused = some f → f ≠ i := by
        rintro f hf' rfl
        exact hk ⟨hf', hs⟩
      refine consistent_of_flags (fun j hj => ?_) (fun f hf' => ?_)
      · by_cases hji : j = i
        · rw [hji, set_same] at hj
          rw [hji, set_same, hf]
          exact h.flag i (ha.symm.trans hj)
        · rw [set_other s _ hji] at hj ⊢
          exact h.flag j hj
      · rw [set_other s _ (hptr f hf')]
        exact h.shown f hf'
  · exact ⟨fun _ hk => hs hk.2, fun _ => (touched_set_state fb s i hs).consistent h⟩

/-- A press on a window that has just been given the focus. -/
theorem press_consistent_iff (fb : fb_t) {m : mouse_state_t} (ha : (s.windows i).active = true) :
    Consistent (press fb (wm_focus s (some i)) i m) ↔ ¬ OnButton (s.windows i) m := by
  have hfoc : Consistent (wm_focus s (some i)) := (consistent_focus s i).2 ha
  have hwin := wm_focus_windows s i i
  rw [if_pos rfl] at hwin
  have hbutton : OnButton ((wm_focus s (some i)).windows i) m ↔ OnButton (s.windows i) m := by
    rw [hwin]
    rfl
  constructor
  · intro h hb
    rw [press_minimise fb (hbutton.2 hb)] at h
    refine not_consistent_minimised ?_ ?_ h
    · rw [hwin]
      exact ha
    · rw [hwin]
  · intro hb
    rcases press_cases fb (wm_focus s (some i)) i m with hp | ⟨hb', -⟩ | hp
    · rw [hp]
      exact hfoc.wm_destroy (some i)
    · exact absurd (hbutton.1 hb') hb
    · exact hp.consistent hfoc

theorem Consistent.handle_mouse_iff (h : Consistent s) (fb : fb_t) (m : mouse_state_t) :
    Consistent (wm_handle_mouse fb s m) ↔ Keeps s (.handle_mouse m) := by
  unfold Keeps
  rcases wm_handle_mouse_cases fb s m with ⟨j, hj, hd, ha, he⟩ | ⟨hd, he⟩
  · rw [he]
    refine iff_of_true ((touched_drag fb s j m).consistent h) ?_
    rintro i ⟨hno, -⟩
    rw [hno j hj hd] at ha
    cases ha
  · rw [he, click]
    by_cases hp : m.left_pressed = false
    · rw [if_pos hp]
      refine iff_of_true h ?_
      rintro i ⟨-, hp', -⟩
      rw [hp] at hp'
      cases hp'
    rw [if_neg hp]
    have hp : m.left_pressed = true := by simpa using hp
    cases hat : wm_at s m.x m.y with
    | none =>
      refine iff_of_true h ?_
      rintro i ⟨-, -, hat', -⟩
      rw [hat] at hat'
      cases hat'
    | some i =>
      dsimp only
      rw [press_consistent_iff fb (wm_at_visible hat).1]
      constructor
      · rintro hb j ⟨-, -, hat', hb'⟩
        rw [hat] at hat'
        cases hat'
        exact hb hb'
      · intro hk hb
        exact hk i ⟨hd, hp, hat, hb⟩

/-- From a consistent state an operation leads to a consistent one exactly if it keeps flag and pointer together. -/
theorem Consistent.exec_iff (h : Consistent s) (p : perf_settings_t) (fb : fb_t) (op : Op) :
    Consistent (exec p fb s op) ↔ Keeps s op := by
  cases op with
  | create title x y w ht => exact iff_of_true (h.wm_create p title x y w ht) trivial
  | destroy win => exact iff_of_true (h.wm_destroy win) trivial
  | focus win =>
    cases win with
    | none => exact h.focus_none_iff
    | some i => exact consistent_focus s i
  | restore_or_focus win =>
    cases win with
    | none => exact iff_of_true h trivial
    | some i => exact h.restore_iff i
  | move win x y =>
    cases win with
    | none => exact iff_of_true h trivial
    | some i => exact iff_of_true ((touched_move s i x y).consistent h) trivial
  | resize win w ht =>
    cases win with
    | none => exact iff_of_true h trivial
    | some i => exact iff_of_true ((touched_resize s i w ht).consistent h) trivial
  | set_state win state =>
    cases win with
    | none => exact iff_of_true h trivial
    | some i => exact h.set_state_iff fb i state
  | snap win layout =>
    cases win with
    | none => exact iff_of_true h trivial
    | some i => exact iff_of_true ((touched_snap fb s i layout).consistent h) trivial
  | handle_mouse m => exact h.handle_mouse_iff fb m

end

/-! ## Runs -/

theorem consistent_init : Consistent wm_init :=
  consistent_of_flags (fun _ ha => by cases ha) (fun _ hf => by cases hf)

/-- In a run flag and pointer agree in every state exactly if every operation keeps them together. -/
theorem focus_consistent_iff (p : perf_settings_t) (fb : fb_t) (ops : List Op) :
    (∀ pre, pre <+: ops → Consistent (pre.foldl (exec p fb) wm_init)) ↔
      ∀ pre op, pre ++ [op] <+: ops → Keeps (pre.foldl (exec p fb) wm_init) op := by
  have hstep : ∀ (pre : List Op) op, (pre ++ [op]).foldl (exec p fb) wm_init =
      exec p fb (pre.foldl (exec p fb) wm_init) op := by
    intro pre op
    rw [List.foldl_append]
    rfl
  -- once the state before an operation is consistent, its step is an equivalence
  refine prefixes_iff consistent_init fun pre op _ hnow => ?_
  rw [hstep]
  exact hnow.exec_iff p fb op

/-- A click on the taskbar entry of the focused window: it is hidden, nobody is focused and its flag stays. -/
theorem minimised_keeps_flag :
    ¬ ∀ pre, pre <+: [Op.create none 0 0 100 100, .restore_or_focus (some ⟨0, by decide⟩)] →
      Consistent (pre.foldl (exec ⟨.PERF_LOW, 4⟩ ⟨1280, 720⟩) wm_init) := by
  intro h
  have hflag := (h _ List.prefix_rfl).flag ⟨0, by decide⟩
  revert hflag
  decide +kernel

end H3OS.Wm
