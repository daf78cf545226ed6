import H3OS.Wm.Focus
/-!
# Geometry

Maximising a window saves its rectangle, and only leaving the maximised state
through `wm_set_state` brings it back. A window that is minimised while it is
maximised leaves that state by another way: it keeps the work area for its
rectangle, as a normal window or, once maximised again, as the one to go back
to. `Geo` is what counts of a window here, and `Effect` what can happen to it.
-/
open SysLib H3OS.Mouse

namespace H3OS.Wm

abbrev Rect := Int × Int × Int × Int

def rect (v : window_t) : Rect := (v.x, v.y, v.w, v.h)

/-- The screen without the taskbar. -/
def work_area (fb : fb_t) : Rect := (0, 0, i32 fb.width, i32 fb.height - TASKBAR_H)

/-- A normal window has the geometry `g`, and a maximised one the work area. -/
structure Kept (fb : fb_t) (g : Rect) (v : window_t) : Prop where
  normal : v.state = .WIN_NORMAL → rect v = g
  maximized : v.state = .WIN_MAXIMIZED → rect v = work_area fb

/-! ## A window alone -/

structure Geo where
  state : win_state_t
  rect : Rect
  saved : Rect

inductive Effect where
  | keep
  | reveal
  | hide
  | maximise
  | restore
deriving DecidableEq

def Geo.after (work : Rect) (v : Geo) : Effect → Geo
  | .keep => v
  | .reveal => { v with state := if v.state = .WIN_MINIMIZED then .WIN_NORMAL else v.state }
  | .hide => { v with state := .WIN_MINIMIZED }
  | .maximise => if v.state = .WIN_MAXIMIZED then v else ⟨.WIN_MAXIMIZED, work, v.rect⟩
  | .restore => if v.state = .WIN_MAXIMIZED then ⟨.WIN_NORMAL, v.saved, v.saved⟩ else { v with state := .WIN_NORMAL }

/-- The window is maximised and becomes minimised. -/
def Geo.Covered (v : Geo) (e : Effect) : Prop := v.state = .WIN_MAXIMIZED ∧ e = .hide

/-- The window becomes a normal one. -/
def Geo.Normalised (v : Geo) (e : Effect) : Prop := e = .restore ∨ (e = .reveal ∧ v.state = .WIN_MINIMIZED)

/-- The geometry `g` is there, or it is saved while the window is maximised. -/
structure Fresh (g work : Rect) (v : Geo) : Prop where
  there : v.state ≠ .WIN_MAXIMIZED → v.rect = g
  saved : v.state = .WIN_MAXIMIZED → v.rect = work ∧ v.saved = g

/-- The geometry the window was created with is nowhere any more. -/
structure Lost (work : Rect) (v : Geo) : Prop where
  rect : v.rect = work
  saved : v.state = .WIN_MAXIMIZED → v.saved = work
  shown : v.state ≠ .WIN_NORMAL

section
variable {g work : Rect} {v : Geo} {e : Effect}

theorem Fresh.after (h : Fresh g work v) (he : v.Covered e → g = work) : Fresh g work (v.after work e) := by
  cases e with
  | keep => exact h
  | reveal =>
    rw [Geo.after]
    by_cases hs : v.state = .WIN_MINIMIZED
    · have hg : v.rect = g := h.there (by simp [hs])
      exact ⟨fun _ => hg, fun hmax => by simp [hs] at hmax⟩
    · simpa [hs] using h
  | hide =>
    refine ⟨fun _ => ?_, nofun⟩
    show v.rect = g
    by_cases hs : v.state = .WIN_MAXIMIZED
    · rw [(h.saved hs).1, he ⟨hs, rfl⟩]
    · exact h.there hs
  | maximise =>
    rw [Geo.after]
    by_cases hs : v.state = .WIN_MAXIMIZED
    · simpa [hs] using h
    · rw [if_neg hs]
      exact ⟨fun hn => absurd rfl hn, fun _ => ⟨rfl, h.there hs⟩⟩
  | restore =>
    rw [Geo.after]
    by_cases hs : v.state = .WIN_MAXIMIZED
    · rw [if_pos hs]
      exact ⟨fun _ => (h.saved hs).2, nofun⟩
    · rw [if_neg hs]
      exact ⟨fun _ => h.there hs, nofun⟩

theorem lost_of_covered (hr : v.rect = work) (he : v.Covered e) : Lost work (v.after work e) := by
  obtain ⟨-, rfl⟩ := he
  exact ⟨hr, nofun, nofun⟩

theorem Lost.after (h : Lost work v) (he : ¬ v.Normalised e) : Lost work (v.after work e) := by
  cases e with
  | keep => exact h
  | reveal =>
    have hs : v.state ≠ .WIN_MINIMIZED := fun hs => he (.inr ⟨rfl, hs⟩)
    simpa [Geo.after, hs] using h
  | hide => exact ⟨h.rect, nofun, nofun⟩
  | maximise =>
    rw [Geo.after]
    by_cases hs : v.state = .WIN_MAXIMIZED
    · simpa [hs] using h
    · rw [if_neg hs]
      exact ⟨rfl, fun _ => h.rect, nofun⟩
  | restore => exact absurd (.inl rfl) he

/-- Too late: a normal window in the place of the work area. -/
theorem Lost.normalised (h : Lost work v) (he : v.Normalised e) :
    (v.after work e).state = .WIN_NORMAL ∧ (v.after work e).rect = work := by
  rcases he with rfl | ⟨rfl, hs⟩
  · rw [Geo.after]
    by_cases hs : v.state = .WIN_MAXIMIZED
    · rw [if_pos hs]
      exact ⟨rfl, h.saved hs⟩
    · rw [if_neg hs]
      exact ⟨rfl, h.rect⟩
  · simp [Geo.after, hs, h.rect]

end

/-! ## A window of the table -/

def geo (v : window_t) : Geo := ⟨v.state, rect v, (v.restore_x, v.restore_y, v.restore_w, v.restore_h)⟩

/-- No drag goes on, and a press goes to the window `j`, which is on top. -/
def Pressed (s : St) (m : mouse_state_t) (j : WinPtr) : Prop :=
  (∀ k, s.drag_win = some k → s.dragging = true → (s.windows k).active = false) ∧ m.left_pressed = true ∧
  wm_at s m.x m.y = some j

/-- The maximise button of a window is under the mouse. -/
def OnMaxButton (v : window_t) (m : mouse_state_t) : Prop :=
  (m.y ≥ v.y ∧ m.y < v.y + 32) ∧ (m.x ≥ v.x + v.w - 92 ∧ m.x < v.x + v.w - 46)

instance (v : window_t) (m : mouse_state_t) : Decidable (OnButton v m) := inferInstanceAs (Decidable (_ ∧ _))
instance (v : window_t) (m : mouse_state_t) : Decidable (OnMaxButton v m) := inferInstanceAs (Decidable (_ ∧ _))

/-- The operations that maximise, restore, minimise or focus a window. -/
def Switches (s : St) : Op → Prop
  | .focus _ => True
  | .restore_or_focus _ => True
  | .set_state _ state => state = .WIN_MAXIMIZED ∨ state = .WIN_NORMAL
  | .handle_mouse m => ∃ j, Pressed s m j ∧ (OnButton (s.windows j) m ∨ OnMaxButton (s.windows j) m)
  | _ => False

/-- What such an operation does to the window `i`. -/
def effect (s : St) (i : WinPtr) : Op → Effect
  | .focus win => if win = some i then .reveal else .keep
  | .restore_or_focus win =>
    if win = some i then
      if (s.windows i).focused = true ∧ (s.windows i).state ≠ .WIN_MINIMIZED then .hide else .reveal
    else .keep
  | .set_state win state => if win = some i then if state = .WIN_MAXIMIZED then .maximise else .restore else .keep
  | .handle_mouse m =>
    if wm_at s m.x m.y = some i then
      if OnButton (s.windows i) m then .hide
      else if (s.windows i).state = .WIN_MAXIMIZED then .restore else .maximise
    else .keep
  | _ => .keep

section
variable {s : St} {i j : WinPtr} {m : mouse_state_t} (fb : fb_t)

theorem geo_focus (s : St) (i j : WinPtr) : geo ((wm_focus s (some j)).windows i) =
    (geo (s.windows i)).after (work_area fb) (if j = i then .reveal else .keep) := by
  rw [wm_focus_windows]
  by_cases h : i = j
  · rw [if_pos h, if_pos h.symm, h]
    rfl
  · rw [if_neg h, if_neg (Ne.symm h)]
    rfl

theorem geo_set_state (v : window_t) {state : win_state_t} (h : state = .WIN_MAXIMIZED ∨ state = .WIN_NORMAL) :
    geo (set_state fb v state) =
      (geo v).after (work_area fb) (if state = .WIN_MAXIMIZED then .maximise else .restore) := by
  unfold set_state
  have hgeo : (geo v).state = v.state := rfl
  rcases h with rfl | rfl
  · by_cases hs : v.state = .WIN_MAXIMIZED
    · simp [Geo.after, hs, hgeo]
      rw [← hs]
    · simp [Geo.after, hs, hgeo]
      rfl
  · by_cases hs : v.state = .WIN_MAXIMIZED
    · simp [Geo.after, hs, hgeo]
      rfl
    · simp [Geo.after, hs, hgeo]
      rfl

theorem press_maximise (h : OnMaxButton (s.windows j) m) : press fb s j m =
    wm_set_state fb s (some j) (if (s.windows j).state = .WIN_MAXIMIZED then .WIN_NORMAL else .WIN_MAXIMIZED) := by
  obtain ⟨hbar, hmax⟩ := h
  unfold press
  dsimp only
  rw [if_pos hbar, if_neg (by omega), if_pos hmax]
  split_ifs <;> rfl

/-- A press on one of the two buttons of the window `j`, which gets the focus by it. -/
theorem wm_handle_mouse_pressed (h : Pressed s m j) : wm_handle_mouse fb s m = press fb (wm_focus s (some j)) j m := by
  obtain ⟨hd, hp, hat⟩ := h
  rcases wm_handle_mouse_cases fb s m with ⟨k, hk, hdrag, ha, -⟩ | ⟨-, he⟩
  · rw [hd k hk hdrag] at ha
    cases ha
  · rw [he, click, if_neg (by simp [hp]), hat]

/-- A window that is hit is in sight, so that the focus does not change its state. -/
theorem focused_hit (hat : wm_at s m.x m.y = some j) :
    (wm_focus s (some j)).windows j = { s.windows j with focused := true } := by
  rw [wm_focus_windows, if_pos rfl, if_neg (wm_at_visible hat).2]

theorem geo_pressed (h : Pressed s m j) (hb : OnButton (s.windows j) m ∨ OnMaxButton (s.windows j) m) (i : WinPtr) :
    geo ((wm_handle_mouse fb s m).windows i) =
      (geo (s.windows i)).after (work_area fb) (effect s i (.handle_mouse m)) := by
  have hj := focused_hit h.2.2
  -- of the other windows only the flag of the focus changes
  have hother : i ≠ j → geo ((wm_focus s (some j)).windows i) =
      (geo (s.windows i)).after (work_area fb) (effect s i (.handle_mouse m)) := by
    intro hij
    have hat : wm_at s m.x m.y ≠ some i := by
      rw [h.2.2]
      simpa using hij.symm
    rw [geo_focus fb, if_neg hij.symm, effect, if_neg hat]
  rw [wm_handle_mouse_pressed fb h]
  by_cases hmin : OnButton (s.windows j) m
  · rw [press_minimise fb (by rw [hj]; exact hmin)]
    dsimp only
    by_cases hij : i = j
    · rw [hij, set_same, effect, if_pos h.2.2, if_pos hmin, hj]
      rfl
    · rw [set_other _ _ hij, hother hij]
  · have hmax : OnMaxButton (s.windows j) m := hb.resolve_left hmin
    rw [press_maximise fb (by rw [hj]; exact hmax), wm_set_state]
    by_cases hij : i = j
    · rw [hij, set_same, effect, if_pos h.2.2, if_neg hmin, hj]
      dsimp only
      by_cases hs : (s.windows j).state = .WIN_MAXIMIZED
      · rw [if_pos hs, if_pos hs, geo_set_state fb _ (.inr rfl)]
        rfl
      · rw [if_neg hs, if_neg hs, geo_set_state fb _ (.inl rfl)]
        rfl
    · rw [set_other _ _ hij, hother hij]

/-- An operation does to each window what `effect` says. -/
theorem geo_exec (p : perf_settings_t) {op : Op} (h : Switches s op) (i : WinPtr) :
    geo ((exec p fb s op).windows i) = (geo (s.windows i)).after (work_area fb) (effect s i op) := by
  cases op with
  | focus win =>
    cases win with
    | none => rfl
    | some j => simpa [exec, effect] using geo_focus fb s i j
  | restore_or_focus win =>
    cases win with
    | none => rfl
    | some j =>
      rw [exec, wm_restore_or_focus, effect]
      by_cases hij : i = j
      · subst hij
        dsimp only
        rw [if_pos rfl]
        by_cases hc : (s.windows i).focused = true ∧ (s.windows i).state ≠ .WIN_MINIMIZED
        · rw [if_pos hc, if_pos hc]
          dsimp only
          rw [set_same]
          rfl
        · rw [if_neg hc, if_neg hc, geo_focus fb, if_pos rfl]
      · rw [if_neg (show ¬ some j = some i by simpa using Ne.symm hij)]
        dsimp only
        split_ifs
        · rw [set_other _ _ hij]
          rfl
        · rw [geo_focus fb, if_neg (Ne.symm hij)]
  | set_state win state =>
    cases win with
    | none => rfl
    | some j =>
      rw [exec, wm_set_state, effect]
      by_cases hij : i = j
      · subst hij
        rw [set_same, if_pos rfl]
        exact geo_set_state fb _ h
      · rw [set_other _ _ hij, if_neg (by simpa using Ne.symm hij)]
        rfl
  | handle_mouse m =>
    obtain ⟨j, hp, hb⟩ := h
    exact geo_pressed fb hp hb i
  | _ => exact absurd h id

end

/-! ## Runs -/

/-- The operation minimises the window `i`, which is maximised. -/
def Covers (s : St) (i : WinPtr) (op : Op) : Prop := (s.windows i).state = .WIN_MAXIMIZED ∧ effect s i op = .hide

/-- The operation makes a normal window of the window `i`. -/
def Normalises (s : St) (i : WinPtr) (op : Op) : Prop :=
  effect s i op = .restore ∨ (effect s i op = .reveal ∧ (s.windows i).state = .WIN_MINIMIZED)

section
variable (p : perf_settings_t) (fb : fb_t) {s : St} {i : WinPtr} {g : Rect} {ops : List Op}

def run (s : St) (ops : List Op) : St := ops.foldl (exec p fb) s

theorem run_concat (s : St) (ops : List Op) (op : Op) : run p fb s (ops ++ [op]) = exec p fb (run p fb s ops) op := by
  unfold run
  rw [List.foldl_append]
  rfl

/-- A window that `wm_create` gives has its geometry, and is a normal one. -/
theorem created {t : St} {title : Option (List UInt8)} {x y w h : Int} (hc : wm_create p t title x y w h = (some i, s)) :
    Fresh (x, y, w, h) (work_area fb) (geo (s.windows i)) := by
  unfold wm_create at hc
  by_cases hfull : t.win_count ≥ p.max_windows
  · rw [if_pos hfull] at hc
    cases hc
  rw [if_neg hfull] at hc
  cases hf : slots.find? (fun i => !(t.windows i).active) with
  | none =>
    rw [hf] at hc
    cases hc
  | some j =>
    rw [hf] at hc
    cases hc
    rw [geo_focus fb, if_pos rfl]
    refine Fresh.after ?_ nofun
    dsimp only
    rw [set_same]
    exact ⟨fun _ => rfl, nofun⟩

theorem Fresh.kept {v : window_t} (h : Fresh g (work_area fb) (geo v)) : Kept fb g v :=
  ⟨fun hs => h.there (by rw [geo, hs]; nofun), fun hs => (h.saved hs).1⟩

theorem Lost.kept {v : window_t} (h : Lost (work_area fb) (geo v)) : Kept fb g v :=
  ⟨fun hs => absurd hs h.shown, fun _ => h.rect⟩

/-- Some operation has covered the window. -/
def WasCovered (s : St) (i : WinPtr) (ops : List Op) : Prop := ∃ pre op, pre ++ [op] <+: ops ∧ Covers (run p fb s pre) i op

theorem wasCovered_concat (s : St) (i : WinPtr) (ops : List Op) (op : Op) :
    WasCovered p fb s i (ops ++ [op]) ↔ WasCovered p fb s i ops ∨ Covers (run p fb s ops) i op := by
  unfold WasCovered
  simp only [step_prefix_concat]
  constructor
  · rintro ⟨pre, o, hpre | ⟨rfl, rfl⟩, hc⟩
    · exact .inl ⟨pre, o, hpre, hc⟩
    · exact .inr hc
  · rintro (⟨pre, o, hpre, hc⟩ | hc)
    · exact ⟨pre, o, .inl hpre, hc⟩
    · exact ⟨ops, op, .inr ⟨rfl, rfl⟩, hc⟩

/-- Where a run has led: once covered, the window has lost its geometry, and it had it until then. -/
structure Along (s : St) (i : WinPtr) (g : Rect) (ops : List Op) : Prop where
  before : ¬ WasCovered p fb s i ops → Fresh g (work_area fb) (geo ((run p fb s ops).windows i))
  after : WasCovered p fb s i ops → Lost (work_area fb) (geo ((run p fb s ops).windows i))

theorem Along.kept (h : Along p fb s i g ops) : Kept fb g ((run p fb s ops).windows i) := by
  by_cases hc : WasCovered p fb s i ops
  · exact (h.after hc).kept
  · exact (h.before hc).kept

theorem Along.concat (h : Along p fb s i g ops) {op : Op} (hop : Switches (run p fb s ops) op)
    (hn : WasCovered p fb s i ops → ¬ Normalises (run p fb s ops) i op) : Along p fb s i g (ops ++ [op]) := by
  have hgeo := geo_exec fb p hop i
  refine ⟨fun hc => ?_, fun hc => ?_⟩
  · rw [wasCovered_concat, not_or] at hc
    rw [run_concat, hgeo]
    exact (h.before hc.1).after fun hcov => absurd hcov hc.2
  · rw [run_concat, hgeo]
    by_cases hc' : WasCovered p fb s i ops
    · exact (h.after hc').after (hn hc')
    · have hcov := ((wasCovered_concat p fb s i ops op).1 hc).resolve_left hc'
      exact lost_of_covered ((h.before hc').saved hcov.1).1 hcov

end

/-- A window keeps the geometry it was created with, through maximising, restoring, minimising and focusing, exactly if
it is the work area or no operation makes the window normal after one that minimised it while it was maximised. -/
theorem geometry_survives_iff {p : perf_settings_t} {fb : fb_t} {t s : St} {title : Option (List UInt8)} {x y w h : Int}
    {i : WinPtr} (hc : wm_create p t title x y w h = (some i, s)) {ops : List Op}
    (hops : ∀ pre op, pre ++ [op] <+: ops → Switches (run p fb s pre) op) :
    (∀ pre, pre <+: ops → Kept fb (x, y, w, h) ((run p fb s pre).windows i)) ↔
      ((x, y, w, h) = work_area fb ∨
        ∀ pre op, pre ++ [op] <+: ops → WasCovered p fb s i pre → ¬ Normalises (run p fb s pre) i op) := by
  have hnew := created p fb hc
  by_cases hg : (x, y, w, h) = work_area fb
  · refine iff_of_true (fun pre => ?_) (.inl hg)
    intro hpre
    suffices hf : Fresh (x, y, w, h) (work_area fb) (geo ((run p fb s pre).windows i)) from hf.kept
    induction pre using List.reverseRecOn with
    | nil => exact hnew
    | append_singleton pre op ih =>
      rw [run_concat, geo_exec fb p (hops pre op hpre)]
      exact (ih ((List.prefix_append pre [op]).trans hpre)).after fun _ => hg
  · rw [or_iff_right hg]
    refine prefixes_iff_of_inv (I := Along p fb s i (x, y, w, h)) ⟨fun _ => hnew, ?_⟩ (fun pre h => h.kept)
      (fun pre op hpre h hn => h.concat p fb (hops pre op hpre) hn) (fun pre op hpre h hk hcov hn => ?_)
    · rintro ⟨pre, op, hpre, -⟩
      simp at hpre
    · have hlost := (h.after hcov).normalised hn
      rw [run_concat] at hk
      rw [← geo_exec fb p (hops pre op hpre)] at hlost
      exact hg ((hk.normal hlost.1).symm.trans hlost.2)

/-- A window right after it was created, on a screen of 1280 by 720. -/
def small : St := (wm_create ⟨.PERF_LOW, 4⟩ wm_init none 40 40 400 300).2

theorem small_created : wm_create ⟨.PERF_LOW, 4⟩ wm_init none 40 40 400 300 = (some ⟨0, by decide⟩, small) :=
  Prod.ext (by decide +kernel) rfl

theorem first_slot : 0 < WM_MAX_WINDOWS := by decide

/-- It is maximised and restored. -/
def twice : List Op := [.set_state (some ⟨0, first_slot⟩) .WIN_MAXIMIZED, .set_state (some ⟨0, first_slot⟩) .WIN_NORMAL]

theorem geometry_survives_iff_twice :
    Kept ⟨1280, 720⟩ (40, 40, 400, 300) ((run ⟨.PERF_LOW, 4⟩ ⟨1280, 720⟩ small twice).windows ⟨0, by decide⟩) := by
  have hmem : ∀ {pre : List Op} {op}, pre ++ [op] <+: twice → op ∈ twice := fun hpre => hpre.subset (by simp)
  refine (geometry_survives_iff small_created fun pre op hpre => ?_).2 (.inr fun pre op hpre hcov => ?_) twice
    List.prefix_rfl
  · have hop := hmem hpre
    simp only [twice, List.mem_cons, List.not_mem_nil, or_false] at hop
    rcases hop with rfl | rfl
    · exact .inl rfl
    · exact .inr rfl
  · obtain ⟨pre', op', hpre', -, hhide⟩ := hcov
    have hop := hmem (hpre'.trans ((List.prefix_append pre [op]).trans hpre))
    simp only [twice, List.mem_cons, List.not_mem_nil, or_false] at hop
    rcases hop with rfl | rfl <;> simp [effect] at hhide

/-- Maximised, minimised and brought back by its taskbar entry, it is a normal window as large as the work area. -/
theorem restored_at_work_area : ¬ ∀ (p : perf_settings_t) (fb : fb_t) (t s : St) (title : Option (List UInt8))
    (x y w h : Int) (i : WinPtr), wm_create p t title x y w h = (some i, s) → ∀ ops : List Op,
      (∀ pre op, pre ++ [op] <+: ops → Switches (run p fb s pre) op) →
        ∀ pre, pre <+: ops → Kept fb (x, y, w, h) ((run p fb s pre).windows i) := by
  intro h
  have hkept := h ⟨.PERF_LOW, 4⟩ ⟨1280, 720⟩ wm_init small none 40 40 400 300 _ small_created
    [.set_state (some ⟨0, by decide⟩) .WIN_MAXIMIZED, .restore_or_focus (some ⟨0, by decide⟩),
      .restore_or_focus (some ⟨0, by decide⟩)]
    (fun pre op hpre => ?_) _ List.prefix_rfl
  · have hg := hkept.normal
    revert hg
    decide +kernel
  · have hop : op ∈ _ := hpre.subset (by simp)
    simp only [List.mem_cons, List.not_mem_nil, or_false] at hop
    rcases hop with rfl | rfl | rfl
    · exact .inl rfl
    · trivial
    · trivial

end H3OS.Wm
