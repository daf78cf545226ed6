import H3OS.Desktop.Model
/-!
# Clicks on windows

Windows are painted over the desktop icons. A press goes to the popups first,
then to the icons, and only then to the windows: an icon takes it also where a
window hides it.
-/
open H3OS.Mouse H3OS.Wm

namespace H3OS.Desktop

/-- The point is on an open popup. -/
def InPopup (e : Env) (s : St) (m : mouse_state_t) : Prop :=
  (s.g_start = true ∧ in_start e m = true) ∨ (s.g_action = true ∧ in_action e m = true) ∨
  (s.g_snap_ui = true ∧ in_snap e m = true) ∨ (s.g_ctx = true ∧ in_ctx s m = true)

/-- The shell with every popup closed. -/
def closed (s : St) : St := { s with g_start := false, g_action := false, g_snap_ui := false, g_ctx := false }

section
variable {e : Env} {s : St} {m : mouse_state_t} {i : WinPtr}

/-- A press outside the popups closes them and goes to the icons. -/
theorem desk_click_outside (h : ¬ InPopup e s m) : desk_click e s m = icon_click e (closed s) m := by
  unfold InPopup at h
  push Not at h
  obtain ⟨hstart, haction, hsnap, hctx⟩ := h
  have hno : ∀ {a b : Bool}, (a = true → b ≠ true) → ¬ (a = true ∧ b = true) := fun hab h => hab h.1 h.2
  unfold desk_click
  rw [if_neg (hno hstart)]
  dsimp only
  rw [if_neg (hno haction), if_neg (hno hsnap)]
  exact if_neg (hno hctx)

theorem icon_click_none (h : ∀ icon ∈ g_icons, within m icon.x icon.y 64 64 = false) : icon_click e s m = s := by
  have hnone : g_icons.find? (fun icon => within m icon.x icon.y 64 64) = none := by
    refine List.find?_eq_none.2 (fun icon hi => ?_)
    rw [h icon hi]
    decide
  unfold icon_click
  rw [hnone]

theorem icon_click_consumed {icon : desk_icon_t} (hi : icon ∈ g_icons) (h : within m icon.x icon.y 64 64 = true) :
    (icon_click e s m).g_click_consumed = true := by
  unfold icon_click
  cases hf : g_icons.find? (fun icon => within m icon.x icon.y 64 64) with
  | none => exact absurd h (List.find?_eq_none.1 hf icon hi)
  | some found => rfl

/-- Where a window is, the hit test finds one. -/
theorem wm_at_ne_none {t : Wm.St} {x y : Int} (hvis : visible (t.windows i) = true) (hcov : covers (t.windows i) x y = true) :
    wm_at t x y ≠ none := by
  have htop : top_slot t x y ≠ none := by
    intro hnone
    have hi := List.find?_eq_none.1 hnone i (List.mem_reverse.2 (List.mem_finRange i))
    rw [hvis, hcov] at hi
    exact hi rfl
  unfold wm_at
  cases t.focused with
  | none => exact htop
  | some f =>
    dsimp only
    split_ifs
    · exact Option.some_ne_none f
    · exact htop

/-- A left press over a window and above the taskbar goes to the part for the desktop, with or without a right one. -/
theorem desktop_handle_mouse_over (hpress : m.left_pressed = true) (habove : m.y < taskbar_y e)
    (hat : wm_at s.wm m.x m.y ≠ none) :
    desktop_handle_mouse e s m = desk_click e { s with g_click_consumed := false } m := by
  unfold desktop_handle_mouse
  dsimp only
  rw [if_neg (fun h => hat h.2.2), if_neg (by rw [hpress]; decide), if_neg (not_le.2 habove)]

/-- A press on a window outside the popups is left to the window manager exactly if no icon is there. -/
theorem click_reaches_window_iff (hpress : m.left_pressed = true) (habove : m.y < taskbar_y e) (hout : ¬ InPopup e s m)
    (hvis : visible (s.wm.windows i) = true) (hcov : covers (s.wm.windows i) m.x m.y = true) :
    ((desktop_handle_mouse e s m).g_click_consumed = false ∧ (desktop_handle_mouse e s m).opened = s.opened ∧
      (desktop_handle_mouse e s m).shutdown = s.shutdown ∧ (idle_mouse e s m).wm = wm_handle_mouse e.fb s.wm m) ↔
    ∀ icon ∈ g_icons, within m icon.x icon.y 64 64 = false := by
  have hstep : desktop_handle_mouse e s m = icon_click e (closed { s with g_click_consumed := false }) m := by
    rw [desktop_handle_mouse_over hpress habove (wm_at_ne_none hvis hcov)]
    exact desk_click_outside hout
  constructor
  · rintro ⟨hfree, -⟩ icon hi
    by_contra hin
    rw [hstep, icon_click_consumed hi (by simpa using hin)] at hfree
    cases hfree
  · intro hnone
    rw [icon_click_none hnone] at hstep
    unfold idle_mouse
    rw [hstep]
    exact ⟨rfl, rfl, rfl, rfl⟩

end

/-- A screen of 1280 by 720, with all callbacks at address zero. -/
def screen : Env := ⟨⟨1280, 720⟩, ⟨.PERF_LOW, 4⟩, 0, 0, 0, 0, 0, 0, 0, 0⟩

/-- One window of 300 by 300 at the upper left corner, over the first icons. -/
def cornered : St := { desktop_init with wm := (wm_create screen.perf Wm.wm_init none 0 0 300 300).2 }

/-- A left press at a point. -/
def pressAt (x y : Int) : mouse_state_t := ⟨x, y, 0, 0, true, false, false, true, false, false, false⟩

theorem click_reaches_window_iff_cornered :
    (idle_mouse screen cornered (pressAt 200 200)).wm = wm_handle_mouse screen.fb cornered.wm (pressAt 200 200) :=
  ((click_reaches_window_iff (i := ⟨0, by decide⟩) rfl (by decide) (by unfold InPopup; decide) (by decide +kernel)
    (by decide +kernel)).2 (by decide)).2.2.2

/-- A press on the window, over the icon that it hides, opens the file manager. -/
theorem hidden_icon_takes_click :
    visible (cornered.wm.windows ⟨0, by decide⟩) = true ∧ covers (cornered.wm.windows ⟨0, by decide⟩) 40 50 = true ∧
    ¬ InPopup screen cornered (pressAt 40 50) ∧ (pressAt 40 50).y < taskbar_y screen ∧
    (desktop_handle_mouse screen cornered (pressAt 40 50)).g_click_consumed = true ∧
    (desktop_handle_mouse screen cornered (pressAt 40 50)).opened = [.APP_FILES] := by
  unfold InPopup
  decide +kernel

end H3OS.Desktop
