import H3OS.Wm.Model
/-!
# The desktop shell

`desktop/desktop.c`: taskbar, popups and icons, and what a click does to them.
The record keeps which applications were opened and whether the machine was
shut down; of an application only its window is modelled.
-/
open H3OS.Mouse H3OS.Wm

namespace H3OS.Desktop

def START_W : Int := 420
def START_H : Int := 520
def ACTION_W : Int := 360

inductive theme_mode_t where
  | THEME_DARK
  | THEME_LIGHT
deriving DecidableEq

inductive desktop_app_t where
  | APP_TERMINAL
  | APP_FILES
  | APP_SETTINGS
  | APP_CALC
  | APP_TASKS
deriving DecidableEq

/-- The applications in the order of the enumeration. -/
def apps : List desktop_app_t := [.APP_TERMINAL, .APP_FILES, .APP_SETTINGS, .APP_CALC, .APP_TASKS]

/-- What the shell runs on: the screen, the settings, and the addresses of the applications' data and callbacks. -/
structure Env where
  fb : fb_t
  perf : perf_settings_t
  g_term : Nat
  term_draw : Nat
  term_on_key : Nat
  g_fm : Nat
  fm_draw : Nat
  settings_draw : Nat
  calc_draw : Nat
  tm_draw : Nat

structure St where
  wm : Wm.St
  g_theme : theme_mode_t
  g_start : Bool
  g_search : Bool
  g_action : Bool
  g_ctx : Bool
  g_snap_ui : Bool
  g_click_consumed : Bool
  g_ctx_x : Int
  g_ctx_y : Int
  g_notify_count : Nat
  -- the static variable of the context menu's last entry
  th : Bool
  opened : List desktop_app_t
  shutdown : Bool

/-- The shell after `desktop_init`, no window created yet. -/
def desktop_init : St :=
  ⟨Wm.wm_init, .THEME_DARK, false, false, false, false, false, false, 0, 0, 2, false, [], false⟩

/-! ## Applications -/

/-- Create a window and, if there is one, fill in its callbacks. -/
def open_window (e : Env) (s : St) (title : String) (x y w h : Int) (fill : window_t → window_t) : St :=
  match wm_create e.perf s.wm (some (str title)) x y w h with
  | (none, wm) => { s with wm := wm }
  | (some i, wm) => { s with wm := wm.set i (fill (wm.windows i)) }

def terminal_open (e : Env) (s : St) : St :=
  let s := open_window e s "Terminal" ((i32 e.fb.width - 640).tdiv 2) 80 640 400 (fun v =>
    { v with bg := 0xFF07161E, accent := 0xFF2EC4B6, user := e.g_term, draw := e.term_draw, on_key := e.term_on_key })
  { s with opened := s.opened ++ [.APP_TERMINAL] }

def filemanager_open (e : Env) (s : St) : St :=
  let s := open_window e s "File Manager" 80 70 480 320 (fun v => { v with user := e.g_fm, draw := e.fm_draw })
  { s with opened := s.opened ++ [.APP_FILES] }

def settings_open (e : Env) (s : St) : St :=
  let s := open_window e s "Settings" 160 100 420 260 (fun v => { v with draw := e.settings_draw })
  { s with opened := s.opened ++ [.APP_SETTINGS] }

def calculator_open (e : Env) (s : St) : St :=
  let s := open_window e s "Calculator" 100 120 280 220 (fun v => { v with draw := e.calc_draw })
  { s with opened := s.opened ++ [.APP_CALC] }

def taskmanager_open (e : Env) (s : St) : St :=
  let s := open_window e s "Task Manager" 200 90 420 280 (fun v => { v with draw := e.tm_draw })
  { s with opened := s.opened ++ [.APP_TASKS] }

def desktop_launch (e : Env) (s : St) (app : desktop_app_t) : St :=
  let s := match app with
    | .APP_TERMINAL => terminal_open e s
    | .APP_FILES => filemanager_open e s
    | .APP_SETTINGS => settings_open e s
    | .APP_CALC => calculator_open e s
    | .APP_TASKS => taskmanager_open e s
  { s with g_start := false, g_search := false, g_ctx := false }

def power_shutdown (s : St) : St := { s with shutdown := true }

/-! ## The shell -/

def desktop_toggle_launcher (s : St) : St :=
  let s := { s with g_start := !s.g_start }
  if s.g_start = true then { s with g_action := false, g_search := false, g_ctx := false } else s

def desktop_toggle_snap (s : St) : St := { s with g_snap_ui := !s.g_snap_ui }

def desktop_set_theme (s : St) (mode : theme_mode_t) : St := { s with g_theme := mode }

structure desk_icon_t where
  label : String
  app : desktop_app_t
  x : Int
  y : Int

def g_icons : List desk_icon_t := [
  ⟨"This PC", .APP_FILES, 28, 40⟩,
  ⟨"Files", .APP_FILES, 28, 120⟩,
  ⟨"Terminal", .APP_TERMINAL, 28, 200⟩,
  ⟨"Settings", .APP_SETTINGS, 28, 280⟩,
  ⟨"Recycle Bin", .APP_FILES, 28, 360⟩]

/-- The point is in the rectangle of size `w` by `h` at `(x, y)`. -/
def within (m : mouse_state_t) (x y w h : Int) : Bool := m.x ≥ x && m.x < x + w && m.y ≥ y && m.y < y + h

def consume (s : St) : St := { s with g_click_consumed := true }

/-- The upper edge of the taskbar. -/
def taskbar_y (e : Env) : Int := i32 e.fb.height - TASKBAR_H

def in_start (e : Env) (m : mouse_state_t) : Bool := within m 8 (taskbar_y e - START_H - 8) START_W START_H

def in_action (e : Env) (m : mouse_state_t) : Bool :=
  within m (i32 e.fb.width - ACTION_W - 12) (taskbar_y e - 420 - 8) ACTION_W 420

def snap_x (e : Env) : Int := (i32 e.fb.width - 280).tdiv 2

def in_snap (e : Env) (m : mouse_state_t) : Bool := within m (snap_x e) 60 280 120

def in_ctx (s : St) (m : mouse_state_t) : Bool := within m s.g_ctx_x s.g_ctx_y 200 168

/-- The task button under the mouse, of at most six. -/
def task_button (s : St) (m : mouse_state_t) : Option Nat :=
  (List.range (min (wm_count s.wm) 6)).find? (fun i : Nat => m.x ≥ 520 + 108 * i && m.x < 520 + 108 * i + 100)

/-- A press on the taskbar. -/
def taskbar_click (e : Env) (s : St) (m : mouse_state_t) : St :=
  let s := { s with g_ctx := false }
  if m.x ≥ 8 ∧ m.x < 48 then consume (desktop_toggle_launcher s)
  else if m.x ≥ 56 ∧ m.x < 236 then consume { s with g_search := true, g_start := false, g_action := false }
  else if m.x ≥ 250 ∧ m.x < 250 + 5 * 52 then
    match apps[((m.x - 250).tdiv 52).toNat]? with
    | some app => consume (desktop_launch e s app)
    | none => consume s
  else
    match task_button s m with
    | some i => consume { s with wm := wm_restore_or_focus s.wm (wm_get s.wm i) }
    | none =>
      let tray_x := i32 e.fb.width - 210
      if m.x ≥ tray_x + 78 ∧ m.x < tray_x + 106 then consume { s with g_action := !s.g_action, g_start := false }
      else if m.x ≥ i32 e.fb.width - 90 then consume { s with g_action := !s.g_action }
      else consume s

/-- The pinned entry under the mouse, in a start menu at `(sx, sy)`. -/
def pinned_entry (m : mouse_state_t) (sx sy : Int) : Option Nat :=
  (List.range 8).find? (fun i : Nat =>
    within m (sx + 24 + (i % 4 : Nat) * 94) (sy + 70 + (i / 4 : Nat) * 90) 84 76)

/-- A press inside the start menu: the grid of pinned entries, then the power button. -/
def start_click (e : Env) (s : St) (m : mouse_state_t) : St :=
  let sx := 8
  let sy := taskbar_y e - START_H - 8
  match pinned_entry m sx sy with
  | some i =>
    match apps[i]? with
    | some app => consume (desktop_launch e s app)
    | none =>
      if i = 5 then consume (terminal_open e s)
      else if i = 6 then consume (terminal_open e s)
      else consume (power_shutdown s)
  | none =>
    if m.x ≥ sx + START_W - 68 ∧ m.y ≥ sy + START_H - 42 then consume (power_shutdown s) else consume s

/-- The layout preview of the snap flyout in whose column the mouse is. -/
def snap_preview (e : Env) (m : mouse_state_t) : Option Nat :=
  (List.range 6).find? (fun i : Nat => m.x ≥ snap_x e + 16 + i * 42 && m.x < snap_x e + 16 + i * 42 + 36)

/-- A press inside the context menu. -/
def ctx_click (e : Env) (s : St) (m : mouse_state_t) : St :=
  let item := (m.y - s.g_ctx_y - 10).tdiv 24
  let s := if item = 4 then desktop_launch e s .APP_SETTINGS else s
  let s := if item = 5 then
      let s := { s with th := !s.th }
      desktop_set_theme s (if s.th = true then .THEME_LIGHT else .THEME_DARK)
    else s
  consume { s with g_ctx := false }

/-- The last part of `desktop_handle_mouse`: no popup is open any more. -/
def icon_click (e : Env) (s : St) (m : mouse_state_t) : St :=
  match g_icons.find? (fun icon => within m icon.x icon.y 64 64) with
  | some icon => consume (desktop_launch e s icon.app)
  | none => s

/-- A press above the taskbar; each popup is closed if the press is not for it. -/
def desk_click (e : Env) (s : St) (m : mouse_state_t) : St :=
  if s.g_start = true ∧ in_start e m = true then start_click e s m else
  let s := { s with g_start := false }
  if s.g_action = true ∧ in_action e m = true then consume { s with g_notify_count := 0 } else
  let s := { s with g_action := false }
  -- a press between the previews falls through to what is below
  match (if s.g_snap_ui = true ∧ in_snap e m = true then snap_preview e m else none) with
  | some i =>
    let s := match wm_focused s.wm with
      | some foc => { s with wm := wm_snap e.fb s.wm (some foc) i }
      | none => s
    consume { s with g_snap_ui := false }
  | none =>
  let s := { s with g_snap_ui := false }
  if s.g_ctx = true ∧ in_ctx s m = true then ctx_click e s m else
  icon_click e { s with g_ctx := false } m

def desktop_handle_mouse (e : Env) (s : St) (m : mouse_state_t) : St :=
  let s := { s with g_click_consumed := false }
  if m.right_pressed = true ∧ m.y < taskbar_y e ∧ wm_at s.wm m.x m.y = none then
    consume { s with
      g_ctx := true, g_ctx_x := m.x, g_ctx_y := m.y, g_start := false, g_action := false, g_search := false }
  else if m.left_pressed = false then s
  else if m.y ≥ taskbar_y e then taskbar_click e s m
  else desk_click e s m

def desktop_mouse_click_consumed (s : St) : Bool := s.g_click_consumed

/-- The two statements of `kernel_idle` that hand on the mouse. -/
def idle_mouse (e : Env) (s : St) (m : mouse_state_t) : St :=
  let s := desktop_handle_mouse e s m
  if desktop_mouse_click_consumed s = false then { s with wm := wm_handle_mouse e.fb s.wm m } else s

end H3OS.Desktop
