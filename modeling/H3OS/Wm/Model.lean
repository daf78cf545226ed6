import H3OS.Mouse.Model
/-!
# The window manager

`window_manager/wm.c`: a table of 32 windows, a pointer to the focused one and
a count. A window is a slot of the table. Coordinates are integers, as C
leaves signed overflow undefined; callbacks are the addresses stored.
-/
open H3OS.Mouse

namespace H3OS.Wm

def WM_MAX_WINDOWS : Nat := 32
def WM_TITLE_LEN : Nat := 64
def TASKBAR_H : Int := 48

inductive win_state_t where
  | WIN_NORMAL
  | WIN_MAXIMIZED
  | WIN_MINIMIZED
  | WIN_FULLSCREEN
deriving DecidableEq

structure window_t where
  active : Bool
  title : List UInt8
  x : Int
  y : Int
  w : Int
  h : Int
  restore_x : Int
  restore_y : Int
  restore_w : Int
  restore_h : Int
  bg : Nat
  accent : Nat
  state : win_state_t
  always_on_top : Bool
  focused : Bool
  draw : Nat
  on_key : Nat
  user : Nat
deriving DecidableEq

/-- A window of zeroes. -/
def blank : window_t := ⟨false, [], 0, 0, 0, 0, 0, 0, 0, 0, 0, 0, .WIN_NORMAL, false, false, 0, 0, 0⟩

abbrev WinPtr := Fin WM_MAX_WINDOWS

structure St where
  windows : WinPtr → window_t
  focused : Option WinPtr
  win_count : Nat
  drag_win : Option WinPtr
  drag_off_x : Int
  drag_off_y : Int
  dragging : Bool

def St.set (s : St) (i : WinPtr) (v : window_t) : St := { s with windows := Function.update s.windows i v }

/-- The slots in the order of a loop over the table. -/
def slots : List WinPtr := List.finRange WM_MAX_WINDOWS

/-- The window manager after `wm_init`, with nothing dragged yet. -/
def wm_init : St := ⟨fun _ => blank, none, 0, none, 0, 0, false⟩

/-! ## Settings -/

inductive perf_profile_t where
  | PERF_LOW
  | PERF_BALANCED
  | PERF_HIGH
deriving DecidableEq

structure perf_settings_t where
  profile : perf_profile_t
  max_windows : Nat

structure cpu_info_t where
  logical_cpus : Nat
  has_sse2 : Bool

/-- `adaptive_init`, as far as windows go; `total_bytes` is what `pmm_get_stats` reports. -/
def adaptive_init (total_bytes : Nat) (cpu : cpu_info_t) : perf_settings_t :=
  let mem_mb := total_bytes / (1024 * 1024)
  if mem_mb < 512 ∨ cpu.logical_cpus ≤ 1 ∨ cpu.has_sse2 = false then ⟨.PERF_LOW, 4⟩
  else if mem_mb < 2048 ∨ cpu.logical_cpus < 4 then ⟨.PERF_BALANCED, 12⟩
  else ⟨.PERF_HIGH, 32⟩

/-! ## Windows -/

def wm_focus (s : St) (win : Option WinPtr) : St :=
  let s := { s with windows := fun i => { s.windows i with focused := false } }
  match win with
  | none => s
  | some i =>
    let v := s.windows i
    { s.set i { v with focused := true, state := if v.state = .WIN_MINIMIZED then .WIN_NORMAL else v.state } with
      focused := some i }

def wm_create (p : perf_settings_t) (s : St) (title : Option (List UInt8)) (x y w h : Int) : Option WinPtr × St :=
  if s.win_count ≥ p.max_windows then (none, s) else
  match slots.find? (fun i => !(s.windows i).active) with
  | none => (none, s)
  | some i =>
    let s := s.set i { blank with
      active := true
      title := (title.getD (str "Untitled")).take (WM_TITLE_LEN - 1)
      x := x, y := y, w := w, h := h
      restore_x := x, restore_y := y, restore_w := w, restore_h := h
      bg := 0xFF0E1A22, accent := 0xFF2EC4B6 }
    (some i, wm_focus { s with win_count := (s.win_count + 1) % 2 ^ 32 } (some i))

def wm_destroy (s : St) (win : Option WinPtr) : St :=
  match win with
  | none => s
  | some i =>
    if (s.windows i).active = false then s else
    let s := s.set i { s.windows i with active := false }
    { s with
      focused := if s.focused = some i then none else s.focused
      win_count := (s.win_count + (2 ^ 32 - 1)) % 2 ^ 32 }

def wm_restore_or_focus (s : St) (win : Option WinPtr) : St :=
  match win with
  | none => s
  | some i =>
    if (s.windows i).focused = true ∧ (s.windows i).state ≠ .WIN_MINIMIZED then
      { s.set i { s.windows i with state := .WIN_MINIMIZED } with focused := none }
    else wm_focus s (some i)

def wm_move (s : St) (win : Option WinPtr) (x y : Int) : St :=
  match win with
  | none => s
  | some i => s.set i { s.windows i with x := x, y := y }

def wm_resize (s : St) (win : Option WinPtr) (w h : Int) : St :=
  match win with
  | none => s
  | some i => s.set i { s.windows i with w := if w < 160 then 160 else w, h := if h < 100 then 100 else h }

/-- Remember the geometry for a later restore. -/
def save_geometry (v : window_t) : window_t :=
  { v with restore_x := v.x, restore_y := v.y, restore_w := v.w, restore_h := v.h }

def set_state (fb : fb_t) (v : window_t) (state : win_state_t) : window_t :=
  if state = .WIN_MAXIMIZED ∧ v.state ≠ .WIN_MAXIMIZED then
    { save_geometry v with x := 0, y := 0, w := i32 fb.width, h := i32 fb.height - TASKBAR_H, state := state }
  else if state = .WIN_NORMAL ∧ v.state = .WIN_MAXIMIZED then
    { v with x := v.restore_x, y := v.restore_y, w := v.restore_w, h := v.restore_h, state := state }
  else { v with state := state }

def wm_set_state (fb : fb_t) (s : St) (win : Option WinPtr) (state : win_state_t) : St :=
  match win with
  | none => s
  | some i => s.set i (set_state fb (s.windows i) state)

/-- The rectangle of a snap layout; `none` for the numbers without one. -/
def snap_rect (fb : fb_t) (layout : Int) : Option (Int × Int × Int × Int) :=
  let W := i32 fb.width
  let H := i32 fb.height - TASKBAR_H
  let hw := W.tdiv 2
  let hh := H.tdiv 2
  if layout = 0 then some (0, 0, hw, H)
  else if layout = 1 then some (hw, 0, W - hw, H)
  else if layout = 2 then some (0, 0, hw, hh)
  else if layout = 3 then some (hw, 0, W - hw, hh)
  else if layout = 4 then some (0, hh, hw, H - hh)
  else if layout = 5 then some (hw, hh, W - hw, H - hh)
  else none

def snap (fb : fb_t) (v : window_t) (layout : Int) : window_t :=
  let v := if v.state ≠ .WIN_MAXIMIZED ∧ layout ≠ 6 then save_geometry v else v
  if layout = 6 then set_state fb v .WIN_MAXIMIZED else
  match snap_rect fb layout with
  | some (x, y, w, h) => { v with x := x, y := y, w := w, h := h, state := .WIN_NORMAL }
  | none => { v with state := .WIN_NORMAL }

def wm_snap (fb : fb_t) (s : St) (win : Option WinPtr) (layout : Int) : St :=
  match win with
  | none => s
  | some i => s.set i (snap fb (s.windows i) layout)

/-! ## Painting and hit testing -/

def visible (v : window_t) : Bool := v.active && v.state ≠ .WIN_MINIMIZED

def covers (v : window_t) (x y : Int) : Bool := x ≥ v.x && x < v.x + v.w && y ≥ v.y && y < v.y + v.h

/-- The windows `wm_render` paints, in the order in which it does. -/
def wm_render (s : St) : List WinPtr :=
  slots.filter (fun i => (s.windows i).active && !(s.windows i).focused && (s.windows i).state ≠ .WIN_MINIMIZED) ++
  match s.focused with
  | some f => if visible (s.windows f) then [f] else []
  | none => []

def wm_focused (s : St) : Option WinPtr := s.focused
def wm_count (s : St) : Nat := s.win_count

/-- The loop of `wm_get` over the rest of the table, `n` active windows behind it. -/
def get_from (s : St) (index : Nat) : List WinPtr → Nat → Option WinPtr
  | [], _ => none
  | i :: rest, n =>
    if (s.windows i).active = false then get_from s index rest n
    else if n = index then some i
    else get_from s index rest (n + 1)

def wm_get (s : St) (index : Nat) : Option WinPtr := get_from s index slots 0

/-- The first hit of the loop of `wm_at`, from the last slot down. -/
def top_slot (s : St) (x y : Int) : Option WinPtr :=
  slots.reverse.find? (fun i => visible (s.windows i) && covers (s.windows i) x y)

def wm_at (s : St) (x y : Int) : Option WinPtr :=
  match s.focused with
  | some f => if visible (s.windows f) && covers (s.windows f) x y then some f else top_slot s x y
  | none => top_slot s x y

/-! ## The mouse -/

/-- A turn of an ongoing drag. -/
def drag (fb : fb_t) (s : St) (i : WinPtr) (m : mouse_state_t) : St :=
  if m.left = true then
    let s := if (s.windows i).state = .WIN_MAXIMIZED then
        let s := wm_set_state fb s (some i) .WIN_NORMAL
        { s with drag_off_x := (s.windows i).w.tdiv 2, drag_off_y := 16 }
      else s
    wm_move s (some i) (m.x - s.drag_off_x) (m.y - s.drag_off_y)
  else
    let s := if m.x ≤ 12 then wm_snap fb s (some i) 0
      else if m.x ≥ i32 fb.width - 12 then wm_snap fb s (some i) 1
      else if m.y ≤ 8 then wm_snap fb s (some i) 6
      else s
    { s with dragging := false, drag_win := none }

/-- A press on the window `i`, which has the focus now. -/
def press (fb : fb_t) (s : St) (i : WinPtr) (m : mouse_state_t) : St :=
  let v := s.windows i
  if m.y ≥ v.y ∧ m.y < v.y + 32 then
    if m.x ≥ v.x + v.w - 46 ∧ m.x < v.x + v.w then wm_destroy s (some i)
    else if m.x ≥ v.x + v.w - 92 ∧ m.x < v.x + v.w - 46 then
      if v.state = .WIN_MAXIMIZED then wm_set_state fb s (some i) .WIN_NORMAL
      else wm_set_state fb s (some i) .WIN_MAXIMIZED
    else if m.x ≥ v.x + v.w - 138 ∧ m.x < v.x + v.w - 92 then
      let s := s.set i { v with state := .WIN_MINIMIZED }
      { s with focused := if s.focused = some i then none else s.focused }
    else { s with dragging := true, drag_win := some i, drag_off_x := m.x - v.x, drag_off_y := m.y - v.y }
  else s

/-- A turn without a drag: a press goes to the window on top. -/
def click (fb : fb_t) (s : St) (m : mouse_state_t) : St :=
  if m.left_pressed = false then s else
  match wm_at s m.x m.y with
  | none => s
  | some i => press fb (wm_focus s (some i)) i m

def wm_handle_mouse (fb : fb_t) (s : St) (m : mouse_state_t) : St :=
  match s.drag_win with
  | some i => if s.dragging = true ∧ (s.windows i).active = true then drag fb s i m else click fb s m
  | none => click fb s m

/-! ## Runs -/

inductive Op where
  | create (title : Option (List UInt8)) (x y w h : Int)
  | destroy (win : Option WinPtr)
  | focus (win : Option WinPtr)
  | restore_or_focus (win : Option WinPtr)
  | move (win : Option WinPtr) (x y : Int)
  | resize (win : Option WinPtr) (w h : Int)
  | set_state (win : Option WinPtr) (state : win_state_t)
  | snap (win : Option WinPtr) (layout : Int)
  | handle_mouse (m : mouse_state_t)

def exec (p : perf_settings_t) (fb : fb_t) (s : St) : Op → St
  | .create title x y w h => (wm_create p s title x y w h).2
  | .destroy win => wm_destroy s win
  | .focus win => wm_focus s win
  | .restore_or_focus win => wm_restore_or_focus s win
  | .move win x y => wm_move s win x y
  | .resize win w h => wm_resize s win w h
  | .set_state win state => wm_set_state fb s win state
  | .snap win layout => wm_snap fb s win layout
  | .handle_mouse m => wm_handle_mouse fb s m

end H3OS.Wm
