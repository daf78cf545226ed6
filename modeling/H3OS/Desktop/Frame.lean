import H3OS.Desktop.Model
import H3OS.Wm.Paint
/-!
# A frame of the desktop

`desktop_render` of `desktop/desktop.c` as the calls it makes: wallpaper,
icons, windows, popups, taskbar and pointer, each over what came before, and a
swap. Wallpaper and taskbar leave no point out, so a frame is a picture of the
shell's state alone: nothing of an earlier frame is left on it, and no window
reaches over the taskbar or the pointer.
-/
open SysLib H3OS.Framebuffer.Paint H3OS.Wm H3OS.Wm.Paint

namespace H3OS.Desktop.Frame

def COL_DESK_TOP : UInt32 := 0xFF0A3D62
def COL_DESK_BOT : UInt32 := 0xFF061820
def COL_TASKBAR : UInt32 := 0xE0121A22
def COL_START_BG : UInt32 := 0xF0141E28
def COL_TEXT : UInt32 := 0xFFF3F7FA
def COL_MUTED : UInt32 := 0xFF8AA4B0
def COL_HOVER : UInt32 := 0xFF1C2E3A
def COL_LIGHT_TOP : UInt32 := 0xFF4AA3C7
def COL_LIGHT_BOT : UInt32 := 0xFFD6EAF2
def COL_NOTIFY : UInt32 := 0xF0162030

/-- What a frame shows besides the state that clicks change. -/
structure View where
  g_accent : UInt32
  g_frame : UInt32
  g_search_q : List UInt8
  uptime_ms : Nat
  cursor_x : Int
  cursor_y : Int
  shadows : Bool

/-- A text without a background. -/
def text (x y : Int) (s : String) (fg : UInt32) : Call := .draw_string x y (str s) fg 0xFFFFFFFF

/-- `for (int i = 0; i < n; i++)` around calls. -/
def each (n : Nat) (calls : Nat → List Call) : List Call := (List.range n).flatMap calls

/-! ## Background -/

/-- A component of a colour. -/
def channel (c shift : UInt32) : UInt32 := (c >>> shift) &&& 0xFF

def mix (c0 c1 t : UInt32) : UInt32 := (c0 * (255 - t) + c1 * t) / 255

/-- The colour of a row of the wallpaper. -/
def gradient (top bot y height : UInt32) : UInt32 :=
  let t := (y * 255) / (if height ≠ 0 then height else 1)
  let r := mix (channel top 16) (channel bot 16) t
  let g := mix (channel top 8) (channel bot 8) t
  let b := mix (channel top 0) (channel bot 0) t
  (0xFF000000 : UInt32) ||| (r <<< 16) ||| (g <<< 8) ||| b

/-- The loop over a row: `color` is set at a glow and stays. -/
def wallpaper_row (dark : Bool) (g_frame y : UInt32) : List Nat → UInt32 → List Call
  | [], _ => []
  | x :: xs, color =>
    let color := if (UInt32.ofNat x + g_frame / 3) % 180 < 2 ∧ y % 3 = 0 then (if dark then 0xFF0E4A6A else 0xFFB8DCEC) else color
    .put_pixel (i32 x) (i32 y.toNat) color :: wallpaper_row dark g_frame y xs color

def draw_wallpaper (fb : fb_t) (theme : theme_mode_t) (v : View) : List Call :=
  let dark : Bool := theme = .THEME_DARK
  let top := if dark then COL_DESK_TOP else COL_LIGHT_TOP
  let bot := if dark then COL_DESK_BOT else COL_LIGHT_BOT
  each (UInt32.ofNat fb.height - 48).toNat fun y =>
    wallpaper_row dark v.g_frame (UInt32.ofNat y) (List.range fb.width) (gradient top bot (UInt32.ofNat y) (UInt32.ofNat fb.height))

def draw_desktop_icons (v : View) : List Call :=
  g_icons.flatMap fun icon =>
    [.fill_rounded_rect icon.x icon.y 64 52 6 0x55101820,
      .fill_rounded_rect (icon.x + 14) (icon.y + 6) 36 28 4 v.g_accent,
      text (icon.x + 4) (icon.y + 40) icon.label COL_TEXT]

def draw_brand_watermark (e : Env) (v : View) : List Call :=
  let x := i32 e.fb.width - 220
  let y := i32 e.fb.height - TASKBAR_H - 70
  [text x y "H3OS" v.g_accent, text x (y + 16) "0.1.0  Horizon" COL_MUTED]

/-! ## Popups -/

def draw_start_menu (e : Env) (s : St) (v : View) : List Call :=
  if s.g_start = false then [] else
  let x : Int := 8
  let y := i32 e.fb.height - TASKBAR_H - START_H - 8
  [.fill_rounded_rect x y START_W START_H 12 COL_START_BG, .draw_rect x y START_W START_H v.g_accent,
    text (x + 24) (y + 20) "H3OS" v.g_accent, text (x + 80) (y + 20) "The Future Starts Here." COL_MUTED,
    text (x + 24) (y + 44) "Pinned" COL_MUTED] ++
  each 8 (fun i =>
    let ax := x + 24 + (i % 4 : Nat) * 94
    let ay := y + 70 + (i / 4 : Nat) * 90
    [.fill_rounded_rect ax ay 84 76 10 COL_HOVER, .fill_rounded_rect (ax + 22) (ay + 12) 40 32 6 v.g_accent,
      text (ax + 8) (ay + 52) (["Terminal", "File Manager", "Settings", "Calculator", "Task Manager", "Notepad", "Store",
        "Power"].getD i "") COL_TEXT]) ++
  [text (x + 24) (y + 270) "Recommended" COL_MUTED, .fill_rounded_rect (x + 24) (y + 290) 372 40 8 COL_HOVER,
    text (x + 40) (y + 304) "Welcome to H3OS Horizon" COL_TEXT, .fill_rounded_rect (x + 24) (y + 340) 372 40 8 COL_HOVER,
    text (x + 40) (y + 354) "Explore Settings & Themes" COL_TEXT,
    .fill_rect x (y + START_H - 56) START_W 56 0xFF0C141C, text (x + 24) (y + START_H - 34) "user" COL_TEXT,
    .fill_rounded_rect (x + START_W - 120) (y + START_H - 42) 44 28 6 0xFF1A2832,
    text (x + START_W - 108) (y + START_H - 34) "Sleep" COL_MUTED,
    .fill_rounded_rect (x + START_W - 68) (y + START_H - 42) 52 28 6 0xFFE85D4C,
    text (x + START_W - 56) (y + START_H - 34) "Off" COL_TEXT]

def adaptive_profile_name : perf_profile_t → String
  | .PERF_LOW => "Low-End / Lightweight"
  | .PERF_BALANCED => "Balanced"
  | .PERF_HIGH => "High-End / Enhanced"

def draw_action_center (e : Env) (s : St) (v : View) : List Call :=
  if s.g_action = false then [] else
  let w := ACTION_W
  let h : Int := 420
  let x := i32 e.fb.width - w - 12
  let y := i32 e.fb.height - TASKBAR_H - h - 8
  [.fill_rounded_rect x y w h 12 COL_NOTIFY, .draw_rect x y w h v.g_accent,
    text (x + 20) (y + 20) "Notification Center" v.g_accent,
    .fill_rounded_rect (x + 20) (y + 52) (w - 40) 56 8 COL_HOVER, text (x + 36) (y + 64) "Welcome to H3OS" COL_TEXT,
    text (x + 36) (y + 80) "The Future Starts Here." COL_MUTED,
    .fill_rounded_rect (x + 20) (y + 118) (w - 40) 56 8 COL_HOVER, text (x + 36) (y + 130) "System update ready" COL_TEXT,
    text (x + 36) (y + 146) "Horizon desktop improvements" COL_MUTED, text (x + 20) (y + 200) "Quick Settings" COL_MUTED] ++
  each 8 (fun i =>
    let tx := x + 20 + (i % 4 : Nat) * 80
    let ty := y + 224 + (i / 4 : Nat) * 70
    [.fill_rounded_rect tx ty 72 58 8 (if i = 0 then v.g_accent else COL_HOVER),
      text (tx + 12) (ty + 24) (["Wi-Fi", "BT", "Air", "Night", "Focus", "Cast", "Proj", "Hotspot"].getD i "")
        (if i = 0 then 0xFF061018 else COL_TEXT)]) ++
  [text (x + 20) (y + 380) (adaptive_profile_name e.perf.profile) COL_MUTED]

/-- The part of a preview that its layout fills. -/
def preview_tile (px py : Int) (accent : UInt32) : Nat → List Call
  | 0 => [.fill_rect (px + 2) (py + 2) 15 44 accent]
  | 1 => [.fill_rect (px + 19) (py + 2) 15 44 accent]
  | 2 => [.fill_rect (px + 2) (py + 2) 15 20 accent]
  | 3 => [.fill_rect (px + 19) (py + 2) 15 20 accent]
  | 4 => [.fill_rect (px + 2) (py + 26) 15 20 accent]
  | 5 => [.fill_rect (px + 19) (py + 26) 15 20 accent]
  | _ => []

def draw_snap_flyout (e : Env) (s : St) (v : View) : List Call :=
  if s.g_snap_ui = false then [] else
  let x := snap_x e
  let y : Int := 60
  [.fill_rounded_rect x y 280 120 10 COL_START_BG, text (x + 16) (y + 14) "Snap layouts" v.g_accent] ++
  each 6 fun i =>
    let px := x + 16 + (i : Int) * 42
    let py := y + 44
    .draw_rect px py 36 48 COL_MUTED :: preview_tile px py v.g_accent i

def draw_context_menu (s : St) : List Call :=
  if s.g_ctx = false then [] else
  let x := s.g_ctx_x
  let y := s.g_ctx_y
  [.fill_rounded_rect x y 200 168 8 COL_START_BG, .draw_rect x y 200 168 0xFF2A3A45] ++
  each 6 fun i =>
    [text (x + 16) (y + 14 + (i : Int) * 24)
      (["View", "Sort by", "Refresh", "New folder", "Display settings", "Personalize"].getD i "") COL_TEXT]

/-! ## The taskbar -/

def format_clock (uptime_ms : Nat) : List UInt8 :=
  let min := uptime_ms / 60000 % 60
  let hr := uptime_ms / 3600000 % 24
  [UInt8.ofNat (48 + hr / 10), UInt8.ofNat (48 + hr % 10), 58, UInt8.ofNat (48 + min / 10), UInt8.ofNat (48 + min % 10)]

/-- The loop over the task buttons from the one at `tx` on. -/
def task_buttons (s : Wm.St) (v : View) (y : Int) : List Nat → Int → List Call
  | [], _ => []
  | i :: is, tx =>
    match wm_get s i with
    | none => task_buttons s v y is tx
    | some win =>
      let w := s.windows win
      [.fill_rounded_rect tx (y + 8) 100 32 6 (if w.focused then v.g_accent else 0xFF1A2832),
        .draw_string (tx + 8) (y + 18) (w.title.take 11) (if w.focused then 0xFF061018 else COL_TEXT) 0xFFFFFFFF] ++
      (if w.state ≠ .WIN_MINIMIZED then [.fill_rect (tx + 10) (y + 36) 80 2 v.g_accent] else []) ++
      task_buttons s v y is (tx + 108)

def draw_taskbar (e : Env) (s : St) (v : View) : List Call :=
  let y := i32 e.fb.height - TASKBAR_H
  let tray_x := i32 e.fb.width - 210
  [.fill_rect 0 y (i32 e.fb.width) TASKBAR_H COL_TASKBAR, .fill_rect 0 y (i32 e.fb.width) 1 0xFF2A3A45,
    .fill_rounded_rect 8 (y + 6) 40 36 6 (if s.g_start then v.g_accent else 0xFF1A2832),
    text 16 (y + 18) "H3" (if s.g_start then 0xFF061018 else v.g_accent),
    .fill_rounded_rect 56 (y + 10) 180 28 8 0xFF1A2832,
    .draw_string 68 (y + 18) (if s.g_search then v.g_search_q else str "Search H3OS") COL_MUTED 0xFFFFFFFF] ++
  each 5 (fun i =>
    let px := 250 + (i : Int) * 52
    [.fill_rounded_rect px (y + 8) 44 32 6 0xFF1A2832,
      text (px + 6) (y + 18) (["Term", "Files", "Set", "Calc", "Task"].getD i "") COL_TEXT]) ++
  task_buttons s.wm v y (List.range (min (wm_count s.wm) 6)) 520 ++
  [text tray_x (y + 18) "WiFi" COL_MUTED, text (tray_x + 40) (y + 18) "Vol" COL_MUTED,
    .fill_rounded_rect (tray_x + 78) (y + 10) 28 28 6 (if s.g_action then v.g_accent else 0xFF1A2832),
    text (tray_x + 86) (y + 18) "N" (if s.g_action then 0xFF061018 else COL_TEXT)] ++
  (if s.g_notify_count ≠ 0 then [.fill_rect (tray_x + 96) (y + 10) 8 8 0xFFE85D4C] else []) ++
  [.draw_string (i32 e.fb.width - 70) (y + 12) (format_clock v.uptime_ms) COL_TEXT 0xFFFFFFFF,
    text (i32 e.fb.width - 78) (y + 26) "Aug 6" COL_MUTED]

/-! ## The frame -/

def mouse_draw_cursor (v : View) : List Call :=
  let x := v.cursor_x
  let y := v.cursor_y
  each 14 (fun i => .put_pixel x (y + i) 0xFF2EC4B6 ::
    (List.range (min ((if i < 10 then i else 14 - i) + 1) 9)).map fun (j : Nat) => .put_pixel (x + j) (y + i) 0xFFF5FBFD) ++
  [.draw_line x y (x + 5) (y + 12) 0xFF061018]

/-- What is behind the taskbar. -/
def behind (e : Env) (draw : Nat → window_t → List Call) (s : St) (v : View) : List Call :=
  draw_wallpaper e.fb s.g_theme v ++ draw_desktop_icons v ++ draw_brand_watermark e v ++
  Paint.wm_render v.shadows draw s.wm ++ draw_start_menu e s v ++ draw_action_center e s v ++ draw_snap_flyout e s v ++
  draw_context_menu s

def desktop_render (e : Env) (draw : Nat → window_t → List Call) (s : St) (v : View) : List Call :=
  behind e draw s v ++ draw_taskbar e s v ++ mouse_draw_cursor v ++ [.swap]

/-! ## Calls that are in range -/

/-- A call that stays in range, is over with the given fuel, and paints what it paints whatever is in memory. -/
structure Tame (fuel : Nat) (g : Framebuffer.Surface) (op : Call) : Prop where
  in_range : op.InRange g
  turns : op.turns < fuel
  fixed : ∀ m m', op.layer m = op.layer m'

/-- A coordinate far from overflowing. -/
def Small (v : Int) : Prop := -2 ^ 26 ≤ v ∧ v ≤ 2 ^ 26

section
variable {fuel : Nat} {g : Framebuffer.Surface} {x y w h r : Int} {c fg bg : UInt32} {t : List UInt8}

theorem Small.span (hx : Small x) (hw : Small w) : Span x w := by
  obtain ⟨h1, h2⟩ := hx
  obtain ⟨h3, h4⟩ := hw
  unfold Span I32
  omega

theorem Small.i32 (hx : Small x) : I32 x := by
  obtain ⟨h1, h2⟩ := hx
  unfold I32
  omega

theorem tame_put (hx : Small x) (hy : Small y) (hf : 0 < fuel) : Tame fuel g (.put_pixel x y c) :=
  ⟨⟨hx.i32, hy.i32⟩, Nat.cast_pos.2 hf, fun _ _ => rfl⟩

theorem tame_fill (hx : Small x) (hy : Small y) (hw : Small w) (hh : Small h) (hf : 0 < fuel) :
    Tame fuel g (.fill_rect x y w h c) := ⟨⟨hx.span hw, hy.span hh⟩, Nat.cast_pos.2 hf, fun _ _ => rfl⟩

theorem tame_frame (hx : Small x) (hy : Small y) (hw : Small w) (hh : Small h) (hf : 0 < fuel) :
    Tame fuel g (.draw_rect x y w h c) := by
  refine ⟨⟨hx.span hw, hy.span hh, ?_, ?_⟩, Nat.cast_pos.2 hf, fun _ _ => rfl⟩
  · obtain ⟨h1, -⟩ := hx
    obtain ⟨h2, -⟩ := hw
    omega
  · obtain ⟨h1, -⟩ := hy
    obtain ⟨h2, -⟩ := hh
    omega

theorem tame_rounded (hx : Small x) (hy : Small y) (hw : Small w) (hh : Small h) (hr : 0 ≤ r ∧ r < 2 ^ 15) (hf : 0 < fuel) :
    Tame fuel g (.fill_rounded_rect x y w h r c) := by
  have hsmall : Small r := ⟨by omega, by omega⟩
  refine ⟨⟨hx.span hw, hy.span hh, hx.span hsmall, hy.span hsmall, hr.2, ?_, ?_⟩, Nat.cast_pos.2 hf, fun _ _ => rfl⟩
  · obtain ⟨h1, -⟩ := hx
    obtain ⟨h2, -⟩ := hw
    omega
  · obtain ⟨h1, -⟩ := hy
    obtain ⟨h2, -⟩ := hh
    omega

theorem tame_string (hx : Small x) (hy : Small y) (ht : t.length ≤ 2 ^ 20) (hf : 0 < fuel) :
    Tame fuel g (.draw_string x y t fg bg) := by
  obtain ⟨h1, h2⟩ := hx
  obtain ⟨h3, h4⟩ := hy
  refine ⟨⟨⟨⟨by omega, by omega⟩, by omega⟩, ⟨by omega, by omega⟩, by omega⟩, Nat.cast_pos.2 hf, fun _ _ => rfl⟩

theorem tame_text {s : String} (hx : Small x) (hy : Small y) (hs : (str s).length ≤ 40) (hf : 0 < fuel) :
    Tame fuel g (text x y s fg) := tame_string hx hy (by omega) hf

theorem getD_short {l : List String} (hl : ∀ s ∈ l, (str s).length ≤ 40) (i : Nat) : (str (l.getD i "")).length ≤ 40 := by
  rcases Nat.lt_or_ge i l.length with hi | hi
  · rw [List.getD_eq_getElem _ _ hi]
    exact hl _ (List.getElem_mem hi)
  · rw [List.getD_eq_default _ _ hi]
    decide

theorem mem_each {n : Nat} {calls : Nat → List Call} {q : Call → Prop} :
    (∀ op ∈ each n calls, q op) ↔ ∀ i < n, ∀ op ∈ calls i, q op := by
  unfold each
  simp only [List.mem_flatMap, List.mem_range]
  constructor
  · intro h i hi op hop
    exact h op ⟨i, hi, hop⟩
  · rintro h op ⟨i, hi, hop⟩
    exact h i hi op hop

end

/-- What a frame is made from is of a size that no coordinate overflows. -/
structure Sized (fuel : Nat) (g : Framebuffer.Surface) (e : Env) (draw : Nat → window_t → List Call) (s : St) (v : View) : Prop where
  enough : 12 < fuel
  fb : e.fb = g.tofb_t
  width : e.fb.width ≤ 2 ^ 24
  height : e.fb.height ≤ 2 ^ 24
  query : v.g_search_q.length ≤ 2 ^ 20
  cursor : (-2 ^ 24 ≤ v.cursor_x ∧ v.cursor_x ≤ 2 ^ 24) ∧ -2 ^ 24 ≤ v.cursor_y ∧ v.cursor_y ≤ 2 ^ 24
  menu : (-2 ^ 24 ≤ s.g_ctx_x ∧ s.g_ctx_x ≤ 2 ^ 24) ∧ -2 ^ 24 ≤ s.g_ctx_y ∧ s.g_ctx_y ≤ 2 ^ 24
  windows : ∀ i ∈ Wm.wm_render s.wm, ((-2 ^ 24 ≤ (s.wm.windows i).x ∧ (s.wm.windows i).x ≤ 2 ^ 24) ∧
    -2 ^ 24 ≤ (s.wm.windows i).y ∧ (s.wm.windows i).y ≤ 2 ^ 24) ∧
    ((-2 ^ 24 ≤ (s.wm.windows i).w ∧ (s.wm.windows i).w ≤ 2 ^ 24) ∧ -2 ^ 24 ≤ (s.wm.windows i).h ∧ (s.wm.windows i).h ≤ 2 ^ 24) ∧
    (s.wm.windows i).title.length ≤ 2 ^ 20
  callbacks : ∀ i ∈ Wm.wm_render s.wm, ∀ op ∈ draw (s.wm.windows i).draw (s.wm.windows i), Tame fuel g op

section
variable {fuel : Nat} {g : Framebuffer.Surface} {e : Env} {draw : Nat → window_t → List Call} {s : St} {v : View}

theorem i32_eq {n : Nat} (h : n < 2 ^ 31) : i32 n = n := by
  unfold i32
  omega

theorem Sized.wallpaper (h : Sized fuel g e draw s v) : ∀ op ∈ draw_wallpaper e.fb s.g_theme v, Tame fuel g op := by
  have hf := h.enough
  have hrow : ∀ dark g_frame y xs color, ∀ op ∈ wallpaper_row dark g_frame y xs color,
      ∃ x y c, op = .put_pixel (i32 x) (i32 y) c := by
    intro dark g_frame y xs
    induction xs with
    | nil => exact fun color => nofun
    | cons x xs ih =>
      intro color
      rw [wallpaper_row, List.forall_mem_cons]
      exact ⟨⟨_, _, _, rfl⟩, ih _⟩
  have hi32 : ∀ n, I32 (i32 n) := by
    intro n
    unfold I32 i32
    omega
  unfold draw_wallpaper
  rw [mem_each]
  intro y _ op hop
  obtain ⟨x, y, c, rfl⟩ := hrow _ _ _ _ _ op hop
  exact ⟨⟨hi32 x, hi32 y⟩, Nat.cast_pos.2 (by omega), fun _ _ => rfl⟩

theorem tame_icons (hf : 0 < fuel) : ∀ op ∈ draw_desktop_icons v, Tame fuel g op := by
  unfold draw_desktop_icons g_icons
  simp only [List.forall_mem_append, List.forall_mem_cons, List.not_mem_nil, false_implies, implies_true, and_true,
    List.flatMap_cons, List.flatMap_nil]
  refine ⟨⟨?_, ?_, ?_⟩, ⟨?_, ?_, ?_⟩, ⟨?_, ?_, ?_⟩, ⟨?_, ?_, ?_⟩, ?_, ?_, ?_⟩
  all_goals first | apply tame_rounded | apply tame_text
  all_goals first | omega | (unfold Small; omega) | decide

theorem Sized.watermark (h : Sized fuel g e draw s v) : ∀ op ∈ draw_brand_watermark e v, Tame fuel g op := by
  have hf := h.enough
  have hw := h.width
  have hh := h.height
  unfold draw_brand_watermark TASKBAR_H
  rw [i32_eq (by omega), i32_eq (by omega)]
  simp only [List.forall_mem_cons, List.not_mem_nil, false_implies, implies_true, and_true]
  refine ⟨?_, ?_⟩
  all_goals apply tame_text
  all_goals first | omega | (unfold Small; omega) | decide

theorem caption_tame (hf : 0 < fuel) {x y : Int} {fill : UInt32} {glyph : String} (hx : -2 ^ 25 - 138 ≤ x ∧ x ≤ 2 ^ 25)
    (hy : -2 ^ 25 ≤ y ∧ y ≤ 2 ^ 25) (hglyph : (str glyph).length ≤ 40) :
    ∀ op ∈ draw_caption_btn x y fill glyph, Tame fuel g op := by
  unfold draw_caption_btn
  simp only [List.forall_mem_cons, List.not_mem_nil, false_implies, implies_true, and_true]
  refine ⟨tame_fill ?_ ?_ ?_ ?_ hf, tame_string ?_ ?_ ?_ hf⟩
  all_goals first | omega | (unfold Small; omega)

/-- A window of moderate size, with a callback that stays in range. -/
theorem chrome_tame (hf : 0 < fuel) {shadows : Bool} {win : window_t} (hx : -2 ^ 24 ≤ win.x ∧ win.x ≤ 2 ^ 24)
    (hy : -2 ^ 24 ≤ win.y ∧ win.y ≤ 2 ^ 24) (hw : -2 ^ 24 ≤ win.w ∧ win.w ≤ 2 ^ 24) (hh : -2 ^ 24 ≤ win.h ∧ win.h ≤ 2 ^ 24)
    (ht : win.title.length ≤ 2 ^ 20) (hdraw : ∀ op ∈ draw win.draw win, Tame fuel g op) :
    ∀ op ∈ draw_window_chrome shadows draw win, Tame fuel g op := by
  unfold draw_window_chrome draw_frame
  simp only [List.forall_mem_append, List.forall_mem_cons, List.not_mem_nil, false_implies, implies_true, and_true]
  refine ⟨?_, ⟨⟨⟨⟨⟨?_, ?_, ?_⟩, ?_⟩, ?_⟩, ?_⟩, ?_⟩, ?_⟩
  · split_ifs
    · simp only [List.forall_mem_cons, List.not_mem_nil, false_implies, implies_true, and_true]
      apply tame_fill
      all_goals first | omega | (unfold Small; omega)
    · exact nofun
  · apply tame_fill
    all_goals first | omega | (unfold Small; omega)
  · apply tame_fill
    all_goals first | omega | (unfold Small; omega)
  · apply tame_string
    all_goals first | omega | (unfold Small; omega)
  · exact caption_tame hf (by omega) (by omega) (by decide)
  · exact caption_tame hf (by omega) (by omega) (by decide)
  · exact caption_tame hf (by omega) (by omega) (by decide)
  · split_ifs
    · apply tame_fill
      all_goals first | omega | (unfold Small; omega)
    · apply tame_frame
      all_goals first | omega | (unfold Small; omega)
  · split_ifs
    · exact hdraw
    · exact nofun

theorem Sized.render (h : Sized fuel g e draw s v) : ∀ op ∈ Paint.wm_render v.shadows draw s.wm, Tame fuel g op := by
  have hf := h.enough
  intro op hop
  obtain ⟨i, hi, hop'⟩ := List.mem_flatMap.1 hop
  obtain ⟨⟨hx, hy⟩, ⟨hw, hh⟩, ht⟩ := h.windows i hi
  exact chrome_tame (by omega) hx hy hw hh ht (h.callbacks i hi) op hop'

theorem Sized.start_menu (h : Sized fuel g e draw s v) : ∀ op ∈ draw_start_menu e s v, Tame fuel g op := by
  have hf := h.enough
  have hh := h.height
  unfold draw_start_menu START_W START_H TASKBAR_H
  rw [i32_eq (by omega)]
  split_ifs
  · exact nofun
  · simp only [List.forall_mem_append, List.forall_mem_cons, List.not_mem_nil, false_implies, implies_true, and_true, mem_each]
    refine ⟨⟨⟨?_, ?_, ?_, ?_, ?_⟩, fun i hi => ⟨?_, ?_, ?_⟩⟩, ?_, ?_, ?_, ?_, ?_, ?_, ?_, ?_, ?_, ?_, ?_⟩
    all_goals first | apply tame_rounded | apply tame_frame | apply tame_fill | apply tame_text
    all_goals first | omega | (unfold Small; omega) | decide | exact getD_short (by decide) _

theorem Sized.action_center (h : Sized fuel g e draw s v) : ∀ op ∈ draw_action_center e s v, Tame fuel g op := by
  have hf := h.enough
  have hh := h.height
  have hw := h.width
  have hprofile : ∀ p, (str (adaptive_profile_name p)).length ≤ 40 := by
    intro p
    cases p <;> decide
  unfold draw_action_center ACTION_W TASKBAR_H
  rw [i32_eq (by omega), i32_eq (by omega)]
  split_ifs
  · exact nofun
  · simp only [List.forall_mem_append, List.forall_mem_cons, List.not_mem_nil, false_implies, implies_true, and_true, mem_each]
    refine ⟨⟨⟨?_, ?_, ?_, ?_, ?_, ?_, ?_, ?_, ?_, ?_⟩, fun i hi => ⟨?_, ?_⟩⟩, ?_⟩
    all_goals first | apply tame_rounded | apply tame_frame | apply tame_text
    all_goals first | omega | (unfold Small; omega) | exact hprofile _ | decide | exact getD_short (by decide) _

theorem preview_tame (hf : 0 < fuel) {px py : Int} (hx : -2 ^ 25 ≤ px ∧ px ≤ 2 ^ 25) (hy : -2 ^ 25 ≤ py ∧ py ≤ 2 ^ 25)
    (accent : UInt32) (i : Nat) : ∀ op ∈ preview_tile px py accent i, Tame fuel g op := by
  unfold preview_tile
  split
  all_goals simp only [List.forall_mem_cons, List.not_mem_nil, false_implies, implies_true, and_true]
  all_goals apply tame_fill
  all_goals first | omega | (unfold Small; omega)

theorem Sized.snap_flyout (h : Sized fuel g e draw s v) : ∀ op ∈ draw_snap_flyout e s v, Tame fuel g op := by
  have hf := h.enough
  have hw := h.width
  have hx : -2 ^ 24 ≤ snap_x e ∧ snap_x e ≤ 2 ^ 24 := by
    unfold snap_x
    rw [i32_eq (by omega)]
    have hhalf := Int.mul_tdiv_add_tmod ((e.fb.width : Int) - 280) 2
    have hlow := Int.lt_tmod_of_pos ((e.fb.width : Int) - 280) (show (0 : Int) < 2 by omega)
    have hhigh := Int.tmod_lt_of_pos ((e.fb.width : Int) - 280) (show (0 : Int) < 2 by omega)
    omega
  unfold draw_snap_flyout
  split_ifs
  · exact nofun
  · simp only [List.forall_mem_append, List.forall_mem_cons, List.not_mem_nil, false_implies, implies_true, and_true, mem_each]
    refine ⟨⟨?_, ?_⟩, fun i hi => ⟨?_, preview_tame (by omega) (by omega) (by omega) _ i⟩⟩
    all_goals first | apply tame_rounded | apply tame_frame | apply tame_text
    all_goals first | omega | (unfold Small; omega) | decide

theorem Sized.context_menu (h : Sized fuel g e draw s v) : ∀ op ∈ draw_context_menu s, Tame fuel g op := by
  have hf := h.enough
  obtain ⟨hx, hy⟩ := h.menu
  unfold draw_context_menu
  split_ifs
  · exact nofun
  · simp only [List.forall_mem_append, List.forall_mem_cons, List.not_mem_nil, false_implies, implies_true, and_true, mem_each]
    refine ⟨⟨?_, ?_⟩, fun i hi => ?_⟩
    all_goals first | apply tame_rounded | apply tame_frame | apply tame_text
    all_goals first | omega | (unfold Small; omega) | exact getD_short (by decide) _

theorem task_buttons_tame (hf : 0 < fuel) {y : Int} (hy : -2 ^ 25 ≤ y ∧ y ≤ 2 ^ 25) (wm : Wm.St) {is : List Nat} {tx : Int}
    (htx : 0 ≤ tx ∧ tx + 108 * is.length ≤ 2 ^ 25) : ∀ op ∈ task_buttons wm v y is tx, Tame fuel g op := by
  induction is generalizing tx with
  | nil =>
    rw [task_buttons]
    exact nofun
  | cons i is ih =>
    rw [List.length_cons] at htx
    push_cast at htx
    rw [task_buttons]
    cases wm_get wm i with
    | none => exact ih ⟨htx.1, by omega⟩
    | some win =>
      dsimp only
      simp only [List.forall_mem_append, List.forall_mem_cons, List.not_mem_nil, false_implies, implies_true, and_true]
      refine ⟨⟨⟨?_, ?_⟩, ?_⟩, ih ⟨by omega, by omega⟩⟩
      · apply tame_rounded
        all_goals first | omega | (unfold Small; omega)
      · apply tame_string
        all_goals first | omega | (unfold Small; omega) | (rw [List.length_take]; omega)
      · split_ifs
        · simp only [List.forall_mem_cons, List.not_mem_nil, false_implies, implies_true, and_true]
          apply tame_fill
          all_goals first | omega | (unfold Small; omega)
        · exact nofun

theorem Sized.taskbar (h : Sized fuel g e draw s v) : ∀ op ∈ draw_taskbar e s v, Tame fuel g op := by
  have hf := h.enough
  have hw := h.width
  have hh := h.height
  have hq := h.query
  unfold draw_taskbar TASKBAR_H
  rw [i32_eq (by omega), i32_eq (by omega)]
  simp only [List.forall_mem_append, List.forall_mem_cons, List.not_mem_nil, false_implies, implies_true, and_true, mem_each]
  refine ⟨⟨⟨⟨⟨⟨?_, ?_, ?_, ?_, ?_, ?_⟩, fun i hi => ⟨?_, ?_⟩⟩, ?_⟩, ?_, ?_, ?_, ?_⟩, ?_⟩, ?_, ?_⟩
  case refine_6 =>
    have hquery : (if s.g_search = true then v.g_search_q else str "Search H3OS").length ≤ 2 ^ 20 := by
      split_ifs
      · exact hq
      · decide
    apply tame_string _ _ hquery (by omega)
    all_goals
      unfold Small
      omega
  case refine_9 =>
    have hcount : (List.range (min (wm_count s.wm) 6)).length ≤ 6 := by simp
    exact task_buttons_tame (by omega) (by omega) _ ⟨by omega, by omega⟩
  case refine_14 =>
    split_ifs
    · simp only [List.forall_mem_cons, List.not_mem_nil, false_implies, implies_true, and_true]
      apply tame_fill
      all_goals first | omega | (unfold Small; omega)
    · exact nofun
  case refine_15 =>
    have hclock : (format_clock v.uptime_ms).length ≤ 2 ^ 20 := by
      unfold format_clock
      simp
    apply tame_string _ _ hclock (by omega)
    all_goals
      unfold Small
      omega
  all_goals first | apply tame_rounded | apply tame_fill | apply tame_text
  all_goals first | omega | (unfold Small; omega) | decide | exact getD_short (by decide) _

theorem Sized.pointer (h : Sized fuel g e draw s v) : ∀ op ∈ mouse_draw_cursor v, Tame fuel g op := by
  have hf := h.enough
  obtain ⟨hx, hy⟩ := h.cursor
  unfold mouse_draw_cursor
  simp only [List.forall_mem_append, List.forall_mem_cons, List.not_mem_nil, false_implies, implies_true, and_true, mem_each,
    List.forall_mem_map, List.mem_range, lt_min_iff]
  refine ⟨fun i hi => ⟨?_, fun j hj => ?_⟩, ?_, ?_, ?_⟩
  · apply tame_put
    all_goals first | omega | (unfold Small; omega)
  · apply tame_put
    all_goals first | omega | (unfold Small; omega)
  · unfold Op.InRange I32
    refine ⟨⟨by omega, by omega⟩, ⟨by omega, by omega⟩, ⟨by omega, by omega⟩, ⟨by omega, by omega⟩, ?_, ?_⟩
    · rw [add_sub_cancel_left]
      decide
    · rw [add_sub_cancel_left]
      decide
  · have hturns : (Op.draw_line v.cursor_x v.cursor_y (v.cursor_x + 5) (v.cursor_y + 12) 0xFF061018 : Call).turns = 12 := by
      dsimp only [Op.turns]
      rw [add_sub_cancel_left, add_sub_cancel_left]
      decide
    rw [hturns]
    exact_mod_cast hf
  · exact fun _ _ => rfl

theorem Sized.behind (h : Sized fuel g e draw s v) : ∀ op ∈ behind e draw s v, Tame fuel g op := by
  have hf := h.enough
  unfold Frame.behind
  simp only [List.forall_mem_append]
  exact ⟨⟨⟨⟨⟨⟨⟨h.wallpaper, tame_icons (by omega)⟩, h.watermark⟩, h.render⟩, h.start_menu⟩, h.action_center⟩,
    h.snap_flyout⟩, h.context_menu⟩

theorem Sized.tame (h : Sized fuel g e draw s v) : ∀ op ∈ desktop_render e draw s v, Tame fuel g op := by
  have hf := h.enough
  have hswap : Tame fuel g .swap := ⟨trivial, Nat.cast_pos.2 (by omega), fun _ _ => rfl⟩
  unfold desktop_render
  simp only [List.forall_mem_append, List.forall_mem_cons, List.not_mem_nil, false_implies, implies_true, and_true]
  exact ⟨⟨⟨h.behind, h.taskbar⟩, h.pointer⟩, hswap⟩

/-! ## No point is left out -/

variable {m : Mem} {p : Int × Int}

theorem row_covers (dark : Bool) (g_frame y : UInt32) {xs : List Nat} {x : Nat} (hx : x ∈ xs) (color : UInt32) :
    ∃ c, .put_pixel (i32 x) (i32 y.toNat) c ∈ wallpaper_row dark g_frame y xs color := by
  induction xs generalizing color with
  | nil => cases hx
  | cons a xs ih =>
    rw [wallpaper_row]
    rcases List.mem_cons.1 hx with rfl | hx
    · exact ⟨_, List.mem_cons_self⟩
    · obtain ⟨c, hc⟩ := ih hx _
      exact ⟨c, List.mem_cons_of_mem _ hc⟩

/-- The wallpaper is behind all that is above the taskbar. -/
theorem wallpaper_covers (hw : e.fb.width ≤ 2 ^ 24) (hh : e.fb.height ≤ 2 ^ 24) (theme : theme_mode_t)
    (hx : 0 ≤ p.1 ∧ p.1 < e.fb.width) (hy : 0 ≤ p.2 ∧ p.2 < taskbar_y e) : painted m (draw_wallpaper e.fb theme v) p ≠ none := by
  intro hnone
  rw [painted_eq_none] at hnone
  unfold taskbar_y TASKBAR_H at hy
  rw [i32_eq (by omega)] at hy
  have hnat : ∀ n < 2 ^ 32, (UInt32.ofNat n).toNat = n := fun n hn => UInt32.toNat_ofNat_of_lt' hn
  have hrows : (UInt32.ofNat e.fb.height - 48).toNat = e.fb.height - 48 := by
    have h48 : (48 : UInt32) ≤ UInt32.ofNat e.fb.height := by
      rw [UInt32.le_iff_toNat_le, hnat _ (by omega)]
      change 48 ≤ e.fb.height
      omega
    rw [UInt32.toNat_sub_of_le _ _ h48, hnat _ (by omega)]
    rfl
  have hrow : (UInt32.ofNat p.2.toNat).toNat = p.2.toNat := hnat _ (by omega)
  obtain ⟨c, hc⟩ := row_covers (decide (theme = .THEME_DARK)) v.g_frame (UInt32.ofNat p.2.toNat)
    (List.mem_range.2 (show p.1.toNat < e.fb.width by omega))
    (gradient (if decide (theme = .THEME_DARK) = true then COL_DESK_TOP else COL_LIGHT_TOP)
      (if decide (theme = .THEME_DARK) = true then COL_DESK_BOT else COL_LIGHT_BOT) (UInt32.ofNat p.2.toNat) (UInt32.ofNat e.fb.height))
  rw [hrow, i32_eq (by omega), i32_eq (by omega), Int.toNat_of_nonneg hx.1, Int.toNat_of_nonneg hy.1] at hc
  have hin : (.put_pixel p.1 p.2 c : Call) ∈ draw_wallpaper e.fb theme v := by
    unfold draw_wallpaper each
    exact List.mem_flatMap.2 ⟨p.2.toNat, List.mem_range.2 (by omega), hc⟩
  exact absurd rfl (Layer.shape_eq_none.1 (hnone _ hin))

/-- The taskbar leaves out no point of its rows. -/
theorem taskbar_covers (hw : e.fb.width ≤ 2 ^ 24) (hh : e.fb.height ≤ 2 ^ 24) (hx : 0 ≤ p.1 ∧ p.1 < e.fb.width)
    (hy : taskbar_y e ≤ p.2 ∧ p.2 < e.fb.height) : painted m (draw_taskbar e s v) p ≠ none := by
  intro hnone
  rw [painted_eq_none] at hnone
  have hfill := hnone (.fill_rect 0 (taskbar_y e) (i32 e.fb.width) TASKBAR_H COL_TASKBAR) (by simp [draw_taskbar, taskbar_y])
  refine absurd ?_ (Layer.shape_eq_none.1 hfill)
  unfold taskbar_y TASKBAR_H at *
  rw [i32_eq (by omega)] at *
  unfold InRect
  rw [i32_eq (by omega)]
  omega

/-- All of it is in its rows or below. -/
theorem page_above {x y : Int} {t : List UInt8} {fg bg : UInt32} (h : p.2 < y) : page x y t fg bg p = none := by
  refine page_eq_none fun row col c _ => ?_
  unfold InRect
  omega

theorem rounded_above {x y w h r : Int} (hy : p.2 < y) : ¬ Rounded x y w h r p := by
  unfold Rounded InRect
  omega

theorem rect_above {x y w h : Int} (hy : p.2 < y) : ¬ InRect x y w h p := by
  unfold InRect
  omega

theorem buttons_above {wm : Wm.St} {y : Int} (hy : p.2 < y) {is : List Nat} {tx : Int} :
    ∀ op ∈ task_buttons wm v y is tx, op.layer m p = none := by
  induction is generalizing tx with
  | nil =>
    rw [task_buttons]
    exact nofun
  | cons i is ih =>
    rw [task_buttons]
    cases wm_get wm i with
    | none => exact ih
    | some win =>
      dsimp only
      simp only [List.forall_mem_append, List.forall_mem_cons, List.not_mem_nil, false_implies, implies_true, and_true]
      refine ⟨⟨⟨Layer.shape_not (rounded_above (by omega)), page_above (by omega)⟩, ?_⟩, ih⟩
      split_ifs
      · simp only [List.forall_mem_cons, List.not_mem_nil, false_implies, implies_true, and_true]
        exact Layer.shape_not (rect_above (by omega))
      · exact nofun

theorem taskbar_above (hy : p.2 < taskbar_y e) : painted m (draw_taskbar e s v) p = none := by
  rw [painted_eq_none]
  unfold taskbar_y at hy
  unfold draw_taskbar
  simp only [List.forall_mem_append, List.forall_mem_cons, List.not_mem_nil, false_implies, implies_true, and_true, mem_each]
  refine ⟨⟨⟨⟨⟨⟨?_, ?_, ?_, ?_, ?_, ?_⟩, fun i hi => ⟨?_, ?_⟩⟩, buttons_above hy⟩, ?_, ?_, ?_, ?_⟩, ?_⟩, ?_, ?_⟩
  case refine_13 =>
    split_ifs
    · simp only [List.forall_mem_cons, List.not_mem_nil, false_implies, implies_true, and_true]
      exact Layer.shape_not (rect_above (by omega))
    · exact nofun
  all_goals first | exact page_above (by omega) | exact Layer.shape_not (rect_above (by omega)) |
    exact Layer.shape_not (rounded_above (by omega))

theorem painted_congr {calls : List Call} {m' : Mem} (h : ∀ op ∈ calls, op.layer m = op.layer m') :
    painted m calls = painted m' calls := by
  unfold painted
  rw [List.map_congr_left h]

/-! ## The frame on the screen -/

theorem shows_small (hg : Framed g) (hp : Shows g p) : I32 p.1 ∧ I32 p.2 := by
  have hrows := hg.rows
  have hpitch := hg.pitch
  have hheight := hg.height
  unfold Shows at hp
  unfold I32
  omega

/-- After a swap that all is drawn is shown. -/
theorem shown_after_swap (hg : Framed g) {calls : List Call} {m' : Mem} (h : Draws g m m' (calls ++ [.swap])) (hp : Shows g p) :
    front g m' p = (painted m calls).on (pixel g m) p := by
  cases hd : g.double_buffered with
  | true => exact h.shown hd calls [] rfl (by simp) p hp
  | false =>
    obtain ⟨hx, hy⟩ := shows_small hg hp
    have hdrawn := h.drawn p.1 p.2 hx hy
    rw [get_pixel_eq hg hx hy, if_pos hp, if_pos hp, List.map_append, Layer.stack_append] at hdrawn
    rw [h.single hd p hp]
    exact hdrawn

end

/-- The layers of a frame: the pointer on all the others, and below it the taskbar in its rows, the rest above them. -/
def layers (m : Mem) (e : Env) (draw : Nat → window_t → List Call) (s : St) (v : View) : Layer (Int × Int) UInt32 := fun p =>
  (painted m (mouse_draw_cursor v)).atop
    (painted m (if p.2 < taskbar_y e then behind e draw s v else draw_taskbar e s v)) p

/-- A frame is a picture of the shell's state alone: whatever was on the screen, and in the back buffer, before, after
`desktop_render` each of its points has the colour that the pointer gives it, or the taskbar if it is in the taskbar's rows,
or what is behind; no point keeps what it had, and no byte beside the surface changes. -/
theorem desktop_frame {fuel : Nat} {g : Framebuffer.Surface} {e : Env} {draw : Nat → window_t → List Call} {s : St} {v : View}
    (hg : Framed g) (h : Sized fuel g e draw s v) : ∃ picture : Picture,
      (∀ m, ∃ m', run fuel g (desktop_render e draw s v) m = some m' ∧ (∀ p, Shows g p → front g m' p = picture p) ∧
        ∀ a, Beside g a → m' a = m a) ∧
      ∀ m p, Shows g p → layers m e draw s v p = some (picture p) := by
  have htame := h.tame
  have hall : ∀ m p, Shows g p →
      painted m (behind e draw s v ++ draw_taskbar e s v ++ mouse_draw_cursor v) p = layers m e draw s v p ∧
      layers m e draw s v p ≠ none := by
    intro m p hp
    obtain ⟨hx0, hx1, hy0, hy1⟩ := hp
    rw [show g.width = e.fb.width by rw [h.fb]] at hx1
    rw [show g.height = e.fb.height by rw [h.fb]] at hy1
    unfold layers
    rw [painted_append, painted_append]
    unfold Layer.atop
    by_cases habove : p.2 < taskbar_y e
    · rw [if_pos habove, taskbar_above habove, Option.none_or]
      refine ⟨rfl, ?_⟩
      have hwall := wallpaper_covers (m := m) (v := v) h.width h.height s.g_theme ⟨hx0, hx1⟩ ⟨hy0, habove⟩
      have hbehind : painted m (behind e draw s v) p ≠ none := by
        intro hnone
        rw [painted_eq_none] at hnone
        refine hwall (painted_eq_none.2 fun op hop => hnone op ?_)
        unfold behind
        simp only [List.mem_append, hop, true_or]
      simp [hbehind]
    · rw [if_neg habove]
      have hbar := taskbar_covers (m := m) (s := s) (v := v) h.width h.height ⟨hx0, hx1⟩ ⟨not_lt.1 habove, hy1⟩
      obtain ⟨c, hc⟩ := Option.ne_none_iff_exists'.1 hbar
      rw [hc]
      simp
  have hfixed : ∀ m, painted m (behind e draw s v ++ draw_taskbar e s v ++ mouse_draw_cursor v) =
      painted (fun _ => 0) (behind e draw s v ++ draw_taskbar e s v ++ mouse_draw_cursor v) := fun m =>
    painted_congr fun op hop => (htame op (List.mem_append_left _ hop)).fixed m _
  have hpicture : ∀ m p, Shows g p → layers m e draw s v p = some ((layers (fun _ => 0) e draw s v p).getD 0) := by
    intro m p hp
    obtain ⟨c, hc⟩ := Option.ne_none_iff_exists'.1 (hall (fun _ => 0) p hp).2
    rw [← (hall m p hp).1, hfixed m, (hall _ p hp).1, hc]
    rfl
  refine ⟨fun p => (layers (fun _ => 0) e draw s v p).getD 0, fun m => ?_, hpicture⟩
  obtain ⟨m', hrun, hdraws⟩ := run_draws hg (fun op hop => (htame op hop).in_range)
    (fun op hop => (htame op hop).turns) m
  refine ⟨m', hrun, fun p hp => ?_, hdraws.beside⟩
  rw [shown_after_swap hg hdraws hp]
  unfold Layer.on
  rw [(hall m p hp).1, hpicture m p hp]
  rfl

def small_machine : Env := ⟨⟨1024, 768⟩, ⟨.PERF_BALANCED, 16⟩, 0, 1, 2, 0, 3, 4, 5, 6⟩

/-- The shell with a window, its menu open, and the pointer in a corner. -/
def first_shell : St := desktop_toggle_launcher (open_window small_machine desktop_init "Terminal" 192 80 640 400 id)

theorem first_shell_sized : Sized 13 small_screen small_machine (fun _ _ => []) first_shell ⟨0, 0, [], 0, 1000, 700, true⟩ := by
  refine ⟨by decide, rfl, by decide, by decide, by decide, by decide, by decide, ?_, nofun⟩
  decide +kernel

/-- The first frame of a small machine. -/
theorem desktop_frame_first : ∃ picture : Picture,
    (∀ m, ∃ m', run 13 small_screen (desktop_render small_machine (fun _ _ => []) first_shell ⟨0, 0, [], 0, 1000, 700, true⟩) m =
      some m' ∧ (∀ p, Shows small_screen p → front small_screen m' p = picture p) ∧ ∀ a, Beside small_screen a → m' a = m a) ∧
    ∀ m p, Shows small_screen p → layers m small_machine (fun _ _ => []) first_shell ⟨0, 0, [], 0, 1000, 700, true⟩ p =
      some (picture p) :=
  desktop_frame small_screen_framed first_shell_sized

end H3OS.Desktop.Frame
