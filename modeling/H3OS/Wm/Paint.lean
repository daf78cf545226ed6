import H3OS.Framebuffer.Display
import H3OS.Wm.Table
/-!
# Windows on the picture

`draw_window_chrome` and the calls that `wm_render` makes. A window covers its
rectangle and, besides it, may only cast its shadow; so what is seen at a point
is the window that a click there hits, a shadow that falls on it, or what
is below all windows.
-/
open SysLib H3OS.Framebuffer.Paint

namespace H3OS.Wm.Paint

abbrev Call := Framebuffer.Paint.Op

def COL_TITLE_BG : UInt32 := 0xFF101B24
def COL_TITLE_FG : UInt32 := 0xFFF3F7FA
def COL_BORDER : UInt32 := 0xFF2A4552
def COL_SHADOW : UInt32 := 0x55000000
def COL_CLOSE : UInt32 := 0xFFE81123

def draw_caption_btn (x y : Int) (fill : UInt32) (glyph : String) : List Call :=
  [.fill_rect x y 46 32 fill, .draw_string (x + 18) (y + 12) (str glyph) 0xFFFFFFFF 0xFFFFFFFF]

/-- The part of `draw_window_chrome` behind the shadow; `draw` is the calls that a callback makes. -/
def draw_frame (draw : Nat → window_t → List Call) (win : window_t) : List Call :=
  let x := win.x; let y := win.y; let w := win.w; let h := win.h
  [.fill_rect x y w h (UInt32.ofNat win.bg),
    .fill_rect x y w 32 (if win.focused then 0xFF15232E else COL_TITLE_BG),
    .draw_string (x + 14) (y + 12) win.title COL_TITLE_FG 0xFFFFFFFF] ++
  draw_caption_btn (x + w - 138) y 0xFF1A2A35 "_" ++
  draw_caption_btn (x + w - 92) y 0xFF1A2A35 "O" ++
  draw_caption_btn (x + w - 46) y (if win.focused then COL_CLOSE else 0xFF3A2030) "X" ++
  [if win.focused then .fill_rect x (y + 31) w 2 (UInt32.ofNat win.accent) else .draw_rect x y w h COL_BORDER] ++
  if win.draw ≠ 0 then draw win.draw win else []

/-- Whether a window casts a shadow; `shadows` is a setting. -/
def casts (shadows : Bool) (win : window_t) : Bool := shadows && win.state ≠ .WIN_MAXIMIZED

def draw_window_chrome (shadows : Bool) (draw : Nat → window_t → List Call) (win : window_t) : List Call :=
  (if casts shadows win then [.fill_rect (win.x + 6) (win.y + 6) win.w win.h COL_SHADOW] else []) ++ draw_frame draw win

def wm_render (shadows : Bool) (draw : Nat → window_t → List Call) (s : St) : List Call :=
  (Wm.wm_render s).flatMap fun i => draw_window_chrome shadows draw (s.windows i)

/-! ## What is seen -/

/-- What calls paint; `m` holds the blocks that are copied. -/
def painted (m : Mem) (calls : List Call) : Layer (Int × Int) UInt32 := .stack (calls.map fun op => op.layer m)

/-- The points of a window's shadow. -/
def InShadow (shadows : Bool) (win : window_t) (p : Int × Int) : Prop :=
  casts shadows win = true ∧ InRect (win.x + 6) (win.y + 6) win.w win.h p

/-- A window that has room for its title and its buttons, and whose callback draws nothing outside of it. Neither its
coordinates nor those of its shadow overflow. -/
structure Roomy (m : Mem) (draw : Nat → window_t → List Call) (win : window_t) : Prop where
  range : Span win.x (win.w + 6) ∧ Span win.y (win.h + 6)
  width : 138 ≤ win.w
  height : 33 ≤ win.h
  title : ∀ row col c, charAt win.title row col = some c → 14 + 8 * (col : Int) + 8 ≤ win.w ∧ 12 + 10 * (row : Int) + 8 ≤ win.h
  callback : win.draw ≠ 0 → ∀ p, covers win p.1 p.2 = false → painted m (draw win.draw win) p = none

section
variable {m : Mem} {shadows : Bool} {draw : Nat → window_t → List Call} {win : window_t} {p : Int × Int} {s : St} {i : WinPtr}
  {x y : Int}

theorem covers_iff : covers win p.1 p.2 = true ↔ InRect win.x win.y win.w win.h p := by
  unfold covers InRect
  simp only [Bool.and_eq_true, decide_eq_true_eq, ge_iff_le]
  omega

theorem painted_append (calls calls' : List Call) : painted m (calls ++ calls') = (painted m calls').atop (painted m calls) := by
  unfold painted
  rw [List.map_append, Layer.stack_append]

theorem painted_eq_none {calls : List Call} : painted m calls p = none ↔ ∀ op ∈ calls, op.layer m p = none := by
  unfold painted
  rw [Layer.stack_eq_none]
  simp

/-- A text is only in the cells of its characters. -/
theorem page_eq_none {s : List UInt8} {fg bg : UInt32}
    (h : ∀ row col c, charAt s row col = some c → ¬ InRect (x + 8 * (col : Int)) (y + 10 * (row : Int)) 8 8 p) :
    page x y s fg bg p = none := by
  unfold page
  by_cases hin : x ≤ p.1 ∧ y ≤ p.2
  · rw [if_pos hin]
    cases hc : charAt s ((p.2 - y) / 10).toNat ((p.1 - x) / 8).toNat with
    | none => rfl
    | some c =>
      have hout := h _ _ c hc
      have hx : x + 8 * (((p.1 - x) / 8).toNat : Int) = x + (p.1 - x) / 8 * 8 := by omega
      have hy : y + 10 * (((p.2 - y) / 10).toNat : Int) = y + (p.2 - y) / 10 * 10 := by omega
      rw [hx, hy] at hout
      exact if_neg hout
  · rw [if_neg hin]

/-- A text of one line is in row 0. -/
theorem charAt_line {t : List UInt8} (ht : 10 ∉ t) {row col : Nat} {c : UInt8} (h : charAt t row col = some c) :
    row = 0 ∧ col < t.length := by
  unfold charAt at h
  rw [List.splitOn_eq_singleton ht] at h
  cases row with
  | zero =>
    obtain ⟨hcol, -⟩ := List.getElem?_eq_some_iff.1 (show t[col]? = some c from h)
    exact ⟨rfl, hcol⟩
  | succ row => simp at h

theorem caption_none {fill : UInt32} {glyph : String} (hone : (str glyph).length = 1) (hline : 10 ∉ str glyph)
    (hp : ¬ InRect x y 46 32 p) : ∀ op ∈ draw_caption_btn x y fill glyph, op.layer m p = none := by
  intro op hop
  unfold draw_caption_btn at hop
  rw [List.mem_cons, List.mem_singleton] at hop
  rcases hop with rfl | rfl
  · exact Layer.shape_not hp
  · refine page_eq_none fun row col c hc => ?_
    obtain ⟨rfl, hcol⟩ := charAt_line hline hc
    unfold InRect at hp ⊢
    omega

/-- Outside of its rectangle a window is clear, but for its shadow. -/
theorem Roomy.frame_none (h : Roomy m draw win) (hp : covers win p.1 p.2 = false) : painted m (draw_frame draw win) p = none := by
  have hout : ¬ InRect win.x win.y win.w win.h p := by
    rw [← covers_iff, hp]
    simp
  have hw := h.width
  have hh := h.height
  have hin : ∀ {x y w ht : Int}, win.x ≤ x → x + w ≤ win.x + win.w → win.y ≤ y → y + ht ≤ win.y + win.h →
      ¬ InRect x y w ht p := by
    intro x y w ht h1 h2 h3 h4 hr
    unfold InRect at hr hout
    omega
  rw [painted_eq_none]
  intro op hop
  unfold draw_frame at hop
  simp only [List.mem_append, List.mem_cons, List.not_mem_nil, or_false] at hop
  rcases hop with (((((rfl | rfl | rfl) | hop) | hop) | hop) | rfl) | hop
  · exact Layer.shape_not hout
  · exact Layer.shape_not (hin (le_refl _) (le_refl _) (le_refl _) (by omega))
  · refine page_eq_none fun row col c hc => hin ?_ ?_ ?_ ?_
    all_goals
      have := h.title row col c hc
      omega
  · exact caption_none (by decide) (by decide) (hin (by omega) (by omega) (le_refl _) (by omega)) op hop
  · exact caption_none (by decide) (by decide) (hin (by omega) (by omega) (le_refl _) (by omega)) op hop
  · exact caption_none (by decide) (by decide) (hin (by omega) (by omega) (le_refl _) (by omega)) op hop
  · by_cases hfocus : win.focused = true
    · rw [if_pos hfocus]
      exact Layer.shape_not (hin (le_refl _) (le_refl _) (by omega) (by omega))
    · rw [if_neg hfocus]
      refine Layer.shape_not fun hframe => hout ?_
      unfold OnFrame at hframe
      unfold InRect
      omega
  · by_cases hdraw : win.draw ≠ 0
    · rw [if_pos hdraw] at hop
      exact painted_eq_none.1 (h.callback hdraw p hp) op hop
    · rw [if_neg hdraw] at hop
      cases hop

/-- Inside it no point is clear. -/
theorem frame_covers (hp : covers win p.1 p.2 = true) : ∃ color, painted m (draw_frame draw win) p = some color := by
  rw [← Option.ne_none_iff_exists']
  intro hnone
  have hfill := painted_eq_none.1 hnone (.fill_rect win.x win.y win.w win.h (UInt32.ofNat win.bg)) (by simp [draw_frame])
  exact absurd (covers_iff.1 hp) (Layer.shape_eq_none.1 hfill)

open Classical in
/-- A window with its shadow. -/
theorem Roomy.chrome (h : Roomy m draw win) : painted m (draw_window_chrome shadows draw win) p =
    if covers win p.1 p.2 = true then painted m (draw_frame draw win) p
    else if InShadow shadows win p then some COL_SHADOW else none := by
  unfold draw_window_chrome InShadow
  rw [painted_append]
  by_cases hp : covers win p.1 p.2 = true
  · obtain ⟨color, hcolor⟩ : ∃ color, painted m (draw_frame draw win) p = some color := frame_covers hp
    rw [if_pos hp, Layer.atop_of_some hcolor, hcolor]
  · rw [if_neg hp, Layer.atop_of_none (h.frame_none (by simpa using hp))]
    by_cases hcasts : casts shadows win = true
    · rw [if_pos hcasts]
      simp only [hcasts, true_and]
      rfl
    · rw [if_neg hcasts, if_neg fun hs => hcasts hs.1]
      rfl

/-! ## Hits -/

theorem last_split {α : Type*} {q : α → Bool} {l : List α} {a : α} (h : (l.filter q).getLast? = some a) :
    ∃ below above, l = below ++ a :: above ∧ q a = true ∧ ∀ b ∈ above, q b = false := by
  rw [List.getLast?_filter, List.find?_eq_some_iff_append] at h
  obtain ⟨ha, above, below, hl, habove⟩ := h
  refine ⟨below.reverse, above.reverse, ?_, ha, fun b hb => by simpa using habove b (List.mem_reverse.1 hb)⟩
  rw [← List.reverse_inj, hl]
  simp

/-- The windows without the focus, in the order in which they are painted. -/
def sweep (s : St) : List WinPtr :=
  slots.filter fun i => (s.windows i).active && !(s.windows i).focused && (s.windows i).state ≠ .WIN_MINIMIZED

/-- The focused window, if it is painted. -/
def on_top (s : St) : List WinPtr :=
  match s.focused with
  | some f => if visible (s.windows f) then [f] else []
  | none => []

theorem render_eq (s : St) : Wm.wm_render s = sweep s ++ on_top s := rfl

/-- Either the focused window is hit, or it is not over the point and the sweep decides. -/
theorem wm_at_cases (h : OneFocus s) (x y : Int) :
    (∃ f, on_top s = [f] ∧ covers (s.windows f) x y = true ∧ wm_at s x y = some f) ∨
    ((∀ f ∈ on_top s, covers (s.windows f) x y = false) ∧
      wm_at s x y = ((sweep s).filter fun i => covers (s.windows i) x y).getLast?) := by
  unfold on_top wm_at
  cases hf : s.focused with
  | none => exact .inr ⟨nofun, h.top_slot_eq x y fun f hn => by rw [hf] at hn; cases hn⟩
  | some f =>
    dsimp only
    by_cases hv : visible (s.windows f) = true
    · rw [if_pos hv, hv, Bool.true_and]
      by_cases hc : covers (s.windows f) x y = true
      · rw [if_pos hc]
        exact .inl ⟨f, rfl, hc, rfl⟩
      · rw [if_neg hc]
        refine .inr ⟨fun g hg => ?_, h.top_slot_eq x y fun g hg hcg => ?_⟩
        · rw [List.mem_singleton.1 hg]
          simpa using hc
        · rw [hf] at hg
          cases hg
          exact absurd hcg hc
    · rw [if_neg hv, if_neg (by simp [hv])]
      refine .inr ⟨nofun, h.top_slot_eq x y fun g hg _ => ?_⟩
      rw [hf] at hg
      cases hg
      simpa using hv

/-- The window that is hit is painted, covers the point, and those painted after it do not. -/
theorem hit_split (h : OneFocus s) (hat : wm_at s x y = some i) : ∃ below above, Wm.wm_render s = below ++ i :: above ∧
    covers (s.windows i) x y = true ∧ ∀ j ∈ above, covers (s.windows j) x y = false := by
  rw [render_eq]
  rcases wm_at_cases h x y with ⟨f, htop, hc, hf⟩ | ⟨htop, he⟩
  · rw [hat, Option.some.injEq] at hf
    subst hf
    exact ⟨sweep s, [], by rw [htop], hc, nofun⟩
  · obtain ⟨below, above, hsweep, hc, habove⟩ := last_split (he.symm.trans hat)
    refine ⟨below, above ++ on_top s, by rw [hsweep, List.append_assoc, List.cons_append], hc, fun j hj => ?_⟩
    rcases List.mem_append.1 hj with hj | hj
    · exact habove j hj
    · exact htop j hj

theorem miss (h : OneFocus s) (hat : wm_at s x y = none) : ∀ j ∈ Wm.wm_render s, covers (s.windows j) x y = false := by
  intro j hj
  rw [render_eq] at hj
  rcases wm_at_cases h x y with ⟨f, -, -, hf⟩ | ⟨htop, he⟩
  · rw [hat] at hf
    cases hf
  · rcases List.mem_append.1 hj with hj | hj
    · rw [hat, eq_comm, List.getLast?_eq_none_iff, List.filter_eq_nil_iff] at he
      simpa using he j hj
    · exact htop j hj

/-! ## What is seen is what is hit -/

/-- Windows that do not cover a point show there what is below them, or the shadow of one of them. -/
theorem above_cases {ws : List WinPtr} (hroomy : ∀ j ∈ ws, Roomy m draw (s.windows j))
    (hws : ∀ j ∈ ws, covers (s.windows j) p.1 p.2 = false) :
    painted m (ws.flatMap fun j => draw_window_chrome shadows draw (s.windows j)) p = none ∨
    (painted m (ws.flatMap fun j => draw_window_chrome shadows draw (s.windows j)) p = some COL_SHADOW ∧
      ∃ j ∈ ws, InShadow shadows (s.windows j) p) := by
  induction ws with
  | nil => exact .inl rfl
  | cons j ws ih =>
    have hj : painted m (draw_window_chrome shadows draw (s.windows j)) p = _ := (hroomy j (by simp)).chrome
    rw [if_neg (by simp [hws j (by simp)])] at hj
    rw [List.flatMap_cons, painted_append]
    rcases ih (fun k hk => hroomy k (by simp [hk])) fun k hk => hws k (by simp [hk]) with hnone | ⟨hsome, k, hk, hshadow⟩
    · rw [Layer.atop_of_none hnone, hj]
      by_cases hs : InShadow shadows (s.windows j) p
      · rw [if_pos hs]
        exact .inr ⟨rfl, j, by simp, hs⟩
      · rw [if_neg hs]
        exact .inl rfl
    · rw [Layer.atop_of_some hsome]
      exact .inr ⟨rfl, k, by simp [hk], hshadow⟩

end

/-- Wherever pointer and flag of the focus agree: at every point the windows show the very one that a click there hits, or
the shadow of one that is painted after it; where a click hits none they show nothing, or a shadow. -/
theorem seen_is_hit {s : St} (h : OneFocus s) {m : Mem} {shadows : Bool} {draw : Nat → window_t → List Call}
    (hroomy : ∀ i ∈ Wm.wm_render s, Roomy m draw (s.windows i)) (x y : Int) :
    (∀ i, wm_at s x y = some i →
      (∃ color, painted m (draw_frame draw (s.windows i)) (x, y) = some color ∧
        painted m (wm_render shadows draw s) (x, y) = some color) ∨
      (painted m (wm_render shadows draw s) (x, y) = some COL_SHADOW ∧
        ∃ below above, Wm.wm_render s = below ++ i :: above ∧ ∃ j ∈ above, InShadow shadows (s.windows j) (x, y))) ∧
    (wm_at s x y = none →
      painted m (wm_render shadows draw s) (x, y) = none ∨
      (painted m (wm_render shadows draw s) (x, y) = some COL_SHADOW ∧
        ∃ j ∈ Wm.wm_render s, InShadow shadows (s.windows j) (x, y))) := by
  refine ⟨fun i hat => ?_, fun hat => above_cases hroomy fun j hj => miss h hat j hj⟩
  obtain ⟨below, above, hsplit, hc, habove⟩ := hit_split h hat
  obtain ⟨color, hcolor⟩ : ∃ color, painted m (draw_frame draw (s.windows i)) (x, y) = some color := frame_covers hc
  have hi : painted m (draw_window_chrome shadows draw (s.windows i)) (x, y) = _ := (hroomy i (by rw [hsplit]; simp)).chrome
  rw [if_pos hc] at hi
  have hrest : painted m (above.flatMap fun j => draw_window_chrome shadows draw (s.windows j)) (x, y) = none ∨ _ := above_cases
    (fun j hj => hroomy j (by rw [hsplit]; simp [hj])) habove
  unfold wm_render
  rw [hsplit, List.flatMap_append, List.flatMap_cons, painted_append, painted_append, Layer.atop_assoc]
  rcases hrest with hnone | ⟨hsome, hshadow⟩
  · refine .inl ⟨color, hcolor, ?_⟩
    rw [Layer.atop_of_none hnone, Layer.atop_of_some (hi.trans hcolor)]
  · exact .inr ⟨Layer.atop_of_some hsome, below, above, rfl, hshadow⟩

/-- To the right of the upper of two windows its shadow falls on the lower one, which is hit there. -/
theorem seen_is_hit_overlapping : wm_at overlapping 301 150 = some ⟨1, by decide⟩ ∧
    ((∃ color, painted (fun _ => 0) (draw_frame (fun _ _ => []) (overlapping.windows ⟨1, by decide⟩)) (301, 150) = some color ∧
      painted (fun _ => 0) (wm_render true (fun _ _ => []) overlapping) (301, 150) = some color) ∨
    (painted (fun _ => 0) (wm_render true (fun _ _ => []) overlapping) (301, 150) = some COL_SHADOW ∧
      ∃ below above, Wm.wm_render overlapping = below ++ ⟨1, by decide⟩ :: above ∧
        ∃ j ∈ above, InShadow true (overlapping.windows j) (301, 150))) := by
  have hat : wm_at overlapping 301 150 = some ⟨1, by decide⟩ := by decide +kernel
  have hplain : ∀ i ∈ Wm.wm_render overlapping, (overlapping.windows i).w = 300 ∧ (overlapping.windows i).h = 300 ∧
      (overlapping.windows i).title = str "Untitled" ∧ (overlapping.windows i).draw = 0 ∧
      Span (overlapping.windows i).x 306 ∧ Span (overlapping.windows i).y 306 := by decide +kernel
  refine ⟨hat, (seen_is_hit (by unfold OneFocus; decide +kernel) (fun i hi => ?_) 301 150).1 _ hat⟩
  obtain ⟨hw, hh, htitle, hdraw, hx, hy⟩ := hplain i hi
  refine ⟨by rw [hw, hh]; exact ⟨hx, hy⟩, by omega, by omega, fun row col c hc => ?_, fun h => absurd hdraw h⟩
  rw [htitle] at hc
  obtain ⟨rfl, hcol⟩ := charAt_line (by decide) hc
  have hlength : (str "Untitled").length = 8 := by decide
  omega

end H3OS.Wm.Paint
