import H3OS.Mouse.Model
/-!
# Mouse clicks in the idle loop

`kernel_idle` in `kernel/core/main.c`: each turn the desktop and then the
window manager read the mouse, the screen is drawn, and `mouse_poll_frame`
clears the latched edges. A packet can arrive between any two statements. An
edge that comes after the last read of a turn is cleared before anyone saw it,
and only such an edge is.
-/
open H3OS.Mouse

namespace H3OS.Idle

/-- The statements of the loop body that touch the mouse, and the wait at its end. -/
inductive Pc where
  | desktop_handle_mouse
  | wm_handle_mouse
  | desktop_render
  | mouse_poll_frame
  | wait
deriving DecidableEq

structure St where
  mouse : Mouse.St
  pc : Pc
  g_click_consumed : Bool
  -- whether a read of this turn returned the flag as true
  seen_left : Bool
  seen_right : Bool

inductive Event where
  | irq (p0 p1 p2 : UInt8)
  /-- The next statement runs; `consumed` is what the desktop makes of the click, when it is its turn. -/
  | run (consumed : Bool)

def statement (s : St) (consumed : Bool) : St :=
  match s.pc with
  | .desktop_handle_mouse =>
    { s with
      seen_left := (mouse_get s.mouse).left_pressed
      seen_right := (mouse_get s.mouse).right_pressed
      g_click_consumed := consumed
      pc := .wm_handle_mouse }
  | .wm_handle_mouse =>
    -- a consumed click is not read again
    if s.g_click_consumed then { s with pc := .desktop_render } else
    { s with
      seen_left := s.seen_left || (mouse_get s.mouse).left_pressed
      seen_right := s.seen_right || (mouse_get s.mouse).right_pressed
      pc := .desktop_render }
  | .desktop_render => { s with pc := .mouse_poll_frame }
  | .mouse_poll_frame => { s with mouse := Mouse.mouse_poll_frame s.mouse, pc := .wait }
  | .wait => { s with pc := .desktop_handle_mouse }

def exec (fb : fb_t) (s : St) : Event → St
  | .irq p0 p1 p2 => { s with mouse := take_packet fb s.mouse p0 p1 p2 }
  | .run consumed => statement s consumed

/-- The loop at its first statement, right after `mouse_init`. -/
def start (packet : Nat → UInt8) : St := ⟨mouse_init packet, .desktop_handle_mouse, false, false, false⟩

/-! ## Lost edges -/

/-- The statement about to run clears a flag that no read of this turn returned. -/
def Loses (s : St) : Event → Prop
  | .irq _ _ _ => False
  | .run _ => s.pc = .mouse_poll_frame ∧
      ((s.mouse.g_mouse.left_pressed = true ∧ s.seen_left = false) ∨
        (s.mouse.g_mouse.right_pressed = true ∧ s.seen_right = false))

/-- No event of the run loses an edge. -/
def NoLoss (fb : fb_t) : St → List Event → Prop
  | _, [] => True
  | s, e :: es => ¬ Loses s e ∧ NoLoss fb (exec fb s e) es

/-- The last read of this turn is done and the flags are not cleared yet. -/
def AfterReads (s : St) : Prop :=
  s.pc = .desktop_render ∨ s.pc = .mouse_poll_frame ∨ (s.pc = .wm_handle_mouse ∧ s.g_click_consumed = true)

/-- A packet without overflow in which a button goes down. -/
def LeftEdge (s : Mouse.St) (p0 : UInt8) : Prop := p0 &&& 0xC0 = 0 ∧ p0 &&& 1 ≠ 0 ∧ s.prev_left = false

def RightEdge (s : Mouse.St) (p0 : UInt8) : Prop := p0 &&& 0xC0 = 0 ∧ p0 &&& 2 ≠ 0 ∧ s.prev_right = false

/-- A button goes down after the last read of a turn that has not seen it down yet. -/
def Late (s : St) : Event → Prop
  | .irq p0 _ _ => AfterReads s ∧
      ((LeftEdge s.mouse p0 ∧ s.seen_left = false) ∨ (RightEdge s.mouse p0 ∧ s.seen_right = false))
  | .run _ => False

def NoLate (fb : fb_t) : St → List Event → Prop
  | _, [] => True
  | s, e :: es => ¬ Late s e ∧ NoLate fb (exec fb s e) es

/-- A flag that nobody saw is up after the last read. -/
def Unseen (s : St) : Prop := AfterReads s ∧
  ((s.mouse.g_mouse.left_pressed = true ∧ s.seen_left = false) ∨
    (s.mouse.g_mouse.right_pressed = true ∧ s.seen_right = false))

section
variable {fb : fb_t} {s : St}

theorem pressed_of_packet (m : Mouse.St) (p0 p1 p2 : UInt8) :
    ((take_packet fb m p0 p1 p2).g_mouse.left_pressed = true ↔ m.g_mouse.left_pressed = true ∨ LeftEdge m p0) ∧
    ((take_packet fb m p0 p1 p2).g_mouse.right_pressed = true ↔ m.g_mouse.right_pressed = true ∨ RightEdge m p0) := by
  unfold take_packet LeftEdge RightEdge
  dsimp only
  by_cases h : p0 &&& 0xC0 ≠ 0
  · rw [if_pos h]
    simp [h]
  · rw [if_neg h]
    simp [not_not.1 h]

/-- A packet leaves an unseen flag behind exactly when there was one or it comes late. -/
theorem unseen_irq (p0 p1 p2 : UInt8) : Unseen (exec fb s (.irq p0 p1 p2)) ↔ Unseen s ∨ Late s (.irq p0 p1 p2) := by
  obtain ⟨hl, hr⟩ := @pressed_of_packet fb s.mouse p0 p1 p2
  unfold Unseen Late exec
  dsimp only
  rw [hl, hr]
  change AfterReads s ∧ _ ↔ _
  constructor
  · rintro ⟨ha, ⟨h | h, hs⟩ | ⟨h | h, hs⟩⟩
    · exact .inl ⟨ha, .inl ⟨h, hs⟩⟩
    · exact .inr ⟨ha, .inl ⟨h, hs⟩⟩
    · exact .inl ⟨ha, .inr ⟨h, hs⟩⟩
    · exact .inr ⟨ha, .inr ⟨h, hs⟩⟩
  · rintro (⟨ha, ⟨h, hs⟩ | ⟨h, hs⟩⟩ | ⟨ha, ⟨h, hs⟩ | ⟨h, hs⟩⟩)
    · exact ⟨ha, .inl ⟨.inl h, hs⟩⟩
    · exact ⟨ha, .inr ⟨.inl h, hs⟩⟩
    · exact ⟨ha, .inl ⟨.inr h, hs⟩⟩
    · exact ⟨ha, .inr ⟨.inr h, hs⟩⟩

/-- Reads see every flag that is up, so a statement makes no flag unseen. -/
theorem unseen_statement (consumed : Bool) (h : Unseen (statement s consumed)) : Unseen s := by
  obtain ⟨ha, hflag⟩ := h
  unfold statement at ha hflag
  cases hpc : s.pc with
  | desktop_handle_mouse =>
    rw [hpc] at hflag
    rcases hflag with ⟨hup, hseen⟩ | ⟨hup, hseen⟩
    · exact absurd (hup.symm.trans hseen) (by decide)
    · exact absurd (hup.symm.trans hseen) (by decide)
  | wm_handle_mouse =>
    rw [hpc] at hflag
    dsimp only at hflag
    by_cases hc : s.g_click_consumed = true
    · rw [if_pos hc] at hflag
      exact ⟨.inr (.inr ⟨hpc, hc⟩), hflag⟩
    · rw [if_neg hc] at hflag
      rcases hflag with ⟨hup, hseen⟩ | ⟨hup, hseen⟩
      · exact absurd (hup.symm.trans (Bool.or_eq_false_iff.1 hseen).2) (by decide)
      · exact absurd (hup.symm.trans (Bool.or_eq_false_iff.1 hseen).2) (by decide)
  | desktop_render =>
    rw [hpc] at hflag
    exact ⟨.inl hpc, hflag⟩
  | mouse_poll_frame =>
    rw [hpc] at ha
    rcases ha with h | h | ⟨h, -⟩ <;> cases h
  | wait =>
    rw [hpc] at ha
    rcases ha with h | h | ⟨h, -⟩ <;> cases h

/-- An unseen flag stays unseen until it is cleared. -/
theorem unseen_kept (consumed : Bool) (h : Unseen s) (hl : ¬ Loses s (.run consumed)) : Unseen (statement s consumed) := by
  obtain ⟨hpc | hpc | ⟨hpc, hc⟩, hflag⟩ := h
  · unfold statement
    rw [hpc]
    exact ⟨.inr (.inl rfl), hflag⟩
  · exact absurd ⟨hpc, hflag⟩ hl
  · unfold statement
    rw [hpc]
    dsimp only
    rw [if_pos hc]
    exact ⟨.inl rfl, hflag⟩

/-- A run that loses nothing but has an unseen flag ends before the flags are cleared. -/
theorem unseen_to_end {es : List Event} (h : Unseen s) (hn : NoLoss fb s es) : AfterReads (es.foldl (exec fb) s) := by
  induction es generalizing s with
  | nil => exact h.1
  | cons e es ih =>
    refine ih ?_ hn.2
    cases e with
    | irq p0 p1 p2 => exact (unseen_irq p0 p1 p2).2 (.inl h)
    | run consumed => exact unseen_kept consumed h hn.1

/-- Without an unseen flag, a run up to a cleared frame loses an edge exactly when one comes late. -/
theorem no_loss_iff_no_late {es : List Event} (hs : ¬ Unseen s) (hend : ¬ AfterReads (es.foldl (exec fb) s)) :
    NoLoss fb s es ↔ NoLate fb s es := by
  induction es generalizing s with
  | nil => exact Iff.rfl
  | cons e es ih =>
    rw [List.foldl_cons] at hend
    rw [NoLoss, NoLate]
    cases e with
    | irq p0 p1 p2 =>
      have hno : ¬ Loses s (.irq p0 p1 p2) := id
      have hiff := @unseen_irq fb s p0 p1 p2
      by_cases hlate : Late s (.irq p0 p1 p2)
      · -- an unseen flag is lost before the run ends
        refine ⟨fun h => ?_, fun h => absurd hlate h.1⟩
        exact absurd (unseen_to_end (hiff.2 (.inr hlate)) h.2) hend
      · rw [ih (fun hu => (hiff.1 hu).elim hs hlate) hend]
        simp only [hno, hlate]
    | run consumed =>
      have hno : ¬ Late s (.run consumed) := id
      have hkeep : ¬ Loses s (.run consumed) := fun h => hs ⟨.inr (.inl h.1), h.2⟩
      have hrest := ih (s := exec fb s (.run consumed)) (fun hu => hs (unseen_statement consumed hu)) hend
      rw [hrest]
      simp only [hno, hkeep]

end

/-- Over every interleaving of packets with the loop, up to a point where no read of a turn is waiting for its frame to be
cleared: no press is discarded unseen exactly when no button goes down between the last read of a turn and the end of its
frame. -/
theorem no_lost_click_iff (fb : fb_t) (packet : Nat → UInt8) {es : List Event}
    (hend : ¬ AfterReads (es.foldl (exec fb) (start packet))) : NoLoss fb (start packet) es ↔ NoLate fb (start packet) es :=
  no_loss_iff_no_late (fun h => by rcases h.1 with h | h | h <;> simp [start] at h) hend

/-- One turn with the press before the first read. -/
theorem no_lost_click_iff_early :
    NoLoss ⟨1280, 720⟩ (start fun _ => 0) [.irq 0x09 0 0, .run true, .run false, .run false, .run false] := by
  refine (no_lost_click_iff ⟨1280, 720⟩ (fun _ => 0) ?_).2 ?_
  · rintro (h | h | ⟨h, -⟩) <;> cases h
  · refine ⟨fun h => ?_, id, id, id, id, trivial⟩
    rcases h.1 with h | h | ⟨h, -⟩ <;> cases h

/-- A press while the screen is drawn is cleared unseen. -/
theorem press_while_drawing_lost : ¬ ∀ fb packet es, NoLoss fb (start packet) es := by
  intro h
  have hrun := h ⟨1280, 720⟩ (fun _ => 0) [.run false, .run false, .run false, .irq 0x09 0 0, .run false]
  exact hrun.2.2.2.2.1 ⟨rfl, .inl ⟨by decide, rfl⟩⟩

end H3OS.Idle
