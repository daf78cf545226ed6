import H3OS.Keyboard.Model
/-!
# The keyboard ring is a bounded queue

Interrupts push between any two statements of a read. `Fifo` says at each such
point what the ring holds: the accepted characters that no read has returned
yet, the one that is being read first among them.
-/
open SysLib

namespace H3OS.Keyboard

def St.ring (s : St) : RingBuf UInt8 := ⟨s.kbd_buf, s.kbd_head, s.kbd_tail⟩

/-- The accepted characters that no read has returned. -/
def Sys.pending (s : Sys) : List UInt8 := s.accepted.drop s.returned.length

structure Fifo (s : Sys) : Prop where
  order : s.returned <+: s.accepted
  holds : s.kbd.ring.Holds KBD_BUF_SIZE s.pending
  load : s.reader = .load → s.pending ≠ []
  update : ∀ out, s.reader = .update out → s.pending.head? = some out

/-! ## Pushing -/

theorem kbd_push_rejected {s : St} (h : ¬ Accepts s) (c : UInt8) : kbd_push s c = s :=
  if_pos (not_not.1 h)

theorem kbd_push_accepted {s : St} (h : Accepts s) (c : UInt8) :
    kbd_push s c =
      { s with kbd_buf := Function.update s.kbd_buf s.kbd_head c, kbd_head := (s.kbd_head + 1) % KBD_BUF_SIZE } :=
  if_neg h

/-- A push that changes nothing was turned away: an accepted one moves the head. -/
theorem not_accepts_of_push_eq {s : St} {c : UInt8} (h : kbd_push s c = s) : ¬ Accepts s := by
  intro hacc
  rw [kbd_push_accepted hacc] at h
  have hhead : (s.kbd_head + 1) % KBD_BUF_SIZE = s.kbd_head := congrArg St.kbd_head h
  simp only [KBD_BUF_SIZE] at hhead
  omega

/-- An interrupt changes the ring through `kbd_push` or not at all. -/
theorem keyboard_irq_ring (s : St) (sc : UInt8) :
    (keyboard_irq s sc).ring = (irq_push s sc).elim s.ring fun c => (kbd_push s c).ring := by
  unfold irq_push
  split
  · rename_i hsilent
    -- of the returns of `keyboard_irq`, only the last pushes
    rcases hsilent with rfl | rfl | rfl | rfl | rfl | rfl | rfl | hrelease | hnone
    any_goals rfl
    · unfold keyboard_irq
      split_ifs <;> rfl
    · unfold keyboard_irq
      dsimp only
      rw [if_pos hnone]
      split_ifs <;> rfl
  · rename_i hloud
    simp only [not_or] at hloud
    obtain ⟨h1, h2, h3, h4, h5, h6, h7, h8, h9⟩ := hloud
    unfold keyboard_irq
    dsimp only
    rw [if_neg h1, if_neg h2, if_neg (not_or.2 ⟨h3, h4⟩), if_neg (not_or.2 ⟨h5, h6⟩), if_neg h7, if_neg h8, if_neg h9]
    rfl

theorem Fifo.pending_push {s : Sys} (h : Fifo s) (c : UInt8) :
    (s.accepted ++ [c]).drop s.returned.length = s.pending ++ [c] :=
  List.drop_append_of_le_length h.order.length_le

/-- A push appends to what the ring holds or leaves everything, at any point of a read. -/
theorem Fifo.push {s : Sys} (h : Fifo s) (c : UInt8) {k : St} (hk : k.ring = (kbd_push s.kbd c).ring) :
    Fifo { s with kbd := k, accepted := note s c } := by
  by_cases hacc : Accepts s.kbd
  · have hroom : s.pending.length + 1 < KBD_BUF_SIZE := by
      have hlt := h.holds.room
      have hfull : s.pending.length ≠ KBD_BUF_SIZE - 1 := fun hlen => hacc (h.holds.full_iff.2 hlen)
      omega
    have hnote : note s c = s.accepted ++ [c] := if_pos hacc
    rw [hnote]
    refine ⟨h.order.trans (List.prefix_append _ _), ?_, fun hr => ?_, fun out hr => ?_⟩
    · rw [Sys.pending, h.pending_push, hk, kbd_push_accepted hacc]
      exact h.holds.push hroom c
    · rw [Sys.pending, h.pending_push]
      simp
    · rw [Sys.pending, h.pending_push, List.head?_append, h.update out hr]
      rfl
  · have hnote : note s c = s.accepted := if_neg hacc
    rw [hnote]
    rw [kbd_push_rejected hacc] at hk
    exact ⟨h.order, by rw [hk]; exact h.holds, h.load, h.update⟩

/-! ## Reading -/

theorem Fifo.pending_nil {s : Sys} (h : Fifo s) : s.pending = [] ↔ s.accepted = s.returned := by
  rw [Sys.pending, List.drop_eq_nil_iff]
  constructor
  · intro hle
    exact (h.order.eq_of_length_le hle).symm
  · intro heq
    rw [heq]

theorem exec_read (s : Sys) : exec s .read = match s.reader with
    | .test => if s.kbd.kbd_head = s.kbd.kbd_tail then s else { s with reader := .load }
    | .load => { s with reader := .update (s.kbd.kbd_buf s.kbd.kbd_tail) }
    | .update out =>
      { s with
        kbd := { s.kbd with kbd_tail := (s.kbd.kbd_tail + 1) % KBD_BUF_SIZE }
        reader := .test
        returned := s.returned ++ [out] } := rfl

theorem Fifo.read {s : Sys} (h : Fifo s) : Fifo (exec s .read) := by
  rw [exec_read]
  cases hr : s.reader with
  | test =>
    dsimp only
    split_ifs with hempty
    · exact h
    · exact ⟨h.order, h.holds, fun _ hnil => hempty (h.holds.empty_iff.2 hnil), nofun⟩
  | load =>
    dsimp only
    refine ⟨h.order, h.holds, nofun, fun out hout => ?_⟩
    obtain ⟨a, l, hp⟩ := List.exists_cons_of_ne_nil (h.load hr)
    have hfront : s.kbd.kbd_buf s.kbd.kbd_tail = a := by
      have hh := h.holds
      rw [hp] at hh
      exact hh.front
    change s.pending.head? = some out
    rw [hp, List.head?_cons, ← hfront, Reader.update.inj hout]
  | update out =>
    -- the character at the front leaves; pushes since it was loaded are behind it
    dsimp only
    obtain ⟨l, hp⟩ : ∃ l, s.pending = out :: l := by
      have hh := h.update out hr
      cases hp : s.pending with
      | nil => simp [hp] at hh
      | cons a l =>
        rw [hp] at hh
        exact ⟨l, by rw [Option.some.inj hh]⟩
    obtain ⟨rest, hrest⟩ := h.order
    have hpend : s.pending = rest := by rw [Sys.pending, ← hrest, List.drop_left]
    have hacc : s.accepted = (s.returned ++ [out]) ++ l := by
      rw [← hrest, ← hpend, hp, List.append_assoc]
      rfl
    refine ⟨⟨l, hacc.symm⟩, ?_, nofun, nofun⟩
    have hh := h.holds
    rw [hp] at hh
    have hpop := hh.pop
    have hl : (s.accepted).drop (s.returned ++ [out]).length = l := by rw [hacc, List.drop_left]
    rw [Sys.pending]
    dsimp only
    rw [hl]
    exact hpop

/-! ## Whole runs -/

theorem Fifo.start (kbd_buf : Nat → UInt8) : Fifo (start kbd_buf) := by
  refine ⟨List.prefix_refl _, ?_, nofun, nofun⟩
  exact RingBuf.Holds.nil (Nat.succ_pos 255) rfl

theorem Fifo.exec {s : Sys} (h : Fifo s) (e : Event) : Fifo (exec s e) := by
  cases e with
  | push c => exact h.push c rfl
  | irq sc =>
    have hring := keyboard_irq_ring s.kbd sc
    change Fifo { s with
      kbd := keyboard_irq s.kbd sc, accepted := (irq_push s.kbd sc).elim s.accepted (note s) }
    cases hp : irq_push s.kbd sc with
    | none =>
      rw [hp] at hring
      exact ⟨h.order, by rw [hring]; exact h.holds, h.load, h.update⟩
    | some c =>
      rw [hp] at hring
      exact h.push c hring
  | read => exact h.read

theorem Fifo.run (kbd_buf : Nat → UInt8) (es : List Event) : Fifo (es.foldl Keyboard.exec (Keyboard.start kbd_buf)) := by
  induction es using List.reverseRecOn with
  | nil => exact Fifo.start kbd_buf
  | append_singleton es e ih =>
    rw [List.foldl_append]
    exact ih.exec e

/-- Three steps of the reader with no push between them are a call of `keyboard_try_read`. -/
theorem try_read_steps {s : Sys} (hr : s.reader = .test) {c : UInt8} {k : St}
    (h : keyboard_try_read s.kbd = (some c, k)) :
    [Event.read, .read, .read].foldl exec s = { s with kbd := k, returned := s.returned ++ [c] } := by
  unfold keyboard_try_read at h
  split_ifs at h with hempty
  · cases h
  · cases h
    obtain ⟨kbd, reader, accepted, returned⟩ := s
    obtain rfl : reader = .test := hr
    have htest : exec ⟨kbd, .test, accepted, returned⟩ .read = ⟨kbd, .load, accepted, returned⟩ := if_neg hempty
    rw [List.foldl_cons, htest]
    rfl

/-- Whatever interrupts come between the statements of the reads, the characters returned are the first of
those accepted; a push is turned away only with 255 pending, and a read finds the ring empty only with none. -/
theorem keyboard_ring_fifo (kbd_buf : Nat → UInt8) (es : List Event) :
    let s := es.foldl exec (start kbd_buf)
    s.returned <+: s.accepted ∧
    (∀ c, kbd_push s.kbd c = s.kbd → s.accepted.length - s.returned.length = KBD_BUF_SIZE - 1) ∧
    (s.reader = .test → (keyboard_try_read s.kbd).1 = none → s.accepted = s.returned) := by
  intro s
  have h : Fifo s := Fifo.run kbd_buf es
  refine ⟨h.order, fun c hc => ?_, fun _ hnone => ?_⟩
  · have hfull := h.holds.full_iff.1 (not_not.1 (not_accepts_of_push_eq hc))
    rwa [Sys.pending, List.length_drop] at hfull
  · refine h.pending_nil.1 (h.holds.empty_iff.1 ?_)
    unfold keyboard_try_read at hnone
    split_ifs at hnone with hempty
    exact hempty

end H3OS.Keyboard
