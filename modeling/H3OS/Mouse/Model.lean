import H3OS.Types
/-!
# The mouse driver

`drivers/mouse/mouse.c`: bytes arrive by interrupt, three to a packet. A
packet moves the pointer and latches button edges, which stay up until
`mouse_poll_frame` clears them. Coordinates are integers; the clamp keeps them
inside the framebuffer.
-/

namespace H3OS.Mouse

structure mouse_state_t where
  x : Int
  y : Int
  dx : Int
  dy : Int
  left : Bool
  right : Bool
  middle : Bool
  left_pressed : Bool
  left_released : Bool
  right_pressed : Bool
  right_released : Bool
deriving DecidableEq

structure St where
  g_mouse : mouse_state_t
  prev_left : Bool
  prev_right : Bool
  cycle : Nat
  packet : Nat → UInt8

/-- The state that `mouse_init` sets up; the commands it sends to the controller are left out. -/
def mouse_init (packet : Nat → UInt8) : St :=
  ⟨⟨640, 360, 0, 0, false, false, false, false, false, false, false⟩, false, false, 0, packet⟩

/-- A coordinate held inside `0 .. size - 1`. -/
def clamp (v : Int) (size : Nat) : Int :=
  let v := if v < 0 then 0 else v
  if v ≥ i32 size then i32 size - 1 else v

/-- What `mouse_irq` does with a complete packet. -/
def take_packet (fb : fb_t) (s : St) (p0 p1 p2 : UInt8) : St :=
  let dx := p1.toInt8.toInt
  let dy := -p2.toInt8.toInt
  if p0 &&& 0xC0 ≠ 0 then s else
  let m := s.g_mouse
  let x := m.x + dx
  let y := m.y + dy
  let on := fb.width ≠ 0 ∧ fb.height ≠ 0
  let left := p0 &&& 1 ≠ 0
  let right := p0 &&& 2 ≠ 0
  { s with
    g_mouse := {
      x := if on then clamp x fb.width else x
      y := if on then clamp y fb.height else y
      dx := dx
      dy := dy
      left := left
      right := right
      middle := p0 &&& 4 ≠ 0
      left_pressed := m.left_pressed || (left && !s.prev_left)
      left_released := m.left_released || (!left && s.prev_left)
      right_pressed := m.right_pressed || (right && !s.prev_right)
      right_released := m.right_released || (!right && s.prev_right) }
    prev_left := left
    prev_right := right }

/-- The handler for one byte. -/
def mouse_irq (fb : fb_t) (s : St) (data : UInt8) : St :=
  if s.cycle = 0 ∧ data &&& 0x08 = 0 then s else
  let packet := Function.update s.packet s.cycle data
  if s.cycle + 1 < 3 then { s with packet := packet, cycle := s.cycle + 1 }
  else take_packet fb { s with packet := packet, cycle := 0 } (packet 0) (packet 1) (packet 2)

/-- A packet that arrives byte by byte is taken as a whole. -/
theorem mouse_irq_packet (fb : fb_t) (s : St) {p0 : UInt8} (p1 p2 : UInt8) (hc : s.cycle = 0) (h0 : p0 &&& 0x08 ≠ 0) :
    mouse_irq fb (mouse_irq fb (mouse_irq fb s p0) p1) p2 = take_packet fb
      { s with packet := Function.update (Function.update (Function.update s.packet 0 p0) 1 p1) 2 p2 } p0 p1 p2 := by
  obtain ⟨g, l, r, cycle, packet⟩ := s
  cases hc
  simp [mouse_irq, h0]

def mouse_get (s : St) : mouse_state_t := s.g_mouse

def mouse_poll_frame (s : St) : St :=
  { s with g_mouse := { s.g_mouse with
      left_pressed := false, left_released := false, right_pressed := false, right_released := false, dx := 0, dy := 0 } }

end H3OS.Mouse
