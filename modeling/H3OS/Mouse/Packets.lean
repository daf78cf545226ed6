import H3OS.Mouse.Model
/-!
# Packets

A PS/2 packet gives a displacement of nine bits along each axis: eight in a
byte of its own and the sign in the first byte. `mouse_irq` takes the byte
alone as a signed one. The two agree while the byte's top bit is the sign,
that is for slow movements; where they do not, the pointer shows it unless
the edge of the screen hides it.
-/

namespace H3OS.Mouse

/-- A complete packet of a stream in sync, with no overflow. -/
structure Packet where
  p0 : UInt8
  p1 : UInt8
  p2 : UInt8
  sync : p0 &&& 0x08 ≠ 0
  clear : p0 &&& 0xC0 = 0

/-- The driver after the packets `ps`, a byte at a time. -/
def feed (fb : fb_t) (s : St) (ps : List Packet) : St := (ps.flatMap fun p => [p.p0, p.p1, p.p2]).foldl (mouse_irq fb) s

/-- The number with sign `neg` and low byte `b` in nine bits. -/
def nine (neg : Prop) [Decidable neg] (b : UInt8) : Int := if neg then (b.toNat : Int) - 256 else b.toNat

def Packet.Left (p : Packet) : Prop := p.p0 &&& 0x10 ≠ 0
def Packet.Down (p : Packet) : Prop := p.p0 &&& 0x20 ≠ 0

instance (p : Packet) : Decidable p.Left := inferInstanceAs (Decidable (_ ≠ _))
instance (p : Packet) : Decidable p.Down := inferInstanceAs (Decidable (_ ≠ _))

/-- A coordinate moved to the nearest one on the screen. -/
def nearest (v : Int) (size : Nat) : Int := max 0 (min v (size - 1))

/-- The pointer goes from `m` to `m'` by the displacement of the packet. -/
def Moves (fb : fb_t) (p : Packet) (m m' : mouse_state_t) : Prop :=
  m'.x = nearest (m.x + nine p.Left p.p1) fb.width ∧ m'.y = nearest (m.y - nine p.Down p.p2) fb.height

/-- The byte's top bit is the sign. -/
def Slow (neg : Prop) (b : UInt8) : Prop := neg ↔ 128 ≤ b.toNat

/-- The sums of the handler stay in an `i32`; a larger one is undefined in the source. On the screen no sum is too small. -/
def Defined (p : Packet) (m : mouse_state_t) : Prop :=
  m.x + p.p1.toInt8.toInt < 2 ^ 31 ∧ m.y + -p.p2.toInt8.toInt < 2 ^ 31

/-- The packet is slow along both axes, or the screen has no room to show the difference. -/
def Plain (fb : fb_t) (p : Packet) (m : mouse_state_t) : Prop :=
  (Slow p.Left p.p1 ∨ fb.width = 1 ∨ (p.Left ∧ p.p1 = 0 ∧ m.x = 0)) ∧
  (Slow p.Down p.p2 ∨ fb.height = 1 ∨ (p.Down ∧ p.p2 = 0 ∧ m.y = fb.height - 1))

structure OnScreen (fb : fb_t) (m : mouse_state_t) : Prop where
  x : 0 ≤ m.x ∧ m.x < fb.width
  y : 0 ≤ m.y ∧ m.y < fb.height

/-- A framebuffer whose sides are positive and fit a signed word. -/
structure Sized (fb : fb_t) : Prop where
  width : 0 < fb.width ∧ fb.width < 2 ^ 31
  height : 0 < fb.height ∧ fb.height < 2 ^ 31

/-! ## One axis -/

section
variable {size : Nat} {v : Int} {neg : Prop} [Decidable neg] {b : UInt8}

theorem clamp_eq (h0 : 0 < size) (hs : size < 2 ^ 31) (v : Int) : clamp v size = nearest v size := by
  have hi : i32 size = size := by
    unfold i32
    omega
  unfold clamp nearest
  rw [hi]
  dsimp only
  split_ifs <;> omega

theorem signed_byte (b : UInt8) : b.toInt8.toInt = if b.toNat < 128 then (b.toNat : Int) else b.toNat - 256 := by
  have h := BitVec.toInt_eq_toNat_cond b.toBitVec
  have hb : b.toInt8.toInt = b.toBitVec.toInt := rfl
  have hn : b.toBitVec.toNat = b.toNat := rfl
  rw [hb, h, hn]
  split_ifs <;> omega

/-- To the right and left. -/
theorem nearest_add_iff (h : 0 ≤ v ∧ v < size) :
    nearest (v + b.toInt8.toInt) size = nearest (v + nine neg b) size ↔
      Slow neg b ∨ size = 1 ∨ (neg ∧ b = 0 ∧ v = 0) := by
  have hb := b.toNat_lt
  have hzero : b = 0 ↔ b.toNat = 0 := by
    rw [← UInt8.toNat_inj]
    rfl
  rw [signed_byte, hzero]
  unfold nearest nine Slow
  by_cases hn : neg
  · simp only [hn, if_true, true_iff, true_and]
    split_ifs <;> omega
  · simp only [hn, if_false, false_iff, false_and, or_false]
    split_ifs <;> omega

/-- Up and down, where the packet counts the other way. -/
theorem nearest_sub_iff (h : 0 ≤ v ∧ v < size) :
    nearest (v + -b.toInt8.toInt) size = nearest (v - nine neg b) size ↔
      Slow neg b ∨ size = 1 ∨ (neg ∧ b = 0 ∧ v = size - 1) := by
  have hb := b.toNat_lt
  have hzero : b = 0 ↔ b.toNat = 0 := by
    rw [← UInt8.toNat_inj]
    rfl
  rw [signed_byte, hzero]
  unfold nearest nine Slow
  by_cases hn : neg
  · simp only [hn, if_true, true_iff, true_and]
    split_ifs <;> omega
  · simp only [hn, if_false, false_iff, false_and, or_false]
    split_ifs <;> omega

theorem nearest_on (h0 : 0 < size) (v : Int) : 0 ≤ nearest v size ∧ nearest v size < size := by
  unfold nearest
  omega

end

/-! ## One packet -/

section
variable {fb : fb_t} {s : St}

theorem feed_concat (ps : List Packet) (p : Packet) :
    feed fb s (ps ++ [p]) = mouse_irq fb (mouse_irq fb (mouse_irq fb (feed fb s ps) p.p0) p.p1) p.p2 := by
  unfold feed
  rw [List.flatMap_append, List.foldl_append]
  rfl

/-- The handler at the start of a packet, the pointer on the screen. -/
structure Ready (fb : fb_t) (s : St) : Prop where
  cycle : s.cycle = 0
  on : OnScreen fb s.g_mouse

theorem packet_pos (hf : Sized fb) (hs : Ready fb s) (p : Packet) :
    (mouse_irq fb (mouse_irq fb (mouse_irq fb s p.p0) p.p1) p.p2).cycle = 0 ∧
    (mouse_irq fb (mouse_irq fb (mouse_irq fb s p.p0) p.p1) p.p2).g_mouse.x =
      nearest (s.g_mouse.x + p.p1.toInt8.toInt) fb.width ∧
    (mouse_irq fb (mouse_irq fb (mouse_irq fb s p.p0) p.p1) p.p2).g_mouse.y =
      nearest (s.g_mouse.y + -p.p2.toInt8.toInt) fb.height := by
  have hclear : ¬ (p.p0 &&& 0xC0 ≠ 0) := not_not.2 p.clear
  have hon : fb.width ≠ 0 ∧ fb.height ≠ 0 := ⟨hf.width.1.ne', hf.height.1.ne'⟩
  rw [mouse_irq_packet fb s p.p1 p.p2 hs.cycle p.sync]
  unfold take_packet
  dsimp only
  rw [if_neg hclear]
  dsimp only
  rw [if_pos hon, if_pos hon, clamp_eq hf.width.1 hf.width.2, clamp_eq hf.height.1 hf.height.2]
  exact ⟨hs.cycle, rfl, rfl⟩

theorem feed_ready (hf : Sized fb) (hs : Ready fb s) (ps : List Packet) : Ready fb (feed fb s ps) := by
  induction ps using List.reverseRecOn with
  | nil => exact hs
  | append_singleton ps p ih =>
    obtain ⟨hc, hx, hy⟩ := packet_pos hf ih p
    rw [feed_concat]
    refine ⟨hc, ?_, ?_⟩
    · rw [hx]
      exact nearest_on hf.width.1 _
    · rw [hy]
      exact nearest_on hf.height.1 _

end

/-- Each packet of a stream moves the pointer by its displacement, with sums that are defined, exactly when each is
plain and its sums are defined where the pointer was. -/
theorem packets_decode_iff {fb : fb_t} {s : St} (hf : Sized fb) (hs : Ready fb s) (ps : List Packet) :
    (∀ pre p, pre ++ [p] <+: ps → Defined p (feed fb s pre).g_mouse ∧
      Moves fb p (feed fb s pre).g_mouse (feed fb s (pre ++ [p])).g_mouse) ↔
      ∀ pre p, pre ++ [p] <+: ps → Defined p (feed fb s pre).g_mouse ∧ Plain fb p (feed fb s pre).g_mouse := by
  refine forall₂_congr fun pre p => imp_congr_right fun _ => and_congr_right fun _ => ?_
  have hr := feed_ready hf hs pre
  obtain ⟨-, hx, hy⟩ := packet_pos hf hr p
  unfold Moves Plain
  rw [feed_concat, hx, hy, nearest_add_iff hr.on.x, nearest_sub_iff hr.on.y]

/-- A screen of 1024 by 768, the driver right after `mouse_init`. -/
def screen : fb_t := ⟨1024, 768⟩

def booted : St := mouse_init fun _ => 0

theorem booted_ready : Ready screen booted := ⟨rfl, ⟨by decide, by decide⟩, ⟨by decide, by decide⟩⟩

/-- A movement of 200 to the right. -/
def fast : Packet := ⟨0x08, 200, 0, by decide, by decide⟩

/-- One of 5 to the left and 3 down. -/
def slow : Packet := ⟨0x38, 251, 253, by decide, by decide⟩

theorem packets_decode_iff_slow : Moves screen slow (feed screen booted []).g_mouse (feed screen booted [slow]).g_mouse := by
  refine ((packets_decode_iff ⟨by decide, by decide⟩ booted_ready [slow]).2 (fun pre p hpre => ?_) [] slow
    List.prefix_rfl).2
  have hlen := hpre.length_le
  rw [List.length_append, List.length_singleton, List.length_singleton] at hlen
  obtain rfl := List.eq_nil_of_length_eq_zero (show pre.length = 0 by omega)
  cases (List.prefix_cons_iff.1 hpre).resolve_left (by simp) with
  | intro t ht =>
    cases ht.1
    refine ⟨by unfold Defined; decide, ?_, ?_⟩
    · exact .inl (by unfold Slow Packet.Left; decide)
    · exact .inl (by unfold Slow Packet.Down; decide)

/-- The pointer goes 56 to the left. -/
theorem fast_goes_left : ¬ ∀ fb s, Sized fb → Ready fb s → ∀ ps pre p, pre ++ [p] <+: ps →
    Moves fb p (feed fb s pre).g_mouse (feed fb s (pre ++ [p])).g_mouse := by
  intro h
  have hx := (h screen booted ⟨by decide, by decide⟩ booted_ready [fast] [] fast List.prefix_rfl).1
  revert hx
  decide

end H3OS.Mouse
