import H3OS.Lib.Memory
/-!
# Blocks in use

An allocator hands out blocks of memory that share no address with any block
in use, and takes them back by where they start. What it writes for itself
lies outside the blocks in use, so they keep their bytes.
-/

namespace SysLib

structure Block where
  start : Nat
  len : Nat
deriving DecidableEq

/-- The address lies in the block. -/
def Block.Has (b : Block) (x : Nat) : Prop := b.start ≤ x ∧ x < b.start + b.len

/-- The blocks share no address. -/
def Block.Apart (b c : Block) : Prop := ∀ x, b.Has x → ¬ c.Has x

/-- A block that can be handed out: it is not empty, it is not at NULL, and memory holds it. -/
structure Block.Real (b : Block) : Prop where
  start : 0 < b.start
  len : 0 < b.len
  stop : b.start + b.len ≤ 2 ^ 64

structure InUse (live : List Block) : Prop where
  real : ∀ b ∈ live, b.Real
  apart : live.Pairwise Block.Apart

/-- What is in use once the block at `ptr` is given back. -/
def release (ptr : Nat) (live : List Block) : List Block := live.eraseP (·.start = ptr)

/-- The two memories hold the same bytes in the block. -/
def SameOn (b : Block) (m m' : Mem) : Prop := ∀ x, b.Has x → m' x = m x

/-- `f` changes no byte of the blocks. -/
def Spares (f : Mem → Mem) (bs : List Block) : Prop := ∀ b ∈ bs, ∀ m, SameOn b m (f m)

section
variable {live : List Block} {b c : Block} {ptr : Nat}

theorem Block.has_mk {a n x : Nat} : (Block.mk a n).Has x ↔ a ≤ x ∧ x < a + n := Iff.rfl

theorem Block.Apart.symm (h : b.Apart c) : c.Apart b := fun x hc hb => h x hb hc

theorem Block.Real.has_start (h : b.Real) : b.Has b.start := ⟨le_refl _, Nat.lt_add_of_pos_right h.len⟩

instance : Std.Symm Block.Apart := ⟨fun _ _ => Block.Apart.symm⟩

theorem Block.Apart.start_ne (h : b.Apart c) (hb : b.Real) (hc : c.Real) : b.start ≠ c.start := by
  intro heq
  exact h b.start hb.has_start (heq ▸ hc.has_start)

theorem Block.apart_of_stop_le (h : b.start + b.len ≤ c.start) : b.Apart c := by
  intro x hb hc
  have h1 := hb.2
  have h2 := hc.1
  omega

theorem InUse.nil : InUse [] := ⟨fun _ h => absurd h List.not_mem_nil, .nil⟩

theorem InUse.cons (h : InUse live) (hb : b.Real) (hapart : ∀ c ∈ live, b.Apart c) : InUse (b :: live) := by
  refine ⟨fun c hc => ?_, List.pairwise_cons.2 ⟨hapart, h.apart⟩⟩
  rcases List.mem_cons.1 hc with rfl | hc
  · exact hb
  · exact h.real c hc

theorem InUse.release (h : InUse live) (ptr : Nat) : InUse (release ptr live) :=
  ⟨fun b hb => h.real b (List.mem_of_mem_eraseP hb), h.apart.sublist (List.eraseP_sublist)⟩

/-- Giving back takes one block, if there is one at `ptr`. -/
theorem release_cases (ptr : Nat) (live : List Block) :
    release ptr live = live ∧ (∀ b ∈ live, b.start ≠ ptr) ∨
    ∃ b, b.start = ptr ∧ live.Perm (b :: release ptr live) := by
  by_cases hmem : ∃ b ∈ live, b.start = ptr
  · obtain ⟨b, hb, hs⟩ := hmem
    obtain ⟨c, l1, l2, -, hc, hlive, hrest⟩ := List.exists_of_eraseP (p := (·.start = ptr)) hb (by simpa using hs)
    refine .inr ⟨c, by simpa using hc, ?_⟩
    unfold SysLib.release
    rw [hrest, hlive]
    exact List.perm_middle
  · push Not at hmem
    exact .inl ⟨List.eraseP_of_forall_not fun b hb => by simpa using hmem b hb, hmem⟩

theorem InUse.mem_release (h : InUse live) : c ∈ SysLib.release ptr live ↔ c ∈ live ∧ c.start ≠ ptr := by
  rcases release_cases ptr live with ⟨heq, hnone⟩ | ⟨b, rfl, hperm⟩
  · rw [heq]
    exact ⟨fun hc => ⟨hc, hnone c hc⟩, And.left⟩
  · have hpair := (hperm.pairwise_iff (fun hs => Block.Apart.symm hs)).1 h.apart
    have hreal : b.Real := h.real b (hperm.mem_iff.2 List.mem_cons_self)
    constructor
    · intro hc
      refine ⟨List.mem_of_mem_eraseP hc, fun hs => ?_⟩
      have hapart := (List.pairwise_cons.1 hpair).1 c hc
      exact hapart.start_ne hreal (h.real c (List.mem_of_mem_eraseP hc)) hs.symm
    · rintro ⟨hc, hs⟩
      rcases List.mem_cons.1 (hperm.mem_iff.1 hc) with rfl | hc
      · exact absurd rfl hs
      · exact hc

/-- Nothing is given back at NULL. -/
theorem InUse.release_null (h : InUse live) : SysLib.release 0 live = live := by
  rcases release_cases 0 live with ⟨heq, -⟩ | ⟨b, hs, hperm⟩
  · exact heq
  · exact absurd hs (h.real b (hperm.mem_iff.2 List.mem_cons_self)).start.ne'

theorem release_cons (h : b.start ≠ ptr) : release ptr (b :: live) = b :: release ptr live :=
  List.eraseP_cons_of_neg (by simpa using h)

end

section
variable {bs : List Block} {m m' : Mem}

open Classical in
/-- `m'` with the bytes of the blocks taken from `m`. -/
noncomputable def overlay (bs : List Block) (m' m : Mem) : Mem := fun x => if ∃ b ∈ bs, b.Has x then m x else m' x

theorem spares_overlay (bs : List Block) (m' : Mem) : Spares (overlay bs m') bs :=
  fun b hb _ _ hx => if_pos ⟨b, hb, hx⟩

/-- Where the blocks have the same bytes in both, nothing is taken. -/
theorem overlay_eq (h : ∀ b ∈ bs, SameOn b m m') : overlay bs m' m = m' := by
  funext x
  unfold overlay
  split_ifs with hx
  · obtain ⟨b, hb, hx⟩ := hx
    exact (h b hb x hx).symm
  · rfl

end

/-! ## Bytes of a block -/

def bytesAt (m : Mem) (a n : Nat) : List UInt8 := (List.range n).map fun i => m (a + i)

section
variable {m m' : Mem} {a a' n : Nat}

@[simp] theorem bytesAt_length : (bytesAt m a n).length = n := by simp [bytesAt]

@[simp] theorem bytesAt_zero : bytesAt m a 0 = [] := rfl

theorem bytesAt_congr (h : ∀ i < n, m' (a' + i) = m (a + i)) : bytesAt m' a' n = bytesAt m a n :=
  List.map_congr_left fun i hi => h i (List.mem_range.1 hi)

theorem SameOn.bytes {b : Block} (h : SameOn b m m') (hn : n ≤ b.len) : bytesAt m' b.start n = bytesAt m b.start n :=
  bytesAt_congr fun i hi => h (b.start + i) ⟨Nat.le_add_right _ _, Nat.add_lt_add_left (lt_of_lt_of_le hi hn) _⟩

theorem bytesAt_take (k : Nat) : (bytesAt m a n).take k = bytesAt m a (min k n) := by
  unfold bytesAt
  rw [← List.map_take, List.take_range]

/-- A copy between places that are apart. -/
theorem copy_in {dst src i : Nat} (h : (Block.mk dst n).Apart ⟨src, n⟩) (hi : i < n) :
    copy m dst src n (dst + i) = m (src + i) := by
  have hapart : dst ≤ src ∨ src + n ≤ dst := by
    by_contra hin
    exact h dst (Block.has_mk.2 ⟨le_refl _, by omega⟩) (Block.has_mk.2 ⟨by omega, by omega⟩)
  rw [copy_eq_blit hapart, blit_in (by omega) (by omega), Nat.add_sub_cancel_left]

end

end SysLib
