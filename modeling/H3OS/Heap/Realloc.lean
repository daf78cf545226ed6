import H3OS.Heap.Theorems
import H3OS.Lib.Blocks
/-!
# Moving a block

`krealloc` allocates, copies and releases. On any heap list whose blocks are
apart, merged over regions or not, the copy arrives whole and no other
payload in use changes, although the release may merge the old block with
blocks on both sides.
-/
open SysLib

namespace H3OS.Heap

/-- `p` is in a client's hands: its block is one of the heap list and in use, with `n` bytes of payload. -/
def Live (s : St) (p n : Nat) : Prop :=
  p < 2 ^ 64 ∧ ∃ l b, Blocks s l ∧ b ∈ l ∧ p = b + BLOCK ∧ (block s.mem b).magic = HEAP_MAGIC ∧
    (block s.mem b).free = false ∧ (block s.mem b).size = n

/-- The block at `p` is live after the call, with the bytes it had before. -/
def Kept (s s' : St) (p n : Nat) : Prop := Live s' p n ∧ ∀ i < n, s'.mem (p + i) = s.mem (p + i)

section
variable {s s' : St} {bs : List Blk} {b : Blk} {p n size : Nat} {pmm : List Nat}

/-- The live pointers are those of the blocks in use. -/
theorem Rep.live_iff (h : Rep s.mem bs) (hh : s.heap_head = first 0 bs) :
    Live s p n ↔ p < 2 ^ 64 ∧ ∃ b ∈ bs, b.free = false ∧ b.addr + BLOCK = p ∧ b.size = n := by
  unfold Live
  refine and_congr_right (fun _ => ⟨?_, ?_⟩)
  · rintro ⟨l, a, hl, ha, rfl, -, hf, hn⟩
    obtain rfl : l = bs.map Blk.addr := Chain.unique hl (h.blocks hh)
    obtain ⟨b, hb, rfl⟩ := List.mem_map.1 ha
    obtain ⟨nx, pv, hblk⟩ := h.block_of_mem hb
    rw [hblk] at hf hn
    exact ⟨b, hb, hf, rfl, hn⟩
  · rintro ⟨b, hb, hf, rfl, rfl⟩
    obtain ⟨nx, pv, hblk⟩ := h.block_of_mem hb
    exact ⟨_, b.addr, h.blocks hh, List.mem_map_of_mem hb, rfl, by rw [hblk], by rw [hblk]; exact hf, by rw [hblk]⟩

theorem kept_refl (h : Live s p n) : Kept s s p n := ⟨h, fun _ _ => rfl⟩

/-- Copying the payload of `b` into a larger block `c` and releasing `b`: all blocks in use but `b` stay, and only `c` has
other bytes. -/
theorem Sound.moved {c : Blk} (hs : Sound s bs) (hb : b ∈ bs) (hbf : b.free = false) (hc : c ∈ bs) (hlt : b.size < c.size)
    (he : s' = Heap.kfree { s with mem := copy s.mem (c.addr + BLOCK) (b.addr + BLOCK) b.size } (b.addr + BLOCK)) :
    ∃ bs', Rep s'.mem bs' ∧ s'.heap_head = first 0 bs' ∧ (∀ d, d.free = false → (d ∈ bs' ↔ d ∈ bs ∧ d ≠ b)) ∧
      (∀ i < b.size, s'.mem (c.addr + BLOCK + i) = s.mem (b.addr + BLOCK + i)) ∧
      ∀ d ∈ bs, d ≠ c → ∀ x, d.Holds x → s'.mem x = s.mem x := by
  have hcb : c ≠ b := by
    rintro rfl
    omega
  have hap := hs.apart.forall hc hb hcb
  have hs' : Sound { s with mem := copy s.mem (c.addr + BLOCK) (b.addr + BLOCK) b.size } bs := by
    refine hs.write hc (fun x hx => copy_out ?_)
    unfold Blk.Holds Blk.stop at hx
    omega
  obtain ⟨pre, post, rfl⟩ := List.append_of_mem hb
  obtain ⟨bs', hrep, hhead, hmem, hoff⟩ := hs'.kfree hbf
  rw [← he] at hrep hhead hoff
  refine ⟨bs', hrep, hhead, fun d hd => ?_, fun i hi => ?_, fun d hd hdc x hx => ?_⟩
  · rw [hmem d hd]
    obtain ⟨hpre, hpost, -⟩ := hs.rep.sides
    have hdb : d ∈ pre ∨ d ∈ post → d ≠ b := by
      rintro hd rfl
      have := hd.elim (hpre d) (hpost d)
      unfold Apart BLOCK at this
      omega
    have hmid : d ∈ pre ++ b :: post ↔ d = b ∨ d ∈ pre ∨ d ∈ post := by
      rw [List.mem_append, List.mem_cons, or_left_comm]
    rw [hmid]
    tauto
  · rw [hoff _ (hs'.off_headers hc (by unfold Blk.Holds Blk.stop; omega))]
    refine copy_in ?_ hi
    intro x h1 h2
    have h1' := Block.has_mk.1 h1
    have h2' := Block.has_mk.1 h2
    unfold BlkApart Apart at hap
    omega
  · rw [hoff _ (hs'.off_headers hd hx)]
    have hdc' := hs.apart.forall hd hc hdc
    refine copy_out ?_
    unfold BlkApart Apart at hdc'
    unfold Blk.Holds Blk.stop at hx
    omega

/-- The bytes of a block in use are those behind its pointer. -/
theorem Rep.kept (h : Rep s'.mem bs) (hh : s'.heap_head = first 0 bs) (hb : b ∈ bs) (hf : b.free = false)
    (hp : b.addr + BLOCK < 2 ^ 64) (hx : ∀ x, b.Holds x → s'.mem x = s.mem x) : Kept s s' (b.addr + BLOCK) b.size := by
  refine ⟨(h.live_iff hh).2 ⟨hp, b, hb, hf, rfl, rfl⟩, fun i hi => hx _ ?_⟩
  unfold Blk.Holds Blk.stop
  omega

/-- Once its bytes are in the new block and `b` is released: the new block is live and large enough, all other live blocks
keep their bytes, and only the pointer to `b` is gone. -/
theorem Handed.relocated {s₁ : St} {bs₁ : List Blk} {q : Nat} (hd : Handed s bs size q s₁ bs₁) (hs : Sound s bs) (hq : q ≠ 0)
    (hb : b ∈ bs) (hbf : b.free = false) (hlt : b.size < size)
    (he : s' = Heap.kfree { s₁ with mem := copy s₁.mem q (b.addr + BLOCK) b.size } (b.addr + BLOCK)) :
    (∃ k, size ≤ k ∧ Live s' q k) ∧ (∀ i < min b.size size, s'.mem (q + i) = s.mem (b.addr + BLOCK + i)) ∧
      (∀ p' k, Live s p' k → p' ≠ b.addr + BLOCK → Kept s s' p' k) ∧
      ((¬ ∃ k, Live s' (b.addr + BLOCK) k) ↔ q ≠ b.addr + BLOCK) := by
  obtain ⟨c, hc, rfl, hcf, hcs, hnew⟩ := hd.fits hq
  obtain ⟨hb₁, hbk⟩ := hd.keeps b hb hbf
  obtain ⟨bs', hrep, hhead, hmem, hcopy, hsame⟩ := hd.sound.moved hb₁ hbf hc (by omega) he
  have hcb : c ≠ b := by
    rintro rfl
    omega
  refine ⟨⟨c.size, hcs, ?_⟩, fun i hi => ?_, fun p' k hl hne' => ?_, ?_⟩
  · have hstop := hd.sound.bound c hc
    unfold Blk.stop at hstop
    exact (hrep.live_iff hhead).2 ⟨by omega, c, (hmem c hcf).2 ⟨hc, hcb⟩, hcf, rfl, rfl⟩
  · have hib : i < b.size := lt_of_lt_of_le hi (min_le_left _ _)
    rw [hcopy i hib]
    apply hbk
    unfold Blk.Holds Blk.stop
    omega
  · obtain ⟨hp64', d, hdm, hdf, rfl, rfl⟩ := (hs.rep.live_iff hs.head).1 hl
    obtain ⟨hd₁, hdk⟩ := hd.keeps d hdm hdf
    have hdb : d ≠ b := by
      rintro rfl
      exact hne' rfl
    have hdc : d ≠ c := by
      rintro rfl
      exact hnew d hdm hdf rfl
    exact hrep.kept hhead ((hmem d hdf).2 ⟨hd₁, hdb⟩) hdf hp64' (fun x hx => (hsame d hd₁ hdc x hx).trans (hdk x hx))
  · refine iff_of_true ?_ ?_
    · rintro ⟨k, hl⟩
      obtain ⟨-, d, hdm, hdf, hda, -⟩ := (hrep.live_iff hhead).1 hl
      obtain ⟨hd₁, hdb⟩ := (hmem d hdf).1 hdm
      exact hdb (hd.sound.rep.eq_of_addr hd₁ hb₁ (Nat.add_right_cancel hda))
    · intro hqp
      exact hcb (hd.sound.rep.eq_of_addr hc hb₁ (Nat.add_right_cancel hqp))

/-- `krealloc` on any heap list whose blocks are apart: the block it returns is live, large enough and starts with the old
bytes, every other live block keeps its bytes, and the old pointer goes exactly when a new one takes its place; when it
returns NULL all live blocks keep their bytes. -/
theorem krealloc_preserves (hs : Sound s bs) (hp : Live s p n) (h0 : 0 < size) (hsize : size ≤ 2 ^ 63)
    (hg : Supplied bs size pmm) :
    ∃ q s', krealloc s p size pmm = some (q, s') ∧
      (q ≠ 0 → (∃ k, size ≤ k ∧ Live s' q k) ∧ (∀ i < min n size, s'.mem (q + i) = s.mem (p + i)) ∧
        (∀ p' k, Live s p' k → p' ≠ p → Kept s s' p' k) ∧ ((¬ ∃ k, Live s' p k) ↔ q ≠ p)) ∧
      (q = 0 → ∀ p' k, Live s p' k → Kept s s' p' k) := by
  obtain ⟨hp64, b, hb, hbf, rfl, rfl⟩ := (hs.rep.live_iff hs.head).1 hp
  have hsub : sub64 (b.addr + BLOCK) BLOCK = b.addr := by
    unfold sub64 BLOCK
    omega
  obtain ⟨nx, pv, hblk⟩ := hs.rep.block_of_mem hb
  have hne : b.addr + BLOCK ≠ 0 := by unfold BLOCK; omega
  unfold krealloc
  rw [if_neg hne, if_neg h0.ne']
  dsimp only
  rw [hsub, hblk]
  dsimp only
  by_cases hfit : size ≤ b.size
  · rw [if_pos hfit]
    exact ⟨_, s, rfl, fun _ => ⟨⟨b.size, hfit, hp⟩, fun _ _ => rfl, fun _ _ hl _ => kept_refl hl,
      iff_of_false (fun h => h ⟨_, hp⟩) (fun h => h rfl)⟩, fun h => absurd h hne⟩
  rw [if_neg hfit]
  obtain ⟨q, s₁, bs₁, he, hd, hnull⟩ := hs.kmalloc hsize hg
  rw [he]
  dsimp only
  by_cases hq : q = 0
  · rw [if_pos hq]
    obtain rfl := hnull hq
    exact ⟨0, _, rfl, fun h => absurd rfl h, fun _ _ _ hl => kept_refl hl⟩
  rw [if_neg hq]
  obtain ⟨nx', pv', hblk₁⟩ := hd.sound.rep.block_of_mem (hd.keeps b hb hbf).1
  rw [hblk₁]
  exact ⟨q, _, rfl, fun _ => hd.relocated hs hq hb hbf (not_le.1 hfit) rfl, fun h => absurd h hq⟩

end

/-- A block of 100 bytes grown to 5000. -/
theorem krealloc_preserves_grown : ∃ s bs n, exec (heap_init (fun _ => 0) 0x200000) (.kmalloc 100 []) = some (0x200028, s) ∧
    Sound s bs ∧ Live s 0x200028 n ∧ ∃ q s', krealloc s 0x200028 5000 [] = some (q, s') ∧
      (q ≠ 0 → (∃ k, 5000 ≤ k ∧ Live s' q k) ∧ (∀ i < min n 5000, s'.mem (q + i) = s.mem (0x200028 + i)) ∧
        (∀ p' k, Live s p' k → p' ≠ 0x200028 → Kept s s' p' k) ∧ ((¬ ∃ k, Live s' 0x200028 k) ↔ q ≠ 0x200028)) ∧
      (q = 0 → ∀ p' k, Live s p' k → Kept s s' p' k) := by
  obtain ⟨s, he⟩ := first_alloc
  have hi := inv_init (fun _ => 0) (by decide : 0 < 0x200000) (by decide)
  obtain ⟨segs', hi'⟩ := hi.exec first_allowed (fun t p h => by cases h) he
  obtain ⟨b, hb, hbf, hbp⟩ := hi'.live 0x200028 (by simp [Op.live])
  have hl : Live s 0x200028 b.size := (hi'.rep.live_iff hi'.head).2 ⟨by decide, b, hb, hbf, hbp, rfl⟩
  exact ⟨s, _, _, he, hi'.sound, hl, krealloc_preserves hi'.sound hl (by decide) (by decide) (by simp [Supplied])⟩

end H3OS.Heap
