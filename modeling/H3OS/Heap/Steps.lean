import H3OS.Heap.Sound
/-!
# The calls keep the invariant

Each call changes the run of one region: handing out cuts a free block or
takes it whole, releasing joins a block with its free neighbours, and growing
adds a run of one block.
-/
open SysLib

namespace H3OS.Heap

section
variable {s : St} {live : List Nat} {segs A B : List (List Blk)} {pre post bs : List Blk} {b c : Blk} {r : Nat × Nat}
  {m : Mem}

/-! ## Handing out -/

/-- Marking a block does not move it. -/
theorem tiles_mark {a e : Nat} (v : Bool) (h : Tiles Blk.addr Blk.stop a (pre ++ b :: post) e) :
    Tiles Blk.addr Blk.stop a (pre ++ { b with free := v } :: post) e := by
  rw [← List.singleton_append, ← List.append_assoc] at h ⊢
  exact h.replace [{ b with free := v }] (fun x y hxy => by simpa [Blk.stop] using hxy)

theorem usedBytes_free (h : ∀ x ∈ bs, x.free = true) : usedBytes bs = 0 := by
  induction bs with
  | nil => rfl
  | cons x bs ih => simp [usedBytes, h x (by simp), ih (fun y hy => h y (by simp [hy]))]

/-- A block in use stays when others take the place of a free one. -/
theorem mem_of_in_use (hb : b.free = true) {d : Blk} (hd : d ∈ (A ++ (pre ++ b :: post) :: B).flatten)
    (hdf : d.free = false) : d ∈ (A ++ (pre ++ c :: (bs ++ post)) :: B).flatten := by
  have hdb : d ≠ b := by
    rintro rfl
    simp [hb] at hdf
  simp only [List.flatten_append, List.flatten_cons, List.mem_append, List.mem_cons] at hd ⊢
  tauto

/-- Putting a block in use, with free blocks cut off behind it, in place of a free block. -/
theorem Inv.handOut (hi : Inv s live (A ++ (pre ++ b :: post) :: B)) (hb : b.free = true) (c : Blk) (rest : List Blk)
    (hc : c.addr = b.addr) (hcf : c.free = false) (hrest : ∀ x ∈ rest, x.free = true)
    (hfill : ∀ r, Fills r (pre ++ b :: post) → Fills r (pre ++ c :: (rest ++ post)))
    (hrep : Rep m (A ++ (pre ++ c :: (rest ++ post)) :: B).flatten) (k : Nat) :
    Inv { s with mem := m, heap_used := add64 s.heap_used c.size, heap_allocs := k } ((b.addr + BLOCK) :: live)
      (A ++ (pre ++ c :: (rest ++ post)) :: B) := by
  obtain ⟨r, -, hr, hre, -⟩ := fills_middle hi.fills hi.apart
  refine ⟨hrep, ?_, hre _ (hfill r hr), hi.apart, hi.bound, ?_, hi.total, fun p hp => ?_⟩
  · refine hi.head.trans ?_
    simp only [List.flatten_append, List.flatten_cons, first_append, first_cons, hc]
  · have hu := hi.used
    simp only [List.flatten_append, List.flatten_cons, usedBytes_append, usedBytes, hb, hcf, usedBytes_free hrest,
      if_true, Bool.false_eq_true, if_false] at hu ⊢
    rw [hu]
    unfold add64
    omega
  · rcases List.mem_cons.1 hp with rfl | hp
    · exact ⟨c, by simp, hcf, by rw [hc]⟩
    · obtain ⟨d, hd, hdf, hdp⟩ := hi.live p hp
      exact ⟨d, mem_of_in_use hb hd hdf, hdf, hdp⟩

/-- The payload of a free block is not live. -/
theorem Inv.not_live (hi : Inv s live segs) (hm : b ∈ segs.flatten) (hb : b.free = true) : b.addr + BLOCK ∉ live := by
  intro hp
  obtain ⟨d, hd, hdf, hdp⟩ := hi.live _ hp
  rw [hi.rep.eq_of_addr hd hm (Nat.add_right_cancel hdp), hb] at hdf
  cases hdf

theorem Inv.sound (hi : Inv s live segs) : Sound s segs.flatten := by
  refine ⟨hi.rep, hi.head, fills_apart hi.fills hi.apart, fun b hb => ?_⟩
  obtain ⟨r, hr, -, h2⟩ := fills_mem hi.fills b hb
  exact h2.trans (hi.bound r hr).2

/-- A block in use and what was cut off it fill the place of a free block. -/
theorem Fills.cut {rest : List Blk} (h : Fills r (pre ++ b :: post)) (hb : b.free = true)
    (ht : Tiles Blk.addr Blk.stop b.addr (c :: rest) b.stop) (hc : c.free = false)
    (hrest : rest = [] ∨ ∃ y, rest = [y] ∧ y.free = true) : Fills r (pre ++ c :: (rest ++ post)) := by
  obtain ⟨h1, h2, h3⟩ := merged_middle.1 h.merged
  refine ⟨?_, merged_middle.2 ⟨h1, ?_, by simp [hc]⟩⟩
  · have hb' : Tiles Blk.addr Blk.stop r.1 (pre ++ [b] ++ post) (r.1 + r.2) := by simpa using h.tiles
    have := hb'.replace (c :: rest) (by
      rintro x y ⟨rfl, rfl⟩
      exact ht)
    simpa using this
  · rcases hrest with rfl | ⟨y, rfl, -⟩
    · exact h2
    · exact merged_cons.2 ⟨h2, fun _ => (h3 hb).2⟩

/-- `take_block` hands out a block that fits; blocks in use stay as they are. -/
theorem Inv.take {size : Nat} (hi : Inv s live segs) (hm : segs.flatten = pre ++ b :: post) (hb : b.free = true)
    (hfit : size ≤ b.size) (h0 : 0 < size) (hsize : size ≤ 2 ^ 63 + 32) :
    (take_block s b.addr size).1 = b.addr + BLOCK ∧ b.addr + BLOCK ∉ live ∧
    ∃ segs', Inv (take_block s b.addr size).2 ((b.addr + BLOCK) :: live) segs' ∧
      (∃ c ∈ segs'.flatten, c.addr = b.addr ∧ c.free = false ∧ size ≤ c.size) ∧
      ∀ c ∈ segs.flatten, c.free = false → c ∈ segs'.flatten := by
  have hs := hi.sound
  rw [hm] at hs
  obtain ⟨m', c, rest, he, hrep, ht, hcf, hcs, hrest, -⟩ := hs.take h0 hfit (by omega)
  obtain ⟨A, pre, post, B, rfl, rfl, rfl⟩ := flatten_middle hm
  rw [he]
  refine ⟨rfl, hi.not_live (by simp) hb, _, hi.handOut hb c rest ht.1 hcf ?_ (fun r hf => hf.cut hb ht hcf hrest) ?_ _,
    ⟨c, by simp, ht.1, hcf, hcs⟩, fun d => mem_of_in_use hb⟩
  · rcases hrest with rfl | ⟨y, rfl, hy⟩
    · simp
    · simpa using hy
  · simpa using hrep

/-! ## Growing -/

theorem heap_add_region_counts (s : St) (addr : Nat) {size : Nat} (h : BLOCK + HEAP_MIN ≤ size) :
    (heap_add_region s addr size).regions = (addr, size) :: s.regions ∧
    (heap_add_region s addr size).heap_used = s.heap_used ∧
    (heap_add_region s addr size).heap_total = add64 s.heap_total size := by
  unfold heap_add_region
  rw [if_neg (not_lt.2 h)]
  exact ⟨rfl, rfl, rfl⟩

/-- A new region, apart from all others, is one more run of one free block. -/
theorem Inv.addRegion {addr size : Nat} (hi : Inv s live segs) (hsize : BLOCK + HEAP_MIN ≤ size) (h0 : 0 < addr)
    (h64 : addr + size ≤ 2 ^ 64) (hap : ∀ r ∈ s.regions, Apart addr size r.1 r.2) :
    Inv (heap_add_region s addr size) live ([⟨addr, size - BLOCK, true⟩] :: segs) := by
  have hfills : List.Forall₂ Fills ((addr, size) :: s.regions) ([⟨addr, size - BLOCK, true⟩] :: segs) := by
    refine .cons ⟨⟨rfl, ?_⟩, List.isChain_singleton _⟩ hi.fills
    simp only [tiles_nil, Blk.stop]
    omega
  have hapart : ((addr, size) :: s.regions).Pairwise (fun r t => Apart r.1 r.2 t.1 t.2) := .cons hap hi.apart
  have hbound : ∀ r ∈ (addr, size) :: s.regions, 0 < r.1 ∧ r.1 + r.2 ≤ 2 ^ 64 := by
    intro r hr
    rcases List.mem_cons.1 hr with rfl | hr
    · exact ⟨h0, h64⟩
    · exact hi.bound r hr
  have hblk : ∀ b ∈ segs.flatten, Apart addr size b.addr (BLOCK + b.size) := by
    intro b hb
    obtain ⟨r, hr, h1, h2⟩ := fills_mem hi.fills b hb
    have := hap r hr
    unfold Blk.stop at h2
    unfold Apart at *
    omega
  obtain ⟨hs, -⟩ := hi.sound.add hsize h0 h64 hblk
  obtain ⟨hreg, hused, htotal⟩ := heap_add_region_counts s addr hsize
  rw [← hreg] at hfills hapart hbound
  refine ⟨hs.rep, hs.head, hfills, hapart, hbound, ?_, ?_, ?_⟩
  · rw [hused, hi.used]
    simp [usedBytes]
  · rw [htotal, hreg, hi.total, List.map_cons, List.sum_cons]
    unfold add64
    omega
  · intro p hp
    obtain ⟨b, hb, hbp⟩ := hi.live p hp
    exact ⟨b, by simp [hb], hbp⟩

/-! ## kmalloc -/

/-- What a call that hands out `p` for `size` bytes leaves behind. -/
structure Served (s : St) (live : List Nat) (segs : List (List Blk)) (size p : Nat) (s' : St) (segs' : List (List Blk)) :
    Prop where
  inv : Inv s' (if p = 0 then live else p :: live) segs'
  fits : p ≠ 0 → p ∉ live ∧ ∃ c ∈ segs'.flatten, c.addr + BLOCK = p ∧ c.free = false ∧ size ≤ c.size
  keeps : ∀ c ∈ segs.flatten, c.free = false → c ∈ segs'.flatten

theorem Inv.served_take {size : Nat} (hi : Inv s live segs) (hm : segs.flatten = pre ++ b :: post) (hb : b.free = true)
    (hfit : size ≤ b.size) (h0 : 0 < size) (hsize : size ≤ 2 ^ 63 + 32) :
    ∃ segs', Served s live segs size (take_block s b.addr size).1 (take_block s b.addr size).2 segs' := by
  obtain ⟨hp, hnew, segs', hi', ⟨c, hc, hca, hcf, hcs⟩, hk⟩ := hi.take hm hb hfit h0 hsize
  have hne : b.addr + BLOCK ≠ 0 := by unfold BLOCK; omega
  rw [hp]
  exact ⟨segs', by rw [if_neg hne]; exact hi', fun _ => ⟨hnew, c, hc, by rw [hca], hcf, hcs⟩, hk⟩

/-- A call to `kmalloc` returns, and hands out a block of at least the size asked for, or nothing. -/
theorem Inv.kmalloc {size : Nat} {pmm : List Nat} (hi : Inv s live segs) (hsize : size ≤ 2 ^ 63) (hg : Grants s size pmm) :
    ∃ p s' segs', kmalloc s size pmm = some (p, s') ∧ Served s live segs size p s' segs' ∧
      ((∀ a ∈ pmm, a = 0) → s'.regions = s.regions) := by
  have hnothing : Served s live segs size 0 s segs := ⟨hi, fun h => absurd rfl h, fun _ hc _ => hc⟩
  by_cases hz : size = 0
  · exact ⟨0, s, segs, by rw [Heap.kmalloc, if_pos hz], hnothing, fun _ => rfl⟩
  obtain ⟨h0, hle, hmax⟩ := request_bounds hsize
  have hweaken : ∀ {p s' segs'}, Served s live segs (request size) p s' segs' → Served s live segs size p s' segs' := by
    intro p s' segs' hs
    refine ⟨hs.inv, fun hp => ?_, hs.keeps⟩
    obtain ⟨hnew, c, hc, hca, hcf, hcs⟩ := hs.fits hp
    exact ⟨hnew, c, hc, hca, hcf, by omega⟩
  rcases hi.sound.kmalloc_cases hz pmm with ⟨pre, b, post, hm, hb, hfit, he⟩ | ⟨-, he⟩
  · obtain ⟨segs', hs⟩ := hi.served_take hm hb hfit h0 hmax
    exact ⟨_, _, segs', he, hweaken hs, fun _ => rfl⟩
  · by_cases hphys : pmm.headD 0 = 0
    · rw [he, if_pos hphys]
      exact ⟨0, s, segs, rfl, hnothing, fun _ => rfl⟩
    · have hmem : pmm.headD 0 ∈ pmm := by
        cases pmm with
        | nil => simp at hphys
        | cons a pmm => simp
      obtain ⟨h64, hap⟩ := hg _ hmem hphys
      obtain ⟨hmin, hlen⟩ := expand_serves hmax
      have hi' := hi.addRegion hmin (Nat.pos_of_ne_zero hphys) h64 hap
      obtain ⟨segs', hs⟩ := hi'.served_take (List.nil_append _).symm rfl hlen h0 hmax
      refine ⟨_, _, segs', by rw [he, if_neg hphys, hi'.sound.grown hlen], hweaken ⟨hs.inv, hs.fits, ?_⟩,
        fun hall => absurd (hall _ hmem) hphys⟩
      intro c hc hcf
      exact hs.keeps c (by simp [hc]) hcf

/-! ## Writing into a payload -/

/-- Bytes of a payload are the client's. -/
theorem Inv.write {m' : Mem} (hi : Inv s live segs) (hb : b ∈ segs.flatten)
    (hm : ∀ x, (x < b.addr + BLOCK ∨ b.stop ≤ x) → m' x = s.mem x) : Inv { s with mem := m' } live segs := by
  have hs := hi.sound.write hb (fun x hx => hm x (by unfold Blk.Holds at hx; omega))
  exact ⟨hs.rep, hi.head, hi.fills, hi.apart, hi.bound, hi.used, hi.total, hi.live⟩

/-! ## kfree -/

theorem tiles_first {a e q : Nat} {l : List Blk} (h : Tiles Blk.addr Blk.stop a l e) (hl : l ≠ []) : first q l = a := by
  cases l with
  | nil => exact absurd rfl hl
  | cons b l => exact h.1

/-- Taking in a free next block of the same run. -/
theorem Rep.join_next {P R : List Blk} {e : Nat} (h : Rep m (P ++ b :: (post ++ R)))
    (ht : Tiles Blk.addr Blk.stop b.addr (b :: post) e) (he : e ≤ 2 ^ 64) (hm : Merged post)
    (hR : post = [] → ∀ y ∈ R.head?, y.free = false) :
    ∃ b' post', Rep (merge_next m b.addr) (P ++ b' :: (post' ++ R)) ∧ b'.addr = b.addr ∧ b'.free = b.free ∧
      Tiles Blk.addr Blk.stop b.addr (b' :: post') e ∧ Merged post' ∧ (∀ y ∈ post'.head?, y.free = false) ∧
      usedBytes post' = usedBytes post ∧ ∀ c ∈ post, c.free = false → c ∈ post' := by
  cases post with
  | nil =>
    rw [h.skip_next (by simpa using hR rfl)]
    exact ⟨b, [], h, rfl, rfl, ht, hm, by simp, rfl, by simp⟩
  | cons y post =>
    by_cases hy : y.free = true
    · have hb := ht.bounds Blk.addr_le_stop y (by simp)
      have hadj : y.addr = b.addr + BLOCK + b.size := ht.2.1
      have hsum : b.size + BLOCK + y.size < 2 ^ 64 := by
        have hpos := (h.pos b (by simp)).1
        unfold Blk.stop at hb
        omega
      refine ⟨_, post, h.into_next hy hsum, rfl, rfl, ⟨rfl, ?_⟩, ?_, ?_, by simp [usedBytes, hy], ?_⟩
      · have htail := ht.2.2
        simp only [Blk.stop, hadj] at htail ⊢
        rwa [show b.addr + BLOCK + (b.size + BLOCK + y.size) = b.addr + BLOCK + b.size + BLOCK + y.size by omega]
      · exact (merged_cons.1 hm).1
      · exact (merged_cons.1 hm).2 hy
      · intro c hc hcf
        rcases List.mem_cons.1 hc with rfl | hc
        · simp [hy] at hcf
        · exact hc
    · rw [h.skip_next (by simpa using hy)]
      exact ⟨b, y :: post, h, rfl, rfl, ht, hm, by simpa using hy, rfl, fun c hc _ => hc⟩

/-- Giving the block to a free previous block of the same run. -/
theorem Rep.join_prev {L Q : List Blk} {a e : Nat} (h : Rep m ((L ++ pre) ++ b :: Q))
    (ht : Tiles Blk.addr Blk.stop a (pre ++ [b]) e) (he : e ≤ 2 ^ 64) (hm : Merged pre) (hb : b.free = true)
    (hL : pre = [] → ∀ x ∈ L.getLast?, x.free = false) :
    ∃ pre' b', Rep (merge_prev m b.addr) ((L ++ pre') ++ b' :: Q) ∧ b'.free = true ∧
      Tiles Blk.addr Blk.stop a (pre' ++ [b']) e ∧ Merged pre' ∧ (∀ x ∈ pre'.getLast?, x.free = false) ∧
      usedBytes pre' = usedBytes pre ∧ ∀ c ∈ pre, c.free = false → c ∈ pre' := by
  rcases List.eq_nil_or_concat pre with rfl | ⟨pre, x, rfl⟩
  · rw [h.skip_prev (by simpa using hL rfl)]
    exact ⟨[], b, h, hb, ht, hm, by simp, rfl, by simp⟩
  rw [List.concat_eq_append] at h ht hm ⊢
  by_cases hx : x.free = true
  · have h' : Rep m ((L ++ pre) ++ x :: b :: Q) := by simpa using h
    rw [List.append_assoc] at ht
    obtain ⟨c, htpre, rfl, hadj, hend⟩ := tiles_append.1 ht
    have hadj' : b.addr = x.addr + BLOCK + x.size := hadj
    have hend' : b.addr + BLOCK + b.size = e := hend
    have hpos := (h'.pos x (by simp)).1
    refine ⟨pre, _, h'.into_prev hx (by omega), hx, tiles_append.2 ⟨x.addr, htpre, rfl, ?_⟩, (merged_concat.1 hm).1,
      (merged_concat.1 hm).2 hx, by simp [usedBytes, hx], fun c hc hcf => ?_⟩
    · simp only [tiles_nil, Blk.stop]
      omega
    · rcases List.mem_append.1 hc with hc | hc
      · exact hc
      · rw [List.mem_singleton.1 hc, hx] at hcf
        cases hcf
  · have hskip : ∀ y ∈ (L ++ (pre ++ [x])).getLast?, y.free = false := by
      rw [← List.append_assoc, List.getLast?_concat]
      simpa using hx
    rw [h.skip_prev hskip]
    exact ⟨pre ++ [x], b, h, hb, ht, hm, by simpa using hx, rfl, fun c hc _ => hc⟩

theorem sub64_mod (u k : Nat) : sub64 ((u + k) % 2 ^ 64) k = u % 2 ^ 64 := by
  unfold sub64
  omega

theorem kfree_regions (s : St) (ptr : Nat) : (kfree s ptr).regions = s.regions := by
  unfold kfree
  by_cases h : ptr = 0
  · rw [if_pos h]
  · rw [if_neg h]
    dsimp only
    split <;> rfl

/-- A released block's neighbours in other runs are in use. -/
theorem Inv.neighbours {ptr : Nat} (hi : Inv s live (A ++ (pre ++ b :: post) :: B)) (hok : ReleaseOk s ptr)
    (hb : sub64 ptr BLOCK = b.addr) :
    (post = [] → ∀ y ∈ B.flatten.head?, y.free = false) ∧ (pre = [] → ∀ x ∈ A.flatten.getLast?, x.free = false) := by
  obtain ⟨r, hr, hf, -, hother⟩ := fills_middle hi.fills hi.apart
  have hrep : Rep s.mem ((A.flatten ++ pre) ++ b :: (post ++ B.flatten)) := by simpa using hi.rep
  have hbr : InRegion s.mem r b.addr := by
    unfold InRegion
    rw [hrep.middle]
    exact hf.bounds b (by simp)
  have key : ∀ c ∈ A.flatten ++ B.flatten, c.addr = first 0 (post ++ B.flatten) ∨ c.addr = last 0 (A.flatten ++ pre) →
      c.free = false := by
    intro c hc hcn
    by_contra hfree
    have hcm : c ∈ (A ++ (pre ++ b :: post) :: B).flatten := by
      rw [List.flatten_append, List.flatten_cons, List.mem_append, List.mem_append]
      rcases List.mem_append.1 hc with hc | hc
      · exact .inl hc
      · exact .inr (.inr hc)
    obtain ⟨nx, pv, hblk⟩ := hi.rep.block_of_mem hcm
    have hin := hok r hr (hb ▸ hbr) c.addr (by rw [hb, hrep.middle]; exact hcn)
      (Nat.pos_iff_ne_zero.1 (hi.rep.pos c hcm).1) (by rw [hblk]; simpa using hfree)
    unfold InRegion at hin
    rw [hblk] at hin
    have hap := hother c hc
    unfold Apart BLOCK at hap
    unfold BLOCK at hin
    omega
  refine ⟨fun hp y hy => ?_, fun hp x hx => ?_⟩
  · obtain ⟨R, hR⟩ := List.head?_eq_some_iff.1 hy
    exact key y (by simp [hR]) (.inl (by simp [hp, hR]))
  · obtain ⟨L, hL⟩ := List.getLast?_eq_some_iff.1 hx
    exact key x (by simp [hL]) (.inr (by simp [hp, hL, last]))

/-- Coalescing a free block joins it with both neighbours of its run, and the run is merged again. -/
theorem Rep.coalesce {L R : List Blk} (h : Rep m ((L ++ pre) ++ b :: (post ++ R))) (hb : b.free = true)
    (ht : Tiles Blk.addr Blk.stop r.1 (pre ++ b :: post) (r.1 + r.2)) (h64 : r.1 + r.2 ≤ 2 ^ 64)
    (hpre : Merged pre) (hpost : Merged post) (hN : post = [] → ∀ y ∈ R.head?, y.free = false)
    (hP : pre = [] → ∀ x ∈ L.getLast?, x.free = false) :
    ∃ pre' b' post', Rep (Heap.coalesce m b.addr) ((L ++ pre') ++ b' :: (post' ++ R)) ∧ b'.free = true ∧
      Fills r (pre' ++ b' :: post') ∧ usedBytes pre' = usedBytes pre ∧ usedBytes post' = usedBytes post ∧
      (∀ c ∈ pre, c.free = false → c ∈ pre') ∧ ∀ c ∈ post, c.free = false → c ∈ post' := by
  obtain ⟨c, htpre, htb⟩ := tiles_append.1 ht
  obtain rfl : b.addr = c := htb.1
  -- the block takes in its next block, then goes to its previous one
  obtain ⟨b2, post2, hrep2, hb2, hb2f, ht2, hm2, hn2, hu2, hk2⟩ := h.join_next htb h64 hpost hN
  obtain ⟨e2, he2⟩ : ∃ e, e = b2.stop := ⟨_, rfl⟩
  have ht2' : Tiles Blk.addr Blk.stop b2.addr [b2] e2 := ⟨rfl, he2.symm⟩
  have htpre2 : Tiles Blk.addr Blk.stop r.1 (pre ++ [b2]) e2 := tiles_append.2 ⟨b.addr, htpre, hb2 ▸ ht2'⟩
  have he64 : e2 ≤ 2 ^ 64 := by
    have := ht2.bounds Blk.addr_le_stop b2 (by simp)
    omega
  obtain ⟨pre3, b3, hrep3, hb3f, ht3, hm3, hn3, hu3, hk3⟩ := hrep2.join_prev htpre2 he64 hpre (hb2f.trans hb) hP
  rw [hb2] at hrep3
  refine ⟨pre3, b3, post2, hrep3, hb3f, ⟨?_, merged_middle.2 ⟨hm3, hm2, fun _ => ⟨hn3, hn2⟩⟩⟩, hu3, hu2, hk3, hk2⟩
  have happ := tiles_append.2 ⟨e2, ht3, he2 ▸ ht2.2⟩
  simpa using happ

/-- Releasing a live block whose free neighbours are in its region. -/
theorem Inv.kfree {ptr : Nat} (hi : Inv s live segs) (hp : ptr ∈ live) (hok : ReleaseOk s ptr) :
    ∃ segs', Inv (kfree s ptr) (live.filter (· ≠ ptr)) segs' := by
  obtain ⟨b, hb, hbf, rfl⟩ := hi.live ptr hp
  obtain ⟨P, Q, hPQ⟩ := List.append_of_mem hb
  obtain ⟨A, pre, post, B, rfl, rfl, rfl⟩ := flatten_middle hPQ
  obtain ⟨r, hr, hf, hre, -⟩ := fills_middle hi.fills hi.apart
  have hrep : Rep s.mem ((A.flatten ++ pre) ++ b :: (post ++ B.flatten)) := by simpa using hi.rep
  have haddr := (hrep.pos b (by simp)).2
  have hsub : sub64 (b.addr + BLOCK) BLOCK = b.addr := by
    unfold sub64 BLOCK
    omega
  obtain ⟨hN, hP⟩ := hi.neighbours hok hsub
  have hmid := hrep.middle
  have hrep1 := hrep.setFree true
  have hmid1 := hrep1.middle
  dsimp only at hmid1
  obtain ⟨hmpre, hmpost, -⟩ := merged_middle.1 hf.merged
  obtain ⟨pre3, b3, post2, hrep3, hb3f, hfinal, hu3, hu2, hk3, hk2⟩ :=
    hrep1.coalesce rfl (tiles_mark true hf.tiles) (hi.bound r hr).2 hmpre hmpost hN hP
  refine ⟨A ++ (pre3 ++ b3 :: post2) :: B, ?_⟩
  unfold Heap.kfree
  rw [if_neg (by unfold BLOCK; omega)]
  dsimp only
  rw [hsub, hmid, if_neg (by simp [hbf]), hmid1]
  refine ⟨?_, ?_, hre _ hfinal, hi.apart, hi.bound, ?_, hi.total, fun p hp => ?_⟩
  · simpa using hrep3
  · have hfirst : ∀ l, first 0 (A ++ l :: B).flatten = first (first (first 0 B.flatten) l) A.flatten := fun l => by simp
    refine hi.head.trans ?_
    rw [hfirst, hfirst, tiles_first hf.tiles (by simp), tiles_first hfinal.tiles (by simp)]
  · have hu := hi.used
    simp only [List.flatten_append, List.flatten_cons, usedBytes_append, usedBytes, hbf, hb3f, hu2, hu3, if_true,
      Bool.false_eq_true, if_false] at hu ⊢
    have harr : usedBytes A.flatten + (usedBytes pre + (b.size + usedBytes post) + usedBytes B.flatten) =
        usedBytes A.flatten + (usedBytes pre + (0 + usedBytes post) + usedBytes B.flatten) + b.size := by omega
    rw [hu, harr, sub64_mod]
  · obtain ⟨hpl, hne⟩ := List.mem_filter.1 hp
    obtain ⟨d, hd, hdf, rfl⟩ := hi.live p hpl
    refine ⟨d, ?_, hdf, rfl⟩
    have hdb : d ≠ b := by
      rintro rfl
      simp at hne
    simp only [List.flatten_append, List.flatten_cons, List.mem_append, List.mem_cons] at hd ⊢
    rcases hd with hd | (hd | hd | hd) | hd
    · exact .inl hd
    · exact .inr (.inl (.inl (hk3 d hd hdf)))
    · exact absurd hd hdb
    · exact .inr (.inl (.inr (.inr (hk2 d hd hdf))))
    · exact .inr (.inr hd)

end

end H3OS.Heap
