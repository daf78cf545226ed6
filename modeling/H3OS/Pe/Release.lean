import H3OS.Pe.RoundTrip
/-!
# Memory after a run

`pe_run` releases nothing. The allocators are as before exactly if it took
nothing: the file was rejected, its image is empty, or there was no memory.
-/
open SysLib

namespace H3OS.Pe

/-- The blocks of the heap list that are in use. -/
def liveBlocks (s : Heap.St) : Set Nat := { b | ∃ l, Heap.Blocks s l ∧ b ∈ l ∧ (Heap.block s.mem b).free = false }

/-- Pages and heap blocks are in use as before. -/
structure Released (s s' : Backed.St) : Prop where
  bitmap : s'.pmm.page_bitmap = s.pmm.page_bitmap
  used : s'.pmm.used_pages = s.pmm.used_pages
  live : liveBlocks s'.heap = liveBlocks s.heap

/-- The allocators are in working order. -/
structure Working (s : Backed.St) : Prop where
  pages : s.pmm.total_pages ≤ Pmm.PMM_MAX_PAGES
  heap : ∃ live segs, Heap.Inv s.heap live segs

/-- The heap list has a free block of at least `size` bytes. -/
def HasFit (s : Heap.St) (size : Nat) : Prop :=
  ∃ l, Heap.Blocks s l ∧ ∃ b ∈ l, (Heap.block s.mem b).free = true ∧ size ≤ (Heap.block s.mem b).size

/-- The pages that an image needs. -/
def imagePages (size_of_image : Nat) : Nat := H3OS_ALIGN_UP size_of_image PAGE_SIZE / PAGE_SIZE

/-- The file is rejected, its image is empty, or neither pages nor the heap have room for it. -/
def TakesNothing (s : Backed.St) (data : Mem) (size : Nat) : Prop :=
  (pe_probe data size).1 = false ∨ (pe_probe data size).2.size_of_image = 0 ∨
  (¬ Pmm.HasRun s.pmm (imagePages (pe_probe data size).2.size_of_image) ∧
    ¬ HasFit s.heap (Heap.request (pe_probe data size).2.size_of_image))

/-! ## The heap -/

section
variable {s s' : Heap.St} {live live' : List Nat} {segs segs' : List (List Heap.Blk)}

theorem mem_liveBlocks (hi : Heap.Inv s live segs) {a : Nat} :
    a ∈ liveBlocks s ↔ ∃ b ∈ segs.flatten, b.addr = a ∧ b.free = false := by
  constructor
  · rintro ⟨l, hl, ha, hfree⟩
    rw [Chain.unique hl hi.blocks] at ha
    obtain ⟨b, hb, rfl⟩ := List.mem_map.1 ha
    obtain ⟨nx, pv, hblk⟩ := hi.rep.block_of_mem hb
    rw [hblk] at hfree
    exact ⟨b, hb, rfl, hfree⟩
  · rintro ⟨b, hb, rfl, hfree⟩
    obtain ⟨nx, pv, hblk⟩ := hi.rep.block_of_mem hb
    refine ⟨_, hi.blocks, List.mem_map_of_mem hb, ?_⟩
    rw [hblk]
    exact hfree

theorem hasFit_iff (hi : Heap.Inv s live segs) {size : Nat} :
    HasFit s size ↔ ∃ b ∈ segs.flatten, b.free = true ∧ size ≤ b.size := by
  constructor
  · rintro ⟨l, hl, a, ha, hfree, hsize⟩
    rw [Chain.unique hl hi.blocks] at ha
    obtain ⟨b, hb, rfl⟩ := List.mem_map.1 ha
    obtain ⟨nx, pv, hblk⟩ := hi.rep.block_of_mem hb
    rw [hblk] at hfree hsize
    exact ⟨b, hb, hfree, hsize⟩
  · rintro ⟨b, hb, hfree, hsize⟩
    obtain ⟨nx, pv, hblk⟩ := hi.rep.block_of_mem hb
    refine ⟨_, hi.blocks, b.addr, List.mem_map_of_mem hb, ?_⟩
    rw [hblk]
    exact ⟨hfree, hsize⟩

/-- A block that is handed out was not in use. -/
theorem take_liveBlocks (hi : Heap.Inv s live segs) {pre post : List Heap.Blk} {b : Heap.Blk} {size : Nat}
    (hm : segs.flatten = pre ++ b :: post) (hb : b.free = true) (hfit : size ≤ b.size) (h0 : 0 < size)
    (hsize : size ≤ 2 ^ 63 + 32) : liveBlocks (Heap.take_block s b.addr size).2 ≠ liveBlocks s := by
  obtain ⟨-, -, segs', hi', ⟨c, hc, hca, hcf, -⟩, -⟩ := hi.take hm hb hfit h0 hsize
  have hnew : b.addr ∈ liveBlocks (Heap.take_block s b.addr size).2 := (mem_liveBlocks hi').2 ⟨c, hc, hca, hcf⟩
  intro heq
  rw [heq] at hnew
  obtain ⟨d, hd, hda, hdf⟩ := (mem_liveBlocks hi).1 hnew
  have hbm : b ∈ segs.flatten := by simp [hm]
  rw [hi.rep.eq_of_addr hd hbm hda, hb] at hdf
  cases hdf

end

/-! ## Allocating -/

/-- Allocating never clears a bit of the bitmap. -/
theorem alloc_keeps_bits {s : Pmm.St} {count : Nat} (hc : count < 2 ^ 64) (ht : s.total_pages ≤ Pmm.PMM_MAX_PAGES) :
    (Pmm.pmm_alloc_pages s count).2.total_pages = s.total_pages ∧
    ∀ q, Pmm.bitmap_test s q = true → Pmm.bitmap_test (Pmm.pmm_alloc_pages s count).2 q = true := by
  rcases Pmm.alloc_cases hc ht with h | ⟨p, s', -, -, h, htotal, hbits⟩
  · rw [h]
    exact ⟨rfl, fun q hq => hq⟩
  · rw [h]
    refine ⟨htotal, fun q hq => ?_⟩
    rw [hbits, hq, Bool.true_or]

theorem attempts_keeps_bits {size k p : Nat} {s s' : Backed.St} (hc : Heap.expand_pages size < 2 ^ 64)
    (ht : s.pmm.total_pages ≤ Pmm.PMM_MAX_PAGES) (h : Backed.attempts size k s = some (p, s')) {q : Nat}
    (hq : Pmm.bitmap_test s.pmm q = true) : Pmm.bitmap_test s'.pmm q = true := by
  induction k generalizing s with
  | zero =>
    cases h
    exact hq
  | succ k ih =>
    unfold Backed.attempts at h
    rcases hf : Heap.find_fit s.heap.mem size Heap.FUEL s.heap.heap_head with _ | _ | b
    · rw [hf] at h
      cases h
    · rw [hf] at h
      dsimp only at h
      obtain ⟨htotal, hbits⟩ := alloc_keeps_bits hc ht
      unfold Heap.expand_heap at h
      by_cases hphys : (Pmm.pmm_alloc_pages s.pmm (Heap.expand_pages size)).1 = 0
      · rw [if_pos hphys] at h
        cases h
        exact hbits q hq
      · rw [if_neg hphys] at h
        exact ih (htotal.trans_le ht) h (hbits q hq)
    · rw [hf] at h
      cases h
      exact hq

theorem Released.refl (s : Backed.St) : Released s s := ⟨rfl, rfl, rfl⟩

/-- A page that was free and is not any more. -/
theorem not_released_of_bit {s s' : Backed.St} {q : Nat} (h : Pmm.bitmap_test s.pmm q = false)
    (h' : Pmm.bitmap_test s'.pmm q = true) : ¬ Released s s' := by
  intro hr
  have hbit : Pmm.bitmap_test s'.pmm q = Pmm.bitmap_test s.pmm q := by
    unfold Pmm.bitmap_test
    rw [hr.bitmap]
  rw [hbit, h] at h'
  cases h'

theorem imagePages_eq {size_of_image : Nat} (h : size_of_image < 2 ^ 32) :
    imagePages size_of_image = (size_of_image + 4095) / 4096 := Pmm.up_page (by omega)

section
variable {s s' : Backed.St} {size_of_image phys : Nat}

/-- With no run of pages for the image there is none for the heap to grow by, and `kmalloc` fails if nothing fits. -/
theorem kmalloc_no_room (hw : Working s) (h0 : size_of_image ≠ 0) (hlt : size_of_image < 2 ^ 32)
    (hrun : ¬ Pmm.HasRun s.pmm (imagePages size_of_image)) (hfit : ¬ HasFit s.heap (Heap.request size_of_image)) :
    Backed.kmalloc s size_of_image = some (0, s) := by
  obtain ⟨live, segs, hi⟩ := hw.heap
  have hsize : size_of_image ≤ 2 ^ 63 := by omega
  obtain ⟨hpos, hle, hmax⟩ := Heap.request_bounds hsize
  rw [hasFit_iff hi] at hfit
  -- the heap would have to grow, and asks for more pages than the image would have needed
  obtain ⟨hroom, h64⟩ := Heap.expand_room hmax
  have hpages := imagePages_eq hlt
  unfold PAGE_SIZE Heap.BLOCK at hroom
  unfold PAGE_SIZE at h64
  have hmore : imagePages size_of_image < Heap.expand_pages (Heap.request size_of_image) := by omega
  have hgrow : Pmm.pmm_alloc_pages s.pmm (Heap.expand_pages (Heap.request size_of_image)) = (0, s.pmm) := by
    rcases Pmm.alloc_run_cases (Nat.ne_zero_of_lt hmore) (by omega) hw.pages with ⟨-, ha⟩ | ⟨hbig, -⟩
    · exact ha
    · exact absurd (hbig.mono hmore.le) hrun
  unfold Backed.kmalloc
  rw [if_neg h0, Backed.attempts]
  rcases hi.sound.find_fit (Heap.request size_of_image) with ⟨hf, -⟩ | ⟨pre, b, post, hm, -, -, hb, hsize⟩
  · rw [hf]
    dsimp only
    rw [hgrow]
    rfl
  · exact absurd ⟨b, by simp [hm], hb, hsize⟩ hfit

/-- Where no run of pages is left, `kmalloc` makes do with what the heap has. -/
theorem kmalloc_taken_cases (hw : Working s) (h0 : size_of_image ≠ 0) (hlt : size_of_image < 2 ^ 32)
    (hrun : ¬ Pmm.HasRun s.pmm (imagePages size_of_image)) (h : Backed.kmalloc s size_of_image = some (phys, s')) :
    (¬ HasFit s.heap (Heap.request size_of_image) ∧ s' = s) ∨
    (HasFit s.heap (Heap.request size_of_image) ∧ liveBlocks s'.heap ≠ liveBlocks s.heap) := by
  by_cases hfit : HasFit s.heap (Heap.request size_of_image)
  · obtain ⟨live, segs, hi⟩ := hw.heap
    have hsize : size_of_image ≤ 2 ^ 63 := by omega
    obtain ⟨hpos, -, hmax⟩ := Heap.request_bounds hsize
    refine .inr ⟨hfit, ?_⟩
    obtain ⟨c, hc, hcfree, hcsize⟩ := (hasFit_iff hi).1 hfit
    unfold Backed.kmalloc at h
    rw [if_neg h0, Backed.attempts] at h
    rcases hi.sound.find_fit (Heap.request size_of_image) with ⟨-, hnone⟩ | ⟨pre, b, post, hm, hf, hb0, hb, hbsize⟩
    · exact absurd hcsize (not_le.2 (hnone c hc hcfree))
    · have htake : s' = { s with heap := (Heap.take_block s.heap b.addr (Heap.request size_of_image)).2 } := by
        rw [hf] at h
        obtain ⟨a, ha⟩ := Nat.exists_eq_succ_of_ne_zero hb0.ne'
        rw [ha] at h ⊢
        cases h
        rfl
      rw [htake]
      exact take_liveBlocks hi hm hb hbsize hpos hmax
  · rw [kmalloc_no_room hw h0 hlt hrun hfit] at h
    cases h
    exact .inl ⟨hfit, rfl⟩

/-- With neither pages nor a block the image gets no memory. -/
theorem alloc_image_no_room (hw : Working s) (h0 : size_of_image ≠ 0) (hlt : size_of_image < 2 ^ 32)
    (hrun : ¬ Pmm.HasRun s.pmm (imagePages size_of_image)) (hfit : ¬ HasFit s.heap (Heap.request size_of_image)) :
    alloc_image s (imagePages size_of_image) size_of_image = some (0, s) := by
  have hpages := imagePages_eq hlt
  unfold alloc_image
  dsimp only
  rcases Pmm.alloc_run_cases (by omega : imagePages size_of_image ≠ 0) (by omega) hw.pages with ⟨-, ha⟩ | ⟨hbig, -⟩
  · rw [ha, if_neg (not_not.2 rfl)]
    exact kmalloc_no_room hw h0 hlt hrun hfit
  · exact absurd hbig hrun

/-- There was no memory to be had and the allocators are as before, or some is taken. -/
theorem alloc_image_taken_cases (hw : Working s) (h0 : size_of_image ≠ 0) (hlt : size_of_image < 2 ^ 32)
    (h : alloc_image s (imagePages size_of_image) size_of_image = some (phys, s')) :
    (¬ Pmm.HasRun s.pmm (imagePages size_of_image) ∧ ¬ HasFit s.heap (Heap.request size_of_image) ∧ s' = s) ∨
    ((Pmm.HasRun s.pmm (imagePages size_of_image) ∨ HasFit s.heap (Heap.request size_of_image)) ∧ ¬ Released s s') := by
  have hpages := imagePages_eq hlt
  have hn0 : imagePages size_of_image ≠ 0 := by omega
  have hn : imagePages size_of_image < 2 ^ 64 := by omega
  unfold alloc_image at h
  dsimp only at h
  rcases Pmm.alloc_run_cases hn0 hn hw.pages with ⟨hrun, ha⟩ | ⟨hrun, q, hq, hq'⟩
  · rw [ha, if_neg (not_not.2 rfl)] at h
    rcases kmalloc_taken_cases hw h0 hlt hrun h with ⟨hfit, hs⟩ | ⟨hfit, hlive⟩
    · exact .inl ⟨hrun, hfit, hs⟩
    · exact .inr ⟨.inr hfit, fun hr => hlive hr.live⟩
  · refine .inr ⟨.inl hrun, ?_⟩
    by_cases hphys : (Pmm.pmm_alloc_pages s.pmm (imagePages size_of_image)).1 = 0
    · -- the run starts at page 0, whose address looks like a failure
      rw [if_neg (not_not.2 hphys)] at h
      unfold Backed.kmalloc at h
      rw [if_neg h0] at h
      have hsize : size_of_image ≤ 2 ^ 63 := by omega
      obtain ⟨-, -, hmax⟩ := Heap.request_bounds hsize
      obtain ⟨-, h64⟩ := Heap.expand_room hmax
      unfold PAGE_SIZE at h64
      obtain ⟨htotal, -⟩ := alloc_keeps_bits hn hw.pages
      exact not_released_of_bit hq (attempts_keeps_bits (by omega) (htotal.trans_le hw.pages) h hq')
    · rw [if_pos hphys] at h
      cases h
      exact not_released_of_bit hq hq'

end

/-! ## Whole runs -/

/-- Where the memory after loading comes from: nothing was asked for, or the image was. -/
theorem pe_load_mem {fuel size : Nat} {s s' : Backed.St} {data : Mem} {r : Except Failure Loaded}
    (h : pe_load fuel s data size = some (r, s')) :
    (((pe_probe data size).1 = false ∨ imagePages (pe_probe data size).2.size_of_image = 0) ∧ s' = s) ∨
    ((pe_probe data size).1 = true ∧ imagePages (pe_probe data size).2.size_of_image ≠ 0 ∧
      ∃ phys, alloc_image s (imagePages (pe_probe data size).2.size_of_image) (pe_probe data size).2.size_of_image =
        some (phys, s')) := by
  unfold pe_load at h
  dsimp only at h
  by_cases hok : (pe_probe data size).1 = false
  · rw [if_pos hok] at h
    cases h
    exact .inl ⟨.inl hok, rfl⟩
  rw [if_neg hok] at h
  by_cases hz : H3OS_ALIGN_UP (pe_probe data size).2.size_of_image PAGE_SIZE / PAGE_SIZE = 0
  · rw [if_pos hz] at h
    cases h
    exact .inl ⟨.inr hz, rfl⟩
  rw [if_neg hz] at h
  refine .inr ⟨by simpa using hok, hz, ?_⟩
  unfold imagePages
  rcases ha : alloc_image s (H3OS_ALIGN_UP (pe_probe data size).2.size_of_image PAGE_SIZE / PAGE_SIZE)
    (pe_probe data size).2.size_of_image with _ | ⟨phys, mem⟩
  · rw [ha] at h
    cases h
  rw [ha] at h
  dsimp only at h
  -- filling the image and relocating it leave the allocators alone
  have hmem : mem = s' := by
    by_cases hphys : phys = 0
    · rw [if_pos hphys] at h
      cases h
      rfl
    rw [if_neg hphys] at h
    split at h
    · cases h
    · split_ifs at h
      · cases h
        rfl
      · cases h
        rfl
  exact ⟨phys, by rw [hmem]⟩

/-- The memory after a run is that after loading. -/
theorem pe_run_load {program : Loaded → Option Outcome} {fuel size : Nat} {s s' : St} {data : Mem} {rc : Int}
    (h : pe_run program fuel s data size = some (rc, s')) : ∃ r, pe_load fuel s.mem data size = some (r, s'.mem) := by
  unfold pe_run at h
  rcases hl : pe_load fuel s.mem data size with _ | ⟨e | l, mem⟩
  · rw [hl] at h
    cases h
  · rw [hl] at h
    cases h
    exact ⟨_, rfl⟩
  · rw [hl] at h
    obtain ⟨o, -, ho⟩ := Option.map_eq_some_iff.1 h
    have hmem : (finish mem o).2.mem = mem := by
      unfold finish
      cases o.exit with
      | none => rfl
      | some code => rfl
    rw [ho] at hmem
    exact ⟨.ok l, by rw [← hmem]⟩

section
variable {program : Loaded → Option Outcome} {fuel size : Nat} {s s' : St} {data : Mem} {rc : Int}

/-- A run that returns took nothing and left the allocators as they were, or it keeps what it took. -/
theorem pe_run_taken_cases (hw : Working s.mem) (h : pe_run program fuel s data size = some (rc, s')) :
    (TakesNothing s.mem data size ∧ s'.mem = s.mem) ∨
    (¬ TakesNothing s.mem data size ∧ ¬ Released s.mem s'.mem) := by
  have hlt := pe_probe_size_of_image data size
  have hpages := imagePages_eq hlt
  obtain ⟨r, hload⟩ := pe_run_load h
  unfold TakesNothing
  -- by where the memory went: nowhere, or into an image that is kept
  rcases pe_load_mem hload with ⟨hnone, hs⟩ | ⟨hok, hn, phys, ha⟩
  · refine .inl ⟨?_, hs⟩
    rcases hnone with hbad | hz
    · exact .inl hbad
    · exact .inr (.inl (by omega))
  · have h0 : (pe_probe data size).2.size_of_image ≠ 0 := fun hz => hn (by rw [hpages, hz])
    rcases alloc_image_taken_cases hw h0 hlt ha with ⟨hrun, hfit, hs⟩ | ⟨hroom, hkept⟩
    · exact .inl ⟨.inr (.inr ⟨hrun, hfit⟩), hs⟩
    · refine .inr ⟨?_, hkept⟩
      rintro (hbad | hz | ⟨hrun, hfit⟩)
      · rw [hok] at hbad
        cases hbad
      · exact h0 hz
      · exact hroom.elim hrun hfit

/-- An accepted file for which there is no memory is not entered. -/
theorem pe_run_no_room (hw : Working s.mem) (hok : (pe_probe data size).1 = true)
    (h0 : (pe_probe data size).2.size_of_image ≠ 0)
    (hrun : ¬ Pmm.HasRun s.mem.pmm (imagePages (pe_probe data size).2.size_of_image))
    (hfit : ¬ HasFit s.mem.heap (Heap.request (pe_probe data size).2.size_of_image)) :
    pe_run program fuel s data size = some (-1, s) := by
  have hlt := pe_probe_size_of_image data size
  have hpages := imagePages_eq hlt
  have hload : pe_load fuel s.mem data size = some (.error .no_memory, s.mem) := by
    have halloc := alloc_image_no_room hw h0 hlt hrun hfit
    have hn : imagePages (pe_probe data size).2.size_of_image ≠ 0 := by omega
    unfold imagePages at halloc hn
    unfold pe_load
    dsimp only
    rw [if_neg (by simp [hok]), if_neg hn, halloc]
    rfl
  unfold pe_run
  rw [hload]

/-- After a run pages and heap blocks are in use as before exactly if it had taken nothing. -/
theorem pe_run_releases_iff (hw : Working s.mem) (h : pe_run program fuel s data size = some (rc, s')) :
    Released s.mem s'.mem ↔ TakesNothing s.mem data size := by
  rcases pe_run_taken_cases hw h with ⟨hnone, hs⟩ | ⟨hsome, hkept⟩
  · rw [hs]
    exact iff_of_true (Released.refl _) hnone
  · exact iff_of_false hkept hsome

end

/-- One file after another is run; a file is its bytes and its size. -/
def pe_runs (program : Loaded → Option Outcome) (fuel : Nat) : St → List (Mem × Nat) → Option St
  | s, [] => some s
  | s, (data, size) :: files => (pe_run program fuel s data size).bind (fun r => pe_runs program fuel r.2 files)

section
variable {program : Loaded → Option Outcome} {fuel : Nat} {s s' : St}

theorem pe_runs_cons {f : Mem × Nat} {files : List (Mem × Nat)} (h : pe_runs program fuel s (f :: files) = some s') :
    ∃ rc t, pe_run program fuel s f.1 f.2 = some (rc, t) ∧ pe_runs program fuel t files = some s' := by
  obtain ⟨⟨rc, t⟩, hrun, hrest⟩ := Option.bind_eq_some_iff.1 h
  exact ⟨rc, t, hrun, hrest⟩

/-- Files that take nothing leave the allocators as they were, however many are run. -/
theorem pe_runs_keeps {files : List (Mem × Nat)} (hw : Working s.mem) (hnone : ∀ f ∈ files, TakesNothing s.mem f.1 f.2)
    (h : pe_runs program fuel s files = some s') : s'.mem = s.mem := by
  induction files generalizing s with
  | nil =>
    cases h
    rfl
  | cons f files ih =>
    obtain ⟨rc, t, hrun, hrest⟩ := pe_runs_cons h
    rcases pe_run_taken_cases hw hrun with ⟨-, ht⟩ | ⟨hsome, -⟩
    · rw [← ht] at hw hnone ⊢
      exact ih hw (fun g hg => hnone g (List.mem_cons_of_mem f hg)) hrest
    · exact absurd (hnone f List.mem_cons_self) hsome

/-- In a sequence of runs pages and heap blocks are in use as before after every one of them exactly if each file takes
nothing. -/
theorem pe_runs_release_iff {files : List (Mem × Nat)} (hw : Working s.mem)
    (h : pe_runs program fuel s files = some s') :
    (∀ pre s₁, pre <+: files → pe_runs program fuel s pre = some s₁ → Released s.mem s₁.mem) ↔
      ∀ f ∈ files, TakesNothing s.mem f.1 f.2 := by
  constructor
  · intro hr
    -- up to the first file that takes something the state is the first one
    induction files generalizing s with
    | nil =>
      intro f hf
      cases hf
    | cons f files ih =>
      obtain ⟨rc, t, hrun, hrest⟩ := pe_runs_cons h
      have hone : pe_runs program fuel s [f] = some t := by
        rw [pe_runs, hrun]
        rfl
      have hfirst := (pe_run_releases_iff hw hrun).1 (hr [f] t (by simp) hone)
      rcases pe_run_taken_cases hw hrun with ⟨-, ht⟩ | ⟨hsome, -⟩
      · rw [← ht] at hw hr hfirst ⊢
        refine List.forall_mem_cons.2 ⟨hfirst, ih hw hrest (fun pre s₁ hpre hs₁ => ?_)⟩
        refine hr (f :: pre) s₁ (List.cons_prefix_cons.2 ⟨rfl, hpre⟩) ?_
        rw [pe_runs, hrun]
        exact hs₁
      · exact absurd hfirst hsome
  · intro hnone pre s₁ hpre hs₁
    rw [pe_runs_keeps hw (fun f hf => hnone f (hpre.subset hf)) hs₁]
    exact Released.refl _

end

theorem smallMachine_working : Working smallMachine.mem := by
  have hheap := Heap.inv_init (fun _ => 0) (show 0 < 0x200000 by decide) (by decide)
  exact ⟨Pmm.init_total _ _, [], _, hheap⟩

/-- The headers of a file of 200 bytes, whose image would take 1 MiB. -/
def bigImage : Mem :=
  store (store (store (store (store (store (store (fun _ => 0) 0 2 0x5A4D) 0x3C 4 64) 64 4 0x4550) 68 2 0x8664) 84 2 112)
    88 2 0x20B) 144 4 0x100000

theorem bigImage_probe : (pe_probe bigImage 200).1 = true ∧ (pe_probe bigImage 200).2.size_of_image = 0x100000 := by
  decide +kernel

/-- The four free pages and the heap have no room for it. -/
theorem bigImage_no_room : ¬ Pmm.HasRun smallMachine.mem.pmm (imagePages 0x100000) ∧
    ¬ HasFit smallMachine.mem.heap (Heap.request 0x100000) := by
  constructor
  · rintro ⟨p, -, hfree⟩
    have hpages : imagePages 0x100000 = 256 := by decide +kernel
    have hlast : Pmm.bitmap_test smallMachine.mem.pmm (p + 255) = false := hfree 255 (by omega)
    have hfirst : Pmm.bitmap_test smallMachine.mem.pmm (p + 0) = false := hfree 0 (by omega)
    unfold smallMachine at hfirst hlast
    rw [Pmm.smallMap_bits] at hfirst hlast
    simp only [Bool.not_eq_false', decide_eq_true_eq] at hfirst hlast
    omega
  · intro hfit
    have hheap := Heap.inv_init (fun _ => 0) (show 0 < 0x200000 by decide) (by decide)
    obtain ⟨b, hb, -, hsize⟩ := (hasFit_iff hheap).1 hfit
    rw [List.flatten_singleton, List.mem_singleton] at hb
    rw [hb] at hsize
    exact absurd hsize (by decide +kernel)

theorem bigImage_takes_nothing : TakesNothing smallMachine.mem bigImage 200 := by
  unfold TakesNothing
  rw [bigImage_probe.2]
  exact .inr (.inr bigImage_no_room)

theorem bigImage_run : pe_run (fun _ => none) 0 smallMachine bigImage 200 = some (-1, smallMachine) := by
  obtain ⟨hok, hsize⟩ := bigImage_probe
  obtain ⟨hrun, hfit⟩ := bigImage_no_room
  rw [← hsize] at hrun hfit
  exact pe_run_no_room smallMachine_working hok (by rw [hsize]; decide) hrun hfit

/-- The file is accepted and gets no memory, and nothing is taken, however often it is run. -/
theorem pe_runs_release_iff_big : (pe_probe bigImage 200).1 = true ∧
    ∃ s', pe_runs (fun _ => none) 0 smallMachine [(bigImage, 200), (bigImage, 200)] = some s' ∧
      Released smallMachine.mem s'.mem := by
  have hruns : pe_runs (fun _ => none) 0 smallMachine [(bigImage, 200), (bigImage, 200)] = some smallMachine := by
    rw [pe_runs, bigImage_run, Option.bind_some, pe_runs, bigImage_run, Option.bind_some, pe_runs]
  have hnone : ∀ f ∈ [(bigImage, 200), (bigImage, 200)], TakesNothing smallMachine.mem f.1 f.2 := by
    rw [List.forall_mem_cons, List.forall_mem_singleton, and_self]
    exact bigImage_takes_nothing
  exact ⟨bigImage_probe.1, smallMachine, hruns, (pe_runs_release_iff smallMachine_working hruns).2 hnone _ _
    List.prefix_rfl hruns⟩

/-- A program of one `ret` runs and returns, and its pages stay taken. -/
theorem ret_keeps_pages : ∃ raw rc s', build_pe [0xC3] = some raw ∧
    pe_run (fun _ => some ⟨0, none⟩) 0 smallMachine raw.mem raw.len = some (rc, s') ∧
    Pmm.bitmap_test smallMachine.mem.pmm 257 = false ∧ Pmm.bitmap_test s'.mem.pmm 257 = true ∧
    ¬ Released smallMachine.mem s'.mem := by
  obtain ⟨raw, h⟩ := built_ret
  have hsize : size_of_image [0xC3] = 0x2000 := by decide
  have hpages : H3OS_ALIGN_UP 0x2000 PAGE_SIZE / PAGE_SIZE = 2 := by decide +kernel
  have halloc := smallMachine_alloc
  rw [← hpages, ← hsize] at halloc
  have hload := (built h).pe_load (fun _ _ => rfl) (by decide) 0 (by decide) halloc
  have hfree : Pmm.bitmap_test smallMachine.mem.pmm 257 = false := Pmm.smallMap_bits 257
  have htaken : Pmm.bitmap_test smallMachineTaken.pmm 257 = true := by
    refine ((Pmm.take_loop _ 257 2).2 257).trans ?_
    rw [decide_eq_true (by omega), Bool.or_true]
  refine ⟨raw, 0, ⟨smallMachineTaken, 0, false⟩, h, ?_, hfree, htaken, not_released_of_bit hfree htaken⟩
  unfold pe_run
  rw [hload]
  rfl

end H3OS.Pe
