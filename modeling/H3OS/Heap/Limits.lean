import H3OS.Heap.Machine
/-!
# Requests near the end of the word

Sizes are 64-bit words, and `kmalloc` rounds them up, adds a header and a page
and rounds up again without a look at the carry; `kcalloc` multiplies the same
way. The results say exactly for which requests a block that is handed out is
large enough and a refusal leaves everything as it was.
-/
open SysLib

namespace H3OS.Backed

/-- The payload size of the block that `p` points into. -/
def payload (s : St) (p : Nat) : Nat := (Heap.block s.heap.mem (sub64 p Heap.BLOCK)).size

/-- The heap list with its headers, the heap's counters and the page bitmap are the same. -/
structure Unchanged (s s' : St) : Prop where
  list : ∀ l, Heap.Blocks s'.heap l ↔ Heap.Blocks s.heap l
  headers : ∀ l, Heap.Blocks s.heap l → ∀ b ∈ l, Heap.block s'.heap.mem b = Heap.block s.heap.mem b
  used : s'.heap.heap_used = s.heap.heap_used
  total : s'.heap.heap_total = s.heap.heap_total
  bitmap : s'.pmm.page_bitmap = s.pmm.page_bitmap

/-- `kmalloc(size)` returns a block that is large enough, or NULL and nothing has changed. -/
def MallocSound (s : St) (size : Nat) : Prop :=
  ∃ p s', kmalloc s size = some (p, s') ∧ (p ≠ 0 → size ≤ payload s' p) ∧ (p = 0 → Unchanged s s')

/-- `kcalloc(n, size)` returns a block with room for `n * size` bytes, which are zero, or NULL. -/
def CallocSound (s : St) (n size : Nat) : Prop :=
  ∃ p s', kcalloc s n size = some (p, s') ∧
    (p ≠ 0 → n * size ≤ payload s' p ∧ ∀ i < n * size, s'.heap.mem (p + i) = 0)

/-- A block of `need` bytes is to be had: a free block of the list, or a new region. -/
def Room (s : St) (need : Nat) : Prop :=
  Heap.find_fit s.heap.mem need Heap.FUEL s.heap.heap_head ≠ some 0 ∨
  need + Heap.BLOCK ≤ Heap.expand_pages need * PAGE_SIZE ∧ Pmm.HasRun s.pmm (Heap.expand_pages need)

/-- No carry is lost, or what is lost is not noticed because there is no memory even for the little that is left. -/
def MallocFits (s : St) (size : Nat) : Prop :=
  size ≤ 2 ^ 64 - 4144 ∨
  size ≤ 2 ^ 64 - 16 ∧ ¬ Pmm.HasRun s.pmm (Heap.expand_pages (Heap.request size)) ∨
  2 ^ 64 - 16 < size ∧ ¬ Room s Heap.HEAP_MIN

def CallocFits (s : St) (n size : Nat) : Prop :=
  n * size ≤ 2 ^ 64 - 16 ∨ n * size % 2 ^ 64 = 0 ∨ ¬ Room s (Heap.request (n * size % 2 ^ 64))

/-- The size wraps round to the smallest block, and there is one. -/
def Wraps (s : St) (size : Nat) : Prop := 2 ^ 64 - 16 < size ∧ Room s Heap.HEAP_MIN

/-- The call merges no blocks of different regions, and fills no block with more bytes than it has because the size
wrapped. -/
def Op.Fine (s : St) (op : Op) : Prop :=
  Heap.MergeOk s.heap (op.onHeap s) ∧
  match op with
  | .kcalloc n size => ¬ Wraps s (n * size % 2 ^ 64)
  | .krealloc _ size => ¬ Wraps s size
  | .kmalloc _ | .kfree _ | .write _ _ _ => True

/-! ## Rounding on words -/

theorem align_up_word (x : Nat) {k : Nat} (hk : k ≤ 64) :
    H3OS_ALIGN_UP x (2 ^ k) = add64 x (2 ^ k - 1) / 2 ^ k * 2 ^ k :=
  and_high_mask hk (Nat.mod_lt _ (by norm_num))

theorem request_pos (size : Nat) : 0 < Heap.request size := by
  unfold Heap.request Heap.HEAP_MIN
  split <;> omega

/-- A request whose rounding does not carry is a multiple of 16 that is large enough. -/
theorem request_fits {size : Nat} (h : size ≤ 2 ^ 64 - 16) :
    size ≤ Heap.request size ∧ Heap.request size % 16 = 0 ∧
    (Heap.request size ≤ 2 ^ 64 - 4144 ↔ size ≤ 2 ^ 64 - 4144) ∧ Heap.request size ≤ 2 ^ 64 - 16 := by
  have hup : H3OS_ALIGN_UP size Heap.HEAP_ALIGN = (size + 15) / 16 * 16 := align_up_eq (k := 4) (by norm_num) (by omega)
  unfold Heap.request Heap.HEAP_MIN
  rw [hup]
  split <;> omega

/-- A larger one comes down to the smallest block. -/
theorem request_wraps {size : Nat} (h : 2 ^ 64 - 16 < size) (h64 : size < 2 ^ 64) : Heap.request size = Heap.HEAP_MIN := by
  have hup : H3OS_ALIGN_UP size Heap.HEAP_ALIGN = 0 := by
    rw [show Heap.HEAP_ALIGN = 2 ^ 4 from rfl, align_up_word size (by norm_num), add64]
    omega
  unfold Heap.request
  rw [hup, if_pos (by decide)]

theorem expand_pages_eq (need : Nat) : Heap.expand_pages need = add64 (add64 (add64 need 40) 4096) 4095 / 4096 := by
  unfold Heap.expand_pages
  rw [show PAGE_SIZE = 2 ^ 12 from rfl, align_up_word _ (by norm_num), Nat.mul_div_cancel _ (by norm_num)]
  rfl

theorem expand_pages_lt (need : Nat) : Heap.expand_pages need < 2 ^ 64 := by
  rw [expand_pages_eq]
  unfold add64
  omega

/-- The pages asked for have room for the block, or the sum has wrapped: to none, or to one or two. -/
theorem expand_cases {need : Nat} (h16 : need % 16 = 0) (h64 : need ≤ 2 ^ 64 - 16) :
    need + Heap.BLOCK ≤ Heap.expand_pages need * PAGE_SIZE ∧ need ≤ 2 ^ 64 - 4144 ∨
    Heap.expand_pages need = 0 ∧ need ≤ 2 ^ 64 - 4144 ∨
    Heap.expand_pages need ≠ 0 ∧ 2 ^ 64 - 4144 < need ∧ Heap.expand_pages need * PAGE_SIZE < need + Heap.BLOCK := by
  rw [expand_pages_eq]
  unfold add64 Heap.BLOCK PAGE_SIZE
  omega

/-! ## What a call can do -/

section
variable {s s' : St} {live : List Nat} {held : List Pmm.Grant} {segs : List (List Heap.Blk)} {size need k : Nat}

theorem attempts_fit {b : Nat} (h : Heap.find_fit s.heap.mem need Heap.FUEL s.heap.heap_head = some b) (h0 : 0 < b) :
    attempts need (k + 1) s =
      some ((Heap.take_block s.heap b need).1, { s with heap := (Heap.take_block s.heap b need).2 }) := by
  unfold attempts
  rw [h]
  cases b with
  | zero => simp at h0
  | succ b => rfl

theorem attempts_grow (h : Heap.find_fit s.heap.mem need Heap.FUEL s.heap.heap_head = some 0) :
    attempts need (k + 1) s =
      if (Pmm.pmm_alloc_pages s.pmm (Heap.expand_pages need)).1 = 0
      then some (0, ⟨(Pmm.pmm_alloc_pages s.pmm (Heap.expand_pages need)).2, s.heap⟩)
      else attempts need k ⟨(Pmm.pmm_alloc_pages s.pmm (Heap.expand_pages need)).2,
        Heap.heap_add_region s.heap (Pmm.pmm_alloc_pages s.pmm (Heap.expand_pages need)).1
          (Heap.expand_pages need * PAGE_SIZE)⟩ := by
  rw [attempts, h]
  unfold Heap.expand_heap
  by_cases hphys : (Pmm.pmm_alloc_pages s.pmm (Heap.expand_pages need)).1 = 0
  · simp [hphys]
  · simp [hphys]

/-- Blocks are smaller than what the page allocator has. -/
theorem Inv.block_le (hi : Inv s live held segs) {b : Heap.Blk} (hb : b ∈ segs.flatten) : b.size ≤ 2 ^ 31 := by
  obtain ⟨r, hr, h1, h2⟩ := Heap.fills_mem hi.heap.fills b hb
  have := (hi.small r hr).2
  unfold Heap.Blk.stop at h2
  omega

/-- Taking a block out of the list leaves the pages as they are. -/
theorem Inv.withHeap {live' : List Nat} {segs' : List (List Heap.Blk)} {h : Heap.St} (hi : Inv s live held segs)
    (hheap : Heap.Inv h live' segs') (hreg : h.regions = s.heap.regions) : Inv { s with heap := h } live' held segs' :=
  ⟨hheap, hi.ledger, hi.marked, by rw [hreg]; exact hi.owned, by rw [hreg]; exact hi.small⟩

/-- The heap with a run of clear pages as a new region. -/
def grown (s : St) (p n : Nat) : St :=
  ⟨Pmm.take_run s.pmm p n, Heap.heap_add_region s.heap (p * PAGE_SIZE) (n * PAGE_SIZE)⟩

theorem Inv.grown {p n : Nat} (hi : Inv s live held segs) (h0 : n ≠ 0) (hp : p ≠ 0) (hrun : Pmm.FreeRun s.pmm n p) :
    Inv (grown s p n) live held ([⟨p * PAGE_SIZE, n * PAGE_SIZE - Heap.BLOCK, true⟩] :: segs) := by
  have hmin : Heap.BLOCK + Heap.HEAP_MIN ≤ n * PAGE_SIZE := by
    unfold Heap.BLOCK Heap.HEAP_MIN PAGE_SIZE
    omega
  have hend : p * PAGE_SIZE + n * PAGE_SIZE ≤ 2 ^ 64 := by
    have := hrun.1.trans hi.ledger.total
    unfold Pmm.PMM_MAX_PAGES at this
    unfold PAGE_SIZE
    omega
  have hpos : 0 < p * PAGE_SIZE := Nat.mul_pos (Nat.pos_of_ne_zero hp) (by decide)
  have hheap := hi.heap.addRegion hmin hpos hend (hi.apart hrun h0)
  exact hi.grow hheap hrun h0 rfl (Heap.heap_add_region_counts s.heap _ hmin).1

theorem kmalloc_eq (h0 : size ≠ 0) : kmalloc s size = attempts (Heap.request size) 2 s := by rw [kmalloc, if_neg h0]

/-- A block that was there begins at `a`, or a new region may. -/
def Begins (segs : List (List Heap.Blk)) (a : Nat) : Prop := (∃ b ∈ segs.flatten, b.addr = a) ∨ PAGE_SIZE ∣ a

/-- A block was handed out, after growing the heap or without, just as the heap alone would with that answer. -/
structure Served (s : St) (live : List Nat) (held : List Pmm.Grant) (segs : List (List Heap.Blk)) (size p : Nat) (s' : St)
    (segs' : List (List Heap.Blk)) : Prop where
  call : kmalloc s size = some (p, s')
  heap_call : Heap.kmalloc s.heap size [answer s size] = some (p, s'.heap)
  ne_zero : p ≠ 0
  inv : Inv s' (p :: live) held segs'
  fits : ∃ c ∈ segs'.flatten, c.addr + Heap.BLOCK = p ∧ c.free = false ∧ Heap.request size ≤ c.size
  origin : ∃ a, Begins segs a ∧ a + Heap.BLOCK = p

/-- A free block that fits is handed out. -/
theorem Inv.served {pre post : List Heap.Blk} {b : Heap.Blk} (hi : Inv s live held segs)
    (hm : segs.flatten = pre ++ b :: post) (hb : b.free = true) (h0 : 0 < need) (hfit : need ≤ b.size) :
    (Heap.take_block s.heap b.addr need).1 ≠ 0 ∧ b.addr + Heap.BLOCK = (Heap.take_block s.heap b.addr need).1 ∧
    ∃ segs', Inv { s with heap := (Heap.take_block s.heap b.addr need).2 }
        ((Heap.take_block s.heap b.addr need).1 :: live) held segs' ∧
      ∃ c ∈ segs'.flatten, c.addr + Heap.BLOCK = (Heap.take_block s.heap b.addr need).1 ∧ c.free = false ∧ need ≤ c.size := by
  have hle := hi.block_le (show b ∈ segs.flatten by simp [hm])
  obtain ⟨hp, -, segs', hheap, ⟨c, hc, hca, hcf, hcs⟩, -⟩ := hi.heap.take hm hb hfit h0 (by omega)
  rw [hp]
  refine ⟨by unfold Heap.BLOCK; omega, rfl, segs', hi.withHeap hheap rfl, c, hc, by rw [hca], hcf, hcs⟩

theorem begins_grown {p n : Nat} : ∀ b ∈ ([⟨p * PAGE_SIZE, n, true⟩] :: segs).flatten, Begins segs b.addr := by
  intro b hb
  rcases List.mem_cons.1 hb with rfl | hb
  · exact .inr (Nat.dvd_mul_left ..)
  · exact .inl ⟨b, hb, rfl⟩

/-- The second attempt, when the new region is too small: the call gives up, whether it gets more pages or not. -/
theorem Inv.gives_up (hi : Inv s live held segs) (hnone : ∀ b ∈ segs.flatten, b.free = true → b.size < need) :
    ∃ s' segs', attempts need 1 s = some (0, s') ∧ Inv s' live held segs' ∧
      (∀ q, Pmm.bitmap_test s.pmm q = true → Pmm.bitmap_test s'.pmm q = true) ∧
      ∀ b ∈ segs'.flatten, Begins segs b.addr := by
  rcases hi.heap.sound.find_fit need with ⟨hf, -⟩ | ⟨pre, b, post, hm, -, -, hb, hfit⟩
  · rw [attempts_grow hf]
    rcases hi.ledger.alloc_cases (expand_pages_lt need) with ⟨-, he⟩ | ⟨hn, p, hp, hrun, he⟩
    · rw [he, if_pos rfl]
      exact ⟨s, segs, rfl, hi, fun _ h => h, fun b hb => .inl ⟨b, hb, rfl⟩⟩
    · rw [he, if_neg (Nat.mul_ne_zero hp (by decide))]
      refine ⟨_, _, rfl, hi.grown hn hp hrun, fun q hq => ?_, begins_grown⟩
      dsimp only
      rw [test_take_run, hq, Bool.true_or]
  · have := hnone b (by simp [hm]) hb
    omega

/-- No free block fits, and the page allocator gives a run of pages. -/
structure Grows (s : St) (segs : List (List Heap.Blk)) (need p : Nat) : Prop where
  none_fits : ∀ b ∈ segs.flatten, b.free = true → b.size < need
  scan : Heap.find_fit s.heap.mem need Heap.FUEL s.heap.heap_head = some 0
  pages : Heap.expand_pages need ≠ 0
  ne_zero : p ≠ 0
  run : Pmm.FreeRun s.pmm (Heap.expand_pages need) p
  alloc : Pmm.pmm_alloc_pages s.pmm (Heap.expand_pages need) = (p * PAGE_SIZE, Pmm.take_run s.pmm p (Heap.expand_pages need))

/-- The first attempt then only grows the heap. -/
theorem Grows.attempts {p : Nat} (hg : Grows s segs need p) :
    attempts need (k + 1) s = Backed.attempts need k (grown s p (Heap.expand_pages need)) := by
  rw [attempts_grow hg.scan, hg.alloc, if_neg (Nat.mul_ne_zero hg.ne_zero (by decide))]
  rfl

/-- A new region with room for the block: the second attempt takes it. -/
theorem Grows.served {p : Nat} (hg : Grows s segs (Heap.request size) p) (hi : Inv s live held segs) (h0 : size ≠ 0)
    (hfit : Heap.request size + Heap.BLOCK ≤ Heap.expand_pages (Heap.request size) * PAGE_SIZE) :
    Heap.request size ≤ 2 ^ 31 ∧ ∃ p s' segs', Served s live held segs size p s' segs' := by
  have hpne : p * PAGE_SIZE ≠ 0 := Nat.mul_ne_zero hg.ne_zero (by decide)
  have hi' := hi.grown hg.pages hg.ne_zero hg.run
  have hlen : Heap.request size ≤ Heap.expand_pages (Heap.request size) * PAGE_SIZE - Heap.BLOCK := by omega
  have hle := hi'.block_le (List.mem_cons_self : _ ∈ _ :: segs.flatten)
  obtain ⟨hne, hstart, segs', hinv, hc⟩ := hi'.served (List.nil_append _).symm rfl (request_pos size) hlen
  have hfirst := hi'.heap.sound.find_first hlen
  have horigin : Begins segs (p * PAGE_SIZE) := .inr (Nat.dvd_mul_left ..)
  refine ⟨hlen.trans hle, _, _, segs', ⟨?_, ?_, hne, hinv, hc, _, horigin, hstart⟩⟩
  · rw [kmalloc_eq h0, hg.attempts]
    exact attempts_fit hfirst (Nat.pos_of_ne_zero hpne)
  · rw [Heap.kmalloc, if_neg h0, Heap.attempts_grow hg.scan, List.headD_cons, answer, hg.alloc, if_neg hpne]
    exact Heap.attempts_fit hfirst (Nat.pos_of_ne_zero hpne)

/-- A new region that is too small: the call returns NULL, and the pages stay with the heap. -/
theorem Grows.lost {p : Nat} (hg : Grows s segs (Heap.request size) p) (hi : Inv s live held segs) (h0 : size ≠ 0)
    (hsmall : Heap.expand_pages (Heap.request size) * PAGE_SIZE < Heap.request size + Heap.BLOCK) :
    ∃ s' segs', kmalloc s size = some (0, s') ∧ Inv s' live held segs' ∧ s'.pmm.page_bitmap ≠ s.pmm.page_bitmap ∧
      ∀ b ∈ segs'.flatten, Begins segs b.addr := by
  have hi' := hi.grown hg.pages hg.ne_zero hg.run
  have hnone : ∀ b ∈ ([⟨p * PAGE_SIZE, Heap.expand_pages (Heap.request size) * PAGE_SIZE - Heap.BLOCK, true⟩] ::
      segs).flatten, b.free = true → b.size < Heap.request size := by
    intro b hb hfree
    rcases List.mem_cons.1 hb with rfl | hb
    · have := request_pos size
      dsimp only
      omega
    · exact hg.none_fits b hb hfree
  obtain ⟨s', segs', hgive, hinv, hmarks, hbegins⟩ := hi'.gives_up hnone
  refine ⟨s', segs', ?_, hinv, fun heq => ?_, fun b hb => ?_⟩
  · rw [kmalloc_eq h0, hg.attempts]
    exact hgive
  · -- the first page of the lost region was clear
    have hclear := hg.run.2 0 (Nat.pos_of_ne_zero hg.pages)
    have hpages := hg.pages
    have hset := hmarks p (by rw [Backed.grown, test_take_run, decide_eq_true (by omega), Bool.or_true])
    unfold Pmm.bitmap_test at hclear hset
    rw [heq] at hset
    rw [Nat.add_zero, hset] at hclear
    cases hclear
  · rcases hbegins b hb with ⟨c, hc, hca⟩ | hpage
    · rw [← hca]
      exact begins_grown c hc
    · exact .inr hpage

/-- What `kmalloc` can do: hand out a block, refuse, or lose pages to regions that are too small and refuse. -/
theorem Inv.kmalloc_cases (hi : Inv s live held segs) (h0 : size ≠ 0) :
    Room s (Heap.request size) ∧ Heap.request size ≤ 2 ^ 31 ∧ (∃ p s' segs', Served s live held segs size p s' segs') ∨
    ¬ Room s (Heap.request size) ∧
      (Heap.expand_pages (Heap.request size) = 0 ∨ ¬ Pmm.HasRun s.pmm (Heap.expand_pages (Heap.request size))) ∧
      kmalloc s size = some (0, s) ∧ Heap.kmalloc s.heap size [answer s size] = some (0, s.heap) ∨
    ¬ Room s (Heap.request size) ∧ Heap.expand_pages (Heap.request size) ≠ 0 ∧
      Pmm.HasRun s.pmm (Heap.expand_pages (Heap.request size)) ∧
      Heap.expand_pages (Heap.request size) * PAGE_SIZE < Heap.request size + Heap.BLOCK ∧
      ∃ s' segs', kmalloc s size = some (0, s') ∧ Inv s' live held segs' ∧ s'.pmm.page_bitmap ≠ s.pmm.page_bitmap ∧
        ∀ b ∈ segs'.flatten, Begins segs b.addr := by
  have hpos := request_pos size
  rcases hi.heap.sound.find_fit (Heap.request size) with ⟨hf, hnone⟩ | ⟨pre, b, post, hm, hf, hb0, hb, hfit⟩
  · have hroom : Room s (Heap.request size) ↔ Heap.request size + Heap.BLOCK ≤ Heap.expand_pages (Heap.request size) *
        PAGE_SIZE ∧ Pmm.HasRun s.pmm (Heap.expand_pages (Heap.request size)) := or_iff_right (not_not.2 hf)
    rw [hroom]
    rcases hi.ledger.alloc_cases (expand_pages_lt (Heap.request size)) with ⟨hno, he⟩ | ⟨hn, p, hp, hrun, he⟩
    · refine .inr (.inl ⟨?_, hno, ?_, ?_⟩)
      · rintro ⟨hfit, hrun⟩
        rcases hno with hno | hno
        · rw [hno] at hfit
          unfold Heap.BLOCK at hfit
          omega
        · exact hno hrun
      · rw [kmalloc_eq h0, attempts_grow hf, he, if_pos rfl]
      · rw [Heap.kmalloc, if_neg h0, Heap.attempts_grow hf, List.headD_cons, answer, he, if_pos rfl]
    · have hg : Grows s segs (Heap.request size) p := ⟨hnone, hf, hn, hp, hrun, he⟩
      by_cases hfit : Heap.request size + Heap.BLOCK ≤ Heap.expand_pages (Heap.request size) * PAGE_SIZE
      · exact .inl ⟨⟨hfit, p, hrun⟩, hg.served hi h0 hfit⟩
      · exact .inr (.inr ⟨fun h => hfit h.1, hn, ⟨p, hrun⟩, not_le.1 hfit, hg.lost hi h0 (not_le.1 hfit)⟩)
  · have hle := hi.block_le (show b ∈ segs.flatten by simp [hm])
    obtain ⟨hne, hstart, segs', hinv, hc⟩ := hi.served hm hb hpos hfit
    have horigin : Begins segs b.addr := .inl ⟨b, by simp [hm], rfl⟩
    refine .inl ⟨.inl ?_, by omega, _, _, segs', ⟨?_, ?_, hne, hinv, hc, _, horigin, hstart⟩⟩
    · rw [hf]
      simp
      omega
    · rw [kmalloc_eq h0, attempts_fit hf hb0]
    · rw [Heap.kmalloc, if_neg h0, Heap.attempts_fit hf hb0]

/-! ## Which requests are served soundly -/

theorem Unchanged.refl (s : St) : Unchanged s s := ⟨fun _ => Iff.rfl, fun _ _ _ _ => rfl, rfl, rfl, rfl⟩

theorem sub64_block (a : Nat) (h : a < 2 ^ 64) : sub64 (a + Heap.BLOCK) Heap.BLOCK = a := by
  unfold sub64 Heap.BLOCK
  omega

/-- The payload that was handed out. -/
theorem Served.payload {p : Nat} {segs' : List (List Heap.Blk)} (h : Served s live held segs size p s' segs') :
    Heap.request size ≤ payload s' p ∧ Backed.payload s' p ≤ 2 ^ 31 := by
  obtain ⟨c, hc, rfl, -, hcs⟩ := h.fits
  obtain ⟨nx, pv, hblk⟩ := h.inv.heap.rep.block_of_mem hc
  unfold Backed.payload
  rw [sub64_block _ (h.inv.heap.rep.pos c hc).2, hblk]
  exact ⟨hcs, h.inv.block_le hc⟩

theorem Inv.malloc_sound_iff (hi : Inv s live held segs) (h64 : size < 2 ^ 64) : MallocSound s size ↔ MallocFits s size := by
  by_cases h0 : size = 0
  · have hcall : kmalloc s size = some (0, s) := by rw [kmalloc, if_pos h0]
    exact iff_of_true ⟨0, s, hcall, fun h => absurd rfl h, fun _ => .refl s⟩ (.inl (by omega))
  by_cases hw : size ≤ 2 ^ 64 - 16
  · obtain ⟨hle, h16, hlim, hmax⟩ := request_fits hw
    have hexp := expand_cases h16 hmax
    rcases hi.kmalloc_cases h0 with ⟨-, hsmall, p, s', segs', hs⟩ | ⟨-, hno, hcall, -⟩ | ⟨-, hn, hrun, hlt, s', -, hcall, -, hne, -⟩
    · refine iff_of_true ⟨p, s', hs.call, fun _ => hle.trans hs.payload.1, fun h => absurd h hs.ne_zero⟩ (.inl ?_)
      omega
    · refine iff_of_true ⟨0, s, hcall, fun h => absurd rfl h, fun _ => .refl s⟩ ?_
      rcases hno with hno | hno
      · exact .inl (by omega)
      · exact .inr (.inl ⟨hw, hno⟩)
    · -- pages are gone although the call returned NULL
      refine iff_of_false ?_ ?_
      · rintro ⟨p, t, ht, -, hsame⟩
        rw [hcall] at ht
        cases ht
        exact hne (hsame rfl).bitmap
      · rintro (hfit | ⟨-, hno⟩ | ⟨hbig, -⟩)
        · omega
        · exact hno hrun
        · omega
  · have hreq := request_wraps (not_le.1 hw) h64
    rcases hi.kmalloc_cases h0 with ⟨hroom, -, p, s', segs', hs⟩ | ⟨hroom, -, hcall, -⟩ | ⟨-, -, -, hlt, -⟩
    · -- the block is far too small
      refine iff_of_false ?_ ?_
      · rintro ⟨q, t, ht, hsize, -⟩
        rw [hs.call] at ht
        cases ht
        have := hsize hs.ne_zero
        have := hs.payload.2
        omega
      · rintro (hfit | ⟨hfit, -⟩ | ⟨-, hno⟩)
        · omega
        · omega
        · exact hno (hreq ▸ hroom)
    · exact iff_of_true ⟨0, s, hcall, fun h => absurd rfl h, fun _ => .refl s⟩ (.inr (.inr ⟨not_le.1 hw, hreq ▸ hroom⟩))
    · rw [hreq, expand_pages_eq] at hlt
      simp [add64, Heap.HEAP_MIN, Heap.BLOCK, PAGE_SIZE] at hlt

/-- `s` with `total` bytes at `p` cleared. -/
def cleared (s : St) (p total : Nat) : St := { s with heap := { s.heap with mem := fill s.heap.mem p total 0 } }

theorem kcalloc_served {n p : Nat} (hcall : kmalloc s (n * size % 2 ^ 64) = some (p, s')) (hp : p ≠ 0) :
    kcalloc s n size = some (p, cleared s' p (n * size % 2 ^ 64)) := by
  unfold kcalloc
  simp only [hcall, hp, cleared, ne_eq, not_false_eq_true, if_true]

theorem kcalloc_refused {n : Nat} (hcall : kmalloc s (n * size % 2 ^ 64) = some (0, s')) : kcalloc s n size = some (0, s') := by
  unfold kcalloc
  simp only [hcall, ne_eq, not_true_eq_false, if_false]

/-- Clearing the payload leaves the header in front of it alone. -/
theorem Served.payload_cleared {p total : Nat} {segs' : List (List Heap.Blk)} (h : Served s live held segs size p s' segs') :
    Backed.payload (cleared s' p total) p = Backed.payload s' p := by
  obtain ⟨c, hc, rfl, -, -⟩ := h.fits
  unfold Backed.payload cleared
  rw [sub64_block _ (h.inv.heap.rep.pos c hc).2]
  dsimp only
  rw [Heap.block_congr (fun x h1 h2 => fill_out (.inl h2))]

theorem Inv.calloc_sound_iff {n : Nat} (hi : Inv s live held segs) : CallocSound s n size ↔ CallocFits s n size := by
  have hnull : ∀ t, kmalloc s (n * size % 2 ^ 64) = some (0, t) → CallocSound s n size :=
    fun t h => ⟨0, t, kcalloc_refused h, fun h => absurd rfl h⟩
  by_cases h0 : n * size % 2 ^ 64 = 0
  · have hcall : kmalloc s (n * size % 2 ^ 64) = some (0, s) := by rw [kmalloc, if_pos h0]
    exact iff_of_true (hnull s hcall) (.inr (.inl h0))
  rcases hi.kmalloc_cases h0 with ⟨hroom, -, p, s', segs', hs⟩ | ⟨hroom, -, hcall, -⟩ | ⟨hroom, -, -, -, s', -, hcall, -⟩
  · have hcall := kcalloc_served hs.call hs.ne_zero
    obtain ⟨hreq, hmax⟩ := hs.payload
    by_cases hfit : n * size ≤ 2 ^ 64 - 16
    · have hmod : n * size % 2 ^ 64 = n * size := Nat.mod_eq_of_lt (by omega)
      rw [hmod] at hcall hreq
      refine iff_of_true ⟨p, _, hcall, fun _ => ⟨?_, fun i hi => ?_⟩⟩ (.inl hfit)
      · rw [hs.payload_cleared]
        exact (request_fits hfit).1.trans hreq
      · unfold cleared fill
        dsimp only
        rw [if_pos (by omega)]
    · refine iff_of_false ?_ ?_
      · rintro ⟨q, t, ht, hbig⟩
        rw [hcall] at ht
        cases ht
        have := (hbig hs.ne_zero).1
        rw [hs.payload_cleared] at this
        omega
      · rintro (h | h | h)
        · exact hfit h
        · exact h0 h
        · exact h hroom
  · exact iff_of_true (hnull s hcall) (.inr (.inr hroom))
  · exact iff_of_true (hnull s' hcall) (.inr (.inr hroom))

/-! ## Every run -/

theorem Inv.mono {live' : List Nat} (hi : Inv s live held segs) (h : ∀ p ∈ live', p ∈ live) : Inv s live' held segs :=
  hi.withHeap (hi.heap.mono h) rfl

/-- Whatever the size, `kmalloc` leaves a heap in order. -/
theorem Inv.kmalloc {r : Nat} (hi : Inv s live held segs) (he : kmalloc s size = some (r, s')) :
    ∃ segs', Inv s' (if r = 0 then live else r :: live) held segs' := by
  by_cases h0 : size = 0
  · rw [Backed.kmalloc, if_pos h0] at he
    cases he
    exact ⟨segs, hi⟩
  rcases hi.kmalloc_cases h0 with ⟨-, -, p, t, segs', hs⟩ | ⟨-, -, hcall, -⟩ | ⟨-, -, -, -, t, segs', hcall, hinv, -⟩
  · rw [hs.call] at he
    cases he
    exact ⟨segs', by rw [if_neg hs.ne_zero]; exact hs.inv⟩
  · rw [hcall] at he
    cases he
    exact ⟨segs, hi⟩
  · rw [hcall] at he
    cases he
    exact ⟨segs', hinv⟩

/-- A block that is handed out for a size that did not wrap has room for it. -/
theorem size_le_request (h64 : size < 2 ^ 64) (hw : ¬ Wraps s size) (hroom : Room s (Heap.request size)) :
    size ≤ Heap.request size := by
  by_cases h : size ≤ 2 ^ 64 - 16
  · exact (request_fits h).1
  · rw [request_wraps (not_le.1 h) h64] at hroom
    exact absurd ⟨not_le.1 h, hroom⟩ hw

theorem Inv.grants (hi : Inv s live held segs) : Heap.Grants s.heap size [answer s size] := by
  intro a ha hne
  rw [List.mem_singleton.1 ha] at hne ⊢
  unfold answer at hne ⊢
  rcases hi.ledger.alloc_cases (expand_pages_lt (Heap.request size)) with ⟨-, he⟩ | ⟨hn, p, hp, hrun, he⟩
  · rw [he] at hne
    exact absurd rfl hne
  · rw [he]
    refine ⟨?_, hi.apart hrun hn⟩
    have := hrun.1.trans hi.ledger.total
    unfold Pmm.PMM_MAX_PAGES at this
    unfold PAGE_SIZE
    dsimp only
    omega

theorem Inv.exec_kcalloc {n r : Nat} (hi : Inv s live held segs) (hf : ¬ Wraps s (n * size % 2 ^ 64))
    (he : kcalloc s n size = some (r, s')) : ∃ segs', Inv s' (if r = 0 then live else r :: live) held segs' := by
  have h64 : n * size % 2 ^ 64 < 2 ^ 64 := Nat.mod_lt _ (by norm_num)
  by_cases h0 : n * size % 2 ^ 64 = 0
  · have hcall : Backed.kmalloc s (n * size % 2 ^ 64) = some (0, s) := by rw [Backed.kmalloc, if_pos h0]
    rw [kcalloc_refused hcall] at he
    exact hi.kmalloc (hcall.trans he)
  rcases hi.kmalloc_cases h0 with ⟨hroom, -, p, t, segs', hs⟩ | ⟨-, -, hcall, -⟩ | ⟨-, -, -, -, t, -, hcall, -⟩
  · rw [kcalloc_served hs.call hs.ne_zero] at he
    cases he
    obtain ⟨c, hc, rfl, -, hcs⟩ := hs.fits
    have hle := (size_le_request h64 hf hroom).trans hcs
    refine ⟨segs', ?_⟩
    rw [if_neg hs.ne_zero]
    refine hs.inv.withHeap (hs.inv.heap.write hc (fun x hx => fill_out ?_)) rfl
    unfold Heap.Blk.stop at hx
    omega
  · rw [kcalloc_refused hcall] at he
    exact hi.kmalloc (hcall.trans he)
  · rw [kcalloc_refused hcall] at he
    exact hi.kmalloc (hcall.trans he)

/-- A call of the heap alone that leaves the regions as they are. -/
theorem Inv.exec_heap {op : Heap.Op} {r : Nat} {h : Heap.St} (hi : Inv s live held segs) (hop : op.Allowed s.heap live)
    (hm : Heap.MergeOk s.heap op) (he : Heap.exec s.heap op = some (r, h)) (hreg : h.regions = s.heap.regions) :
    ∃ segs', Inv { s with heap := h } (op.live r live) held segs' := by
  obtain ⟨segs', hheap⟩ := hi.heap.exec hop hm he
  exact ⟨segs', hi.withHeap hheap hreg⟩

theorem Inv.exec_krealloc {ptr r : Nat} (hi : Inv s live held segs) (h64 : size < 2 ^ 64) (hptr : ptr = 0 ∨ ptr ∈ live)
    (hm : Heap.MergeOk s.heap (.krealloc ptr size [answer s size])) (hf : ¬ Wraps s size)
    (he : krealloc s ptr size = some (r, s')) :
    ∃ segs', Inv s' ((Heap.Op.krealloc ptr size [answer s size]).live r live) held segs' := by
  by_cases hp : ptr = 0
  · rw [krealloc, if_pos hp] at he
    obtain ⟨segs', hi'⟩ := hi.kmalloc he
    refine ⟨segs', hi'.mono (fun q hq => ?_)⟩
    simp only [Heap.Op.live, hp, ne_eq, not_true_eq_false, false_and, if_false] at hq
    split_ifs at hq ⊢ with hr
    · exact hq
    · rcases List.mem_cons.1 hq with rfl | hq
      · exact List.mem_cons_self
      · exact List.mem_cons_of_mem _ (List.mem_filter.1 hq).1
  have hlive := hptr.resolve_left hp
  by_cases hz : size = 0
  · rw [krealloc, if_neg hp, if_pos hz] at he
    cases he
    refine hi.exec_heap ⟨by omega, .inr hlive, hi.grants⟩ hm ?_ (Heap.kfree_regions _ _)
    rw [Heap.exec, Heap.krealloc, if_neg hp, if_pos hz]
  have hlist : ∀ t, (Heap.Op.krealloc ptr size t).live r live = if r = 0 then live else r :: live.filter (· ≠ ptr) :=
    fun t => by simp only [Heap.Op.live, hz, and_false, if_false]
  rw [hlist]
  by_cases hfit : size ≤ (Heap.block s.heap.mem (sub64 ptr Heap.BLOCK)).size
  · simp only [krealloc, if_neg hp, if_neg hz, if_pos hfit] at he
    cases he
    refine ⟨segs, hi.mono (fun q hq => ?_)⟩
    rw [if_neg hp] at hq
    rcases List.mem_cons.1 hq with rfl | hq
    · exact hlive
    · exact (List.mem_filter.1 hq).1
  simp only [krealloc, if_neg hp, if_neg hz, if_neg hfit] at he
  have hnull : ∀ t, Backed.kmalloc s size = some (0, t) →
      ∃ segs', Inv s' (if r = 0 then live else r :: live.filter (· ≠ ptr)) held segs' := by
    intro t hcall
    obtain ⟨segs', hi'⟩ := hi.kmalloc hcall
    simp only [hcall, if_true] at he
    cases he
    exact ⟨segs', hi'⟩
  rcases hi.kmalloc_cases hz with ⟨hroom, hsmall, p, t, segs', hs⟩ | ⟨-, -, hcall, -⟩ | ⟨-, -, -, -, t, -, hcall, -⟩
  · have hle := (size_le_request h64 hf hroom).trans hsmall
    simp only [hs.call, if_neg hs.ne_zero] at he
    cases he
    have hexec : Heap.exec s.heap (.krealloc ptr size [answer s size]) = some (r, Heap.kfree { t.heap with
        mem := copy t.heap.mem r ptr (Heap.block t.heap.mem (sub64 ptr Heap.BLOCK)).size } ptr) := by
      simp only [Heap.exec, Heap.krealloc, if_neg hp, if_neg hz, if_neg hfit, hs.heap_call, if_neg hs.ne_zero]
    have hop : (Heap.Op.krealloc ptr size [answer s size]).Allowed s.heap live := ⟨by omega, .inr hlive, hi.grants⟩
    obtain ⟨segs₂, hheap⟩ := hi.heap.exec hop hm hexec
    rw [hlist] at hheap
    exact ⟨segs₂, hs.inv.withHeap hheap (Heap.kfree_regions _ _)⟩
  · exact hnull s hcall
  · exact hnull t hcall

/-- Every call that the condition allows leaves the machine in order. -/
theorem Inv.exec {op : Op} {r : Nat} (hi : Inv s live held segs) (hop : op.Allowed s live) (hf : op.Fine s)
    (he : exec s op = some (r, s')) : ∃ segs', Inv s' ((op.onHeap s).live r live) held segs' := by
  obtain ⟨hm, hf⟩ := hf
  cases op with
  | kmalloc size => exact hi.kmalloc he
  | kcalloc n size => exact hi.exec_kcalloc hf he
  | krealloc ptr size => exact hi.exec_krealloc hop.1 hop.2 hm hf he
  | kfree ptr =>
    cases he
    exact hi.exec_heap hop hm rfl (Heap.kfree_regions _ _)
  | write ptr i v =>
    cases he
    exact hi.exec_heap hop hm rfl rfl

/-- Bytes outside the regions are not the heap's. -/
theorem Inv.poke {a : Nat} (v : UInt8) (hi : Inv s live held segs) (ha : ∀ r ∈ s.heap.regions, a < r.1 ∨ r.1 + r.2 ≤ a) :
    Inv { s with heap := { s.heap with mem := Function.update s.heap.mem a v } } live held segs := by
  have hrep : Heap.Rep (Function.update s.heap.mem a v) segs.flatten := by
    refine ⟨hi.heap.rep.toSpaced, hi.heap.rep.linked.congr (fun b hb => Heap.block_congr (fun x h1 h2 => ?_))⟩
    obtain ⟨r, hr, h3, h4⟩ := Heap.fills_mem hi.heap.fills b hb
    have := ha r hr
    unfold Heap.Blk.stop at h4
    rw [Function.update_of_ne (by omega)]
  exact hi.withHeap ⟨hrep, hi.heap.head, hi.heap.fills, hi.heap.apart, hi.heap.bound, hi.heap.used, hi.heap.total,
    hi.heap.live⟩ rfl

theorem Inv.free_page {addr : Nat} (hi : Inv s live held segs) (hp : Pmm.Held held (addr / PAGE_SIZE)) :
    Inv { s with pmm := Pmm.pmm_free_page s.pmm addr } live (Pmm.release [addr / PAGE_SIZE] held) segs := by
  refine hi.free (by simpa using hp) (hi.ledger.toBounds.pmm_free_page addr) (fun q => ?_)
  rw [(Pmm.free_page_bits s.pmm addr).2]
  simp

theorem Inv.free_pages {addr count : Nat} (hi : Inv s live held segs) (hp : ∀ p ∈ Pmm.named addr count, Pmm.Held held p) :
    Inv { s with pmm := Pmm.pmm_free_pages s.pmm addr count } live (Pmm.release (Pmm.named addr count) held) segs :=
  hi.free hp (hi.ledger.toBounds.pmm_free_pages addr count) (Pmm.free_pages_bits s.pmm addr count).2

theorem runs_inv {kernel_end arena : Nat} {mmap : Option (List Pmm.mb2_mmap_entry_t)} (hk : kernel_end + 4095 < 2 ^ 64)
    (ha : 0x100000 ≤ arena) (hak : arena + Heap.EARLY_HEAP ≤ kernel_end)
    (h : Runs kernel_end arena mmap (fun s op => op.Fine s) s live held) : ∃ segs, Inv s live held segs := by
  induction h with
  | init m => exact ⟨_, inv_boot m mmap hk ha hak⟩
  | call op _ hop hf he ih =>
    obtain ⟨segs, hi⟩ := ih
    exact hi.exec hop hf he
  | alloc_page _ ih =>
    obtain ⟨segs, hi⟩ := ih
    exact ⟨segs, hi.alloc (show 1 < 2 ^ 64 by omega)⟩
  | alloc_pages count _ hc ih =>
    obtain ⟨segs, hi⟩ := ih
    exact ⟨segs, hi.alloc hc⟩
  | free_page addr _ hp ih =>
    obtain ⟨segs, hi⟩ := ih
    exact ⟨segs, hi.free_page hp⟩
  | free_pages addr count _ hp ih =>
    obtain ⟨segs, hi⟩ := ih
    exact ⟨segs, hi.free_pages hp⟩
  | poke a v _ hout ih =>
    obtain ⟨segs, hi⟩ := ih
    exact ⟨segs, hi.poke v hout⟩

end

/-- In every state of a run, and for all sizes: `kmalloc` and `kcalloc` hand out blocks that are large enough, and
`kmalloc` refuses without a trace, exactly if the sizes fit. -/
theorem allocation_sound_iff {kernel_end arena : Nat} {mmap : Option (List Pmm.mb2_mmap_entry_t)}
    (hk : kernel_end + 4095 < 2 ^ 64) (ha : 0x100000 ≤ arena) (hak : arena + Heap.EARLY_HEAP ≤ kernel_end) {s : St}
    {live : List Nat} {held : List Pmm.Grant} (h : Runs kernel_end arena mmap (fun s op => op.Fine s) s live held)
    (n : Nat) {size : Nat} (hs : size < 2 ^ 64) :
    (MallocSound s size ↔ MallocFits s size) ∧ (CallocSound s n size ↔ CallocFits s n size) := by
  obtain ⟨segs, hi⟩ := runs_inv hk ha hak h
  exact ⟨hi.malloc_sound_iff hs, hi.calloc_sound_iff⟩

/-- A machine with 128 MiB and no memory map, right after boot. -/
def booted : St := ⟨Pmm.pmm_init 0x300000 none, Heap.heap_init (fun _ => 0) 0x200000⟩

/-- 25 elements of 4 bytes. -/
theorem allocation_sound_iff_booted : MallocSound booted 100 ∧ CallocSound booted 25 4 := by
  obtain ⟨h1, h2⟩ := allocation_sound_iff (by omega) (by omega) (by decide) (.init _ : Runs 0x300000 0x200000 none
    (fun s op => op.Fine s) booted [] []) 25 (show 4 < 2 ^ 64 by omega)
  obtain ⟨h3, -⟩ := allocation_sound_iff (by omega) (by omega) (by decide) (.init _ : Runs 0x300000 0x200000 none
    (fun s op => op.Fine s) booted [] []) 25 (show 100 < 2 ^ 64 by omega)
  exact ⟨h3.2 (.inl (by norm_num)), h2.2 (.inl (by norm_num))⟩

/-- The largest size gets the smallest block, right after boot. -/
theorem largest_size_served : Runs 0x300000 0x200000 none (fun _ _ => True) booted [] [] ∧ ¬ MallocSound booted (2 ^ 64 - 1) := by
  refine ⟨.init _, fun h => ?_⟩
  have hi := inv_boot (fun _ => 0) none (show 0x300000 + 4095 < 2 ^ 64 by omega)
    (show 0x100000 ≤ 0x200000 by omega) (by decide)
  have hroom : Room booted Heap.HEAP_MIN := .inl (by decide +kernel)
  rcases (hi.malloc_sound_iff (by norm_num)).1 h with hfit | ⟨hfit, -⟩ | ⟨-, hno⟩
  · norm_num at hfit
  · norm_num at hfit
  · exact hno hroom

end H3OS.Backed
