import H3OS.Heap.Backed
import H3OS.Pmm.FirstFit
import H3OS.Pmm.Addressable
/-!
# The heap and the page allocator in one machine

All calls of the heap on the page allocator, and runs in which they alternate
with other users of the page allocator and with writes to memory that is not
the heap's. The invariant says which pages the heap owns: those of its
regions are marked, and nobody else holds them.
-/
open SysLib

namespace H3OS.Backed

def kcalloc (s : St) (n size : Nat) : Option (Nat × St) :=
  let total := n * size % 2 ^ 64
  match kmalloc s total with
  | none => none
  | some (p, s) => some (p, if p ≠ 0 then { s with heap := { s.heap with mem := fill s.heap.mem p total 0 } } else s)

def krealloc (s : St) (ptr size : Nat) : Option (Nat × St) :=
  if ptr = 0 then kmalloc s size else
  if size = 0 then some (0, { s with heap := Heap.kfree s.heap ptr }) else
  let b := sub64 ptr Heap.BLOCK
  if size ≤ (Heap.block s.heap.mem b).size then some (ptr, s) else
  match kmalloc s size with
  | none => none
  | some (n, s) =>
    if n = 0 then some (0, s) else
    some (n, { s with
      heap := Heap.kfree { s.heap with mem := copy s.heap.mem n ptr (Heap.block s.heap.mem b).size } ptr })

/-! ## Runs -/

inductive Op where
  | kmalloc (size : Nat)
  | kcalloc (n size : Nat)
  | krealloc (ptr size : Nat)
  | kfree (ptr : Nat)
  /-- A client sets byte `i` of its payload. -/
  | write (ptr i : Nat) (v : UInt8)

def exec (s : St) : Op → Option (Nat × St)
  | .kmalloc size => kmalloc s size
  | .kcalloc n size => kcalloc s n size
  | .krealloc ptr size => krealloc s ptr size
  | .kfree ptr => some (0, { s with heap := Heap.kfree s.heap ptr })
  | .write ptr i v => some (0, { s with heap := { s.heap with mem := Function.update s.heap.mem (ptr + i) v } })

/-- What the page allocator answers when `kmalloc` has to grow the heap for `size` bytes. -/
def answer (s : St) (size : Nat) : Nat := (Pmm.pmm_alloc_pages s.pmm (Heap.expand_pages (Heap.request size))).1

/-- The call as one of the heap alone. -/
def Op.onHeap (s : St) : Op → Heap.Op
  | .kmalloc size => .kmalloc size [answer s size]
  | .kcalloc n size => .kcalloc n size [answer s (n * size % 2 ^ 64)]
  | .krealloc ptr size => .krealloc ptr size [answer s size]
  | .kfree ptr => .kfree ptr
  | .write ptr i v => .write ptr i v

/-- Arguments are 64-bit words, pointers are live, and clients write into their payloads. -/
def Op.Allowed (s : St) (live : List Nat) : Op → Prop
  | .kmalloc size => size < 2 ^ 64
  | .kcalloc n size => n < 2 ^ 64 ∧ size < 2 ^ 64
  | .krealloc ptr size => size < 2 ^ 64 ∧ (ptr = 0 ∨ ptr ∈ live)
  | .kfree ptr => ptr = 0 ∨ ptr ∈ live
  | .write ptr i _ => ptr ∈ live ∧ i < (Heap.block s.heap.mem (sub64 ptr Heap.BLOCK)).size

/-- The states after boot, with the live heap pointers and the pages that other users of the page allocator hold. Each
call of the heap meets `P`. -/
inductive Runs (kernel_end arena : Nat) (mmap : Option (List Pmm.mb2_mmap_entry_t)) (P : St → Op → Prop) :
    St → List Nat → List Pmm.Grant → Prop
  | init (m : Mem) : Runs kernel_end arena mmap P ⟨Pmm.pmm_init kernel_end mmap, Heap.heap_init m arena⟩ [] []
  | call {s s' live held} {r : Nat} (op : Op) : Runs kernel_end arena mmap P s live held → op.Allowed s live → P s op →
      exec s op = some (r, s') → Runs kernel_end arena mmap P s' ((op.onHeap s).live r live) held
  | alloc_page {s live held} : Runs kernel_end arena mmap P s live held →
      Runs kernel_end arena mmap P { s with pmm := (Pmm.pmm_alloc_page s.pmm).2 } live
        (Pmm.grant (Pmm.pmm_alloc_page s.pmm).1 1 held)
  | alloc_pages {s live held} (count : Nat) : Runs kernel_end arena mmap P s live held → count < 2 ^ 64 →
      Runs kernel_end arena mmap P { s with pmm := (Pmm.pmm_alloc_pages s.pmm count).2 } live
        (Pmm.grant (Pmm.pmm_alloc_pages s.pmm count).1 count held)
  | free_page {s live held} (addr : Nat) : Runs kernel_end arena mmap P s live held →
      Pmm.Held held (addr / PAGE_SIZE) →
      Runs kernel_end arena mmap P { s with pmm := Pmm.pmm_free_page s.pmm addr } live
        (Pmm.release [addr / PAGE_SIZE] held)
  | free_pages {s live held} (addr count : Nat) : Runs kernel_end arena mmap P s live held →
      (∀ p ∈ Pmm.named addr count, Pmm.Held held p) →
      Runs kernel_end arena mmap P { s with pmm := Pmm.pmm_free_pages s.pmm addr count } live
        (Pmm.release (Pmm.named addr count) held)
  /-- Anyone sets a byte outside the heap. -/
  | poke {s live held} (a : Nat) (v : UInt8) : Runs kernel_end arena mmap P s live held →
      (∀ r ∈ s.heap.regions, a < r.1 ∨ r.1 + r.2 ≤ a) →
      Runs kernel_end arena mmap P { s with heap := { s.heap with mem := Function.update s.heap.mem a v } } live held

/-! ## Which pages the heap owns -/

/-- Every page of a region is marked, and no other user of the page allocator holds it. -/
def Owned (pmm : Pmm.St) (held : List Pmm.Grant) (r : Nat × Nat) : Prop :=
  ∀ x, r.1 ≤ x → x < r.1 + r.2 → Pmm.bitmap_test pmm (x / PAGE_SIZE) = true ∧ ¬ Pmm.Held held (x / PAGE_SIZE)

structure Inv (s : St) (live : List Nat) (held : List Pmm.Grant) (segs : List (List Heap.Blk)) : Prop where
  heap : Heap.Inv s.heap live segs
  ledger : Pmm.Ledger s.pmm held
  marked : ∀ p, Pmm.Held held p → Pmm.bitmap_test s.pmm p = true
  owned : ∀ r ∈ s.heap.regions, Owned s.pmm held r
  small : ∀ r ∈ s.heap.regions, 0 < r.2 ∧ r.2 ≤ 2 ^ 31

section
variable {s s' : St} {live : List Nat} {held : List Pmm.Grant} {segs : List (List Heap.Blk)} {p n : Nat}

/-- A run of clear pages is apart from every region. -/
theorem Inv.apart (hi : Inv s live held segs) (hrun : Pmm.FreeRun s.pmm n p) (h0 : n ≠ 0) :
    ∀ r ∈ s.heap.regions, Apart (p * PAGE_SIZE) (n * PAGE_SIZE) r.1 r.2 := by
  intro r hr
  by_contra hap
  have hpos := (hi.small r hr).1
  -- an address in both has a page that is clear and marked
  obtain ⟨x, hx⟩ : ∃ x, p * PAGE_SIZE ≤ x ∧ x < p * PAGE_SIZE + n * PAGE_SIZE ∧ r.1 ≤ x ∧ x < r.1 + r.2 := by
    refine ⟨max (p * PAGE_SIZE) r.1, ?_⟩
    unfold Apart PAGE_SIZE at *
    omega
  obtain ⟨h1, h2, h3, h4⟩ := hx
  have hset := (hi.owned r hr x h3 h4).1
  have hclear := hrun.2 (x / PAGE_SIZE - p) (by unfold PAGE_SIZE at *; omega)
  rw [show p + (x / PAGE_SIZE - p) = x / PAGE_SIZE by unfold PAGE_SIZE at *; omega] at hclear
  rw [hset] at hclear
  cases hclear

/-- Taking a run marks pages and clears none. -/
theorem test_take_run (s : Pmm.St) (p n q : Nat) :
    Pmm.bitmap_test (Pmm.take_run s p n) q = (Pmm.bitmap_test s q || decide (p ≤ q ∧ q < p + n)) := (Pmm.take_loop s p n).2 q

theorem Inv.ledger_take (hi : Inv s live held segs) (hrun : Pmm.FreeRun s.pmm n p) : Pmm.Ledger (Pmm.take_run s.pmm p n) held := by
  refine ⟨hi.ledger.toBounds.take_run hrun, ?_, hi.ledger.unheld⟩
  rw [test_take_run, hi.ledger.zero, Bool.true_or]

/-- The heap after a call that may have taken a run of clear pages as a new region. -/
theorem Inv.grow {live' : List Nat} {segs' : List (List Heap.Blk)} (hi : Inv s live held segs)
    (hheap : Heap.Inv s'.heap live' segs') (hrun : Pmm.FreeRun s.pmm n p) (h0 : n ≠ 0) (hpmm : s'.pmm = Pmm.take_run s.pmm p n)
    (hreg : s'.heap.regions = (p * PAGE_SIZE, n * PAGE_SIZE) :: s.heap.regions) : Inv s' live' held segs' := by
  have hn := hrun.1.trans hi.ledger.total
  unfold Pmm.PMM_MAX_PAGES at hn
  have hnew : Owned s'.pmm held (p * PAGE_SIZE, n * PAGE_SIZE) := by
    intro x h1 h2
    dsimp only at h1 h2
    rw [hpmm, test_take_run, decide_eq_true (by unfold PAGE_SIZE at *; omega), Bool.or_true]
    refine ⟨rfl, fun hh => ?_⟩
    have hclear := hrun.2 (x / PAGE_SIZE - p) (by unfold PAGE_SIZE at *; omega)
    rw [show p + (x / PAGE_SIZE - p) = x / PAGE_SIZE by unfold PAGE_SIZE at *; omega, hi.marked _ hh] at hclear
    cases hclear
  refine ⟨hheap, by rw [hpmm]; exact hi.ledger_take hrun, fun q hq => ?_, fun r hr => ?_, fun r hr => ?_⟩
  · rw [hpmm, test_take_run, hi.marked q hq, Bool.true_or]
  · rw [hreg] at hr
    rcases List.mem_cons.1 hr with rfl | hr
    · exact hnew
    · intro x h1 h2
      obtain ⟨hb, hh⟩ := hi.owned r hr x h1 h2
      exact ⟨by rw [hpmm, test_take_run, hb, Bool.true_or], hh⟩
  · rw [hreg] at hr
    rcases List.mem_cons.1 hr with rfl | hr
    · unfold PAGE_SIZE
      dsimp only
      omega
    · exact hi.small r hr

/-! ## The other users of the page allocator -/

theorem Inv.alloc (hi : Inv s live held segs) {count : Nat} (hc : count < 2 ^ 64) :
    Inv { s with pmm := (Pmm.pmm_alloc_pages s.pmm count).2 } live
      (Pmm.grant (Pmm.pmm_alloc_pages s.pmm count).1 count held) segs := by
  have hledger := hi.ledger.alloc_pages hc
  rcases hi.ledger.alloc_cases hc with ⟨-, he⟩ | ⟨-, p, -, hrun, he⟩
  · rw [he]
    exact hi
  · rw [he] at hledger ⊢
    refine ⟨hi.heap, hledger, fun q hq => ?_, fun r hr x h1 h2 => ?_, hi.small⟩
    · dsimp only
      rw [test_take_run]
      rcases Pmm.held_grant_page.1 hq with hq | ⟨-, hq⟩
      · rw [hi.marked q hq, Bool.true_or]
      · rw [decide_eq_true hq, Bool.or_true]
    · dsimp only
      obtain ⟨hb, hh⟩ := hi.owned r hr x h1 h2
      refine ⟨by rw [test_take_run, hb, Bool.true_or], fun hg => ?_⟩
      rcases Pmm.held_grant_page.1 hg with hg | ⟨-, hg⟩
      · exact hh hg
      · have hclear := hrun.2 (x / PAGE_SIZE - p) (by omega)
        rw [show p + (x / PAGE_SIZE - p) = x / PAGE_SIZE by omega, hb] at hclear
        cases hclear

theorem Inv.free (hi : Inv s live held segs) {ps : List Nat} {pmm : Pmm.St} (hps : ∀ p ∈ ps, Pmm.Held held p)
    (hbounds : Pmm.Bounds pmm)
    (hb : ∀ q, Pmm.bitmap_test pmm q = (Pmm.bitmap_test s.pmm q && !decide (q ∈ ps ∧ q < s.pmm.total_pages))) :
    Inv { s with pmm := pmm } live (Pmm.release ps held) segs := by
  refine ⟨hi.heap, hi.ledger.free hps hbounds hb, fun q hq => ?_, fun r hr x h1 h2 => ?_, hi.small⟩
  · obtain ⟨hq, hn⟩ := Pmm.held_release.1 hq
    dsimp only
    rw [hb, hi.marked q hq, decide_eq_false (fun h => hn h.1)]
    rfl
  · obtain ⟨hbit, hh⟩ := hi.owned r hr x h1 h2
    refine ⟨?_, fun hg => hh (Pmm.held_release.1 hg).1⟩
    dsimp only
    rw [hb, hbit, decide_eq_false (fun h => hh (hps _ h.1))]
    rfl

/-! ## Boot -/

/-- The memory map clears no bit past the bitmap's pages. -/
theorem map_memory_below (mmap : Option (List Pmm.mb2_mmap_entry_t))
    (h : Pmm.bitmap_test (Pmm.map_memory mmap) p = false) : p < Pmm.PMM_MAX_PAGES := by
  cases mmap with
  | none =>
    rw [Pmm.map_none_bits, Bool.not_eq_false', decide_eq_true_eq] at h
    exact h.2.trans_le (by decide)
  | some entries =>
    unfold Pmm.map_memory at h
    rw [(Pmm.count_used_bits _).2] at h
    rcases (Pmm.map_entries_bits entries Pmm.blank p).1.1 h with h | ⟨-, h⟩
    · rw [Pmm.test_blank] at h
      cases h
    · exact h

/-- The pages of the kernel image are marked. -/
theorem init_kernel {kernel_end x : Nat} (mmap : Option (List Pmm.mb2_mmap_entry_t)) (hk : kernel_end + 4095 < 2 ^ 64)
    (h1 : 0x100000 ≤ x) (h2 : x < kernel_end) : Pmm.bitmap_test (Pmm.pmm_init kernel_end mmap) (x / PAGE_SIZE) = true := by
  by_contra h
  rw [Bool.not_eq_true] at h
  unfold Pmm.pmm_init at h
  dsimp only at h
  rw [(Pmm.reserve_loop _ _ _).2, (Pmm.reserve_loop _ _ _).2, Pmm.add64_sub64 (by omega), Pmm.up_page hk] at h
  simp only [Bool.or_eq_false_iff, decide_eq_false_iff_not, lt_min_iff] at h
  have hmax := map_memory_below mmap h.1.1
  apply h.2
  unfold PAGE_SIZE at *
  omega

theorem inv_boot {kernel_end arena : Nat} (m : Mem) (mmap : Option (List Pmm.mb2_mmap_entry_t))
    (hk : kernel_end + 4095 < 2 ^ 64) (ha : 0x100000 ≤ arena) (hak : arena + Heap.EARLY_HEAP ≤ kernel_end) :
    Inv ⟨Pmm.pmm_init kernel_end mmap, Heap.heap_init m arena⟩ [] []
      [[⟨arena, Heap.EARLY_HEAP - Heap.BLOCK, true⟩]] := by
  have hnone : ∀ q, ¬ Pmm.Held [] q := by simp [Pmm.Held]
  refine ⟨Heap.inv_init m (by omega) (by omega), ⟨Pmm.bounds_init kernel_end mmap, Pmm.init_zero kernel_end mmap, hnone 0⟩,
    fun q hq => absurd hq (hnone q), fun r hr x h1 h2 => ?_, fun r hr => ?_⟩
  · obtain rfl : r = (arena, Heap.EARLY_HEAP) := List.mem_singleton.1 hr
    exact ⟨init_kernel mmap hk (by dsimp only at h1; omega) (by dsimp only at h2; omega), hnone _⟩
  · obtain rfl : r = (arena, Heap.EARLY_HEAP) := List.mem_singleton.1 hr
    exact ⟨(by decide : 0 < Heap.EARLY_HEAP), (by decide : Heap.EARLY_HEAP ≤ 2 ^ 31)⟩

end

end H3OS.Backed
