import H3OS.Types
import H3OS.Lib.Loop
/-!
# The physical memory manager

`memory/pmm.c`: one bit per 4 KiB page, set while the page is in use or
reserved. `pmm_init` takes the entries of the Multiboot2 memory map, `none`
when the boot information holds no map.
-/
open SysLib

namespace H3OS.Pmm

/-- Two gigabytes of 4 KiB pages. -/
def PMM_MAX_PAGES : Nat := 512 * 1024

def MB2_MEMORY_AVAILABLE : Nat := 1

structure mb2_mmap_entry_t where
  addr : Nat
  len : Nat
  type : Nat
  zero : Nat

structure St where
  page_bitmap : Nat → BitVec 8
  total_pages : Nat
  used_pages : Nat
  highest_page : Nat

/-! ## The bitmap -/

def bitmap_test (s : St) (page : Nat) : Bool := s.page_bitmap (page / 8) &&& (1#8 <<< (page % 8)) != 0

def bitmap_set (s : St) (page : Nat) : St :=
  { s with page_bitmap := Function.update s.page_bitmap (page / 8) (s.page_bitmap (page / 8) ||| (1#8 <<< (page % 8))) }

def bitmap_clear (s : St) (page : Nat) : St :=
  { s with page_bitmap := Function.update s.page_bitmap (page / 8) (s.page_bitmap (page / 8) &&& ~~~(1#8 <<< (page % 8))) }

/-- Mark a page used and count it. -/
def bitmap_take (s : St) (page : Nat) : St := { bitmap_set s page with used_pages := add64 s.used_pages 1 }

/-- Mark a page free and count it. -/
def bitmap_drop (s : St) (page : Nat) : St := { bitmap_clear s page with used_pages := sub64 s.used_pages 1 }

def reserve_region (s : St) (addr len : Nat) : St :=
  let start := addr / PAGE_SIZE
  let stop := H3OS_ALIGN_UP (add64 addr len) PAGE_SIZE / PAGE_SIZE
  forRange start (min stop PMM_MAX_PAGES) (fun p s => if !bitmap_test s p then bitmap_take s p else s) s

/-! ## Initialisation -/

/-- Everything reserved, nothing counted. -/
def blank : St := ⟨fun _ => 0xFF#8, 0, 0, 0⟩

/-- One turn of the loop over the memory map. -/
def map_entry (s : St) (e : mb2_mmap_entry_t) : St :=
  let end_page := H3OS_ALIGN_UP (add64 e.addr e.len) PAGE_SIZE / PAGE_SIZE
  let s := { s with highest_page := max s.highest_page end_page, total_pages := max s.total_pages end_page }
  if e.type = MB2_MEMORY_AVAILABLE then
    let start := H3OS_ALIGN_UP e.addr PAGE_SIZE / PAGE_SIZE
    let stop := H3OS_ALIGN_DOWN (add64 e.addr e.len) PAGE_SIZE / PAGE_SIZE
    forRange start (min stop PMM_MAX_PAGES) (fun p s => bitmap_clear s p) s
  else s

/-- The recount of set bits below `total_pages`. -/
def count_used (s : St) : St :=
  forRange 0 s.total_pages
    (fun p s => if bitmap_test s p then { s with used_pages := add64 s.used_pages 1 } else s) { s with used_pages := 0 }

def map_memory : Option (List mb2_mmap_entry_t) → St
  | none =>
    { forRange 256 (min 32768 PMM_MAX_PAGES) (fun p s => bitmap_clear s p) blank with
      total_pages := 32768, highest_page := 32768, used_pages := 256 }
  | some entries =>
    let s := entries.foldl map_entry blank
    count_used { s with total_pages := min s.total_pages PMM_MAX_PAGES }

/-- `kernel_end` is the linker's `_kernel_end`. -/
def pmm_init (kernel_end : Nat) (mmap : Option (List mb2_mmap_entry_t)) : St :=
  let s := reserve_region (map_memory mmap) 0 0x100000
  reserve_region s 0x100000 (sub64 kernel_end 0x100000)

/-! ## Allocating and freeing -/

/-- The result is an address, 0 when no page is free. -/
def pmm_alloc_page (s : St) : Nat × St :=
  match (List.range s.total_pages).find? (fun p => !bitmap_test s p) with
  | some p => (p * PAGE_SIZE, bitmap_take s p)
  | none => (0, s)

/-- The inner scan: no page of the run is in use. -/
def run_free (s : St) (p count : Nat) : Bool := (List.range count).all (fun i => !bitmap_test s (p + i))

/-- The first page of the first free run. The outer loop stops at the first `p` with `p + count` past the end. -/
def find_run (s : St) (count : Nat) : Option Nat :=
  ((List.range (s.total_pages + 1)).takeWhile (fun p => add64 p count ≤ s.total_pages)).find? (fun p => run_free s p count)

def take_run (s : St) (p count : Nat) : St := forRange 0 count (fun i s => bitmap_take s (p + i)) s

def pmm_alloc_pages (s : St) (count : Nat) : Nat × St :=
  if count = 0 then (0, s)
  else if count = 1 then pmm_alloc_page s
  else match find_run s count with
    | some p => (p * PAGE_SIZE, take_run s p count)
    | none => (0, s)

def pmm_free_page (s : St) (addr : Nat) : St :=
  let p := addr / PAGE_SIZE
  if p ≥ s.total_pages then s
  else if bitmap_test s p then bitmap_drop s p
  else s

def pmm_free_pages (s : St) (addr count : Nat) : St :=
  forRange 0 count (fun i s => pmm_free_page s (add64 addr (i * PAGE_SIZE % 2 ^ 64))) s

structure pmm_stats_t where
  total_pages : Nat
  used_pages : Nat
  free_pages : Nat
  total_bytes : Nat

def pmm_get_stats (s : St) : pmm_stats_t where
  total_pages := s.total_pages
  used_pages := s.used_pages
  free_pages := if s.total_pages > s.used_pages then s.total_pages - s.used_pages else 0
  total_bytes := s.total_pages * PAGE_SIZE % 2 ^ 64

end H3OS.Pmm
