import H3OS.Types
import H3OS.Lib.Loop
/-!
# The virtual memory manager

`memory/vmm.c` over byte memory: four levels of 512-entry tables, reached
through the identity map that `boot/boot.asm` installs. What
`pmm_alloc_page` returns, call by call, is part of the state.
-/
open SysLib

namespace H3OS.Vmm

def PTE_PRESENT : Nat := 2 ^ 0
def PTE_WRITE : Nat := 2 ^ 1
def PTE_HUGE : Nat := 2 ^ 7

/-- `~0xFFFULL`. -/
def ADDR_MASK : Nat := 2 ^ 64 - 2 ^ 12

/-- `~0x1FFFFFULL`. -/
def HUGE_MASK : Nat := 2 ^ 64 - 2 ^ 21

structure St where
  mem : Mem
  pml4 : Nat
  /-- The answers of the coming `pmm_alloc_page` calls; 0 once they run out. -/
  pmm : List Nat

/-- `table[index]`. -/
def entry (m : Mem) (table index : Nat) : Nat := load m (table + 8 * index) 8

/-- `table[index] = v`. -/
def setEntry (m : Mem) (table index v : Nat) : Mem := store m (table + 8 * index) 8 v

def index4 (virt : Nat) : Nat := (virt >>> 39) &&& 0x1FF
def index3 (virt : Nat) : Nat := (virt >>> 30) &&& 0x1FF
def index2 (virt : Nat) : Nat := (virt >>> 21) &&& 0x1FF
def index1 (virt : Nat) : Nat := (virt >>> 12) &&& 0x1FF

/-! ## The boot tables -/

/-- The page tables `boot.asm` builds in three zeroed pages at `base`: the first gigabyte by 2 MiB pages. -/
def boot_tables (m : Mem) (base : Nat) : Mem :=
  let m := fill m base (3 * PAGE_SIZE) 0
  let m := store m base 4 ((base + PAGE_SIZE) ||| 0x03)
  let m := store m (base + PAGE_SIZE) 4 ((base + 2 * PAGE_SIZE) ||| 0x03)
  forRange 0 512 (fun i m => store m (base + 2 * PAGE_SIZE + i * 8) 4 ((i <<< 21) ||| 0x83)) m

/-- `vmm_init` right after boot, with CR3 at the boot tables. -/
def vmm_init (m : Mem) (base : Nat) (pmm : List Nat) : St := ⟨boot_tables m base, base, pmm⟩

/-! ## Mapping -/

def pmm_alloc_page (s : St) : Nat × St := (s.pmm.headD 0, { s with pmm := s.pmm.tail })

/-- Link a zeroed page into an empty entry. -/
def link_table (m : Mem) (table index page : Nat) : Mem :=
  setEntry (fill m page PAGE_SIZE 0) table index (page ||| PTE_PRESENT ||| PTE_WRITE)

/-- The table below `table[index]`, made when missing; 0 when there is no memory for it. -/
def table_walk_alloc (s : St) (table index : Nat) : Nat × St :=
  if entry s.mem table index &&& PTE_PRESENT = 0 then
    match pmm_alloc_page s with
    | (0, s) => (0, s)
    | (page, s) =>
      let m := link_table s.mem table index page
      (entry m table index &&& ADDR_MASK, { s with mem := m })
  else (entry s.mem table index &&& ADDR_MASK, s)

def vmm_map_page (s : St) (virt phys flags : Nat) : Bool × St :=
  let (pdpt, s) := table_walk_alloc s s.pml4 (index4 virt)
  if pdpt = 0 then (false, s) else
  let (pd, s) := table_walk_alloc s pdpt (index3 virt)
  if pd = 0 then (false, s) else
  -- a huge page is present: refuse to split it
  if entry s.mem pd (index2 virt) &&& PTE_HUGE ≠ 0 then (false, s) else
  let (pt, s) := table_walk_alloc s pd (index2 virt)
  if pt = 0 then (false, s) else
  (true, { s with
    mem := setEntry s.mem pt (index1 virt) ((phys &&& ADDR_MASK) ||| (flags &&& 0xFFF) ||| PTE_PRESENT) })

def vmm_unmap_page (s : St) (virt : Nat) : Bool × St :=
  if entry s.mem s.pml4 (index4 virt) &&& PTE_PRESENT = 0 then (false, s) else
  let pdpt := entry s.mem s.pml4 (index4 virt) &&& ADDR_MASK
  if entry s.mem pdpt (index3 virt) &&& PTE_PRESENT = 0 then (false, s) else
  let pd := entry s.mem pdpt (index3 virt) &&& ADDR_MASK
  if entry s.mem pd (index2 virt) &&& PTE_HUGE ≠ 0 then (false, s) else
  if entry s.mem pd (index2 virt) &&& PTE_PRESENT = 0 then (false, s) else
  let pt := entry s.mem pd (index2 virt) &&& ADDR_MASK
  (true, { s with mem := setEntry s.mem pt (index1 virt) 0 })

def vmm_resolve (s : St) (virt : Nat) : Nat :=
  if entry s.mem s.pml4 (index4 virt) &&& PTE_PRESENT = 0 then 0 else
  let pdpt := entry s.mem s.pml4 (index4 virt) &&& ADDR_MASK
  if entry s.mem pdpt (index3 virt) &&& PTE_PRESENT = 0 then 0 else
  let pd := entry s.mem pdpt (index3 virt) &&& ADDR_MASK
  if entry s.mem pd (index2 virt) &&& PTE_HUGE ≠ 0 then
    add64 (entry s.mem pd (index2 virt) &&& HUGE_MASK) (virt &&& 0x1FFFFF) else
  if entry s.mem pd (index2 virt) &&& PTE_PRESENT = 0 then 0 else
  let pt := entry s.mem pd (index2 virt) &&& ADDR_MASK
  if entry s.mem pt (index1 virt) &&& PTE_PRESENT = 0 then 0 else
  add64 (entry s.mem pt (index1 virt) &&& ADDR_MASK) (virt &&& 0xFFF)

/-! ## The map it stands for -/

/-- Bits 12 to 47 of an address. -/
def pageOf (v : Nat) : Nat := v / 4096 % 2 ^ 36

/-- Where a page is mapped, for the pages that are. -/
abbrev PageMap := Nat → Option Nat

/-- What resolving `v` gives: the identity below 1 GiB, the map's answer above, 0 where it has none. -/
def answer (A : PageMap) (v : Nat) : Nat :=
  if v % 2 ^ 48 < 2 ^ 30 then v % 2 ^ 48
  else match A (pageOf v) with
    | some phys => phys + v % 4096
    | none => 0

inductive Op where
  | map (virt phys flags : Nat)
  | unmap (virt : Nat)

/-- The arguments are 64-bit words. -/
def Op.Word64 : Op → Prop
  | .map virt phys flags => virt < 2 ^ 64 ∧ phys < 2 ^ 64 ∧ flags < 2 ^ 64
  | .unmap virt => virt < 2 ^ 64

/-- One call: what it returns, and the tables after it. -/
def exec (s : St) : Op → Bool × St
  | .map virt phys flags => vmm_map_page s virt phys flags
  | .unmap virt => vmm_unmap_page s virt

/-- What a call that returned `true` does to the map. -/
def Op.apply (A : PageMap) : Op → PageMap
  | .map virt phys _ => Function.update A (pageOf virt) (some (phys / 4096 * 4096))
  | .unmap virt => Function.update A (pageOf virt) none

/-- The tables and the map after a sequence of calls; a call that returns `false` leaves the map alone. -/
def run (s : St) (A : PageMap) : List Op → St × PageMap
  | [] => (s, A)
  | op :: ops => run (exec s op).2 (if (exec s op).1 then op.apply A else A) ops

/-- Every page `pmm_alloc_page` hands out is aligned and none is, or becomes, two tables at once. -/
structure SupplyOk (base : Nat) (pmm : List Nat) : Prop where
  aligned : ∀ a ∈ pmm, a % PAGE_SIZE = 0 ∧ a < 2 ^ 64
  boot : ∀ a ∈ pmm, a ≠ 0 → Apart a PAGE_SIZE base (3 * PAGE_SIZE)
  nodup : (pmm.filter (· ≠ 0)).Nodup

end H3OS.Vmm
