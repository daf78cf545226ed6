import H3OS.Pmm.Addressable
import H3OS.Vmm.Rights
/-!
# Page tables on the page allocator

`memory/vmm.c` with the `pmm_alloc_page` of `memory/pmm.c`, and the processor
that reads the tables by itself and keeps what it has read until `invlpg`. The
rest of the kernel allocates and releases pages and writes to memory between
the calls, and the processor may read or forget translations there. The bits in
which it notes that it has used an entry are left out.
-/
open SysLib

namespace H3OS.Vmm.Machine

structure St where
  mem : Mem
  pml4 : Nat
  pages : Pmm.St
  /-- The frames of the pages that the processor has in its TLB. -/
  tlb : Nat → Option Nat

/-- The tables, with no page to make another one of. -/
def St.tables (s : St) : Vmm.St := ⟨s.mem, s.pml4, []⟩

def invlpg (s : St) (virt : Nat) : St := { s with tlb := Function.update s.tlb (pageOf virt) none }

/-! ## The calls -/

def table_walk_alloc (s : St) (table index : Nat) : Nat × St :=
  if entry s.mem table index &&& PTE_PRESENT = 0 then
    let (page, pages) := Pmm.pmm_alloc_page s.pages
    if page = 0 then (0, { s with pages := pages }) else
    let m := link_table s.mem table index page
    (entry m table index &&& ADDR_MASK, { s with mem := m, pages := pages })
  else (entry s.mem table index &&& ADDR_MASK, s)

def vmm_map_page (s : St) (virt phys flags : Nat) : Bool × St :=
  let (pdpt, s) := table_walk_alloc s s.pml4 (index4 virt)
  if pdpt = 0 then (false, s) else
  let (pd, s) := table_walk_alloc s pdpt (index3 virt)
  if pd = 0 then (false, s) else
  if entry s.mem pd (index2 virt) &&& PTE_HUGE ≠ 0 then (false, s) else
  let (pt, s) := table_walk_alloc s pd (index2 virt)
  if pt = 0 then (false, s) else
  (true, invlpg { s with mem := setEntry s.mem pt (index1 virt) (leafOf phys flags) } virt)

/-- `vmm_unmap_page` and `vmm_resolve` allocate nothing; what they do with the entries is taken from `Vmm`. -/
def vmm_unmap_page (s : St) (virt : Nat) : Bool × St :=
  let (r, t) := Vmm.vmm_unmap_page s.tables virt
  (r, if r then invlpg { s with mem := t.mem } virt else s)

def vmm_resolve (s : St) (virt : Nat) : Nat := Vmm.vmm_resolve s.tables virt

/-! ## The processor -/

/-- An entry that the processor follows. `boot.asm` does not enable NX, so the top bit is a reserved one. -/
def Follows (e : Nat) : Prop := e &&& PTE_PRESENT ≠ 0 ∧ e < 2 ^ 63

instance (e : Nat) : Decidable (Follows e) := inferInstanceAs (Decidable (_ ∧ _))

/-- The frame that the processor finds in the tables. An entry of the third level may stand for a gigabyte. -/
def walk_frame (s : Vmm.St) (virt : Nat) : Option Nat :=
  let e4 := entry s.mem s.pml4 (index4 virt)
  if ¬ Follows e4 then none else
  let e3 := entry s.mem (frame e4) (index3 virt)
  if ¬ Follows e3 then none else
  if e3 &&& PTE_HUGE ≠ 0 then some (frame e3 / 2 ^ 30 * 2 ^ 30 + index2 virt * 2 ^ 21 + index1 virt * 2 ^ 12) else
  let e2 := entry s.mem (frame e3) (index2 virt)
  if ¬ Follows e2 then none else
  if e2 &&& PTE_HUGE ≠ 0 then some (frame e2 / 2 ^ 21 * 2 ^ 21 + index1 virt * 2 ^ 12) else
  let e1 := entry s.mem (frame e2) (index1 virt)
  if ¬ Follows e1 then none else some (frame e1)

/-- Where an access to a canonical address goes, rights aside; `none` is a page fault. -/
def translate (s : St) (virt : Nat) : Option Nat :=
  ((s.tlb (pageOf virt)).or (walk_frame s.tables virt)).map (· + virt % 4096)

/-! ## Runs -/

/-- A byte of the tables of `boot.asm`, which are in the image of the kernel. -/
def InBoot (base x : Nat) : Prop := base ≤ x ∧ x < base + 3 * PAGE_SIZE

/-- A byte that the rest of the kernel may write: in its image or below, in a page it holds, or in no page of the
allocator's, but not in the boot tables. -/
def Writable (kernel_end base : Nat) (s : St) (held : List Pmm.Grant) (x : Nat) : Prop :=
  ¬ InBoot base x ∧ (x < kernel_end ∨ Pmm.Held held (x / PAGE_SIZE) ∨ s.pages.total_pages ≤ x / PAGE_SIZE)

/-- After `boot.asm`, `pmm_init` and `vmm_init`, with an empty TLB. -/
def boot (kernel_end base : Nat) (mmap : Option (List Pmm.mb2_mmap_entry_t)) (m : Mem) : St :=
  ⟨boot_tables m base, base, Pmm.pmm_init kernel_end mmap, fun _ => none⟩

/-- The linker puts the boot tables into the image of the kernel, above 1 MiB. That image and all pages that the memory
map offers are in the gigabyte that the boot tables map, and the memory map wraps nowhere. -/
structure Placed (kernel_end base : Nat) (mmap : Option (List Pmm.mb2_mmap_entry_t)) : Prop where
  aligned : base % PAGE_SIZE = 0
  low : 0x100000 ≤ base
  image : base + 3 * PAGE_SIZE ≤ kernel_end
  addressable : kernel_end ≤ Pmm.IDENTITY_END
  offered : ¬ Pmm.OffersHigh kernel_end mmap
  fits : Pmm.MapFits mmap

/-- The states after boot, with the map that the successful calls make and the pages that other users of the page
allocator hold. -/
inductive Runs (kernel_end base : Nat) (mmap : Option (List Pmm.mb2_mmap_entry_t)) :
    St → PageMap → List Pmm.Grant → Prop
  | init (m : Mem) : Runs kernel_end base mmap (boot kernel_end base mmap m) (fun _ => none) []
  | map {s A held} (virt phys flags : Nat) : Runs kernel_end base mmap s A held → (Op.map virt phys flags).Word64 →
      Runs kernel_end base mmap (vmm_map_page s virt phys flags).2
        (if (vmm_map_page s virt phys flags).1 then (Op.map virt phys flags).apply A else A) held
  | unmap {s A held} (virt : Nat) : Runs kernel_end base mmap s A held → (Op.unmap virt).Word64 →
      Runs kernel_end base mmap (vmm_unmap_page s virt).2
        (if (vmm_unmap_page s virt).1 then (Op.unmap virt).apply A else A) held
  | fill {s A held} (virt : Nat) : Runs kernel_end base mmap s A held →
      Runs kernel_end base mmap { s with tlb := Function.update s.tlb (pageOf virt) (walk_frame s.tables virt) } A held
  | evict {s A held} (page : Nat) : Runs kernel_end base mmap s A held →
      Runs kernel_end base mmap { s with tlb := Function.update s.tlb page none } A held
  | write {s A held} (m : Mem) : Runs kernel_end base mmap s A held →
      (∀ x, m x ≠ s.mem x → Writable kernel_end base s held x) → Runs kernel_end base mmap { s with mem := m } A held
  | alloc_pages {s A held} (count : Nat) : Runs kernel_end base mmap s A held → count < 2 ^ 64 →
      Runs kernel_end base mmap { s with pages := (Pmm.pmm_alloc_pages s.pages count).2 } A
        (Pmm.grant (Pmm.pmm_alloc_pages s.pages count).1 count held)
  | free_page {s A held} (addr : Nat) : Runs kernel_end base mmap s A held → Pmm.Held held (addr / PAGE_SIZE) →
      Runs kernel_end base mmap { s with pages := Pmm.pmm_free_page s.pages addr } A
        (Pmm.release [addr / PAGE_SIZE] held)
  | free_pages {s A held} (addr count : Nat) : Runs kernel_end base mmap s A held →
      (∀ p ∈ Pmm.named addr count, Pmm.Held held p) →
      Runs kernel_end base mmap { s with pages := Pmm.pmm_free_pages s.pages addr count } A
        (Pmm.release (Pmm.named addr count) held)

/-! ## What the map says -/

/-- The frame of a page: its own in the first gigabyte, above it the one it is mapped to. Frames have 52 bits, and with the
top bit in its address a page cannot be accessed. -/
def frameOf (A : PageMap) (page : Nat) : Option Nat :=
  if page < 2 ^ 18 then some (page * 4096)
  else (A page).bind fun phys => if phys < 2 ^ 63 then some (phys % 2 ^ 52) else none

/-- The tables that the code comes to from the root, by the number of entries on the way. -/
inductive IsTable (s : Vmm.St) : Nat → Nat → Prop
  | root : IsTable s 0 s.pml4
  | link {d a : Nat} (i : Nat) : IsTable s d a → d < 3 → i < 512 → entry s.mem a i &&& PTE_PRESENT ≠ 0 →
      entry s.mem a i &&& PTE_HUGE = 0 → IsTable s (d + 1) (entry s.mem a i &&& ADDR_MASK)

/-- How many tables are missing on the way to an address. -/
def missing (s : Vmm.St) (virt : Nat) : Nat :=
  if entry s.mem s.pml4 (index4 virt) &&& PTE_PRESENT = 0 then 3 else
  let pdpt := entry s.mem s.pml4 (index4 virt) &&& ADDR_MASK
  if entry s.mem pdpt (index3 virt) &&& PTE_PRESENT = 0 then 2 else
  let pd := entry s.mem pdpt (index3 virt) &&& ADDR_MASK
  if entry s.mem pd (index2 virt) &&& PTE_PRESENT = 0 then 1 else 0

end H3OS.Vmm.Machine
