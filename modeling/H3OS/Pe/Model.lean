import H3OS.Heap.Backed
/-!
# The PE32+ loader

`loader/pe.c`. The file is the memory at `data`, of which `size` bytes are the
file's; offsets into the image are relative to where it was loaded. The image
lies in memory that the allocators handed out, and its bytes are kept apart
from their own data. `apply_relocations` also returns the bytes of the image
that it read or wrote, as offset and width.
-/
open SysLib

namespace H3OS.Pe

/-! ## Headers -/

/-- `sizeof(dos_header_t)`. -/
def DOS_HEADER : Nat := 64
/-- `sizeof(coff_header_t)`. -/
def COFF_HEADER : Nat := 24
/-- `sizeof(pe32plus_optional_t)`. -/
def OPTIONAL_HEADER : Nat := 112
/-- `sizeof(section_header_t)`. -/
def SECTION_HEADER : Nat := 40

def IMAGE_FILE_MACHINE_AMD64 : Nat := 0x8664
def IMAGE_REL_BASED_DIR64 : Nat := 10
def IMAGE_REL_BASED_HIGHLOW : Nat := 3

def e_magic (data : Mem) : Nat := load data 0 2
def e_lfanew (data : Mem) : Nat := load data 0x3C 4

structure coff_header_t where
  signature : Nat
  machine : Nat
  number_of_sections : Nat
  size_of_optional_header : Nat
deriving DecidableEq

def coff_header (m : Mem) (a : Nat) : coff_header_t := ⟨load m a 4, load m (a + 4) 2, load m (a + 6) 2, load m (a + 20) 2⟩

structure pe32plus_optional_t where
  magic : Nat
  major_linker : Nat
  minor_linker : Nat
  size_of_code : Nat
  size_of_initialized_data : Nat
  size_of_uninitialized_data : Nat
  address_of_entry_point : Nat
  base_of_code : Nat
  image_base : Nat
  section_alignment : Nat
  file_alignment : Nat
  major_os : Nat
  minor_os : Nat
  major_image : Nat
  minor_image : Nat
  major_subsys : Nat
  minor_subsys : Nat
  win32_version : Nat
  size_of_image : Nat
  size_of_headers : Nat
  check_sum : Nat
  subsystem : Nat
  dll_characteristics : Nat
  size_of_stack_reserve : Nat
  size_of_stack_commit : Nat
  size_of_heap_reserve : Nat
  size_of_heap_commit : Nat
  loader_flags : Nat
  number_of_rva_and_sizes : Nat
deriving DecidableEq

/-- The packed header at `a`. -/
def optional_header (m : Mem) (a : Nat) : pe32plus_optional_t where
  magic := load m a 2
  major_linker := load m (a + 2) 1
  minor_linker := load m (a + 3) 1
  size_of_code := load m (a + 4) 4
  size_of_initialized_data := load m (a + 8) 4
  size_of_uninitialized_data := load m (a + 12) 4
  address_of_entry_point := load m (a + 16) 4
  base_of_code := load m (a + 20) 4
  image_base := load m (a + 24) 8
  section_alignment := load m (a + 32) 4
  file_alignment := load m (a + 36) 4
  major_os := load m (a + 40) 2
  minor_os := load m (a + 42) 2
  major_image := load m (a + 44) 2
  minor_image := load m (a + 46) 2
  major_subsys := load m (a + 48) 2
  minor_subsys := load m (a + 50) 2
  win32_version := load m (a + 52) 4
  size_of_image := load m (a + 56) 4
  size_of_headers := load m (a + 60) 4
  check_sum := load m (a + 64) 4
  subsystem := load m (a + 68) 2
  dll_characteristics := load m (a + 70) 2
  size_of_stack_reserve := load m (a + 72) 8
  size_of_stack_commit := load m (a + 80) 8
  size_of_heap_reserve := load m (a + 88) 8
  size_of_heap_commit := load m (a + 96) 8
  loader_flags := load m (a + 104) 4
  number_of_rva_and_sizes := load m (a + 108) 4

structure section_header_t where
  virtual_size : Nat
  virtual_address : Nat
  size_of_raw_data : Nat
  pointer_to_raw_data : Nat
deriving DecidableEq

def section_header (m : Mem) (a : Nat) : section_header_t :=
  ⟨load m (a + 8) 4, load m (a + 12) 4, load m (a + 16) 4, load m (a + 20) 4⟩

structure data_dir_t where
  virtual_address : Nat
  size : Nat
deriving DecidableEq

def data_dir (m : Mem) (a : Nat) : data_dir_t := ⟨load m a 4, load m (a + 4) 4⟩

/-- Where the optional header starts. -/
def opt_at (data : Mem) : Nat := e_lfanew data + COFF_HEADER

/-- Where the section table starts. -/
def secs_at (data : Mem) : Nat := opt_at data + (coff_header data (e_lfanew data)).size_of_optional_header

/-! ## Probing -/

structure pe_info_t where
  valid : Bool
  is_pe32plus : Bool
  machine : Nat
  entry_rva : Nat
  image_base : Nat
  size_of_image : Nat
  size_of_headers : Nat
  number_of_sections : Nat
  error : Option String
deriving DecidableEq

def reject (error : String) : Bool × pe_info_t := (false, ⟨false, false, 0, 0, 0, 0, 0, 0, some error⟩)

/-- What is reported of a file that passes. -/
def accept (coff : coff_header_t) (opt : pe32plus_optional_t) : Bool × pe_info_t :=
  (true, ⟨true, true, coff.machine, opt.address_of_entry_point, opt.image_base, opt.size_of_image, opt.size_of_headers,
    coff.number_of_sections, none⟩)

def pe_probe (data : Mem) (size : Nat) : Bool × pe_info_t :=
  if size < DOS_HEADER then reject "too small" else
  if e_magic data ≠ 0x5A4D then reject "not MZ" else
  let p := e_lfanew data
  if p = 0 ∨ p + COFF_HEADER + 4 > size then reject "bad e_lfanew" else
  if data p ≠ 0x50 ∨ data (p + 1) ≠ 0x45 ∨ data (p + 2) ≠ 0 ∨ data (p + 3) ≠ 0 then reject "no PE signature" else
  let coff := coff_header data p
  if coff.signature ≠ 0x00004550 then reject "bad PE sig" else
  if coff.machine ≠ IMAGE_FILE_MACHINE_AMD64 then reject "not AMD64" else
  if coff.size_of_optional_header < OPTIONAL_HEADER then reject "optional header too small" else
  let opt := optional_header data (opt_at data)
  if opt.magic ≠ 0x20B then reject "not PE32+" else
  accept coff opt

/-- One check more in front. -/
theorem check_cases {c : Prop} [Decidable c] {error : String} {x y : Bool × pe_info_t}
    (h : (∃ error, x = reject error) ∨ x = y) :
    (∃ e, (if c then reject error else x) = reject e) ∨ (if c then reject error else x) = y := by
  by_cases hc : c
  · rw [if_pos hc]
    exact .inl ⟨error, rfl⟩
  · rw [if_neg hc]
    exact h

theorem pe_probe_cases (data : Mem) (size : Nat) :
    (∃ error, pe_probe data size = reject error) ∨
    pe_probe data size = accept (coff_header data (e_lfanew data)) (optional_header data (opt_at data)) := by
  unfold pe_probe
  dsimp only
  iterate 8 apply check_cases
  exact .inr rfl

/-! ## Relocating -/

/-- Bytes of the image that were read or written: the first and how many. -/
abbrev Access := Nat × Nat

/-- What is done for one entry of a block. -/
def relocate (delta page_rva e : Nat) (image : Mem) : Mem × List Access :=
  let type := e / 2 ^ 12
  let target := page_rva + e % 2 ^ 12
  if type = IMAGE_REL_BASED_DIR64 then (store image target 8 (add64 (load image target 8) delta), [(target, 8)])
  else if type = IMAGE_REL_BASED_HIGHLOW then
    (store image target 4 ((load image target 4 + delta % 2 ^ 32) % 2 ^ 32), [(target, 4)])
  else (image, [])

/-- The loop over the entries of a block, `n` of them from `a` on. -/
def entries (delta page_rva : Nat) : Nat → Nat → Mem → Mem × List Access
  | 0, _, image => (image, [])
  | n + 1, a, image =>
    let r := relocate delta page_rva (load image a 2) image
    let t := entries delta page_rva n (a + 2) r.1
    (t.1, (a, 2) :: r.2 ++ t.2)

/-- The loop over the blocks. The counter has 32 bits; `none` when the loop has not ended after `fuel` turns. -/
def blocks (delta : Nat) (dir : data_dir_t) : Nat → Nat → Mem → Option (Mem × List Access)
  | 0, _, _ => none
  | fuel + 1, pos, image =>
    if dir.size < (pos + 8) % 2 ^ 32 then some (image, []) else
    let a := dir.virtual_address + pos
    let page_rva := load image a 4
    let block_size := load image (a + 4) 4
    if block_size < 8 then some (image, [(a, 4), (a + 4, 4)]) else
    let r := entries delta page_rva ((block_size - 8) / 2) (a + 8) image
    (blocks delta dir fuel ((pos + block_size) % 2 ^ 32) r.1).map (fun t => (t.1, (a, 4) :: (a + 4, 4) :: r.2 ++ t.2))

/-- The directory of base relocations, the sixth of the optional header's. -/
def reloc_dir (data : Mem) : data_dir_t := data_dir data (opt_at data + 112 + 5 * 8)

def apply_relocations (fuel : Nat) (image : Mem) (load_base preferred : Nat) (data : Mem) : Option (Mem × List Access) :=
  if load_base = preferred then some (image, []) else
  if (optional_header data (opt_at data)).number_of_rva_and_sizes < 6 then some (image, []) else
  if (reloc_dir data).virtual_address = 0 ∨ (reloc_dir data).size = 0 then some (image, []) else
  blocks (sub64 load_base preferred) (reloc_dir data) fuel 0 image

/-! ## Loading -/

/-- Copy one section, if file and image have room for it. -/
def load_section (data : Mem) (size size_of_image : Nat) (s : section_header_t) (image : Mem) : Mem :=
  if s.size_of_raw_data = 0 ∨ s.pointer_to_raw_data = 0 then image else
  if s.pointer_to_raw_data + s.size_of_raw_data > size then image else
  if s.virtual_address + s.size_of_raw_data > size_of_image then image else
  blit image s.virtual_address data s.pointer_to_raw_data s.size_of_raw_data

/-- The image before relocation, over the memory that was there before. -/
def load_image (data : Mem) (size : Nat) (info : pe_info_t) (mem : Mem) : Mem :=
  let image := fill mem 0 info.size_of_image 0
  let hdr_copy := if info.size_of_headers > size then size else info.size_of_headers
  let hdr_copy := if hdr_copy > info.size_of_image then info.size_of_image else hdr_copy
  let image := blit image 0 data 0 hdr_copy
  forRange 0 info.number_of_sections (fun i image =>
    load_section data size info.size_of_image (section_header data (secs_at data + SECTION_HEADER * i)) image) image

/-- Memory for the image: pages, or a heap block when there are none. The address is 0 when there is no memory. -/
def alloc_image (s : Backed.St) (img_pages size_of_image : Nat) : Option (Nat × Backed.St) :=
  let (phys, pmm) := Pmm.pmm_alloc_pages s.pmm img_pages
  if phys ≠ 0 then some (phys, { s with pmm := pmm }) else Backed.kmalloc { s with pmm := pmm } size_of_image

/-- The ways in which `pe_run` gives up. -/
inductive Failure where
  | rejected (error : Option String)
  | no_pages
  | no_memory
  | bad_entry_rva

/-- An image that is about to be entered. -/
structure Loaded where
  base : Nat
  image : Mem
  relocated : List Access
  entry_rva : Nat

/-- `pe_run` up to the call of the entry point. -/
def pe_load (fuel : Nat) (s : Backed.St) (data : Mem) (size : Nat) : Option (Except Failure Loaded × Backed.St) :=
  let (ok, info) := pe_probe data size
  if ok = false then some (.error (.rejected info.error), s) else
  let img_pages := H3OS_ALIGN_UP info.size_of_image PAGE_SIZE / PAGE_SIZE
  if img_pages = 0 then some (.error .no_pages, s) else
  match alloc_image s img_pages info.size_of_image with
  | none => none
  | some (phys, s) =>
    if phys = 0 then some (.error .no_memory, s) else
    -- from here on no exit gives the memory back
    let image := load_image data size info (fun x => s.heap.mem (phys + x))
    match apply_relocations fuel image phys info.image_base data with
    | none => none
    | some (image, relocated) =>
      if info.entry_rva ≥ info.size_of_image then some (.error .bad_entry_rva, s)
      else some (.ok ⟨phys, image, relocated, info.entry_rva⟩, s)

/-- What a program does before it returns: the value it returns, and the code it passed to `exit`, if it did. -/
structure Outcome where
  rc : Int
  exit : Option Int

structure St where
  mem : Backed.St
  g_exit_code : Int
  g_exited : Bool

/-- The end of `pe_run`, after the entry point has returned. -/
def finish (mem : Backed.St) (o : Outcome) : Int × St :=
  let s : St := ⟨mem, 0, false⟩
  let s := match o.exit with
    | some code => { s with g_exit_code := code, g_exited := true }
    | none => s
  (if s.g_exited = true then s.g_exit_code else o.rc, s)

/-- `program` is what entering the image does; it allocates nothing, and `none` means that it does not return. -/
def pe_run (program : Loaded → Option Outcome) (fuel : Nat) (s : St) (data : Mem) (size : Nat) : Option (Int × St) :=
  match pe_load fuel s.mem data size with
  | none => none
  | some (.error _, mem) => some (-1, { s with mem := mem })
  | some (.ok l, mem) => (program l).map (finish mem)

def pe_last_exit_code (s : St) : Int := s.g_exit_code

end H3OS.Pe
