import H3OS.Pe.Builder
import H3OS.Pe.Reloc
import H3OS.Pmm.Theorems
/-!
# Builder and loader

What `build_pe` writes is what the loader reads, as far as the loader needs
it. In the second half of the optional header it is not: the subsystem is
overwritten, and everything behind it lies two bytes too low.
-/
open SysLib

namespace H3OS.Pe

/-! ## The optional header -/

/-- The values that `build_pe` has for the fields of the optional header. -/
def intended (code : List UInt8) : pe32plus_optional_t where
  magic := 0x20B
  major_linker := 14
  minor_linker := 0
  size_of_code := size_of_code code
  size_of_initialized_data := 0
  size_of_uninitialized_data := 0
  address_of_entry_point := entry_rva
  base_of_code := 0x1000
  image_base := image_base
  section_alignment := sect_align
  file_alignment := file_align
  major_os := 6
  minor_os := 0
  major_image := 0
  minor_image := 1
  major_subsys := 3
  minor_subsys := 0
  win32_version := 0
  size_of_image := size_of_image code
  size_of_headers := size_of_headers
  check_sum := 0
  subsystem := 3
  dll_characteristics := 0
  size_of_stack_reserve := 0x100000
  size_of_stack_commit := 0x1000
  size_of_heap_reserve := 0x100000
  size_of_heap_commit := 0x1000
  loader_flags := 0
  number_of_rva_and_sizes := 16

/-- What the loader finds in them. -/
def decoded (code : List UInt8) : pe32plus_optional_t :=
  { intended code with
    subsystem := 0
    size_of_stack_reserve := 0x1000000000000010
    size_of_stack_commit := 0
    size_of_heap_reserve := 0x1000000000000010
    size_of_heap_commit := 0
    loader_flags := 0x100000
    number_of_rva_and_sizes := 0 }

/-- Outside the two fields that depend on the code, the header is always the same. -/
theorem optional_at {code : List UInt8} {x : Nat} (hcode : x < 4 ∨ 4 + 4 ≤ x) (himage : x < 56 ∨ 56 + 4 ≤ x) :
    optional code x = storeAll (fun _ => 0) (optional_writes 0 0) x := by
  have hfield : ∀ {m m' : Mem} {off v v' : Nat} {fs : Fields}, (x < off ∨ off + 4 ≤ x) → m' x = m x →
      storeFields m' off ((4, v') :: fs) x = storeFields m off ((4, v) :: fs) x := by
    intro m m' off v v' fs hx hm
    rw [storeFields, storeFields]
    refine storeFields_at ?_
    rw [store_out hx, store_out hx, hm]
  refine storeAll_at (c := (optional_writes 0 0).drop 8) (hfield himage ?_)
  exact storeAll_at (c := ((optional_writes 0 0).drop 2).take 5) (hfield hcode rfl)

/-- The header of a built file, wherever it is. -/
theorem optional_decoded {code : List UInt8} {m : Mem} {a : Nat} (h : size_of_image code < 2 ^ 32)
    (hm : ∀ k < opt_size, m (a + k) = optional code k) : optional_header m a = decoded code := by
  have himage := size_of_image_eq code
  have hcode : size_of_code code < 256 ^ 4 := by omega
  have himg : size_of_image code < 256 ^ 4 := h
  have hload : ∀ {k w : Nat}, k + w ≤ opt_size → load m (a + k) w = load (optional code) k w := by
    intro k w hk
    have h0 := load_within (a := 0) (fun j hj => (hm j hj).trans (by rw [Nat.zero_add])) hk
    rwa [Nat.zero_add] at h0
  have hconst : ∀ {k w v : Nat}, k + w ≤ opt_size ∧ Apart 4 4 k w ∧ Apart 56 4 k w ∧
      load (storeAll (fun _ => 0) (optional_writes 0 0)) k w = v → load m (a + k) w = v := by
    rintro k w v ⟨hk, h4, h56, rfl⟩
    unfold Apart at h4 h56
    rw [hload hk]
    exact load_congr (fun x h1 h2 => optional_at (by omega) (by omega))
  unfold optional_header decoded intended
  simp only [pe32plus_optional_t.mk.injEq]
  refine ⟨hconst (k := 0) ?_, hconst ?_, hconst ?_, ?_, hconst ?_, hconst ?_, hconst ?_, hconst ?_, hconst ?_, hconst ?_,
    hconst ?_, hconst ?_, hconst ?_, hconst ?_, hconst ?_, hconst ?_, hconst ?_, hconst ?_, ?_, hconst ?_, hconst ?_,
    hconst ?_, hconst ?_, hconst ?_, hconst ?_, hconst ?_, hconst ?_, hconst ?_, hconst ?_⟩
  case refine_4 =>
    rw [hload (by decide)]
    refine load_storeAll [_] _ [] _ hcode ?_
    simp [Apart]
  case refine_19 =>
    rw [hload (by decide)]
    refine load_storeAll [_, _, _, _, _, _, _] _ [] _ himg ?_
    decide
  all_goals decide +kernel

/-- The loader finds what the builder has for each field, and no field is written over another. -/
structure RoundTrips (code : List UInt8) (raw : Bytearray) : Prop where
  header : optional_header raw.mem (opt_at raw.mem) = intended code
  apart : ((optional_writes (size_of_code code) (size_of_image code)).flatMap (fun c => Fields.ranges c.1 c.2)).Pairwise
    (fun r t => Apart r.1 r.2 t.1 t.2)

theorem built_header {code : List UInt8} {raw : Bytearray} (h : build_pe code = some raw) :
    optional_header raw.mem (opt_at raw.mem) = decoded code := by
  have hb := built h
  have hopt : opt_at raw.mem = 0x98 := by
    unfold opt_at e_lfanew
    rw [hb.lfanew]
    rfl
  rw [hopt]
  exact optional_decoded hb.fits hb.opt

/-- The header of a built file never survives the trip. -/
theorem header_never_round_trips {code : List UInt8} {raw : Bytearray} (h : build_pe code = some raw) :
    ¬ RoundTrips code raw := by
  intro hround
  have hsub := congrArg pe32plus_optional_t.number_of_rva_and_sizes ((built_header h).symm.trans hround.header)
  cases hsub

/-- A program of one `ret`. -/
theorem built_ret : ∃ raw, build_pe [0xC3] = some raw := Option.isSome_iff_exists.1 (by decide +kernel)

theorem header_never_round_trips_ret : ∃ raw, build_pe [0xC3] = some raw ∧ ¬ RoundTrips [0xC3] raw := by
  obtain ⟨raw, h⟩ := built_ret
  exact ⟨raw, h, header_never_round_trips h⟩

theorem ret_subsystem_overwritten : ∃ raw, build_pe [0xC3] = some raw ∧
    (optional_header raw.mem (opt_at raw.mem)).subsystem = 0 ∧
    (optional_header raw.mem (opt_at raw.mem)).number_of_rva_and_sizes = 0 ∧ ¬ RoundTrips [0xC3] raw := by
  obtain ⟨raw, h⟩ := built_ret
  have hhead := built_header h
  refine ⟨raw, h, ?_, ?_, fun hround => ?_⟩
  · rw [hhead]
    rfl
  · rw [hhead]
    rfl
  · have hsub := congrArg pe32plus_optional_t.subsystem (hhead.symm.trans hround.header)
    cases hsub

/-! ## Loading a built file -/

/-- The signature, byte by byte. -/
theorem signature_bytes {m : Mem} {p : Nat} (h : load m p 4 = 0x4550) :
    m p = 0x50 ∧ m (p + 1) = 0x45 ∧ m (p + 2) = 0 ∧ m (p + 3) = 0 := by
  simp only [load, Nat.add_assoc, Nat.reduceAdd] at h
  have h0 := (m p).toNat_lt
  have h1 := (m (p + 1)).toNat_lt
  have h2 := (m (p + 2)).toNat_lt
  have h3 := (m (p + 3)).toNat_lt
  refine ⟨UInt8.toNat_inj.1 ?_, UInt8.toNat_inj.1 ?_, UInt8.toNat_inj.1 ?_, UInt8.toNat_inj.1 ?_⟩
  · change _ = 0x50
    omega
  · change _ = 0x45
    omega
  · change _ = 0
    omega
  · change _ = 0
    omega

section
variable {code : List UInt8} {raw : Bytearray} {data : Mem} (hb : Built code raw) (hdata : ∀ x < raw.len, data x = raw.mem x)
include hb hdata

theorem Built.load_eq {a w : Nat} (h : a + w ≤ 0x200) : load data a w = load raw.mem a w :=
  load_congr (fun x _ hx => hdata x (by rw [hb.len]; omega))

theorem Built.e_lfanew_eq : e_lfanew data = 0x80 := (hb.load_eq hdata (by decide)).trans hb.lfanew

theorem Built.coff_eq : coff_header data (e_lfanew data) = ⟨0x4550, IMAGE_FILE_MACHINE_AMD64, 1, opt_size⟩ := by
  rw [hb.e_lfanew_eq hdata, ← hb.coff]
  refine coff_header_shift (fun k hk => hdata _ ?_)
  rw [hb.len]
  unfold COFF_HEADER at hk
  omega

theorem Built.optional_eq : optional_header data (opt_at data) = decoded code := by
  have hopt : opt_at data = 0x98 := by
    unfold opt_at
    rw [hb.e_lfanew_eq hdata]
    rfl
  rw [hopt]
  refine optional_decoded hb.fits (fun k hk => ?_)
  rw [← hb.opt k hk]
  refine hdata _ ?_
  rw [hb.len]
  unfold opt_size at hk
  omega

theorem Built.probe : pe_probe data raw.len =
    accept ⟨0x4550, IMAGE_FILE_MACHINE_AMD64, 1, opt_size⟩ (decoded code) := by
  have hcoff := hb.coff_eq hdata
  have hsig := signature_bytes (congrArg coff_header_t.signature hcoff)
  have hmagic : e_magic data = 0x5A4D := (hb.load_eq hdata (by decide)).trans hb.magic
  have hlfanew := hb.e_lfanew_eq hdata
  have hlen := hb.len
  unfold pe_probe
  dsimp only
  rw [if_neg (by unfold DOS_HEADER; omega), if_neg (not_not.2 hmagic),
    if_neg (by rw [hlfanew, hlen]; unfold COFF_HEADER; omega), if_neg (by simp [hsig]), hcoff, hb.optional_eq hdata]
  rfl

/-- The image of a built file: headers, code, and zeroes. -/
theorem Built.image (hne : code ≠ []) (mem : Mem) : load_image data raw.len (pe_probe data raw.len).2 mem =
    blit (blit (fill mem 0 (size_of_image code) 0) 0 data 0 0x200) 0x1000 data 0x200 (size_of_code code) := by
  have hpos : 0 < code.length := List.length_pos_iff.2 hne
  have hcode := size_of_code_eq code
  have himage := size_of_image_eq code
  have hsecs : secs_at data = 0x188 := by
    unfold secs_at opt_at
    rw [hb.coff_eq hdata, hb.e_lfanew_eq hdata]
    rfl
  have hsect : section_header data 0x188 = ⟨code.length, 0x1000, size_of_code code, size_of_headers⟩ := by
    rw [← hb.sect]
    refine section_header_shift (fun k hk => hdata _ ?_)
    rw [hb.len]
    unfold SECTION_HEADER at hk
    omega
  have hhdr : (decoded code).size_of_headers = 0x200 := size_of_headers_eq
  have hsoi : (decoded code).size_of_image = size_of_image code := rfl
  rw [hb.probe hdata]
  unfold load_image accept
  dsimp only
  rw [hhdr, hsoi, if_neg (show ¬ 0x200 > raw.len by rw [hb.len]; omega),
    if_neg (show ¬ 0x200 > size_of_image code by omega), forRange_succ (le_refl 0), forRange_of_le (le_refl 0),
    hsecs, Nat.mul_zero, Nat.add_zero, hsect, load_section]
  dsimp only
  rw [size_of_headers_eq, if_neg (by omega), if_neg (by rw [hb.len]; omega), if_neg (by omega)]

/-- Nothing in a built file asks for relocation. -/
theorem Built.notDue (load_base preferred : Nat) : NotDue data load_base preferred := by
  refine .inr (.inl ?_)
  rw [hb.optional_eq hdata]
  exact Nat.zero_lt_succ 5

/-- Loading a built file leads to its entry point, if there is memory for the image. -/
theorem Built.pe_load (hne : code ≠ []) (fuel : Nat) {s mem : Backed.St} {phys : Nat} (hphys : phys ≠ 0)
    (halloc : alloc_image s (H3OS_ALIGN_UP (size_of_image code) PAGE_SIZE / PAGE_SIZE) (size_of_image code) =
      some (phys, mem)) :
    pe_load fuel s data raw.len = some (.ok ⟨phys, load_image data raw.len (pe_probe data raw.len).2
      (fun x => mem.heap.mem (phys + x)), [], 0x1000⟩, mem) := by
  have hpos : 0 < code.length := List.length_pos_iff.2 hne
  have hcode := size_of_code_eq code
  have himage := size_of_image_eq code
  have hfits := hb.fits
  have hentry : 0x1000 < size_of_image code := by omega
  have hup : H3OS_ALIGN_UP (size_of_image code) PAGE_SIZE / PAGE_SIZE ≠ 0 := by
    have : H3OS_ALIGN_UP (size_of_image code) PAGE_SIZE = _ := align_up_eq (k := 12) (by decide) (by omega)
    rw [this]
    unfold PAGE_SIZE
    omega
  unfold Pe.pe_load
  rw [hb.probe hdata]
  unfold accept
  dsimp only
  rw [if_neg (by decide), show (decoded code).size_of_image = size_of_image code from rfl, if_neg hup, halloc]
  dsimp only
  rw [if_neg hphys, apply_relocations_skips (hb.notDue hdata _ _)]
  dsimp only
  rw [show (decoded code).address_of_entry_point = 0x1000 from rfl, if_neg (not_le.2 hentry)]

end

/-- The loader enters a built file with the code in place and zeroes behind it. -/
theorem builder_loader_agree {code : List UInt8} {raw : Bytearray} {data : Mem} (hne : code ≠ [])
    (h : build_pe code = some raw) (hdata : ∀ x < raw.len, data x = raw.mem x) :
    (pe_probe data raw.len).1 = true ∧ (pe_probe data raw.len).2.size_of_image = size_of_image code ∧
    ∀ (fuel : Nat) (s : Pe.St) (phys : Nat) (mem : Backed.St),
      alloc_image s.mem (H3OS_ALIGN_UP (size_of_image code) PAGE_SIZE / PAGE_SIZE) (size_of_image code) = some (phys, mem) →
      phys ≠ 0 →
      ∃ image, (∀ program, pe_run program fuel s data raw.len = (program ⟨phys, image, [], 0x1000⟩).map (finish mem)) ∧
        (∀ i (hi : i < code.length), image (0x1000 + i) = code.get ⟨i, hi⟩) ∧
        ∀ x, 0x1000 + code.length ≤ x → x < size_of_image code → image x = 0 := by
  have hb := built h
  have hcode := size_of_code_eq code
  have hprobe := hb.probe hdata
  refine ⟨by rw [hprobe]; rfl, by rw [hprobe]; rfl, fun fuel s phys mem halloc hphys => ?_⟩
  have himg := hb.image hdata hne (fun x => mem.heap.mem (phys + x))
  refine ⟨load_image data raw.len (pe_probe data raw.len).2 (fun x => mem.heap.mem (phys + x)), ?_, ?_, ?_⟩
  · intro program
    unfold pe_run
    rw [hb.pe_load hdata hne fuel hphys halloc]
  · intro i hi
    rw [himg, blit_in (by omega) (by omega), ← hb.body i hi, show 0x200 + (0x1000 + i - 0x1000) = 0x200 + i by omega]
    exact hdata _ (by rw [hb.len]; omega)
  · intro x hx hlt
    rw [himg]
    by_cases hin : x < 0x1000 + size_of_code code
    · rw [blit_in (by omega) hin, hdata _ (by rw [hb.len]; omega)]
      exact hb.padding _ (by omega)
    · rw [blit_out (by omega), blit_out (by omega)]
      exact if_pos ⟨Nat.zero_le x, by omega⟩

/-- With pages for the image the heap is not asked. -/
theorem alloc_image_pages {s : Backed.St} {n size phys : Nat} {pmm : Pmm.St}
    (h : Pmm.pmm_alloc_pages s.pmm n = (phys, pmm)) (hphys : phys ≠ 0) :
    alloc_image s n size = some (phys, { s with pmm := pmm }) := by
  unfold alloc_image
  rw [h]
  exact if_pos hphys

/-- A machine with four free pages and a fresh heap. -/
def smallMachine : St :=
  ⟨⟨Pmm.pmm_init 0x101000 Pmm.smallMap, Heap.heap_init (fun _ => 0) 0x200000⟩, 0, false⟩

/-- The same with two of the pages taken. -/
def smallMachineTaken : Backed.St :=
  { smallMachine.mem with pmm := Pmm.take_run (Pmm.pmm_init 0x101000 Pmm.smallMap) 257 2 }

/-- An image of two pages gets them. -/
theorem smallMachine_alloc : alloc_image smallMachine.mem 2 0x2000 = some (0x101000, smallMachineTaken) :=
  alloc_image_pages Pmm.smallMap_alloc (by decide)

/-- A program of one `ret` is entered there, and returns. -/
theorem builder_loader_agree_ret : ∃ raw mem, build_pe [0xC3] = some raw ∧
    pe_run (fun l => if l.image 0x1000 = 0xC3 ∧ l.entry_rva = 0x1000 then some ⟨7, none⟩ else none) 0 smallMachine raw.mem
      raw.len = some (finish mem ⟨7, none⟩) := by
  obtain ⟨raw, h⟩ := built_ret
  obtain ⟨-, -, hrun⟩ := builder_loader_agree (by decide) h (fun _ _ => rfl)
  have hsize : size_of_image [0xC3] = 0x2000 := by decide
  have hpages : H3OS_ALIGN_UP 0x2000 PAGE_SIZE / PAGE_SIZE = 2 := by decide +kernel
  rw [hsize, hpages] at hrun
  obtain ⟨image, hprogram, hcode, -⟩ := hrun 0 smallMachine _ _ smallMachine_alloc (by decide)
  refine ⟨raw, smallMachineTaken, h, ?_⟩
  rw [hprogram]
  dsimp only
  rw [if_pos ⟨hcode 0 (by decide), rfl⟩]
  rfl

end H3OS.Pe
