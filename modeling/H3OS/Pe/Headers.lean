import H3OS.Lib.Trace
import H3OS.Pe.Layout
import H3OS.Pe.Release
/-!
# Reading the headers

`pe_probe` and `pe_run` again, with the reads of the file's headers noted in
the order of the source. `pe_probe` checks that the COFF header and four bytes
more lie in the file; the optional header, the section table and the data
directories are read without a check against the size of the file.
-/
open SysLib Traced

namespace H3OS.Pe

/-! ## Probing -/

def pe_probe_traced (data : Mem) (size : Nat) : Traced (Bool × pe_info_t) :=
  if size < DOS_HEADER then pure (reject "too small") else do
  let e_magic ← read data 0 2
  if e_magic ≠ 0x5A4D then pure (reject "not MZ") else do
  let p ← read data 0x3C 4
  if p = 0 ∨ p + COFF_HEADER + 4 > size then pure (reject "bad e_lfanew") else do
  -- `||` reads no further than the first byte that differs
  let c0 ← read data p 1
  if c0 ≠ 0x50 then pure (reject "no PE signature") else do
  let c1 ← read data (p + 1) 1
  if c1 ≠ 0x45 then pure (reject "no PE signature") else do
  let c2 ← read data (p + 2) 1
  if c2 ≠ 0 then pure (reject "no PE signature") else do
  let c3 ← read data (p + 3) 1
  if c3 ≠ 0 then pure (reject "no PE signature") else do
  let signature ← read data p 4
  if signature ≠ 0x00004550 then pure (reject "bad PE sig") else do
  let machine ← read data (p + 4) 2
  if machine ≠ IMAGE_FILE_MACHINE_AMD64 then pure (reject "not AMD64") else do
  let size_of_optional_header ← read data (p + 20) 2
  if size_of_optional_header < OPTIONAL_HEADER then pure (reject "optional header too small") else do
  let opt := p + COFF_HEADER
  let magic ← read data opt 2
  if magic ≠ 0x20B then pure (reject "not PE32+") else do
  let machine ← read data (p + 4) 2
  let entry_rva ← read data (opt + 16) 4
  let image_base ← read data (opt + 24) 8
  let size_of_image ← read data (opt + 56) 4
  let size_of_headers ← read data (opt + 60) 4
  let number_of_sections ← read data (p + 6) 2
  pure (true, ⟨true, true, machine, entry_rva, image_base, size_of_image, size_of_headers, number_of_sections, none⟩)

/-! ## Loading -/

def load_section_traced (data : Mem) (size size_of_image a : Nat) (image : Mem) : Traced Mem := do
  let raw ← read data (a + 16) 4
  if raw = 0 then pure image else do
  let pointer ← read data (a + 20) 4
  if pointer = 0 then pure image else
  if pointer + raw > size then pure image else do
  let virtual_address ← read data (a + 12) 4
  if virtual_address + raw > size_of_image then pure image else
  pure (blit image virtual_address data pointer raw)

/-- The loop over the first `n` sections of the table at `secs`. -/
def load_sections_traced (data : Mem) (size size_of_image secs : Nat) : Nat → Mem → Traced Mem
  | 0, image => pure image
  | n + 1, image => do
    let image ← load_sections_traced data size size_of_image secs n image
    load_section_traced data size size_of_image (secs + SECTION_HEADER * n) image

def apply_relocations_traced (fuel : Nat) (image : Mem) (load_base preferred : Nat) (data : Mem) (opt : Nat) :
    Traced (Option (Mem × List Access)) :=
  if load_base = preferred then pure (some (image, [])) else do
  let number_of_rva_and_sizes ← read data (opt + 108) 4
  if number_of_rva_and_sizes < 6 then pure (some (image, [])) else do
  let virtual_address ← read data (opt + 112 + 5 * 8) 4
  if virtual_address = 0 then pure (some (image, [])) else do
  let dir_size ← read data (opt + 112 + 5 * 8 + 4) 4
  if dir_size = 0 then pure (some (image, [])) else
  pure (blocks (sub64 load_base preferred) ⟨virtual_address, dir_size⟩ fuel 0 image)

/-- The end of `pe_run` before the image is entered. -/
def enter (s : Backed.St) (phys : Nat) (info : pe_info_t) :
    Option (Mem × List Access) → Option (Except Failure Loaded × Backed.St)
  | none => none
  | some (image, relocated) =>
    if info.entry_rva ≥ info.size_of_image then some (.error .bad_entry_rva, s)
    else some (.ok ⟨phys, image, relocated, info.entry_rva⟩, s)

/-- `pe_run` after the file was accepted. -/
def load_accepted_traced (fuel : Nat) (s : Backed.St) (data : Mem) (size : Nat) (info : pe_info_t) :
    Traced (Option (Except Failure Loaded × Backed.St)) := do
  let p ← read data 0x3C 4
  let size_of_optional_header ← read data (p + 20) 2
  let opt := p + COFF_HEADER
  let secs := opt + size_of_optional_header
  let img_pages := H3OS_ALIGN_UP info.size_of_image PAGE_SIZE / PAGE_SIZE
  if img_pages = 0 then pure (some (.error .no_pages, s)) else
  match alloc_image s img_pages info.size_of_image with
  | none => pure none
  | some (phys, s) =>
    if phys = 0 then pure (some (.error .no_memory, s)) else do
    let image ← load_sections_traced data size info.size_of_image secs info.number_of_sections
      (header_image data size info (fun x => s.heap.mem (phys + x)))
    let r ← apply_relocations_traced fuel image phys info.image_base data opt
    pure (enter s phys info r)

def pe_load_traced (fuel : Nat) (s : Backed.St) (data : Mem) (size : Nat) :
    Traced (Option (Except Failure Loaded × Backed.St)) := do
  let probed ← pe_probe_traced data size
  if probed.1 = false then pure (some (.error (.rejected probed.2.error), s))
  else load_accepted_traced fuel s data size probed.2

/-! ## The reads change nothing -/

theorem byte_eq_iff (m : Mem) (a : Nat) (b : UInt8) : load m a 1 = b.toNat ↔ m a = b := by
  rw [show load m a 1 = (m a).toNat by simp [load]]
  exact UInt8.toNat_inj

theorem pe_probe_traced_val (data : Mem) (size : Nat) : (pe_probe_traced data size).val = pe_probe data size := by
  have h0 : load data (e_lfanew data) 1 = 0x50 ↔ _ := byte_eq_iff data (e_lfanew data) 0x50
  have h1 : load data (e_lfanew data + 1) 1 = 0x45 ↔ _ := byte_eq_iff data (e_lfanew data + 1) 0x45
  have h2 : load data (e_lfanew data + 2) 1 = 0 ↔ _ := byte_eq_iff data (e_lfanew data + 2) 0
  have h3 : load data (e_lfanew data + 3) 1 = 0 ↔ _ := byte_eq_iff data (e_lfanew data + 3) 0
  have hp : load data 0x3C 4 = e_lfanew data := rfl
  unfold pe_probe_traced pe_probe
  simp only [ite_val, bind_val, pure_val]
  simp only [read_val, ne_eq, hp, h0, h1, h2, h3, ite_or]
  rfl

theorem load_section_traced_val (data : Mem) (size size_of_image a : Nat) (image : Mem) :
    (load_section_traced data size size_of_image a image).val =
      load_section data size size_of_image (section_header data a) image := by
  unfold load_section_traced load_section
  simp only [ite_val, bind_val, pure_val]
  simp only [read_val, ite_or]
  rfl

theorem load_sections_traced_val (data : Mem) (size size_of_image secs n : Nat) (image : Mem) :
    (load_sections_traced data size size_of_image secs n image).val =
      forRange 0 n (fun i image => load_section data size size_of_image (section_header data (secs + SECTION_HEADER * i)) image)
        image := by
  induction n with
  | zero => rw [load_sections_traced, forRange_of_le (Nat.le_refl 0), pure_val]
  | succ n ih =>
    rw [load_sections_traced, bind_val, load_section_traced_val, ih, forRange_succ (Nat.zero_le n)]

theorem apply_relocations_traced_val (fuel : Nat) (image : Mem) (load_base preferred : Nat) (data : Mem) :
    (apply_relocations_traced fuel image load_base preferred data (opt_at data)).val =
      apply_relocations fuel image load_base preferred data := by
  unfold apply_relocations_traced apply_relocations
  simp only [ite_val, bind_val, pure_val]
  simp only [read_val, ite_or]
  rfl

/-- Noting the reads does not change what `pe_run` does. -/
theorem pe_load_traced_val (fuel : Nat) (s : Backed.St) (data : Mem) (size : Nat) :
    (pe_load_traced fuel s data size).val = pe_load fuel s data size := by
  unfold pe_load_traced pe_load
  rw [bind_val, pe_probe_traced_val]
  rcases pe_probe data size with ⟨ok, info⟩
  dsimp only
  rw [ite_val]
  by_cases hok : ok = false
  · rw [if_pos hok, if_pos hok, pure_val]
  rw [if_neg hok, if_neg hok, load_accepted_traced]
  simp only [bind_val, ite_val, pure_val]
  by_cases hpages : H3OS_ALIGN_UP info.size_of_image PAGE_SIZE / PAGE_SIZE = 0
  · rw [if_pos hpages, if_pos hpages]
  rw [if_neg hpages, if_neg hpages]
  cases alloc_image s (H3OS_ALIGN_UP info.size_of_image PAGE_SIZE / PAGE_SIZE) info.size_of_image with
  | none => rfl
  | some r =>
    obtain ⟨phys, s'⟩ := r
    simp only [ite_val, bind_val, pure_val]
    by_cases hphys : phys = 0
    · rw [if_pos hphys, if_pos hphys]
    rw [if_neg hphys, if_neg hphys, load_sections_traced_val, load_image_eq]
    have hopt : (Traced.read data 60 4).val + COFF_HEADER = opt_at data := rfl
    rw [hopt, apply_relocations_traced_val]
    rfl

/-! ## What is read -/

theorem accepted_else {c : Prop} [Decidable c] {error : String} {x : Bool × pe_info_t} :
    (if c then reject error else x).1 = true ↔ ¬ c ∧ x.1 = true := by
  by_cases h : c
  · simp [h, reject]
  · simp [h]

theorem pe_probe_accepts {data : Mem} {size : Nat} : (pe_probe data size).1 = true ↔
    (DOS_HEADER ≤ size ∧ e_magic data = 0x5A4D) ∧ (e_lfanew data ≠ 0 ∧ e_lfanew data + COFF_HEADER + 4 ≤ size) ∧
    (data (e_lfanew data) = 0x50 ∧ data (e_lfanew data + 1) = 0x45 ∧ data (e_lfanew data + 2) = 0 ∧
      data (e_lfanew data + 3) = 0) ∧
    (coff_header data (e_lfanew data)).signature = 0x00004550 ∧
    (coff_header data (e_lfanew data)).machine = IMAGE_FILE_MACHINE_AMD64 ∧
    OPTIONAL_HEADER ≤ (coff_header data (e_lfanew data)).size_of_optional_header ∧
    (optional_header data (opt_at data)).magic = 0x20B := by
  unfold pe_probe
  simp only [accepted_else, not_or, not_lt, ne_eq, not_not, accept, and_true, and_assoc, gt_iff_lt]

/-- `pe_probe` reads past the end exactly of a file that it accepts and whose optional header ends before the fields
it reports. -/
theorem pe_probe_within (data : Mem) (size : Nat) :
    Within size (pe_probe_traced data size) ↔ ((pe_probe data size).1 = true → opt_at data + 64 ≤ size) := by
  have h0 : load data (e_lfanew data) 1 = 0x50 ↔ _ := byte_eq_iff data (e_lfanew data) 0x50
  have h1 : load data (e_lfanew data + 1) 1 = 0x45 ↔ _ := byte_eq_iff data (e_lfanew data + 1) 0x45
  have h2 : load data (e_lfanew data + 2) 1 = 0 ↔ _ := byte_eq_iff data (e_lfanew data + 2) 0
  have h3 : load data (e_lfanew data + 3) 1 = 0 ↔ _ := byte_eq_iff data (e_lfanew data + 3) 0
  have hp : load data 0x3C 4 = e_lfanew data := rfl
  rw [pe_probe_accepts]
  unfold pe_probe_traced opt_at DOS_HEADER COFF_HEADER
  simp only [within_ite, within_bind, within_read, within_pure]
  simp only [read_val, hp, h0, h1, h2, h3, imp_true_iff, true_and, and_true, ne_eq, not_not, not_or, not_lt, gt_iff_lt]
  constructor
  · rintro h ⟨⟨hsize, hmz⟩, hlfanew, ⟨hc0, hc1, hc2, hc3⟩, hsig, hmachine, hopt, hmagic⟩
    obtain ⟨-, h⟩ := h hsize
    obtain ⟨-, h⟩ := h hmz
    obtain ⟨-, h⟩ := h hlfanew
    obtain ⟨-, h⟩ := h hc0
    obtain ⟨-, h⟩ := h hc1
    obtain ⟨-, h⟩ := h hc2
    obtain ⟨-, h⟩ := h hc3
    obtain ⟨-, h⟩ := h hsig
    obtain ⟨-, h⟩ := h hmachine
    obtain ⟨-, h⟩ := h hopt
    obtain ⟨-, -, -, -, h, -⟩ := h hmagic
    omega
  · intro h hsize
    refine ⟨by omega, fun hmz => ⟨by omega, fun hlfanew => ⟨by omega, fun hc0 => ⟨by omega, fun hc1 => ⟨by omega, fun hc2 =>
      ⟨by omega, fun hc3 => ⟨by omega, fun hsig => ⟨by omega, fun hmachine => ⟨by omega, fun hopt => ⟨by omega, fun hmagic =>
      ?_⟩⟩⟩⟩⟩⟩⟩⟩⟩⟩
    have hfits := h ⟨⟨hsize, hmz⟩, hlfanew, ⟨hc0, hc1, hc2, hc3⟩, hsig, hmachine, hopt, hmagic⟩
    omega

/-- How much of a section header is read: up to the raw size, and to the pointer if that is not zero. -/
def section_header_read (s : section_header_t) : Nat := if s.size_of_raw_data = 0 then 20 else 24

theorem load_section_within (data : Mem) (size size_of_image a : Nat) (image : Mem) :
    Within size (load_section_traced data size size_of_image a image) ↔
      a + section_header_read (section_header data a) ≤ size := by
  have hraw : (section_header data a).size_of_raw_data = load data (a + 16) 4 := rfl
  unfold load_section_traced section_header_read
  rw [hraw]
  simp only [within_ite, within_bind, within_read, within_pure]
  simp only [read_val, imp_true_iff, true_and, and_true]
  split_ifs with h
  · simp only [h, not_true_eq_false, false_imp_iff, and_true]
  · simp only [h, not_false_eq_true, true_imp_iff]
    constructor
    · rintro ⟨-, hptr, -⟩
      omega
    · intro hle
      exact ⟨by omega, by omega, fun _ _ => by omega⟩

/-- The last section header that is looked at ends inside the file, as far as it is read. -/
def TableFits (data : Mem) (size n : Nat) : Prop :=
  n ≠ 0 → secs_at data + SECTION_HEADER * (n - 1) + section_header_read (section_at data (n - 1)) ≤ size

theorem load_sections_within (data : Mem) (size size_of_image n : Nat) (image : Mem) :
    Within size (load_sections_traced data size size_of_image (secs_at data) n image) ↔ TableFits data size n := by
  have hread : ∀ i, 20 ≤ section_header_read (section_at data i) ∧ section_header_read (section_at data i) ≤ 24 := by
    intro i
    unfold section_header_read
    split_ifs <;> omega
  induction n with
  | zero =>
    rw [load_sections_traced, TableFits]
    simp
  | succ n ih =>
    rw [load_sections_traced, within_bind, load_section_within]
    constructor
    · exact fun h _ => h.2
    · intro h
      have hlast : secs_at data + SECTION_HEADER * n + section_header_read (section_at data n) ≤ size := h (by omega)
      refine ⟨ih.2 (fun hn => ?_), hlast⟩
      have h1 := hread (n - 1)
      have h2 := hread n
      unfold SECTION_HEADER at hlast ⊢
      omega

/-- As much of the optional header and its directories as relocating looks at ends inside the file. -/
def DirsFit (data : Mem) (size load_base preferred : Nat) : Prop :=
  load_base ≠ preferred → opt_at data + 112 ≤ size ∧
    (6 ≤ (optional_header data (opt_at data)).number_of_rva_and_sizes → opt_at data + 156 ≤ size ∧
      ((reloc_dir data).virtual_address ≠ 0 → opt_at data + 160 ≤ size))

theorem apply_relocations_within (fuel : Nat) (image : Mem) (load_base preferred : Nat) (data : Mem) (size : Nat) :
    Within size (apply_relocations_traced fuel image load_base preferred data (opt_at data)) ↔
      DirsFit data size load_base preferred := by
  have hn : (optional_header data (opt_at data)).number_of_rva_and_sizes = load data (opt_at data + 108) 4 := rfl
  have hva : (reloc_dir data).virtual_address = load data (opt_at data + 112 + 5 * 8) 4 := rfl
  unfold apply_relocations_traced DirsFit
  rw [hn, hva]
  simp only [within_ite, within_bind, within_read, within_pure]
  simp only [read_val, imp_true_iff, true_and, and_true, not_lt, ne_eq]

/-! ## Every file -/

/-- If there is memory for the image, the file ends behind what is read of the section table and, when the image is not
where it prefers to be, of the directories. -/
def TablesFit (s : Backed.St) (data : Mem) (size : Nat) (info : pe_info_t) : Prop :=
  imagePages info.size_of_image ≠ 0 → ∀ phys mem,
    alloc_image s (imagePages info.size_of_image) info.size_of_image = some (phys, mem) → phys ≠ 0 →
    TableFits data size info.number_of_sections ∧ DirsFit data size phys info.image_base

/-- A file that is accepted ends behind the fields `pe_probe` reports and behind the tables. -/
def HeadersFit (s : Backed.St) (data : Mem) (size : Nat) : Prop :=
  (pe_probe data size).1 = true → opt_at data + 64 ≤ size ∧ TablesFit s data size (pe_probe data size).2

theorem load_accepted_within (fuel : Nat) (s : Backed.St) {data : Mem} {size : Nat} (info : pe_info_t)
    (hsize : DOS_HEADER ≤ size) (hcoff : e_lfanew data + COFF_HEADER + 4 ≤ size) :
    Within size (load_accepted_traced fuel s data size info) ↔ TablesFit s data size info := by
  unfold DOS_HEADER at hsize
  have hhead : 0x3C + 4 ≤ size ∧ (Traced.read data 0x3C 4).val + 20 + 2 ≤ size := by
    unfold COFF_HEADER at hcoff
    change _ ∧ e_lfanew data + 20 + 2 ≤ size
    omega
  unfold load_accepted_traced TablesFit imagePages
  rw [within_bind, within_bind, within_read, within_read, and_iff_right hhead.1, and_iff_right hhead.2]
  by_cases hpages : H3OS_ALIGN_UP info.size_of_image PAGE_SIZE / PAGE_SIZE = 0
  · rw [if_pos hpages]
    exact iff_of_true (within_pure _) (fun h => absurd hpages h)
  rw [if_neg hpages]
  cases halloc : alloc_image s (H3OS_ALIGN_UP info.size_of_image PAGE_SIZE / PAGE_SIZE) info.size_of_image with
  | none => exact iff_of_true (within_pure _) (fun _ phys mem h => by cases h)
  | some r =>
    obtain ⟨phys, s'⟩ := r
    dsimp only
    by_cases hphys : phys = 0
    · rw [if_pos hphys]
      refine iff_of_true (within_pure _) (fun _ phys' mem h hne => ?_)
      cases h
      exact absurd hphys hne
    rw [if_neg hphys, within_bind, within_bind]
    have hsecs := load_sections_within data size info.size_of_image info.number_of_sections
    have hdirs := fun image => apply_relocations_within fuel image phys info.image_base data size
    refine Iff.trans (and_congr (hsecs _) (and_congr (hdirs _) (iff_true_intro (within_pure _)))) ?_
    constructor
    · rintro ⟨htable, hdir, -⟩ - phys' mem h -
      cases h
      exact ⟨htable, hdir⟩
    · intro h
      obtain ⟨htable, hdir⟩ := h hpages phys s' rfl hphys
      exact ⟨htable, hdir, trivial⟩

theorem pe_load_within (fuel : Nat) (s : Backed.St) (data : Mem) (size : Nat) :
    Within size (pe_load_traced fuel s data size) ↔ HeadersFit s data size := by
  unfold pe_load_traced HeadersFit
  rw [within_bind, pe_probe_within, pe_probe_traced_val]
  by_cases hacc : (pe_probe data size).1 = true
  · obtain ⟨⟨hsize, -⟩, ⟨-, hcoff⟩, -⟩ := pe_probe_accepts.1 hacc
    rw [if_neg (by rw [hacc]; simp), load_accepted_within fuel s _ hsize hcoff]
    constructor
    · exact fun h _ => ⟨h.1 hacc, h.2⟩
    · exact fun h => ⟨fun _ => (h hacc).1, (h hacc).2⟩
  · rw [if_pos (by simpa using hacc)]
    exact iff_of_true ⟨fun h => absurd h hacc, within_pure _⟩ (fun h => absurd h hacc)

/-- Probing and running a file read its headers inside the file exactly if these fit. -/
theorem headers_read_inside_iff (fuel : Nat) (s : Backed.St) (data : Mem) (size : Nat) :
    (Within size (pe_probe_traced data size) ∧ Within size (pe_load_traced fuel s data size)) ↔ HeadersFit s data size := by
  rw [pe_load_within, pe_probe_within]
  exact and_iff_right_of_imp (fun h hacc => (h hacc).1)

/-- A file that ends four bytes behind its COFF header. -/
def truncated : Mem :=
  let m : Mem := fun _ => 0
  let m := store m 0 2 0x5A4D
  let m := store m 0x3C 4 0x40
  let m := store m 0x40 4 0x4550
  let m := store m 0x44 2 0x8664
  let m := store m 0x54 2 112
  store m 0x58 2 0x20B

/-- `pe_probe` accepts it, and reads behind its end. -/
theorem truncated_read_behind : (pe_probe truncated 92).1 = true ∧ ¬ Within 92 (pe_probe_traced truncated 92) := by
  constructor
  · decide +kernel
  · decide +kernel

end H3OS.Pe
