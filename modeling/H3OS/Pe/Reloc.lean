import H3OS.Pe.Model
/-!
# Relocations

`apply_relocations` follows the relocation directory of the file without
checking it against the size of the image. It ends, and stays inside the
image, exactly if the blocks of the directory and the targets of their entries
do; the 32-bit counter then never wraps.
-/
open SysLib

namespace H3OS.Pe

/-- No access touches a byte at or behind the end of the image. -/
def InImage (size_of_image : Nat) (log : List Access) : Prop := ∀ a ∈ log, a.1 + a.2 ≤ size_of_image

/-- The target of a 64-bit or 32-bit entry ends inside the image. -/
def TargetFits (size_of_image page_rva e : Nat) : Prop :=
  (e / 2 ^ 12 = IMAGE_REL_BASED_DIR64 → page_rva + e % 2 ^ 12 + 8 ≤ size_of_image) ∧
  (e / 2 ^ 12 = IMAGE_REL_BASED_HIGHLOW → page_rva + e % 2 ^ 12 + 4 ≤ size_of_image)

/-- So do the targets of `n` entries from `a` on, each entry being read after those before it were applied. -/
def TargetsFit (size_of_image delta page_rva : Nat) : Nat → Nat → Mem → Prop
  | 0, _, _ => True
  | n + 1, a, image =>
    TargetFits size_of_image page_rva (load image a 2) ∧
    TargetsFit size_of_image delta page_rva n (a + 2) (relocate delta page_rva (load image a 2) image).1

/-- From `pos` on the directory is a row of blocks that lie inside the image, with targets that do. -/
inductive DirFits (size_of_image delta : Nat) (dir : data_dir_t) : Nat → Mem → Prop
  /-- The directory is used up. -/
  | done {pos : Nat} {image : Mem} (h : dir.size < (pos + 8) % 2 ^ 32) : DirFits size_of_image delta dir pos image
  /-- A block shorter than its header ends it. -/
  | last {pos : Nat} {image : Mem} (h : (pos + 8) % 2 ^ 32 ≤ dir.size)
      (hhead : dir.virtual_address + pos + 8 ≤ size_of_image) (hshort : load image (dir.virtual_address + pos + 4) 4 < 8) :
      DirFits size_of_image delta dir pos image
  | block {pos page_rva block_size : Nat} {image : Mem} (h : (pos + 8) % 2 ^ 32 ≤ dir.size)
      (hpage : load image (dir.virtual_address + pos) 4 = page_rva)
      (hsize : load image (dir.virtual_address + pos + 4) 4 = block_size) (hlong : 8 ≤ block_size)
      (hentries : dir.virtual_address + pos + 8 + 2 * ((block_size - 8) / 2) ≤ size_of_image)
      (htargets : TargetsFit size_of_image delta page_rva ((block_size - 8) / 2) (dir.virtual_address + pos + 8) image)
      (hrest : DirFits size_of_image delta dir (pos + block_size)
        (entries delta page_rva ((block_size - 8) / 2) (dir.virtual_address + pos + 8) image).1) :
      DirFits size_of_image delta dir pos image

/-- The image is where it prefers to be, or the file has no relocation directory. -/
def NotDue (data : Mem) (load_base preferred : Nat) : Prop :=
  load_base = preferred ∨ (optional_header data (opt_at data)).number_of_rva_and_sizes < 6 ∨
  (reloc_dir data).virtual_address = 0 ∨ (reloc_dir data).size = 0

/-- No relocation is due, or the directory fits. -/
def RelocFits (data image : Mem) (load_base : Nat) (info : pe_info_t) : Prop :=
  NotDue data load_base info.image_base ∨
  DirFits info.size_of_image (sub64 load_base info.image_base) (reloc_dir data) 0 image

section
variable {size_of_image delta page_rva : Nat} {dir : data_dir_t}

theorem inImage_nil : InImage size_of_image [] := by
  intro a ha
  cases ha

theorem inImage_cons {a : Access} {log : List Access} :
    InImage size_of_image (a :: log) ↔ a.1 + a.2 ≤ size_of_image ∧ InImage size_of_image log := List.forall_mem_cons

theorem inImage_append {log log' : List Access} :
    InImage size_of_image (log ++ log') ↔ InImage size_of_image log ∧ InImage size_of_image log' := List.forall_mem_append

/-! ## One block -/

theorem relocate_inImage (e : Nat) (image : Mem) :
    InImage size_of_image (relocate delta page_rva e image).2 ↔ TargetFits size_of_image page_rva e := by
  unfold relocate TargetFits
  dsimp only
  by_cases h64 : e / 2 ^ 12 = IMAGE_REL_BASED_DIR64
  · rw [if_pos h64, h64, inImage_cons]
    simp [inImage_nil, IMAGE_REL_BASED_DIR64, IMAGE_REL_BASED_HIGHLOW]
  · rw [if_neg h64]
    by_cases h32 : e / 2 ^ 12 = IMAGE_REL_BASED_HIGHLOW
    · rw [if_pos h32, h32, inImage_cons]
      simp [inImage_nil, IMAGE_REL_BASED_DIR64, IMAGE_REL_BASED_HIGHLOW]
    · rw [if_neg h32]
      exact iff_of_true inImage_nil ⟨fun h => absurd h h64, fun h => absurd h h32⟩

/-- The entries are read inside the image exactly if their array ends there. -/
theorem entries_inImage (n a : Nat) (image : Mem) (ha : a ≤ size_of_image) :
    InImage size_of_image (entries delta page_rva n a image).2 ↔
      a + 2 * n ≤ size_of_image ∧ TargetsFit size_of_image delta page_rva n a image := by
  induction n generalizing a image with
  | zero => exact iff_of_true inImage_nil ⟨by omega, trivial⟩
  | succ n ih =>
    rw [entries, TargetsFit]
    dsimp only
    rw [List.cons_append, inImage_cons, inImage_append, relocate_inImage]
    constructor
    · rintro ⟨hread, htarget, hrest⟩
      obtain ⟨hend, hrest⟩ := (ih (a + 2) _ hread).1 hrest
      exact ⟨by omega, htarget, hrest⟩
    · rintro ⟨hend, htarget, hrest⟩
      refine ⟨by dsimp only; omega, htarget, ?_⟩
      exact (ih (a + 2) _ (by omega)).2 ⟨by omega, hrest⟩

/-! ## The directory -/

/-- A block inside the image moves the counter on without a wrap. -/
theorem next_pos {pos block_size : Nat} (hsoi : size_of_image < 2 ^ 32) (hva : dir.virtual_address ≠ 0)
    (hlong : 8 ≤ block_size) (hentries : dir.virtual_address + pos + 8 + 2 * ((block_size - 8) / 2) ≤ size_of_image) :
    (pos + block_size) % 2 ^ 32 = pos + block_size := by
  refine Nat.mod_eq_of_lt ?_
  omega

theorem blocks_fit {fuel pos : Nat} {image : Mem} {r : Mem × List Access} (hsoi : size_of_image < 2 ^ 32)
    (hva : dir.virtual_address ≠ 0) (h : blocks delta dir fuel pos image = some r) (hin : InImage size_of_image r.2) :
    DirFits size_of_image delta dir pos image := by
  induction fuel generalizing pos image r with
  | zero => cases h
  | succ fuel ih =>
    rw [blocks] at h
    by_cases hover : dir.size < (pos + 8) % 2 ^ 32
    · exact .done hover
    rw [if_neg hover] at h
    dsimp only at h
    have hmore := not_lt.1 hover
    by_cases hshort : load image (dir.virtual_address + pos + 4) 4 < 8
    · rw [if_pos hshort] at h
      cases h
      obtain ⟨-, hin⟩ := inImage_cons.1 hin
      obtain ⟨hhead, -⟩ := inImage_cons.1 hin
      exact .last hmore hhead hshort
    rw [if_neg hshort] at h
    obtain ⟨t, ht, rfl⟩ := Option.map_eq_some_iff.1 h
    obtain ⟨-, hin⟩ := inImage_cons.1 hin
    obtain ⟨hhead, hin⟩ := inImage_cons.1 hin
    obtain ⟨hblock, hrest⟩ := inImage_append.1 hin
    obtain ⟨hentries, htargets⟩ := (entries_inImage _ _ _ hhead).1 hblock
    -- the counter does not wrap while the blocks lie in the image, so the walk goes forward
    rw [next_pos hsoi hva (not_lt.1 hshort) hentries] at ht
    exact .block hmore rfl rfl (not_lt.1 hshort) hentries htargets (ih ht hrest)

theorem DirFits.blocks {pos : Nat} {image : Mem} (hsoi : size_of_image < 2 ^ 32) (hva : dir.virtual_address ≠ 0)
    (h : DirFits size_of_image delta dir pos image) :
    ∃ fuel r, blocks delta dir fuel pos image = some r ∧ InImage size_of_image r.2 := by
  induction h with
  | @done pos image h =>
    refine ⟨1, (image, []), ?_, inImage_nil⟩
    rw [Pe.blocks, if_pos h]
  | @last pos image h hhead hshort =>
    refine ⟨1, (image, [(dir.virtual_address + pos, 4), (dir.virtual_address + pos + 4, 4)]), ?_, ?_⟩
    · rw [Pe.blocks, if_neg (not_lt.2 h)]
      exact if_pos hshort
    · refine inImage_cons.2 ⟨?_, inImage_cons.2 ⟨?_, inImage_nil⟩⟩
      · dsimp only
        omega
      · dsimp only
        omega
  | @block pos page_rva block_size image h hpage hsize hlong hentries htargets _ ih =>
    obtain ⟨fuel, r, hr, hin⟩ := ih
    refine ⟨fuel + 1, (r.1, (dir.virtual_address + pos, 4) :: (dir.virtual_address + pos + 4, 4) ::
      (entries delta page_rva ((block_size - 8) / 2) (dir.virtual_address + pos + 8) image).2 ++ r.2), ?_, ?_⟩
    · rw [Pe.blocks, if_neg (not_lt.2 h)]
      dsimp only
      rw [hpage, hsize, if_neg (not_lt.2 hlong), next_pos hsoi hva hlong hentries, hr]
      rfl
    · refine inImage_cons.2 ⟨?_, inImage_cons.2 ⟨?_, inImage_append.2 ⟨?_, hin⟩⟩⟩
      · dsimp only
        omega
      · dsimp only
        omega
      · exact (entries_inImage _ _ _ (by omega)).2 ⟨hentries, htargets⟩

end

/-! ## The whole pass -/

section
variable {data image : Mem} {load_base preferred : Nat}

theorem apply_relocations_skips (h : NotDue data load_base preferred) (fuel : Nat) :
    apply_relocations fuel image load_base preferred data = some (image, []) := by
  unfold apply_relocations
  rcases h with h | h | h
  · rw [if_pos h]
  · rw [if_pos h]
    exact ite_self _
  · rw [if_pos h, ite_self, ite_self]

theorem apply_relocations_walks (h : ¬ NotDue data load_base preferred) (fuel : Nat) :
    apply_relocations fuel image load_base preferred data =
      blocks (sub64 load_base preferred) (reloc_dir data) fuel 0 image := by
  obtain ⟨hbase, hdirs, hdir⟩ : _ ∧ _ ∧ _ := by simpa only [NotDue, not_or] using h
  unfold apply_relocations
  rw [if_neg hbase, if_neg hdirs, if_neg (not_or.2 hdir)]

end

theorem pe_probe_size_of_image (data : Mem) (size : Nat) : (pe_probe data size).2.size_of_image < 2 ^ 32 := by
  rcases pe_probe_cases data size with ⟨error, h⟩ | h
  · rw [h]
    exact Nat.two_pow_pos 32
  · rw [h]
    exact load_lt data _ 4

/-- Relocating ends without leaving the image exactly if the directory fits into it. -/
theorem relocation_in_image_iff (data mem : Mem) (size load_base : Nat) :
    (∃ fuel r, apply_relocations fuel (load_image data size (pe_probe data size).2 mem) load_base
        (pe_probe data size).2.image_base data = some r ∧ InImage (pe_probe data size).2.size_of_image r.2) ↔
      RelocFits data (load_image data size (pe_probe data size).2 mem) load_base (pe_probe data size).2 := by
  have hsoi := pe_probe_size_of_image data size
  generalize (pe_probe data size).2 = info at hsoi ⊢
  generalize load_image data size info mem = image
  unfold RelocFits
  by_cases hdue : NotDue data load_base info.image_base
  · exact iff_of_true ⟨0, _, apply_relocations_skips hdue 0, inImage_nil⟩ (.inl hdue)
  have hva : (reloc_dir data).virtual_address ≠ 0 := fun h => hdue (.inr (.inr (.inl h)))
  constructor
  · rintro ⟨fuel, r, hr, hin⟩
    rw [apply_relocations_walks hdue] at hr
    exact .inr (blocks_fit hsoi hva hr hin)
  · rintro (h | h)
    · exact absurd h hdue
    · obtain ⟨fuel, r, hr, hin⟩ := h.blocks hsoi hva
      exact ⟨fuel, r, (apply_relocations_walks hdue fuel).trans hr, hin⟩

/-- A file without sections, whose image is one page and whose relocation directory lies a page behind it. -/
def straying : Mem :=
  let m : Mem := fun _ => 0
  let m := store m 0 2 0x5A4D
  let m := store m 0x3C 4 0x40
  let m := store m 0x40 4 0x4550
  let m := store m 0x44 2 0x8664
  let m := store m 0x54 2 160
  let m := store m 0x58 2 0x20B
  let m := store m (0x58 + 24) 8 0x140000000
  let m := store m (0x58 + 56) 4 0x1000
  let m := store m (0x58 + 108) 4 6
  let m := store m (0x58 + 152) 4 0x2000
  store m (0x58 + 156) 4 8

/-- `pe_probe` accepts it, and relocating it reads behind the image. -/
theorem relocation_reads_behind :
    (pe_probe straying 248).1 = true ∧
    ¬ ∃ fuel r, apply_relocations fuel (load_image straying 248 (pe_probe straying 248).2 (fun _ => 0)) 0x200000
        (pe_probe straying 248).2.image_base straying = some r ∧ InImage (pe_probe straying 248).2.size_of_image r.2 := by
  refine ⟨by decide +kernel, ?_⟩
  rintro ⟨fuel, r, hr, hin⟩
  have hdir : reloc_dir straying = ⟨0x2000, 8⟩ := by decide +kernel
  have hsoi : (pe_probe straying 248).2.size_of_image = 0x1000 := by decide +kernel
  have hdue : ¬ NotDue straying 0x200000 (pe_probe straying 248).2.image_base := by
    unfold NotDue
    decide +kernel
  rw [apply_relocations_walks hdue, hdir] at hr
  rw [hsoi] at hin
  have hfits := blocks_fit (by decide) (by decide) hr hin
  cases hfits with
  | done h => exact absurd h (by decide)
  | last _ hhead _ => exact absurd hhead (by decide)
  | block _ _ _ _ hentries _ _ => exact absurd hentries (by dsimp only; omega)

end H3OS.Pe
