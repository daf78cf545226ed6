import H3OS.Pe.Model
/-!
# The image before relocation

`pe_run` clears the image, copies the headers into it and lays the sections
over them in the order of the table, leaving out those that the file or the
image has no room for. So every byte is that of the last section that covers
it, and without one a byte of the headers or zero.
-/
open SysLib

namespace H3OS.Pe

/-! ## The copies -/

/-- A call of `memcpy` from the file to the image. -/
structure Memcpy where
  dst : Nat
  src : Nat
  n : Nat

def Memcpy.apply (data : Mem) (image : Mem) (c : Memcpy) : Mem := blit image c.dst data c.src c.n

/-- The section has bytes, and the file and the image have room for them. -/
def Passes (size size_of_image : Nat) (s : section_header_t) : Prop :=
  (s.size_of_raw_data ≠ 0 ∧ s.pointer_to_raw_data ≠ 0) ∧ s.pointer_to_raw_data + s.size_of_raw_data ≤ size ∧
    s.virtual_address + s.size_of_raw_data ≤ size_of_image

instance (size size_of_image : Nat) (s : section_header_t) : Decidable (Passes size size_of_image s) :=
  inferInstanceAs (Decidable (_ ∧ _ ∧ _))

/-- The header of section `i`. -/
def section_at (data : Mem) (i : Nat) : section_header_t := section_header data (secs_at data + SECTION_HEADER * i)

/-- How much of the file is copied as headers. -/
def hdr_copy (size : Nat) (info : pe_info_t) : Nat := min (min info.size_of_headers size) info.size_of_image

/-- The copies `pe_run` makes, in order: the headers, then the sections that pass. -/
def copies (data : Mem) (size : Nat) (info : pe_info_t) : List Memcpy :=
  ⟨0, 0, hdr_copy size info⟩ ::
    ((List.range info.number_of_sections).map (section_at data)).filterMap (fun s =>
      if Passes size info.size_of_image s then
        some ⟨s.virtual_address, s.pointer_to_raw_data, s.size_of_raw_data⟩
      else none)

theorem load_section_eq (data : Mem) (size size_of_image : Nat) (s : section_header_t) (image : Mem) :
    load_section data size size_of_image s image =
      if Passes size size_of_image s then blit image s.virtual_address data s.pointer_to_raw_data s.size_of_raw_data
      else image := by
  unfold load_section
  by_cases h1 : s.size_of_raw_data = 0 ∨ s.pointer_to_raw_data = 0
  · rw [if_pos h1, if_neg (fun (h : Passes _ _ s) => h1.elim h.1.1 h.1.2)]
  rw [if_neg h1]
  by_cases h2 : s.pointer_to_raw_data + s.size_of_raw_data > size
  · rw [if_pos h2, if_neg (fun (h : Passes _ _ s) => absurd h.2.1 (not_le.2 h2))]
  rw [if_neg h2]
  by_cases h3 : s.virtual_address + s.size_of_raw_data > size_of_image
  · rw [if_pos h3, if_neg (fun (h : Passes _ _ s) => absurd h.2.2 (not_le.2 h3))]
  · rw [if_neg h3, if_pos ⟨not_or.1 h1, not_lt.1 h2, not_lt.1 h3⟩]

/-- The image with its headers, before the loop over the sections. -/
def header_image (data : Mem) (size : Nat) (info : pe_info_t) (mem : Mem) : Mem :=
  blit (fill mem 0 info.size_of_image 0) 0 data 0 (hdr_copy size info)

theorem load_image_eq (data : Mem) (size : Nat) (info : pe_info_t) (mem : Mem) :
    load_image data size info mem =
      forRange 0 info.number_of_sections (fun i image => load_section data size info.size_of_image (section_at data i) image)
        (header_image data size info mem) := by
  have hlen : (if (if info.size_of_headers > size then size else info.size_of_headers) > info.size_of_image then
      info.size_of_image else if info.size_of_headers > size then size else info.size_of_headers) = hdr_copy size info := by
    unfold hdr_copy
    split_ifs <;> omega
  unfold load_image header_image
  dsimp only
  rw [hlen]
  rfl

/-- Loading is clearing the image and making the copies. -/
theorem load_image_copies (data : Mem) (size : Nat) (info : pe_info_t) (mem : Mem) :
    load_image data size info mem =
      (copies data size info).foldl (Memcpy.apply data) (fill mem 0 info.size_of_image 0) := by
  rw [load_image_eq, copies, List.foldl_cons]
  change _ = List.foldl _ (header_image data size info mem) _
  refine forRange_inv (fun n image => image = List.foldl (Memcpy.apply data) (header_image data size info mem)
    (((List.range n).map (section_at data)).filterMap _)) (Nat.zero_le _) rfl ?_
  rintro n image - - rfl
  rw [load_section_eq, List.range_succ, List.map_append, List.filterMap_append, List.foldl_append]
  split_ifs with hp
  · simp [hp, Memcpy.apply]
  · simp [hp]

/-! ## The bytes -/

/-- Section `i` passes and its range contains `o`. -/
def Covers (data : Mem) (size size_of_image i o : Nat) : Prop :=
  Passes size size_of_image (section_at data i) ∧ (section_at data i).virtual_address ≤ o ∧
    o < (section_at data i).virtual_address + (section_at data i).size_of_raw_data

/-- The byte that section `i` has for `o`. -/
def section_byte (data : Mem) (i o : Nat) : UInt8 :=
  data ((section_at data i).pointer_to_raw_data + (o - (section_at data i).virtual_address))

/-- What the image holds at `o` once `n` sections are laid over the headers. -/
structure LaidOut (data : Mem) (size : Nat) (info : pe_info_t) (n o : Nat) (b : UInt8) : Prop where
  covered : ∀ i < n, Covers data size info.size_of_image i o →
    (∀ j, i < j → j < n → ¬ Covers data size info.size_of_image j o) → b = section_byte data i o
  bare : (∀ i < n, ¬ Covers data size info.size_of_image i o) →
    b = if o < min (min info.size_of_headers size) info.size_of_image then data o else 0

section
variable {data : Mem} {size : Nat} {info : pe_info_t} {mem : Mem}

theorem header_image_laid {o : Nat} (ho : o < info.size_of_image) :
    LaidOut data size info 0 o (header_image data size info mem o) := by
  refine ⟨fun i hi => absurd hi (Nat.not_lt_zero i), fun _ => ?_⟩
  change _ = if o < hdr_copy size info then data o else 0
  unfold header_image
  by_cases hh : o < hdr_copy size info
  · rw [blit_in (Nat.zero_le o) (by omega), if_pos hh, Nat.zero_add, Nat.sub_zero]
  · rw [blit_out (by omega), if_neg hh]
    exact if_pos ⟨Nat.zero_le o, by omega⟩

/-- One more section: where it covers, its byte, elsewhere what was there. -/
theorem LaidOut.section {n o : Nat} {image : Mem} (h : LaidOut data size info n o (image o)) :
    LaidOut data size info (n + 1) o (load_section data size info.size_of_image (section_at data n) image o) := by
  rw [load_section_eq]
  by_cases hc : Covers data size info.size_of_image n o
  · rw [if_pos hc.1, blit_in hc.2.1 hc.2.2]
    refine ⟨fun i hi hi' hlast => ?_, fun hnone => absurd hc (hnone n (Nat.lt_succ_self n))⟩
    by_cases hin : i = n
    · rw [hin]
      rfl
    · exact absurd hc (hlast n (by omega) (Nat.lt_succ_self n))
  · -- the byte stays, because the section does not pass or lies elsewhere
    have hkeep : (if Passes size info.size_of_image (section_at data n) then
        blit image (section_at data n).virtual_address data (section_at data n).pointer_to_raw_data
          (section_at data n).size_of_raw_data else image) o = image o := by
      split_ifs with hp
      · refine blit_out ?_
        by_contra hin
        exact hc ⟨hp, by omega, by omega⟩
      · rfl
    rw [hkeep]
    refine ⟨fun i hi hi' hlast => ?_, fun hnone => h.bare (fun i hi => hnone i (by omega))⟩
    have hne : i ≠ n := by
      rintro rfl
      exact hc hi'
    exact h.covered i (by omega) hi' (fun j hj hjn => hlast j hj (by omega))

theorem load_image_laid {o : Nat} (ho : o < info.size_of_image) :
    LaidOut data size info info.number_of_sections o (load_image data size info mem o) := by
  rw [load_image_eq]
  refine forRange_inv (fun n (image : Mem) => LaidOut data size info n o (image o)) (Nat.zero_le _) (header_image_laid ho) ?_
  intro n image _ _ h
  exact h.section

/-- Every byte that is copied comes from the file and goes into the image. -/
theorem copies_inside {c : Memcpy} (hc : c ∈ copies data size info) {k : Nat} (hk : k < c.n) :
    c.src + k < size ∧ c.dst + k < info.size_of_image := by
  rcases List.mem_cons.1 hc with rfl | hc
  · simp only [hdr_copy] at hk
    dsimp only
    omega
  · obtain ⟨s, -, hs⟩ := List.mem_filterMap.1 hc
    split_ifs at hs with hp
    cases hs
    obtain ⟨-, hfile, himage⟩ := hp
    dsimp only at hk ⊢
    omega

end

/-- What `pe_run` builds of a file, whatever is in it: the copies that make up the image read only the file and write
only the image, and every byte of the image is that of the last section over it, else of the headers, else zero. -/
theorem image_layout (data mem : Mem) (size : Nat) :
    load_image data size (pe_probe data size).2 mem = (copies data size (pe_probe data size).2).foldl (Memcpy.apply data)
      (fill mem 0 (pe_probe data size).2.size_of_image 0) ∧
    (∀ c ∈ copies data size (pe_probe data size).2, ∀ k < c.n,
      c.src + k < size ∧ c.dst + k < (pe_probe data size).2.size_of_image) ∧
    ∀ o < (pe_probe data size).2.size_of_image, LaidOut data size (pe_probe data size).2
      (pe_probe data size).2.number_of_sections o (load_image data size (pe_probe data size).2 mem o) :=
  ⟨load_image_copies data size _ mem, fun _ hc _ hk => copies_inside hc hk, fun _ ho => load_image_laid ho⟩

end H3OS.Pe
