import H3OS.Pe.Model
import H3OS.Lib.Pack
/-!
# The image builder

`build_pe` of `tools/mkpe.py`. Python's integers are unbounded; where
`struct.pack` raises an error the result is `none`.
-/
open SysLib

namespace H3OS.Pe

/-- `(v + a - 1) & ~(a - 1)`: the bits of `a - 1` cleared. -/
def align_up (v a : Nat) : Nat := (v + a - 1) - ((v + a - 1) &&& (a - 1))

theorem align_up_pow (v k : Nat) : align_up v (2 ^ k) = (v + 2 ^ k - 1) / 2 ^ k * 2 ^ k := by
  unfold align_up
  rw [Nat.and_two_pow_sub_one_eq_mod]
  have := Nat.div_add_mod' (v + 2 ^ k - 1) (2 ^ k)
  omega

def file_align : Nat := 0x200
def sect_align : Nat := 0x1000
def image_base : Nat := 0x140000000
def pe_offset : Nat := 0x80
def opt_size : Nat := 0xF0
def entry_rva : Nat := 0x1000

def size_of_code (code : List UInt8) : Nat := align_up code.length file_align
def size_of_image (code : List UInt8) : Nat := align_up (0x1000 + size_of_code code) sect_align
def size_of_headers : Nat := align_up (pe_offset + 4 + 20 + opt_size + 40) file_align

def build_stub : Option Bytearray := do
  let dos := setSlice (zeros 64) 0 (ofList (str "MZ"))
  let dos ← packInto dos 0x3C [(4, 0x80)]
  return setSlice (zeros 0x80) 0 dos

def build_coff : Option Bytearray :=
  pack [(4, 0x00004550), (2, 0x8664), (2, 1), (4, 0), (4, 0), (4, 0), (2, opt_size), (2, 0x22)]

/-- The calls of `struct.pack_into` on the optional header, in order. -/
def optional_writes (size_of_code size_of_image : Nat) : List (Nat × Fields) := [
  (0, [(2, 0x20B), (1, 14), (1, 0)]),
  (4, [(4, size_of_code), (4, 0), (4, 0)]),
  (16, [(4, entry_rva), (4, 0x1000)]),
  (24, [(8, image_base)]),
  (32, [(4, sect_align), (4, file_align)]),
  (40, [(2, 6), (2, 0), (2, 0), (2, 1), (2, 3), (2, 0)]),
  (52, [(4, 0)]),
  (56, [(4, size_of_image), (4, size_of_headers)]),
  (64, [(4, 0), (2, 3)]),
  (68, [(2, 0)]),
  (70, [(8, 0x100000), (8, 0x1000), (8, 0x100000), (8, 0x1000)]),
  (102, [(4, 0), (4, 16)])]

def build_optional (code : List UInt8) : Option Bytearray :=
  packAll (zeros opt_size) (optional_writes (size_of_code code) (size_of_image code))

/-- The fields of the section header behind the name. -/
def section_fields (code : List UInt8) : Fields :=
  [(4, code.length), (4, 0x1000), (4, size_of_code code), (4, size_of_headers), (4, 0), (4, 0), (2, 0), (2, 0),
    (4, 0x60000020)]

def build_section (code : List UInt8) : Option Bytearray := do
  let fields ← pack (section_fields code)
  return join (ofList (str ".text" ++ [0, 0, 0])) fields

def build_pe (code : List UInt8) : Option Bytearray := do
  let stub ← build_stub
  let coff ← build_coff
  let optional ← build_optional code
  let sect ← build_section code
  let headers := setSlice (zeros size_of_headers) 0 stub
  let pe_blob := join (join coff optional) sect
  let headers := setSlice headers pe_offset pe_blob
  let raw_ptr := size_of_headers
  let raw := setSlice (zeros (raw_ptr + size_of_code code)) 0 headers
  return setSlice raw raw_ptr (ofList code)

/-! ## What is built -/

theorem size_of_headers_eq : size_of_headers = 0x200 := by decide

theorem size_of_code_eq (code : List UInt8) : size_of_code code = (code.length + 511) / 512 * 512 :=
  align_up_pow code.length 9

theorem size_of_image_eq (code : List UInt8) : size_of_image code = (size_of_code code + 8191) / 4096 * 4096 := by
  refine (align_up_pow (0x1000 + size_of_code code) 12).trans ?_
  congr 2
  omega

/-- The optional header as its bytes say. -/
def optional (code : List UInt8) : Mem :=
  storeAll (fun _ => 0) (optional_writes (size_of_code code) (size_of_image code))

theorem build_optional_of_lt {code : List UInt8} (h : size_of_image code < 2 ^ 32) :
    build_optional code = some ⟨opt_size, optional code⟩ := by
  have himage := size_of_image_eq code
  have hcode : size_of_code code < 4294967296 := by omega
  have himg : size_of_image code < 4294967296 := h
  refine packAll_of_fits (b := zeros opt_size) ?_
  unfold optional_writes
  simp [hcode, himg, zeros, opt_size, entry_rva, image_base, sect_align, file_align, size_of_headers_eq]

/-- The size of the image has to fit into its field. -/
theorem build_optional_none {code : List UInt8} (h : 2 ^ 32 ≤ size_of_image code) : build_optional code = none := by
  refine packAll_none (c := (56, [(4, size_of_image code), (4, size_of_headers)])) (f := (4, size_of_image code)) ?_ ?_ h
  · simp [optional_writes]
  · simp

theorem build_stub_spec :
    ∃ stub, build_stub = some stub ∧ stub.len = 0x80 ∧ load stub.mem 0 2 = 0x5A4D ∧ load stub.mem 0x3C 4 = 0x80 := by
  refine ⟨_, rfl, ?_, ?_, ?_⟩
  · decide
  · decide +kernel
  · decide +kernel

theorem build_coff_spec : ∃ coff, build_coff = some coff ∧ coff.len = 24 ∧
    coff_header coff.mem 0 = ⟨0x4550, IMAGE_FILE_MACHINE_AMD64, 1, opt_size⟩ := by
  refine ⟨_, rfl, ?_, ?_⟩
  · decide
  · decide +kernel

theorem build_section_spec {code : List UInt8} (h : size_of_image code < 2 ^ 32) :
    ∃ sect, build_section code = some sect ∧ sect.len = 40 ∧
      section_header sect.mem 0 = ⟨code.length, 0x1000, size_of_code code, size_of_headers⟩ := by
  have himage := size_of_image_eq code
  have hsize := size_of_code_eq code
  have hcode : size_of_code code < 4294967296 := by omega
  have hlen : code.length < 4294967296 := by omega
  have hfit : (section_fields code).Fit := by simp [section_fields, hcode, hlen, size_of_headers_eq]
  have hpack : pack (section_fields code) = some ⟨32, storeFields (fun _ => 0) 0 (section_fields code)⟩ :=
    packInto_of_fits hfit (Nat.zero_add _).le
  unfold build_section
  rw [hpack]
  refine ⟨_, rfl, rfl, ?_⟩
  have hread : ∀ k, k + 4 ≤ 32 →
      load (join (ofList (str ".text" ++ [0, 0, 0])) ⟨32, storeFields (fun _ => 0) 0 (section_fields code)⟩).mem
        (8 + k) 4 = load (storeFields (fun _ => 0) 0 (section_fields code)) (0 + k) 4 := by
    intro k hk
    refine load_shift (fun j hj => ?_)
    rw [Nat.add_assoc, Nat.zero_add]
    exact join_right (a := ofList (str ".text" ++ [0, 0, 0])) (by dsimp only; omega)
  unfold section_header
  rw [hread 0 (by omega), hread 4 (by omega), hread 8 (by omega), hread 12 (by omega)]
  congr 1
  · exact load_storeFields [] _ hlen
  · exact load_storeFields [_, _] _ hcode

/-- A built file, part by part. -/
structure Built (code : List UInt8) (raw : Bytearray) : Prop where
  fits : size_of_image code < 2 ^ 32
  len : raw.len = 0x200 + size_of_code code
  magic : load raw.mem 0 2 = 0x5A4D
  lfanew : load raw.mem 0x3C 4 = 0x80
  coff : coff_header raw.mem 0x80 = ⟨0x4550, IMAGE_FILE_MACHINE_AMD64, 1, opt_size⟩
  opt : ∀ k < opt_size, raw.mem (0x98 + k) = optional code k
  sect : section_header raw.mem 0x188 = ⟨code.length, 0x1000, size_of_code code, size_of_headers⟩
  body : ∀ i (hi : i < code.length), raw.mem (0x200 + i) = code.get ⟨i, hi⟩
  padding : ∀ x, 0x200 + code.length ≤ x → raw.mem x = 0

theorem coff_header_shift {m m' : Mem} {a a' : Nat} (h : ∀ k < COFF_HEADER, m' (a' + k) = m (a + k)) :
    coff_header m' a' = coff_header m a := by
  have hload : ∀ k w, k + w ≤ COFF_HEADER → load m' (a' + k) w = load m (a + k) w := fun k w hw => load_within h hw
  unfold coff_header
  rw [hload 4 2 (by decide), hload 6 2 (by decide), hload 20 2 (by decide)]
  congr 1
  exact hload 0 4 (by decide)

theorem section_header_shift {m m' : Mem} {a a' : Nat} (h : ∀ k < SECTION_HEADER, m' (a' + k) = m (a + k)) :
    section_header m' a' = section_header m a := by
  have hload : ∀ k w, k + w ≤ SECTION_HEADER → load m' (a' + k) w = load m (a + k) w := fun k w hw => load_within h hw
  unfold section_header
  rw [hload 8 4 (by decide), hload 12 4 (by decide), hload 16 4 (by decide), hload 20 4 (by decide)]

/-- The file as `build_pe` puts it together from its parts. -/
def assemble (size : Nat) (stub coff opt sect code : Bytearray) : Bytearray :=
  setSlice (setSlice (zeros size) 0 (setSlice (setSlice (zeros size_of_headers) 0 stub) pe_offset
    (join (join coff opt) sect))) size_of_headers code

section
variable {size : Nat} {stub coff opt sect code : Bytearray}

/-- The headers, which end before the code. -/
theorem assemble_header {x : Nat} (hx : x < 0x200) : (assemble size stub coff opt sect code).mem x =
    (setSlice (setSlice (zeros size_of_headers) 0 stub) pe_offset (join (join coff opt) sect)).mem x := by
  unfold assemble
  rw [setSlice_out (.inl (by rw [size_of_headers_eq]; exact hx))]
  have hlen : x < (setSlice (setSlice (zeros size_of_headers) 0 stub) pe_offset (join (join coff opt) sect)).len := by
    unfold setSlice zeros
    dsimp only
    rw [size_of_headers_eq]
    omega
  have := setSlice_in (b := zeros size) (o := 0) hlen
  rwa [Nat.zero_add] at this

theorem assemble_stub {x : Nat} (hstub : stub.len = 0x80) (hx : x < 0x80) :
    (assemble size stub coff opt sect code).mem x = stub.mem x := by
  rw [assemble_header (by omega), setSlice_out (.inl (by unfold pe_offset; omega))]
  have := setSlice_in (b := zeros size_of_headers) (o := 0) (hstub ▸ hx)
  rwa [Nat.zero_add] at this

variable (hcoff : coff.len = 24) (hopt : opt.len = opt_size) (hsect : sect.len = 40)
include hcoff hopt hsect

theorem assemble_blob {k : Nat} (hk : k < 304) :
    (assemble size stub coff opt sect code).mem (0x80 + k) = (join (join coff opt) sect).mem k := by
  rw [assemble_header (by omega)]
  refine setSlice_in (o := 0x80) ?_
  unfold join
  dsimp only
  unfold opt_size at hopt
  omega

theorem assemble_coff {k : Nat} (hk : k < 24) :
    (assemble size stub coff opt sect code).mem (0x80 + k) = coff.mem k := by
  rw [assemble_blob hcoff hopt hsect (by omega), join_left (by unfold join; dsimp only; omega), join_left (by omega)]

theorem assemble_opt {k : Nat} (hk : k < opt_size) :
    (assemble size stub coff opt sect code).mem (0x98 + k) = opt.mem k := by
  have hk' : k < 240 := hk
  have hjoin : (join coff opt).mem (24 + k) = opt.mem k := by
    rw [← hcoff]
    exact join_right (by omega)
  rw [show 0x98 + k = 0x80 + (24 + k) by omega, assemble_blob hcoff hopt hsect (by omega),
    join_left (by unfold join; dsimp only; omega), hjoin]

theorem assemble_sect {k : Nat} (hk : k < 40) :
    (assemble size stub coff opt sect code).mem (0x188 + k) = sect.mem k := by
  have hlen : (join coff opt).len = 264 := by
    unfold join
    dsimp only
    rw [hcoff, hopt]
    rfl
  rw [show 0x188 + k = 0x80 + (264 + k) by omega, assemble_blob hcoff hopt hsect (by omega), ← hlen]
  exact join_right (by omega)

end

theorem built {code : List UInt8} {raw : Bytearray} (h : build_pe code = some raw) : Built code raw := by
  obtain ⟨stub, hstub, hstublen, hmagic, hlfanew⟩ := build_stub_spec
  obtain ⟨coff, hcoff, hcofflen, hhead⟩ := build_coff_spec
  unfold build_pe at h
  rw [hstub, hcoff] at h
  -- `struct.pack` raises where a size does not fit its field
  have hfits : size_of_image code < 2 ^ 32 := by
    by_contra hbig
    rw [build_optional_none (not_lt.1 hbig)] at h
    cases h
  obtain ⟨sect, hsect, hsectlen, hsec⟩ := build_section_spec hfits
  rw [build_optional_of_lt hfits, hsect] at h
  have hraw : raw = assemble (size_of_headers + size_of_code code) stub coff ⟨opt_size, optional code⟩ sect (ofList code) :=
    (Option.some.inj h).symm
  have hstubs : ∀ k < 0x80, raw.mem k = stub.mem k := by
    intro k hk
    rw [hraw, assemble_stub hstublen hk]
  refine ⟨hfits, ?_, ?_, ?_, ?_, ?_, ?_, ?_, ?_⟩
  · have hsize := size_of_code_eq code
    rw [hraw]
    unfold assemble setSlice join zeros ofList
    dsimp only
    rw [hcofflen, hsectlen, hstublen, size_of_headers_eq]
    unfold pe_offset opt_size
    omega
  · rw [← hmagic]
    exact load_congr (fun x _ hx => hstubs x (by omega))
  · rw [← hlfanew]
    exact load_congr (fun x _ hx => hstubs x (by omega))
  · rw [← hhead, hraw]
    refine coff_header_shift (fun k hk => ?_)
    rw [assemble_coff hcofflen rfl hsectlen hk, Nat.zero_add]
  · intro k hk
    rw [hraw, assemble_opt hcofflen rfl hsectlen hk]
  · rw [← hsec, hraw]
    refine section_header_shift (fun k hk => ?_)
    rw [assemble_sect hcofflen rfl hsectlen hk, Nat.zero_add]
  · intro i hi
    rw [hraw]
    refine (setSlice_in (o := 0x200) (s := ofList code) hi).trans ?_
    exact List.getD_eq_getElem _ _ hi
  · -- the padding of the last file block
    intro x hx
    have hlen : (ofList code).len = code.length := rfl
    rw [hraw, assemble, setSlice_out (.inr (by rw [size_of_headers_eq, hlen]; exact hx)), setSlice_out (.inr ?_)]
    · rfl
    · unfold setSlice join zeros
      dsimp only
      rw [hcofflen, hsectlen, hstublen, size_of_headers_eq]
      unfold pe_offset opt_size
      omega

end H3OS.Pe
