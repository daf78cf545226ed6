import H3OS.Boot.Multiboot
import H3OS.Pmm.FirstFit
/-!
# The surface

`fb_init` of `drivers/framebuffer/framebuffer.c`, and the two functions that
touch the surface's memory. The size of the surface is set apart from the
buffers behind it: without a framebuffer from the loader it is 1280 by 720,
also when there are no pages for it and `g_fallback` takes their place. Rows
are numbered by signed words, so that those from the 2^31st on lie before the first.
-/
open SysLib H3OS.Multiboot

namespace H3OS.Framebuffer

def MB2_TAG_FRAMEBUFFER : Nat := 8

structure mb2_tag_framebuffer_t where
  addr : Nat
  pitch : Nat
  width : Nat
  height : Nat
  bpp : Nat
  framebuffer_type : Nat

def read_tag (info : Mem) (pos : Nat) : mb2_tag_framebuffer_t where
  addr := load info (pos + 8) 8
  pitch := load info (pos + 16) 4
  width := load info (pos + 20) 4
  height := load info (pos + 24) 4
  bpp := load info (pos + 28) 1
  framebuffer_type := load info (pos + 29) 1

/-- What a pointer points to: `size` bytes from `start` on. -/
structure Buffer where
  start : Nat
  size : Nat

def NULL : Buffer := ⟨0, 0⟩

/-- The whole of `g_fb`, with the buffers behind its pointers. -/
structure Surface extends fb_t where
  pixels : Buffer
  pitch : Nat
  bpp : Nat
  double_buffered : Bool
  back : Buffer

/-- `sizeof(g_fallback)`. -/
def FALLBACK_SIZE : Nat := 4 * (80 * 25)

/-- The pages that so many bytes take. -/
def page_count (bytes : Nat) : Nat := H3OS_ALIGN_UP bytes PAGE_SIZE / PAGE_SIZE

/-- The surface without its back buffer; `fallback` is where `g_fallback` is. -/
def open_surface (tag : Option mb2_tag_framebuffer_t) (fallback : Nat) (s : Pmm.St) : Surface × Pmm.St :=
  match tag.filter fun t => t.framebuffer_type = 1 ∧ t.bpp = 32 with
  | some t =>
    let pixels : Buffer := ⟨t.addr, t.pitch * t.height⟩
    (⟨⟨t.width, t.height⟩, pixels, t.pitch, t.bpp, false, NULL⟩, s)
  | none =>
    let pages := page_count (1280 * 4 * 720)
    let (p, s) := Pmm.pmm_alloc_pages s pages
    let pixels : Buffer := if p ≠ 0 then ⟨p, pages * PAGE_SIZE⟩ else ⟨fallback, FALLBACK_SIZE⟩
    (⟨⟨1280, 720⟩, pixels, 1280 * 4, 32, false, NULL⟩, s)

def Surface.bytes (g : Surface) : Nat := g.pitch * g.height % 2 ^ 64

def add_back (g : Surface) (s : Pmm.St) : Surface × Pmm.St :=
  let pages := page_count g.bytes
  let (back, s) := Pmm.pmm_alloc_pages s pages
  if back ≠ 0 then ({ g with back := ⟨back, pages * PAGE_SIZE⟩, double_buffered := true }, s)
  else ({ g with back := g.pixels, double_buffered := false }, s)

def fb_init (fuel : Nat) (info : Option Mem) (fallback : Nat) (s : Pmm.St) : Except Crash (Surface × Pmm.St) := do
  let pos ← (mb2_find fuel info MB2_TAG_FRAMEBUFFER).val
  let (g, s) := open_surface (do return read_tag (← info) (← pos)) fallback s
  return add_back g s

/-! ## What is touched -/

/-- The address of a row, before it wraps around. -/
def fb_row (g : Surface) (y : Int32) : Int :=
  (if g.double_buffered then g.back.start else g.pixels.start : Nat) + y.toInt * g.pitch

/-- The bytes that are written: the first address and how many. -/
def fb_put_pixel (g : Surface) (x y : Int32) : List (Nat × Nat) :=
  if x.toUInt32.toNat ≥ g.width ∨ y.toUInt32.toNat ≥ g.height then []
  else [(((fb_row g y + 4 * x.toInt) % 2 ^ 64).toNat, 4)]

/-- The bytes that are written, and those that are read. -/
def fb_swap (g : Surface) : List (Nat × Nat) :=
  if g.double_buffered = false then [] else [(g.pixels.start, g.bytes), (g.back.start, g.bytes)]

def Buffer.Has (b : Buffer) (r : Nat × Nat) : Prop := b.start ≤ r.1 ∧ r.1 + r.2 ≤ b.start + b.size

/-- Every pixel that is accepted, and every swap, stays in the buffers behind the surface. -/
def Inside (g : Surface) : Prop :=
  (∀ x y, ∀ r ∈ fb_put_pixel g x y, g.pixels.Has r ∨ g.back.Has r) ∧ ∀ r ∈ fb_swap g, g.pixels.Has r ∨ g.back.Has r

/-- The framebuffer that the loader tells of, if `fb_init` can use it. -/
def Loaded (info : Option Mem) (t : mb2_tag_framebuffer_t) : Prop :=
  ∃ m pos, info = some m ∧ FirstTag m (load m 0 4) MB2_TAG_FRAMEBUFFER 8 pos ∧ t = read_tag m pos ∧
    t.framebuffer_type = 1 ∧ t.bpp = 32

/-- Rows do not overlap, and the buffer ends within the address space. -/
structure Described (t : mb2_tag_framebuffer_t) : Prop where
  rows : 4 * t.width ≤ t.pitch
  room : t.addr + t.pitch * t.height ≤ 2 ^ 64

/-- There is a framebuffer whose rows have numbers, or pages for one. -/
def Sound (info : Option Mem) (s : Pmm.St) : Prop :=
  (∀ t, Loaded info t → t.width = 0 ∨ t.height ≤ 2 ^ 31) ∧
    ((∃ t, Loaded info t) ∨ ∃ p, Pmm.FreeRun s 900 p)

/-! ## Pixels -/

section
variable {g : Surface} {b : Buffer} {x y : Int32}

/-- A signed word by the unsigned one with the same bits. -/
theorem toInt32_eq (v : Int32) : v.toInt =
    if 2 * v.toUInt32.toNat < 2 ^ 32 then (v.toUInt32.toNat : Int) else v.toUInt32.toNat - 2 ^ 32 :=
  BitVec.toInt_eq_toNat_cond v.toBitVec

/-- The buffer that pixels are put into. -/
def Surface.base (g : Surface) : Buffer := if g.double_buffered then g.back else g.pixels

theorem fb_row_eq (g : Surface) (y : Int32) : fb_row g y = g.base.start + y.toInt * g.pitch := by
  unfold fb_row Surface.base
  split_ifs <;> rfl

theorem mem_put_pixel {r : Nat × Nat} (h : r ∈ fb_put_pixel g x y) : x.toUInt32.toNat < g.width ∧
    y.toUInt32.toNat < g.height ∧ r = (((g.base.start + y.toInt * g.pitch + 4 * x.toInt) % 2 ^ 64 : Int).toNat, 4) := by
  unfold fb_put_pixel at h
  rw [fb_row_eq] at h
  split_ifs at h with hout
  · cases h
  · push Not at hout
    exact ⟨hout.1, hout.2, List.mem_singleton.1 h⟩

/-- A pixel of a row with a number of its own is in the buffer. -/
theorem base_has (hw : 4 * g.width ≤ g.pitch) (hp : g.pitch < 2 ^ 32) (hh : g.width = 0 ∨ g.height ≤ 2 ^ 31)
    (hsize : g.pitch * g.height ≤ g.base.size) (hroom : g.base.start + g.pitch * g.height ≤ 2 ^ 64) {r : Nat × Nat}
    (h : r ∈ fb_put_pixel g x y) : g.base.Has r := by
  obtain ⟨hx, hy, rfl⟩ := mem_put_pixel h
  have hx' : x.toInt = x.toUInt32.toNat := by
    rw [toInt32_eq, if_pos (by omega)]
  have hy' : y.toInt = y.toUInt32.toNat := by
    rw [toInt32_eq, if_pos (by omega)]
  have hrow : (y.toUInt32.toNat + 1) * g.pitch ≤ g.pitch * g.height := by
    rw [Nat.mul_comm]
    exact Nat.mul_le_mul_left _ hy
  rw [Nat.add_mul, Nat.one_mul] at hrow
  have haddr : ((g.base.start + y.toInt * g.pitch + 4 * x.toInt) % 2 ^ 64 : Int).toNat =
      g.base.start + y.toUInt32.toNat * g.pitch + 4 * x.toUInt32.toNat := by
    rw [hx', hy', ← Nat.cast_mul]
    omega
  rw [haddr]
  unfold Buffer.Has
  dsimp only
  omega

/-- The last of more than 2^31 rows is not in a buffer that starts with the first. -/
theorem last_row_out (hp : 4 ≤ g.pitch ∧ g.pitch < 2 ^ 32) (hw : g.width ≠ 0) (hh : 2 ^ 31 < g.height ∧ g.height < 2 ^ 32)
    (hb : b.start = g.base.start) (hsize : b.size ≤ g.pitch * g.height) :
    ∃ x y, ∃ r ∈ fb_put_pixel g x y, ¬ b.Has r := by
  obtain ⟨y, hy⟩ : ∃ y : Int32, y.toUInt32.toNat = g.height - 1 :=
    ⟨(UInt32.ofNat (g.height - 1)).toInt32, by
      rw [UInt32.toUInt32_toInt32, UInt32.toNat_ofNat']
      omega⟩
  have hacc : ¬ ((0 : Int32).toUInt32.toNat ≥ g.width ∨ y.toUInt32.toNat ≥ g.height) := by
    have hzero : (0 : Int32).toUInt32.toNat = 0 := rfl
    omega
  refine ⟨0, y, _, by rw [fb_put_pixel, if_neg hacc]; exact List.mem_singleton_self _, ?_⟩
  -- the row is numbered `-k`
  obtain ⟨k, hk⟩ := Nat.exists_eq_add_of_lt hh.2
  have hneg : y.toInt = -((k + 2 : Nat) : Int) := by
    rw [toInt32_eq, if_neg (by omega), hy]
    omega
  have hsum : g.pitch * g.height + (k + 1) * g.pitch = g.pitch * 2 ^ 32 := by
    rw [Nat.mul_comm (k + 1), ← Nat.mul_add]
    congr 1
    omega
  have hzero : (0 : Int32).toInt = 0 := rfl
  rw [fb_row_eq, hneg, neg_mul, ← Nat.cast_mul, hzero, show (k + 2) * g.pitch = (k + 1) * g.pitch + g.pitch by ring]
  unfold Buffer.Has
  rw [hb]
  dsimp only
  omega

theorem behind_placeholder (a : Nat) :
    ¬ (a ≤ ((a + 3681280 : Int) % 2 ^ 64).toNat ∧ ((a + 3681280 : Int) % 2 ^ 64).toNat + 4 ≤ a + FALLBACK_SIZE) := by
  unfold FALLBACK_SIZE
  omega

/-- The last row of a surface made up by `fb_init` is not in the placeholder. -/
theorem placeholder_out (hw : g.width = 1280) (hh : g.height = 720) (hp : g.pitch = 5120) (hb : b.start = g.base.start)
    (hsize : b.size = FALLBACK_SIZE) : ∃ x y, ∃ r ∈ fb_put_pixel g x y, ¬ b.Has r := by
  obtain ⟨x, hx, hx'⟩ : ∃ x : Int32, x.toInt = 0 ∧ x.toUInt32.toNat = 0 := ⟨0, by decide, by decide⟩
  obtain ⟨y, hy, hy'⟩ : ∃ y : Int32, y.toInt = 719 ∧ y.toUInt32.toNat = 719 := ⟨719, by decide, by decide⟩
  have hacc : ¬ (x.toUInt32.toNat ≥ g.width ∨ y.toUInt32.toNat ≥ g.height) := by omega
  refine ⟨x, y, _, by rw [fb_put_pixel, if_neg hacc]; exact List.mem_singleton_self _, ?_⟩
  have hoffset : 719 * ((5120 : Nat) : Int) + 4 * 0 = 3681280 := by norm_num
  rw [fb_row_eq, hx, hy, hp, add_assoc, hoffset, Buffer.Has, hb, hsize]
  exact behind_placeholder _

end

/-! ## Buffers from the page allocator -/

theorem page_count_eq {bytes : Nat} (h : bytes + 4095 < 2 ^ 64) : page_count bytes = (bytes + 4095) / 4096 := by
  have halign : H3OS_ALIGN_UP bytes 4096 = (bytes + 4095) / 4096 * 4096 := align_up_eq (k := 12) (by omega) h
  unfold page_count PAGE_SIZE
  rw [halign, Nat.mul_div_cancel _ (by omega)]

/-- The pages of the surface that `fb_init` makes up. -/
theorem made_up_pages : page_count (1280 * 4 * 720) = 900 := by
  rw [page_count_eq (by norm_num)]

/-- What the allocator gives, if it gives anything: pages below its end. -/
theorem alloc_cases {s : Pmm.St} {held : List Pmm.Grant} (hl : Pmm.Ledger s held) {count : Nat} (hc : count < 2 ^ 64) :
    ((count = 0 ∨ ¬ ∃ p, Pmm.FreeRun s count p) ∧ Pmm.pmm_alloc_pages s count = (0, s)) ∨
    ∃ p s', p ≠ 0 ∧ p + count * PAGE_SIZE ≤ 2 ^ 31 ∧ (∃ p, Pmm.FreeRun s count p) ∧ Pmm.pmm_alloc_pages s count = (p, s') := by
  rcases hl.alloc_cases hc with h | ⟨-, p, hp, hrun, he⟩
  · exact .inl h
  · have hend := hrun.1
    have htotal := hl.total
    unfold Pmm.PMM_MAX_PAGES at htotal
    refine .inr ⟨p * PAGE_SIZE, Pmm.take_run s p count, ?_, ?_, ⟨p, hrun⟩, he⟩
    · unfold PAGE_SIZE
      omega
    · unfold PAGE_SIZE
      omega

section
variable {s : Pmm.St} {held : List Pmm.Grant} {g : Surface}

/-- With a back buffer or without: one is as large as the surface, and below the end of the pages. -/
theorem add_back_cases (hl : Pmm.Ledger s held) (hp : g.pitch < 2 ^ 32) (hh : g.height < 2 ^ 32) :
    (add_back g s).1 = { g with back := g.pixels, double_buffered := false } ∨
    ∃ b : Buffer, g.pitch * g.height ≤ b.size ∧ b.start + b.size ≤ 2 ^ 31 ∧
      (∃ p, Pmm.FreeRun s (page_count g.bytes) p) ∧
      (add_back g s).1 = { g with back := b, double_buffered := true } := by
  have hmul : g.pitch * g.height ≤ (2 ^ 32 - 1) * (2 ^ 32 - 1) := Nat.mul_le_mul (by omega) (by omega)
  have hbytes : g.bytes = g.pitch * g.height := Nat.mod_eq_of_lt (by omega)
  have hcount := page_count_eq (show g.bytes + 4095 < 2 ^ 64 by omega)
  have hroom : g.bytes ≤ page_count g.bytes * PAGE_SIZE := by
    rw [hcount, PAGE_SIZE]
    omega
  unfold add_back
  dsimp only
  rcases alloc_cases hl (show page_count g.bytes < 2 ^ 64 by omega) with ⟨-, he⟩ | ⟨p, s', hne, hend, hrun, he⟩
  · rw [he]
    exact .inl rfl
  · rw [he]
    refine .inr ⟨⟨p, page_count g.bytes * PAGE_SIZE⟩, hbytes.ge.trans hroom, hend, hrun, ?_⟩
    dsimp only
    rw [if_pos hne]

/-- A surface whose buffer is large enough is sound with a back buffer and without. -/
theorem add_back_inside (hl : Pmm.Ledger s held) (hp : g.pitch < 2 ^ 32) (hh : g.height < 2 ^ 32)
    (hw : 4 * g.width ≤ g.pitch) (hrows : g.width = 0 ∨ g.height ≤ 2 ^ 31) (hsize : g.pitch * g.height ≤ g.pixels.size)
    (hroom : g.pixels.start + g.pitch * g.height ≤ 2 ^ 64) : Inside (add_back g s).1 := by
  have hbytes : g.bytes ≤ g.pitch * g.height := Nat.mod_le _ _
  rcases add_back_cases hl hp hh with he | ⟨b, hb, hend, -, he⟩
  · rw [he]
    refine ⟨fun x y r hr => .inl ?_, by simp [fb_swap]⟩
    exact base_has (g := { g with back := g.pixels, double_buffered := false }) hw hp hrows hsize hroom hr
  · rw [he]
    refine ⟨fun x y r hr => .inr ?_, fun r hr => ?_⟩
    · exact base_has (g := { g with back := b, double_buffered := true }) hw hp hrows hb
        (by dsimp only [Surface.base]; simp only [if_true]; omega) hr
    · rw [fb_swap, if_neg (by simp)] at hr
      simp only [List.mem_cons, List.not_mem_nil, or_false] at hr
      rcases hr with rfl | rfl
      · exact .inl ⟨le_refl _, Nat.add_le_add_left (hbytes.trans hsize) _⟩
      · exact .inr ⟨le_refl _, Nat.add_le_add_left (hbytes.trans hb) _⟩

/-- There are no pages for a surface with so many rows. -/
theorem add_back_out (hl : Pmm.Ledger s held) (hp : 4 ≤ g.pitch ∧ g.pitch < 2 ^ 32) (hw : g.width ≠ 0)
    (hh : 2 ^ 31 < g.height ∧ g.height < 2 ^ 32) (hsize : g.pixels.size ≤ g.pitch * g.height) :
    ¬ Inside (add_back g s).1 := by
  have hlarge : 4 * 2 ^ 31 ≤ g.pitch * g.height := Nat.mul_le_mul hp.1 hh.1.le
  rcases add_back_cases hl hp.2 hh.2 with he | ⟨b, hb, hend, -, -⟩
  · rw [he]
    rintro ⟨hput, -⟩
    obtain ⟨x, y, r, hr, hout⟩ := last_row_out (g := { g with back := g.pixels, double_buffered := false }) (b := g.pixels)
      hp hw hh rfl hsize
    rcases hput x y r hr with h | h
    · exact hout h
    · exact hout h
  · omega

/-- Without pages the placeholder is all there is, and the last row is not in it. -/
theorem fallback_out (hl : Pmm.Ledger s held) (hrun : ¬ ∃ p, Pmm.FreeRun s 900 p) (hw : g.width = 1280)
    (hh : g.height = 720) (hp : g.pitch = 5120) (hsize : g.pixels.size = FALLBACK_SIZE) : ¬ Inside (add_back g s).1 := by
  have hcount : page_count g.bytes = 900 := by
    rw [Surface.bytes, hp, hh]
    exact made_up_pages
  rcases add_back_cases hl (show g.pitch < 2 ^ 32 by omega) (show g.height < 2 ^ 32 by omega) with
    he | ⟨-, -, -, hfree, -⟩
  · rw [he]
    rintro ⟨hput, -⟩
    obtain ⟨x, y, r, hr, hout⟩ := placeholder_out (g := { g with back := g.pixels, double_buffered := false })
      (b := g.pixels) hw hh hp rfl hsize
    rcases hput x y r hr with h | h
    · exact hout h
    · exact hout h
  · rw [hcount] at hfree
    exact absurd hfree hrun

end

/-! ## From the boot information on -/

section
variable {info : Option Mem} {t : mb2_tag_framebuffer_t} {fuel fallback : Nat} {r : Option Nat}
  {tag : Option mb2_tag_framebuffer_t} {s : Pmm.St} {held : List Pmm.Grant}

theorem Loaded.small (h : Loaded info t) : t.pitch < 2 ^ 32 ∧ t.height < 2 ^ 32 := by
  obtain ⟨m, pos, -, -, rfl, -⟩ := h
  exact ⟨load_lt m _ 4, load_lt m _ 4⟩

/-- The tag that `fb_init` can use is the framebuffer that the loader tells of. -/
theorem loaded_iff (h : (mb2_find fuel info MB2_TAG_FRAMEBUFFER).val = .ok r)
    (htag : tag = do return read_tag (← info) (← r)) :
    tag.filter (fun t => t.framebuffer_type = 1 ∧ t.bpp = 32) = some t ↔ Loaded info t := by
  rw [htag]
  cases info with
  | none =>
    refine iff_of_false nofun ?_
    rintro ⟨m, pos, hm, -⟩
    cases hm
  | some m =>
    have hfound : ∀ p, r = some p ↔ FirstTag m (load m 0 4) MB2_TAG_FRAMEBUFFER 8 p := scan_found h
    cases r with
    | none =>
      refine iff_of_false nofun ?_
      rintro ⟨m', pos, hm, hfirst, -⟩
      cases hm
      cases (hfound pos).2 hfirst
    | some p =>
      have hread : (do return read_tag (← some m) (← some p) : Option mb2_tag_framebuffer_t) = some (read_tag m p) := rfl
      rw [hread, Option.filter_eq_some_iff]
      constructor
      · rintro ⟨ht, husable⟩
        have ht := Option.some.inj ht
        exact ⟨m, p, rfl, (hfound p).1 rfl, ht.symm, of_decide_eq_true husable⟩
      · rintro ⟨m', pos, hm, hfirst, ht, husable⟩
        cases hm
        cases (hfound pos).2 hfirst
        exact ⟨congrArg some ht.symm, decide_eq_true husable⟩

theorem fb_init_eq (h : (mb2_find fuel info MB2_TAG_FRAMEBUFFER).val = .ok r)
    (htag : tag = do return read_tag (← info) (← r)) : fb_init fuel info fallback s =
      .ok (add_back (open_surface tag fallback s).1 (open_surface tag fallback s).2) := by
  unfold fb_init
  rw [h, htag]
  rfl

/-- On a framebuffer of the loader's. -/
theorem loaded_inside (hl : Pmm.Ledger s held) (ht : Loaded info t) (hd : Described t)
    (hopen : tag.filter (fun t => t.framebuffer_type = 1 ∧ t.bpp = 32) = some t) :
    Inside (add_back (open_surface tag fallback s).1 (open_surface tag fallback s).2).1 ↔
      t.width = 0 ∨ t.height ≤ 2 ^ 31 := by
  obtain ⟨hp, hh⟩ := ht.small
  have hrows := hd.rows
  unfold open_surface
  rw [hopen]
  dsimp only
  constructor
  · intro h
    by_contra hbad
    push Not at hbad
    exact add_back_out hl ⟨by dsimp only; omega, hp⟩ hbad.1 ⟨hbad.2, hh⟩ (le_refl _) h
  · intro hgood
    exact add_back_inside hl hp hh hrows hgood (le_refl _) hd.room

/-- On a surface of its own. -/
theorem made_up_inside (hl : Pmm.Ledger s held)
    (hopen : tag.filter (fun t => t.framebuffer_type = 1 ∧ t.bpp = 32) = none) :
    Inside (add_back (open_surface tag fallback s).1 (open_surface tag fallback s).2).1 ↔ ∃ p, Pmm.FreeRun s 900 p := by
  have hnext := hl.alloc_pages (show 900 < 2 ^ 64 by omega)
  unfold open_surface
  rw [hopen]
  dsimp only
  rw [made_up_pages]
  rcases alloc_cases hl (show 900 < 2 ^ 64 by omega) with ⟨hnone, he⟩ | ⟨p, s', hne, hend, hrun, he⟩
  · have hrun := hnone.resolve_left (by omega)
    rw [he]
    exact iff_of_false (fallback_out hl hrun rfl rfl rfl rfl) hrun
  · rw [he] at hnext ⊢
    dsimp only at hnext ⊢
    rw [if_pos hne]
    refine iff_of_true (add_back_inside hnext ?_ ?_ ?_ (.inr ?_) ?_ ?_) hrun
    all_goals dsimp only
    · norm_num
    · norm_num
    · norm_num
    · norm_num
    · norm_num [PAGE_SIZE]
    · norm_num [PAGE_SIZE] at hend ⊢
      omega

end

/-- After `fb_init` all that is touched is in the surface's buffers exactly if there is a framebuffer whose rows have
numbers, or there are pages for one. On a block whose tags fit `fb_init` returns. -/
theorem pixels_inside_iff {kernel_end : Nat} {mmap : Option (List Pmm.mb2_mmap_entry_t)} {s : Pmm.St}
    {held : List Pmm.Grant} (hs : Pmm.Runs kernel_end mmap s held) {info : Option Mem}
    (hinfo : ∀ t, Loaded info t → Described t) (fallback : Nat) :
    (∀ fuel g s', fb_init fuel info fallback s = .ok (g, s') → (Inside g ↔ Sound info s)) ∧
    ((∀ m, info = some m → TagsFit m (load m 0 4) 8) → ∃ fuel r, fb_init fuel info fallback s = .ok r) := by
  have hl := Pmm.runs_ledger hs
  constructor
  · intro fuel g s' h
    cases hfind : (mb2_find fuel info MB2_TAG_FRAMEBUFFER).val with
    | error crash =>
      unfold fb_init at h
      rw [hfind] at h
      cases h
    | ok r =>
      obtain ⟨tag, htag⟩ : ∃ tag : Option mb2_tag_framebuffer_t, tag = do return read_tag (← info) (← r) := ⟨_, rfl⟩
      have hloaded := fun t => loaded_iff (t := t) hfind htag
      rw [fb_init_eq hfind htag, Except.ok.injEq] at h
      rw [← show (add_back (open_surface tag fallback s).1 (open_surface tag fallback s).2).1 = g by rw [h]]
      unfold Sound
      simp only [← hloaded]
      cases hopen : tag.filter (fun t => t.framebuffer_type = 1 ∧ t.bpp = 32) with
      | none =>
        rw [made_up_inside hl hopen]
        simp
      | some t =>
        have ht := (hloaded t).1 hopen
        rw [loaded_inside hl ht (hinfo t ht) hopen]
        simp
  · intro hfits
    obtain ⟨fuel, r, hfind⟩ : ∃ fuel r, (mb2_find fuel info MB2_TAG_FRAMEBUFFER).val = .ok r := by
      cases info with
      | none => exact ⟨0, none, rfl⟩
      | some m =>
        obtain ⟨fuel, ⟨r, hr⟩, -⟩ := (hfits m rfl).scan_returns MB2_TAG_FRAMEBUFFER
        exact ⟨fuel, r, hr⟩
    exact ⟨fuel, _, fb_init_eq hfind rfl⟩

/-- A block that tells of a framebuffer of 1024 by 768 below 4 GiB. -/
def loader_block : Mem :=
  store (store (store (store (store (store (store (store (store (fun _ => 0) 0 4 40) 8 4 8) 12 4 32) 16 8 0xFD000000)
    24 4 4096) 28 4 1024) 32 4 768) 36 1 32) 37 1 1

theorem loader_block_tag (t : mb2_tag_framebuffer_t) : Loaded (some loader_block) t ↔ t = read_tag loader_block 8 := by
  have htype : tag_type loader_block 8 = MB2_TAG_FRAMEBUFFER := by decide +kernel
  have husable : (read_tag loader_block 8).framebuffer_type = 1 ∧ (read_tag loader_block 8).bpp = 32 := by decide +kernel
  constructor
  · rintro ⟨m, pos, hm, hfirst, ht, -⟩
    cases hm
    cases hfirst with
    | here => exact ht
    | next _ _ hne => exact absurd htype hne
  · rintro rfl
    exact ⟨loader_block, 8, rfl, .here (by decide +kernel) (by decide +kernel) htype, rfl, husable⟩

theorem pixels_inside_iff_loader : ∃ fuel r,
    fb_init fuel (some loader_block) 0 (Pmm.pmm_init 0x101000 Pmm.smallMap) = .ok r ∧ Inside r.1 := by
  have hd : ∀ t, Loaded (some loader_block) t → Described t := by
    intro t ht
    rw [(loader_block_tag t).1 ht]
    exact ⟨by decide +kernel, by decide +kernel⟩
  have hsound : Sound (some loader_block) (Pmm.pmm_init 0x101000 Pmm.smallMap) := by
    refine ⟨fun t ht => .inr ?_, .inl ⟨_, (loader_block_tag _).2 rfl⟩⟩
    rw [(loader_block_tag t).1 ht]
    decide +kernel
  have h := pixels_inside_iff (.init : Pmm.Runs 0x101000 Pmm.smallMap _ _) hd 0
  have hfits : TagsFit loader_block (load loader_block 0 4) 8 :=
    .tag (by decide +kernel) (by decide +kernel) (by decide +kernel) (.past (by decide +kernel))
  obtain ⟨fuel, r, hr⟩ := h.2 fun m hm => (by cases hm; exact hfits)
  exact ⟨fuel, r, hr, (h.1 fuel r.1 r.2 hr).2 hsound⟩

/-- With 261 pages of memory and no framebuffer, the pixels go behind `g_fallback`. -/
theorem pixels_behind_fallback : ¬ ∀ kernel_end mmap s held, Pmm.Runs kernel_end mmap s held → ∀ info,
    (∀ t, Loaded info t → Described t) → ∀ fallback fuel g s', fb_init fuel info fallback s = .ok (g, s') → Inside g := by
  intro h
  obtain ⟨s, held, hrun, hno⟩ : ∃ s held, Pmm.Runs 0x101000 Pmm.smallMap s held ∧ ¬ ∃ p, Pmm.FreeRun s 900 p := by
    have htotal : (Pmm.pmm_init 0x101000 Pmm.smallMap).total_pages = 261 :=
      (Pmm.init_total_eq _ _).trans (by decide +kernel)
    refine ⟨_, _, .init, ?_⟩
    rintro ⟨p, hp, -⟩
    omega
  have hnone : ∀ t, ¬ Loaded none t := by
    rintro t ⟨m, pos, hm, -⟩
    cases hm
  have hfind : (mb2_find 0 none MB2_TAG_FRAMEBUFFER).val = .ok none := rfl
  have htag : none = (do return read_tag (← none) (← none) : Option mb2_tag_framebuffer_t) := rfl
  have hout : ¬ Inside (add_back (open_surface none 0x200000 s).1 (open_surface none 0x200000 s).2).1 :=
    mt (made_up_inside (Pmm.runs_ledger hrun) rfl).1 hno
  exact hout (h _ _ _ _ hrun none (fun t ht => absurd ht (hnone t)) 0x200000 0 _ _ (fb_init_eq hfind htag))

end H3OS.Framebuffer
