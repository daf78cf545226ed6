import H3OS.Lib.Trace
import H3OS.Pmm.Model
/-!
# The boot information

`mb2_find` of `memory/pmm.c` and `drivers/framebuffer/framebuffer.c` (the two
are the same), and the use `pmm_init` makes of the memory map it finds. The
block is the memory at `info`; what is read of it is noted. Nothing is
checked: a tag that says it has no size is met again and again, and a memory
map with an entry size of zero is divided by it.
-/
open SysLib Traced

namespace H3OS.Multiboot

def MB2_TAG_END : Nat := 0
def MB2_TAG_MMAP : Nat := 6

/-- Why a call does not return. -/
inductive Crash where
  | endless
  | division_by_zero
deriving DecidableEq, Repr

/-! ## Finding a tag -/

def tag_type (info : Mem) (pos : Nat) : Nat := load info pos 4
def tag_size (info : Mem) (pos : Nat) : Nat := load info (pos + 4) 4

/-- `(size + 7) & ~7u`, in 32 bits. -/
def tag_step (size : Nat) : Nat := (size + 7) % 2 ^ 32 &&& (2 ^ 32 - 8)

/-- The loop of `mb2_find` up to `stop`, given up after `fuel` turns. -/
def scan (info : Mem) (stop type : Nat) : Nat → Nat → Traced (Except Crash (Option Nat))
  | 0, _ => pure (.error .endless)
  | fuel + 1, pos =>
    if pos < stop then do
      let tag ← read info pos 4
      if tag = MB2_TAG_END then pure (.ok none) else
      if tag = type then pure (.ok (some pos)) else do
      let size ← read info (pos + 4) 4
      scan info stop type fuel (pos + tag_step size)
    else pure (.ok none)

/-- The offset of the first tag of the type. -/
def mb2_find (fuel : Nat) (info : Option Mem) (type : Nat) : Traced (Except Crash (Option Nat)) :=
  match info with
  | none => pure (.ok none)
  | some info => do
    let total_size ← read info 0 4
    scan info total_size type fuel 8

/-! ## The memory map -/

/-- What `pmm_init` reads of an entry. -/
def read_entry (info : Mem) (a : Nat) : Traced Pmm.mb2_mmap_entry_t := do
  let addr ← read info a 8
  let len ← read info (a + 8) 8
  let type ← read info (a + 16) 4
  pure ⟨addr, len, type, load info (a + 20) 4⟩

/-- The first `n` entries of the map whose entries start at `a`. -/
def read_entries (info : Mem) (a entry_size : Nat) : Nat → Traced (List Pmm.mb2_mmap_entry_t)
  | 0 => pure []
  | n + 1 => do
    let entries ← read_entries info a entry_size n
    let e ← read_entry info (a + n * entry_size % 2 ^ 32)
    pure (entries ++ [e])

/-- `(mmap->size - 16) / mmap->entry_size`, in 32 bits. -/
def entry_count (size entry_size : Nat) : Nat := (size + (2 ^ 32 - 16)) % 2 ^ 32 / entry_size

/-- The entries of the map at `pos`. -/
def read_mmap (info : Mem) (pos : Nat) : Traced (Except Crash (Option (List Pmm.mb2_mmap_entry_t))) := do
  let size ← read info (pos + 4) 4
  let entry_size ← read info (pos + 8) 4
  if entry_size = 0 then pure (.error .division_by_zero) else do
  let entries ← read_entries info (pos + 16) entry_size (entry_count size entry_size)
  pure (.ok (some entries))

/-- The map that `pmm_init` works with. -/
def boot_mmap (fuel : Nat) (info : Option Mem) : Traced (Except Crash (Option (List Pmm.mb2_mmap_entry_t))) := do
  let tag ← mb2_find fuel info MB2_TAG_MMAP
  match tag, info with
  | .error crash, _ => pure (.error crash)
  | .ok (some pos), some info => read_mmap info pos
  | .ok _, _ => pure (.ok none)

/-- `pmm_init` from the boot information on. -/
def pmm_init (fuel kernel_end : Nat) (info : Option Mem) : Traced (Except Crash Pmm.St) := do
  let mmap ← boot_mmap fuel info
  pure (mmap.map (Pmm.pmm_init kernel_end))

/-! ## Being robust -/

/-- A computation that returns, and reads nothing behind `n`. -/
def Returns {α : Type} (n : Nat) (x : Traced (Except Crash α)) : Prop := (∃ r, x.val = .ok r) ∧ Within n x

/-- Every search for a tag, and the set-up of the page allocator, end without reading behind the block. -/
def Robust (info : Mem) : Prop :=
  (∀ type < 2 ^ 32, ∃ fuel, Returns (load info 0 4) (mb2_find fuel (some info) type)) ∧
    ∀ kernel_end, ∃ fuel, Returns (load info 0 4) (pmm_init fuel kernel_end (some info))

/-- From `pos` on the tags lie inside the block, and those that are passed over have a size to go on by. -/
inductive TagsFit (info : Mem) (stop : Nat) : Nat → Prop
  | past {pos : Nat} (h : stop ≤ pos) : TagsFit info stop pos
  | last {pos : Nat} (hin : pos + 4 ≤ stop) (htype : tag_type info pos = MB2_TAG_END) : TagsFit info stop pos
  | tag {pos : Nat} (hin : pos + 8 ≤ stop) (htype : tag_type info pos ≠ MB2_TAG_END)
      (hstep : tag_step (tag_size info pos) ≠ 0) (hrest : TagsFit info stop (pos + tag_step (tag_size info pos))) :
      TagsFit info stop pos

/-- From `pos` on, the first tag of the type is at `p`. -/
inductive FirstTag (info : Mem) (stop type : Nat) : Nat → Nat → Prop
  | here {pos : Nat} (hin : pos < stop) (hend : tag_type info pos ≠ MB2_TAG_END) (htype : tag_type info pos = type) :
      FirstTag info stop type pos pos
  | next {pos p : Nat} (hin : pos < stop) (hend : tag_type info pos ≠ MB2_TAG_END) (htype : tag_type info pos ≠ type)
      (hrest : FirstTag info stop type (pos + tag_step (tag_size info pos)) p) : FirstTag info stop type pos p

/-- The memory map at `pos` has an entry size, and lies inside the block as far as it is read. -/
structure MapFits (info : Mem) (stop pos : Nat) : Prop where
  head : pos + 12 ≤ stop
  entry_size : load info (pos + 8) 4 ≠ 0
  entries : ∀ i < entry_count (tag_size info pos) (load info (pos + 8) 4),
    pos + 16 + i * load info (pos + 8) 4 + 20 ≤ stop

/-- A block that has room for its own size, tags that fit and, if it has one, a first memory map that fits. -/
structure WellFormed (info : Mem) : Prop where
  size : 4 ≤ load info 0 4
  tags : TagsFit info (load info 0 4) 8
  map : ∀ p, FirstTag info (load info 0 4) MB2_TAG_MMAP 8 p → MapFits info (load info 0 4) p

/-! ## The scan -/

theorem tag_step_eq (size : Nat) : tag_step size = (size + 7) % 2 ^ 32 / 8 * 8 :=
  and_high_mask (k := 3) (by omega) (Nat.mod_lt _ (by omega))

section
variable {info : Mem} {stop type fuel pos : Nat}

theorem returns_pure {α : Type} {r : α} : Returns stop (pure (.ok r)) := ⟨⟨r, rfl⟩, within_pure _⟩

theorem not_returns_error {α : Type} {crash : Crash} : ¬ Returns (α := α) stop (pure (.error crash)) := by
  rintro ⟨⟨r, hr⟩, -⟩
  cases hr

theorem returns_bind {α β : Type} {x : Traced α} {f : α → Traced (Except Crash β)} :
    Returns stop (x >>= f) ↔ Within stop x ∧ Returns stop (f x.val) := by
  unfold Returns
  rw [bind_val, within_bind]
  tauto

/-- One turn of the scan: it ends at the end of the block, at an end tag or at the tag it looks for, and else goes on. -/
theorem scan_succ_returns : Returns stop (scan info stop type (fuel + 1) pos) ↔
    stop ≤ pos ∨ (pos + 4 ≤ stop ∧ (tag_type info pos = MB2_TAG_END ∨ tag_type info pos = type)) ∨
    (pos + 8 ≤ stop ∧ tag_type info pos ≠ MB2_TAG_END ∧ tag_type info pos ≠ type ∧
      Returns stop (scan info stop type fuel (pos + tag_step (tag_size info pos)))) := by
  rw [scan]
  by_cases hpos : pos < stop
  · rw [if_pos hpos, returns_bind, within_read]
    change _ ∧ Returns stop (if tag_type info pos = _ then _ else if tag_type info pos = _ then _ else _) ↔ _
    by_cases hend : tag_type info pos = MB2_TAG_END
    · rw [if_pos hend]
      constructor
      · exact fun h => .inr (.inl ⟨h.1, .inl hend⟩)
      · rintro (h | ⟨h, -⟩ | ⟨-, h, -⟩)
        · omega
        · exact ⟨h, returns_pure⟩
        · exact absurd hend h
    rw [if_neg hend]
    by_cases htype : tag_type info pos = type
    · rw [if_pos htype]
      constructor
      · exact fun h => .inr (.inl ⟨h.1, .inr htype⟩)
      · rintro (h | ⟨h, -⟩ | ⟨-, -, h, -⟩)
        · omega
        · exact ⟨h, returns_pure⟩
        · exact absurd htype h
    rw [if_neg htype, returns_bind, within_read]
    constructor
    · rintro ⟨-, h, hrest⟩
      exact .inr (.inr ⟨by omega, hend, htype, hrest⟩)
    · rintro (h | ⟨-, h | h⟩ | ⟨h, -, -, hrest⟩)
      · omega
      · exact absurd h hend
      · exact absurd h htype
      · exact ⟨by omega, by omega, hrest⟩
  · rw [if_neg hpos]
    exact iff_of_true returns_pure (.inl (not_lt.1 hpos))

/-- Tags that fit are scanned for any type. -/
theorem TagsFit.scan_returns (h : TagsFit info stop pos) (type : Nat) :
    ∃ fuel, Returns stop (scan info stop type fuel pos) := by
  induction h with
  | past h => exact ⟨1, scan_succ_returns.2 (.inl h)⟩
  | last hin htype => exact ⟨1, scan_succ_returns.2 (.inr (.inl ⟨hin, .inl htype⟩))⟩
  | @tag pos hin htype _ _ ih =>
    obtain ⟨fuel, hrest⟩ := ih
    by_cases hfound : tag_type info pos = type
    · exact ⟨1, scan_succ_returns.2 (.inr (.inl ⟨by omega, .inr hfound⟩))⟩
    · exact ⟨fuel + 1, scan_succ_returns.2 (.inr (.inr ⟨hin, htype, hfound, hrest⟩))⟩

/-- A scan for a type that no tag has sees all of them. -/
theorem tagsFit_of_scan (hlt : stop < 2 ^ 32) (habsent : ∀ k < 2 ^ 29, tag_type info (8 * k) ≠ type) (hpos : pos % 8 = 0)
    (h : Returns stop (scan info stop type fuel pos)) : TagsFit info stop pos := by
  induction fuel generalizing pos with
  | zero => exact absurd h not_returns_error
  | succ fuel ih =>
    rcases scan_succ_returns.1 h with h | ⟨hin, h | h⟩ | ⟨hin, hend, -, hrest⟩
    · exact .past h
    · exact .last hin h
    · have := habsent (pos / 8) (by omega)
      rw [Nat.mul_div_cancel' (Nat.dvd_of_mod_eq_zero hpos)] at this
      exact absurd h this
    · have hfits := ih (by rw [tag_step_eq]; omega) hrest
      by_cases hstep : tag_step (tag_size info pos) = 0
      · rwa [hstep] at hfits
      · exact .tag hin hend hstep hfits

/-- There are more types than a block has room for tags. -/
theorem exists_absent_type (info : Mem) : ∃ type < 2 ^ 32, ∀ k < 2 ^ 29, tag_type info (8 * k) ≠ type := by
  have hcard : ((Finset.range (2 ^ 29)).image (fun k => tag_type info (8 * k))).card < (Finset.range (2 ^ 32)).card := by
    have himage := Finset.card_image_le (s := Finset.range (2 ^ 29)) (f := fun k => tag_type info (8 * k))
    rw [Finset.card_range] at himage ⊢
    omega
  obtain ⟨type, hin, hout⟩ := Finset.exists_mem_notMem_of_card_lt_card hcard
  refine ⟨type, Finset.mem_range.1 hin, fun k hk he => hout ?_⟩
  exact Finset.mem_image.2 ⟨k, Finset.mem_range.2 hk, he⟩

/-- What a scan that ends has found. -/
theorem scan_found {r : Option Nat} (h : (scan info stop type fuel pos).val = .ok r) (p : Nat) :
    r = some p ↔ FirstTag info stop type pos p := by
  induction fuel generalizing pos with
  | zero => cases h
  | succ fuel ih =>
    rw [scan] at h
    by_cases hpos : pos < stop
    · rw [if_pos hpos, bind_val] at h
      change (if tag_type info pos = _ then _ else if tag_type info pos = _ then _ else _ : Traced _).val = _ at h
      by_cases hend : tag_type info pos = MB2_TAG_END
      · rw [if_pos hend] at h
        cases h
        refine iff_of_false (by simp) ?_
        rintro (⟨-, hne, -⟩ | ⟨-, hne, -, -⟩) <;> exact hne hend
      rw [if_neg hend] at h
      by_cases htype : tag_type info pos = type
      · rw [if_pos htype] at h
        cases h
        constructor
        · intro he
          cases he
          exact .here hpos hend htype
        · rintro (_ | ⟨-, -, hne, -⟩)
          · rfl
          · exact absurd htype hne
      rw [if_neg htype, bind_val] at h
      rw [ih h]
      constructor
      · exact .next hpos hend htype
      · rintro (⟨-, -, he⟩ | ⟨-, -, -, hrest⟩)
        · exact absurd he htype
        · exact hrest
    · rw [if_neg hpos] at h
      cases h
      refine iff_of_false (by simp) ?_
      rintro (⟨hin, -, -⟩ | ⟨hin, -, -, -⟩) <;> exact hpos hin

/-! ## The entries of a map -/

theorem read_entries_within {a entry_size n : Nat} :
    Within stop (read_entries info a entry_size n) ↔ ∀ i < n, a + i * entry_size % 2 ^ 32 + 20 ≤ stop := by
  induction n with
  | zero =>
    rw [read_entries]
    simp
  | succ n ih =>
    rw [read_entries, within_bind, within_bind, ih]
    simp only [read_entry, within_bind, within_read, within_pure, and_true]
    constructor
    · rintro ⟨hold, hnew⟩ i hi
      by_cases hin : i = n
      · subst hin
        omega
      · exact hold i (by omega)
    · intro h
      have := h n (by omega)
      exact ⟨fun i hi => h i (by omega), by omega, by omega, by omega⟩

/-- The offset of an entry that is counted does not wrap. -/
theorem entry_offset {size entry_size i : Nat} (h : i < entry_count size entry_size) :
    i * entry_size % 2 ^ 32 = i * entry_size := by
  apply Nat.mod_eq_of_lt
  have hlt : (size + (2 ^ 32 - 16)) % 2 ^ 32 < 2 ^ 32 := Nat.mod_lt _ (by omega)
  calc i * entry_size ≤ entry_count size entry_size * entry_size := Nat.mul_le_mul_right _ h.le
    _ ≤ (size + (2 ^ 32 - 16)) % 2 ^ 32 := Nat.div_mul_le_self _ _
    _ < 2 ^ 32 := hlt

theorem read_mmap_returns : Returns stop (read_mmap info pos) ↔ MapFits info stop pos := by
  have hentries : (∀ i < entry_count (tag_size info pos) (load info (pos + 8) 4),
        pos + 16 + i * load info (pos + 8) 4 % 2 ^ 32 + 20 ≤ stop) ↔
      ∀ i < entry_count (tag_size info pos) (load info (pos + 8) 4), pos + 16 + i * load info (pos + 8) 4 + 20 ≤ stop := by
    refine forall_congr' (fun i => imp_congr_right (fun hi => ?_))
    rw [entry_offset hi]
  rw [read_mmap, returns_bind, returns_bind, within_read, within_read]
  change _ ∧ _ ∧ Returns stop (if load info (pos + 8) 4 = 0 then _ else read_entries _ _ (load info (pos + 8) 4)
    (entry_count (tag_size info pos) (load info (pos + 8) 4)) >>= _) ↔ _
  by_cases hzero : load info (pos + 8) 4 = 0
  · rw [if_pos hzero]
    exact iff_of_false (fun h => not_returns_error h.2.2) (fun h => h.entry_size hzero)
  rw [if_neg hzero, returns_bind, read_entries_within, hentries]
  constructor
  · rintro ⟨-, hhead, hin, -⟩
    exact ⟨by omega, hzero, hin⟩
  · rintro ⟨hhead, -, hin⟩
    exact ⟨by omega, by omega, hin, returns_pure⟩

/-! ## The whole block -/

theorem mb2_find_returns : Returns stop (mb2_find fuel (some info) type) ↔
    4 ≤ stop ∧ Returns stop (scan info (load info 0 4) type fuel 8) := by
  rw [mb2_find, returns_bind, within_read]
  rfl

theorem pmm_init_returns {kernel_end : Nat} : Returns stop (pmm_init fuel kernel_end (some info)) ↔
    Returns stop (boot_mmap fuel (some info)) := by
  unfold pmm_init Returns
  rw [bind_val, within_bind]
  cases (boot_mmap fuel (some info)).val with
  | error crash => simp [Except.map]
  | ok mmap => simp [Except.map]

theorem boot_mmap_returns : Returns stop (boot_mmap fuel (some info)) ↔
    Returns stop (mb2_find fuel (some info) MB2_TAG_MMAP) ∧
      ∀ p, FirstTag info (load info 0 4) MB2_TAG_MMAP 8 p → MapFits info stop p := by
  rw [boot_mmap, returns_bind]
  cases hfind : (mb2_find fuel (some info) MB2_TAG_MMAP).val with
  | error crash =>
    refine iff_of_false (fun h => not_returns_error h.2) ?_
    rintro ⟨⟨⟨r, hr⟩, -⟩, -⟩
    rw [hfind] at hr
    cases hr
  | ok r =>
    have hfound : ∀ p, r = some p ↔ FirstTag info (load info 0 4) MB2_TAG_MMAP 8 p := scan_found hfind
    have hreturns : Within stop (mb2_find fuel (some info) MB2_TAG_MMAP) ↔
        Returns stop (mb2_find fuel (some info) MB2_TAG_MMAP) := ⟨fun h => ⟨⟨r, hfind⟩, h⟩, fun h => h.2⟩
    rw [hreturns]
    refine and_congr_right (fun _ => ?_)
    cases r with
    | none =>
      refine iff_of_true returns_pure (fun p hp => ?_)
      cases (hfound p).2 hp
    | some pos =>
      refine read_mmap_returns.trans ⟨fun hfits p hp => ?_, fun h => h pos ((hfound pos).1 rfl)⟩
      cases (hfound p).2 hp
      exact hfits

end

/-- The boot information is handled safely exactly if it is well formed. -/
theorem robust_iff (info : Mem) : Robust info ↔ WellFormed info := by
  have hlt : load info 0 4 < 2 ^ 32 := load_lt info 0 4
  constructor
  · rintro ⟨hfind, hinit⟩
    obtain ⟨type, htype, habsent⟩ := exists_absent_type info
    obtain ⟨fuel, hf⟩ := hfind type htype
    obtain ⟨hsize, hscan⟩ := mb2_find_returns.1 hf
    obtain ⟨fuel', hi⟩ := hinit 0
    exact ⟨hsize, tagsFit_of_scan hlt habsent (by omega) hscan, (boot_mmap_returns.1 (pmm_init_returns.1 hi)).2⟩
  · rintro ⟨hsize, htags, hmap⟩
    have hfind : ∀ type, ∃ fuel, Returns (load info 0 4) (mb2_find fuel (some info) type) := by
      intro type
      obtain ⟨fuel, hscan⟩ := htags.scan_returns type
      exact ⟨fuel, mb2_find_returns.2 ⟨hsize, hscan⟩⟩
    refine ⟨fun type _ => hfind type, fun kernel_end => ?_⟩
    obtain ⟨fuel, hf⟩ := hfind MB2_TAG_MMAP
    exact ⟨fuel, pmm_init_returns.2 (boot_mmap_returns.2 ⟨hf, hmap⟩)⟩

/-- A block of 24 bytes whose only tag, a command line, says that it has no size. -/
def noSize : Mem := store (store (fun _ => 0) 0 4 24) 8 4 1

/-- A block of 24 bytes with a memory map that says its entries have no size. -/
def noEntrySize : Mem := store (store (store (fun _ => 0) 0 4 24) 8 4 6) 12 4 16

/-- The search for a memory map in the first never ends; setting up the allocator from the second divides by zero. -/
theorem boot_information_not_robust :
    ((∀ fuel, (mb2_find fuel (some noSize) MB2_TAG_MMAP).val = .error .endless) ∧ ¬ Robust noSize) ∧
    ((boot_mmap 1 (some noEntrySize)).val = .error .division_by_zero ∧ ¬ Robust noEntrySize) := by
  have hloop : ∀ fuel, (scan noSize 24 MB2_TAG_MMAP fuel 8).val = .error .endless := by
    intro fuel
    induction fuel with
    | zero => rfl
    | succ fuel ih =>
      have htag : (Traced.read noSize 8 4).val = 1 := by decide +kernel
      have hsize : 8 + tag_step (Traced.read noSize (8 + 4) 4).val = 8 := by decide +kernel
      rw [scan, if_pos (by decide), bind_val, htag, if_neg (by decide), if_neg (by decide), bind_val, hsize]
      exact ih
  have hfind : ∀ fuel, (mb2_find fuel (some noSize) MB2_TAG_MMAP).val = .error .endless := by
    intro fuel
    have htotal : (Traced.read noSize 0 4).val = 24 := by decide +kernel
    rw [mb2_find, bind_val, htotal]
    exact hloop fuel
  refine ⟨⟨hfind, fun h => ?_⟩, rfl, fun h => ?_⟩
  · obtain ⟨fuel, ⟨r, hr⟩, -⟩ := h.1 MB2_TAG_MMAP (by decide)
    rw [hfind fuel] at hr
    cases hr
  · obtain ⟨fuel, hi⟩ := h.2 0
    have hmap := (boot_mmap_returns.1 (pmm_init_returns.1 hi)).2 8 (.here (by decide +kernel) (by decide +kernel)
      (by decide +kernel))
    exact hmap.entry_size (by decide +kernel)

end H3OS.Multiboot
