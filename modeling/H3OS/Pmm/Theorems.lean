import H3OS.Pmm.Bits
/-!
# Theorems about the physical memory manager

A run starts at `pmm_init` and allocates and frees in any order, freeing only
pages it holds. The invariant ties the bitmap to the ledger of pages handed
out: a page held is marked, and a page that is not marked may be handed out.
-/
open SysLib

namespace H3OS.Pmm

/-! ## Runs -/

/-- The address a call returned, and those of its pages that are not freed yet. -/
structure Grant where
  addr : Nat
  pages : List Nat

/-- The ledger after an allocation of `count` pages returned `r`. -/
def grant (r count : Nat) (held : List Grant) : List Grant :=
  if r = 0 then held else ⟨r, List.range' (r / PAGE_SIZE) count⟩ :: held

/-- The ledger after the pages `ps` are freed. -/
def release (ps : List Nat) (held : List Grant) : List Grant :=
  held.map (fun g => { g with pages := g.pages.filter (· ∉ ps) })

def Held (held : List Grant) (p : Nat) : Prop := ∃ g ∈ held, p ∈ g.pages

/-- Allocator states with the ledger of what is handed out. Frees name only pages that are. -/
inductive Runs (kernel_end : Nat) (mmap : Option (List mb2_mmap_entry_t)) : St → List Grant → Prop
  | init : Runs kernel_end mmap (pmm_init kernel_end mmap) []
  | alloc_page {s held} : Runs kernel_end mmap s held →
      Runs kernel_end mmap (pmm_alloc_page s).2 (grant (pmm_alloc_page s).1 1 held)
  | alloc_pages {s held} (count : Nat) : Runs kernel_end mmap s held → count < 2 ^ 64 →
      Runs kernel_end mmap (pmm_alloc_pages s count).2 (grant (pmm_alloc_pages s count).1 count held)
  | free_page {s held} (addr : Nat) : Runs kernel_end mmap s held → Held held (addr / PAGE_SIZE) →
      Runs kernel_end mmap (pmm_free_page s addr) (release [addr / PAGE_SIZE] held)
  | free_pages {s held} (addr count : Nat) : Runs kernel_end mmap s held → (∀ p ∈ named addr count, Held held p) →
      Runs kernel_end mmap (pmm_free_pages s addr count) (release (named addr count) held)

/-! ## What may be handed out -/

/-- The byte at `x` is in RAM: in an AVAILABLE entry, or in [1 MiB, 128 MiB) when there is no map. -/
def InRam (mmap : Option (List mb2_mmap_entry_t)) (x : Nat) : Prop :=
  match mmap with
  | none => 0x100000 ≤ x ∧ x < 0x8000000
  | some entries => ∃ e ∈ entries, e.type = MB2_MEMORY_AVAILABLE ∧ e.addr ≤ x ∧ x < e.addr + e.len

/-- Every byte of the page is in RAM, above 1 MiB and outside the kernel image. -/
def Usable (kernel_end : Nat) (mmap : Option (List mb2_mmap_entry_t)) (p : Nat) : Prop :=
  ∀ x, p * PAGE_SIZE ≤ x → x < (p + 1) * PAGE_SIZE → InRam mmap x ∧ 0x100000 ≤ x ∧ kernel_end ≤ x

/-- What is kept of an allocator state and its ledger: pages handed out are aligned, nobody else's, below the end, and usable. -/
structure Safe (kernel_end : Nat) (mmap : Option (List mb2_mmap_entry_t)) (s : St) (held : List Grant) : Prop where
  aligned : ∀ g ∈ held, g.addr ≠ 0 ∧ g.addr % PAGE_SIZE = 0
  disjoint : held.Pairwise (fun g h => List.Disjoint g.pages h.pages)
  below : ∀ g ∈ held, ∀ p ∈ g.pages, p < s.total_pages
  usable : ∀ g ∈ held, ∀ p ∈ g.pages, Usable kernel_end mmap p

/-- Entries whose end can be rounded up to a page without wrapping. -/
def MapFits : Option (List mb2_mmap_entry_t) → Prop
  | none => True
  | some entries => ∀ e ∈ entries, e.addr + e.len + 4095 < 2 ^ 64

/-! ## The ledger -/

theorem held_grant {held : List Grant} {r count q : Nat} :
    Held (grant r count held) q ↔ Held held q ∨ r ≠ 0 ∧ q ∈ List.range' (r / PAGE_SIZE) count := by
  unfold grant
  split_ifs with h0
  · exact ⟨.inl, fun h => h.elim id fun h => absurd h0 h.1⟩
  constructor
  · rintro ⟨g, hg, hq⟩
    rcases List.mem_cons.1 hg with rfl | hg
    · exact .inr ⟨h0, hq⟩
    · exact .inl ⟨g, hg, hq⟩
  · rintro (⟨g, hg, hq⟩ | ⟨-, hq⟩)
    · exact ⟨g, List.mem_cons_of_mem _ hg, hq⟩
    · exact ⟨_, List.mem_cons_self, hq⟩

/-- What is held after an allocation returned page `p`. -/
theorem held_grant_page {held : List Grant} {p count q : Nat} :
    Held (grant (p * PAGE_SIZE) count held) q ↔ Held held q ∨ p ≠ 0 ∧ p ≤ q ∧ q < p + count := by
  have hzero : p * PAGE_SIZE ≠ 0 ↔ p ≠ 0 := by
    unfold PAGE_SIZE
    omega
  rw [held_grant, Nat.mul_div_cancel p (by decide), hzero, List.mem_range'_1]

theorem held_release {held : List Grant} {ps : List Nat} {q : Nat} : Held (release ps held) q ↔ Held held q ∧ q ∉ ps := by
  unfold Held release
  constructor
  · rintro ⟨g, hg, hq⟩
    obtain ⟨g', hg', rfl⟩ := List.mem_map.1 hg
    obtain ⟨hq, hnot⟩ := List.mem_filter.1 hq
    exact ⟨⟨g', hg', hq⟩, by simpa using hnot⟩
  · rintro ⟨⟨g, hg, hq⟩, hnot⟩
    exact ⟨_, List.mem_map_of_mem hg, List.mem_filter.2 ⟨hq, by simpa using hnot⟩⟩

/-! ## The state after `pmm_init` -/

theorem page_eq : PAGE_SIZE = 2 ^ 12 := rfl

theorem up_page {x : Nat} (h : x + 4095 < 2 ^ 64) : H3OS_ALIGN_UP x PAGE_SIZE / PAGE_SIZE = (x + 4095) / 4096 := by
  rw [page_eq, align_up_eq (by omega) (by omega)]
  omega

theorem down_page {x : Nat} (h : x < 2 ^ 64) : H3OS_ALIGN_DOWN x PAGE_SIZE / PAGE_SIZE = x / 4096 := by
  rw [page_eq, align_down_eq (by omega) h]
  omega

/-- An entry clears only bits of pages that lie inside it, and only when it is available. -/
theorem map_entry_clear {s : St} {e : mb2_mmap_entry_t} (he : e.addr + e.len + 4095 < 2 ^ 64) {p : Nat}
    (h : bitmap_test (map_entry s e) p = false) :
    bitmap_test s p = false ∨
      (e.type = MB2_MEMORY_AVAILABLE ∧ e.addr ≤ p * PAGE_SIZE ∧ (p + 1) * PAGE_SIZE ≤ e.addr + e.len) := by
  unfold map_entry at h
  dsimp only at h
  split at h
  · rename_i hav
    rw [(clear_loop _ _ _).2, Bool.and_eq_false_iff] at h
    rcases h with h | h
    · exact .inl h
    · simp only [Bool.not_eq_false', decide_eq_true_eq, lt_min_iff] at h
      rw [up_page (by omega), add64_of_lt (by omega), down_page (by omega)] at h
      refine .inr ⟨hav, ?_, ?_⟩
      · unfold PAGE_SIZE; omega
      · unfold PAGE_SIZE; omega
  · exact .inl h

theorem map_entries_clear {entries : List mb2_mmap_entry_t} (he : ∀ e ∈ entries, e.addr + e.len + 4095 < 2 ^ 64) {p : Nat} :
    ∀ s, bitmap_test (entries.foldl map_entry s) p = false → bitmap_test s p = false ∨
      ∃ e ∈ entries, e.type = MB2_MEMORY_AVAILABLE ∧ e.addr ≤ p * PAGE_SIZE ∧ (p + 1) * PAGE_SIZE ≤ e.addr + e.len := by
  induction entries with
  | nil => exact fun s h => .inl h
  | cons e entries ih =>
    intro s h
    rcases ih (fun e' h' => he e' (by simp [h'])) _ h with h | ⟨e', h', hp⟩
    · rcases map_entry_clear (he e (by simp)) h with h | h
      · exact .inl h
      · exact .inr ⟨e, by simp, h⟩
    · exact .inr ⟨e', by simp [h'], hp⟩

theorem map_memory_total (mmap : Option (List mb2_mmap_entry_t)) : (map_memory mmap).total_pages ≤ PMM_MAX_PAGES := by
  cases mmap with
  | none =>
    simp only [map_memory, PMM_MAX_PAGES]
    omega
  | some entries =>
    unfold map_memory
    rw [(count_used_bits _).1]
    exact Nat.min_le_right _ _

/-- A page the map leaves clear is in RAM from end to end. -/
theorem map_memory_clear {mmap : Option (List mb2_mmap_entry_t)} (hm : MapFits mmap) {p : Nat}
    (h : bitmap_test (map_memory mmap) p = false) {x : Nat} (h1 : p * PAGE_SIZE ≤ x) (h2 : x < (p + 1) * PAGE_SIZE) :
    InRam mmap x := by
  cases mmap with
  | none =>
    rw [map_none_bits, Bool.not_eq_false', decide_eq_true_eq] at h
    unfold PAGE_SIZE at h1 h2
    exact ⟨by omega, by omega⟩
  | some entries =>
    unfold map_memory at h
    rw [(count_used_bits _).2] at h
    rcases map_entries_clear hm blank h with h | ⟨e, he, hav, ha, hb⟩
    · rw [test_blank] at h
      cases h
    · exact ⟨e, he, hav, by omega, by omega⟩

/-- After `pmm_init` a clear bit is a page that may be handed out. -/
theorem init_clear {kernel_end : Nat} {mmap : Option (List mb2_mmap_entry_t)} (hk : 0x100000 ≤ kernel_end)
    (hk' : kernel_end + 4095 < 2 ^ 64) (hm : MapFits mmap) {p : Nat} (hp : p < PMM_MAX_PAGES)
    (h : bitmap_test (pmm_init kernel_end mmap) p = false) : Usable kernel_end mmap p := by
  unfold pmm_init at h
  dsimp only at h
  rw [(reserve_loop _ _ _).2, (reserve_loop _ _ _).2] at h
  simp only [Bool.or_eq_false_iff, decide_eq_false_iff_not, lt_min_iff] at h
  obtain ⟨⟨h1, h2⟩, h3⟩ := h
  rw [add64_of_lt (by omega), up_page (by omega)] at h2
  rw [sub64_of_le hk (by omega), add64_of_lt (by omega), up_page (by omega)] at h3
  intro x hx1 hx2
  refine ⟨map_memory_clear hm h1 hx1 hx2, ?_⟩
  unfold PAGE_SIZE at hx1 hx2 h2 h3
  unfold PMM_MAX_PAGES at hp h2 h3
  constructor
  · omega
  · omega

theorem init_total_eq (kernel_end : Nat) (mmap : Option (List mb2_mmap_entry_t)) :
    (pmm_init kernel_end mmap).total_pages = (map_memory mmap).total_pages :=
  have h₁ := (reserve_loop (map_memory mmap) 0 0x100000).1
  have h₂ := (reserve_loop (reserve_region (map_memory mmap) 0 0x100000) 0x100000 (sub64 kernel_end 0x100000)).1
  h₂.trans h₁

theorem init_total (kernel_end : Nat) (mmap : Option (List mb2_mmap_entry_t)) :
    (pmm_init kernel_end mmap).total_pages ≤ PMM_MAX_PAGES :=
  le_of_eq_of_le (init_total_eq kernel_end mmap) (map_memory_total mmap)

/-! ## The invariant of every run -/

structure Inv (kernel_end : Nat) (mmap : Option (List mb2_mmap_entry_t)) (s : St) (held : List Grant) : Prop
    extends Safe kernel_end mmap s held where
  total : s.total_pages ≤ PMM_MAX_PAGES
  clear : ∀ p < s.total_pages, bitmap_test s p = false → Usable kernel_end mmap p
  marked : ∀ g ∈ held, ∀ p ∈ g.pages, bitmap_test s p = true

section
variable {kernel_end : Nat} {mmap : Option (List mb2_mmap_entry_t)} {s s' : St} {held : List Grant}

theorem inv_alloc (hi : Inv kernel_end mmap s held) {p count : Nat} (hp : p + count ≤ s.total_pages)
    (hfree : ∀ i < count, bitmap_test s (p + i) = false) (ht : s'.total_pages = s.total_pages)
    (hb : ∀ q, bitmap_test s' q = (bitmap_test s q || decide (p ≤ q ∧ q < p + count))) :
    Inv kernel_end mmap s' (grant (p * PAGE_SIZE) count held) := by
  have hclear : ∀ q < s'.total_pages, bitmap_test s' q = false → Usable kernel_end mmap q := by
    intro q hq h
    rw [hb, Bool.or_eq_false_iff] at h
    exact hi.clear q (by omega) h.1
  have hmarked : ∀ g ∈ held, ∀ q ∈ g.pages, bitmap_test s' q = true := by
    intro g hg q hq
    rw [hb, hi.marked g hg q hq, Bool.true_or]
  unfold grant
  split
  · exact ⟨⟨hi.aligned, hi.disjoint, by rw [ht]; exact hi.below, hi.usable⟩, by rw [ht]; exact hi.total, hclear, hmarked⟩
  · rename_i h0
    have hdiv : p * PAGE_SIZE / PAGE_SIZE = p := Nat.mul_div_cancel _ (by decide)
    have hmem : ∀ q, q ∈ List.range' (p * PAGE_SIZE / PAGE_SIZE) count → ∃ i < count, q = p + i := by
      intro q hq
      rw [hdiv] at hq
      obtain ⟨i, hi, rfl⟩ := List.mem_range'.1 hq
      exact ⟨i, hi, by omega⟩
    have hnew : ∀ i < count, p + i < s.total_pages ∧ Usable kernel_end mmap (p + i) := fun i hc =>
      ⟨by omega, hi.clear _ (by omega) (hfree i hc)⟩
    refine ⟨⟨?_, ?_, ?_, ?_⟩, by rw [ht]; exact hi.total, hclear, ?_⟩
    · rintro g (_ | ⟨_, hg⟩)
      · exact ⟨h0, Nat.mul_mod_left _ _⟩
      · exact hi.aligned g hg
    · refine List.pairwise_cons.2 ⟨fun g hg q hq hq' => ?_, hi.disjoint⟩
      obtain ⟨i, hc, rfl⟩ := hmem q hq
      have hset := hi.marked g hg _ hq'
      rw [hfree i hc] at hset
      cases hset
    · rintro g (_ | ⟨_, hg⟩) q hq
      · obtain ⟨i, hc, rfl⟩ := hmem q hq
        rw [ht]
        exact (hnew i hc).1
      · rw [ht]
        exact hi.below g hg q hq
    · rintro g (_ | ⟨_, hg⟩) q hq
      · obtain ⟨i, hc, rfl⟩ := hmem q hq
        exact (hnew i hc).2
      · exact hi.usable g hg q hq
    · rintro g (_ | ⟨_, hg⟩) q hq
      · obtain ⟨i, hc, rfl⟩ := hmem q hq
        rw [hb, decide_eq_true (by omega), Bool.or_true]
      · exact hmarked g hg q hq

theorem inv_free (hi : Inv kernel_end mmap s held) {ps : List Nat} (hps : ∀ p ∈ ps, Held held p)
    (ht : s'.total_pages = s.total_pages)
    (hb : ∀ q, bitmap_test s' q = (bitmap_test s q && !decide (q ∈ ps ∧ q < s.total_pages))) :
    Inv kernel_end mmap s' (release ps held) := by
  have hmem : ∀ g ∈ release ps held, ∃ g' ∈ held, g.addr = g'.addr ∧ ∀ p ∈ g.pages, p ∈ g'.pages ∧ p ∉ ps := by
    intro g hg
    obtain ⟨g', hg', rfl⟩ := List.mem_map.1 hg
    exact ⟨g', hg', rfl, fun p hp => by simpa using hp⟩
  refine ⟨⟨?_, ?_, ?_, ?_⟩, by rw [ht]; exact hi.total, ?_, ?_⟩
  · intro g hg
    obtain ⟨g', hg', ha, -⟩ := hmem g hg
    rw [ha]
    exact hi.aligned g' hg'
  · refine List.pairwise_map.2 (hi.disjoint.imp ?_)
    intro g g' hd p hp hp'
    exact hd (List.mem_filter.1 hp).1 (List.mem_filter.1 hp').1
  · intro g hg p hp
    obtain ⟨g', hg', -, hsub⟩ := hmem g hg
    rw [ht]
    exact hi.below g' hg' p (hsub p hp).1
  · intro g hg p hp
    obtain ⟨g', hg', -, hsub⟩ := hmem g hg
    exact hi.usable g' hg' p (hsub p hp).1
  · intro q hq h
    rw [hb, Bool.and_eq_false_iff] at h
    rcases h with h | h
    · exact hi.clear q (by omega) h
    · simp only [Bool.not_eq_false', decide_eq_true_eq] at h
      obtain ⟨g, hg, hp⟩ := hps q h.1
      exact hi.usable g hg q hp
  · intro g hg p hp
    obtain ⟨g', hg', -, hsub⟩ := hmem g hg
    rw [hb, hi.marked g' hg' p (hsub p hp).1]
    simp [(hsub p hp).2]

theorem inv_init (hk : 0x100000 ≤ kernel_end) (hk' : kernel_end + 4095 < 2 ^ 64) (hm : MapFits mmap) :
    Inv kernel_end mmap (pmm_init kernel_end mmap) [] where
  aligned := by simp
  disjoint := .nil
  below := by simp
  usable := by simp
  total := init_total kernel_end mmap
  clear p hp h := init_clear hk hk' hm (lt_of_lt_of_le hp (init_total kernel_end mmap)) h
  marked := by simp

theorem runs_inv (hk : 0x100000 ≤ kernel_end) (hk' : kernel_end + 4095 < 2 ^ 64) (hm : MapFits mmap)
    (h : Runs kernel_end mmap s held) : Inv kernel_end mmap s held := by
  induction h with
  | init => exact inv_init hk hk' hm
  | @alloc_page s held _ ih =>
    rcases alloc_page_cases s with h | ⟨p, hp, hb, h⟩
    · rw [h]; exact ih
    · rw [h]
      refine inv_alloc ih (by omega) (fun i hc => ?_) rfl (fun q => ?_)
      · obtain rfl : i = 0 := by omega
        exact hb
      · rw [test_take]
        congr 2
        exact propext (by omega)
  | @alloc_pages s held count _ hc ih =>
    rcases alloc_cases hc ih.total with h | ⟨p, s', h1, h2, h, ht, hb⟩
    · rw [h]; exact ih
    · rw [h]
      exact inv_alloc ih h1 h2 ht hb
  | @free_page s held addr _ hp ih =>
    obtain ⟨ht, hb⟩ := free_page_bits s addr
    refine inv_free ih (by simpa using hp) ht (fun q => ?_)
    rw [hb]
    simp
  | @free_pages s held addr count _ hp ih =>
    obtain ⟨ht, hb⟩ := free_pages_bits s addr count
    exact inv_free ih hp ht hb

end

/-- Whatever is allocated and freed after `pmm_init`, the pages handed out are distinct, aligned, below `total_pages`,
in RAM and clear of low memory and of the kernel image. -/
theorem pages_safe {kernel_end : Nat} {mmap : Option (List mb2_mmap_entry_t)} (hk : 0x100000 ≤ kernel_end)
    (hk' : kernel_end + 4095 < 2 ^ 64) (hm : MapFits mmap) {s : St} {held : List Grant}
    (h : Runs kernel_end mmap s held) : Safe kernel_end mmap s held :=
  (runs_inv hk hk' hm h).toSafe

/-- Five pages of RAM from 1 MiB on, the first of them taken by the kernel image. -/
def smallMap : Option (List mb2_mmap_entry_t) := some [⟨0x100000, 0x5000, MB2_MEMORY_AVAILABLE, 0⟩]

theorem smallMap_bits (p : Nat) :
    bitmap_test (pmm_init 0x101000 smallMap) p = !decide (257 ≤ p ∧ p < 261) := by
  unfold pmm_init smallMap map_memory
  dsimp only
  rw [(reserve_loop _ _ _).2, (reserve_loop _ _ _).2, (count_used_bits _).2]
  simp only [List.foldl_cons, List.foldl_nil, map_entry, if_true]
  rw [bitmap_test_eq]
  dsimp only
  rw [← bitmap_test_eq, (clear_loop _ _ _).2, bitmap_test_eq]
  dsimp only
  rw [← bitmap_test_eq, test_blank, Bool.true_and,
    show H3OS_ALIGN_UP 0x100000 PAGE_SIZE / PAGE_SIZE = 256 by decide +kernel,
    show min (H3OS_ALIGN_DOWN (add64 0x100000 0x5000) PAGE_SIZE / PAGE_SIZE) PMM_MAX_PAGES = 261 by decide +kernel,
    show min (H3OS_ALIGN_UP (add64 0 0x100000) PAGE_SIZE / PAGE_SIZE) PMM_MAX_PAGES = 256 by decide +kernel,
    show min (H3OS_ALIGN_UP (add64 0x100000 (sub64 0x101000 0x100000)) PAGE_SIZE / PAGE_SIZE) PMM_MAX_PAGES = 257
      by decide +kernel, show 0x100000 / PAGE_SIZE = 256 from rfl, show 0 / PAGE_SIZE = 0 from rfl, Bool.eq_iff_iff]
  simp only [Bool.or_eq_true, Bool.not_eq_true', decide_eq_true_eq, decide_eq_false_iff_not]
  omega

/-- Two pages come from behind the kernel image. -/
theorem smallMap_alloc : pmm_alloc_pages (pmm_init 0x101000 smallMap) 2 =
    (0x101000, take_run (pmm_init 0x101000 smallMap) 257 2) := by
  have htotal : (pmm_init 0x101000 smallMap).total_pages = 261 :=
    (init_total_eq _ _).trans (by decide +kernel)
  have hrun : find_run (pmm_init 0x101000 smallMap) 2 = some 257 := by
    unfold find_run run_free
    rw [htotal]
    simp only [smallMap_bits]
    decide +kernel
  simp [pmm_alloc_pages, hrun, PAGE_SIZE]

theorem pages_safe_smallMap :
    (pmm_alloc_pages (pmm_init 0x101000 smallMap) 2).1 = 0x101000 ∧
    Safe 0x101000 smallMap (pmm_alloc_pages (pmm_init 0x101000 smallMap) 2).2
      (grant (pmm_alloc_pages (pmm_init 0x101000 smallMap) 2).1 2 []) := by
  refine ⟨by rw [smallMap_alloc], pages_safe (by omega) (by omega) ?_ (.alloc_pages 2 .init (by omega))⟩
  simp [MapFits, smallMap]

end H3OS.Pmm
