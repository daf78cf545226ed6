import H3OS.Pmm.Theorems
/-!
# Counting pages

`used_pages` is set up in three ways and then kept by increments. It always
is the number of set bits below `total_pages`, because no bit above is ever
clear: a bit that changes is one that is counted.
-/
open SysLib

namespace H3OS.Pmm

/-- The pages below `total_pages` that are marked. -/
def setPages (s : St) : Finset Nat := (Finset.range s.total_pages).filter (fun p => bitmap_test s p = true)

/-- The pages below `total_pages` that are not. -/
def clearPages (s : St) : Finset Nat := (Finset.range s.total_pages).filter (fun p => bitmap_test s p = false)

/-- The counter and the bitmap agree, and so do the figures reported. -/
structure Exact (s : St) : Prop where
  used : s.used_pages = (setPages s).card
  beyond : ∀ p, s.total_pages ≤ p → bitmap_test s p = true
  total : s.total_pages ≤ PMM_MAX_PAGES
  free : (pmm_get_stats s).free_pages = (clearPages s).card

/-- Allocator states after any calls whatever. -/
inductive AnyRun (kernel_end : Nat) (mmap : Option (List mb2_mmap_entry_t)) : St → Prop
  | init : AnyRun kernel_end mmap (pmm_init kernel_end mmap)
  | alloc_page {s} : AnyRun kernel_end mmap s → AnyRun kernel_end mmap (pmm_alloc_page s).2
  | alloc_pages {s} (count : Nat) : AnyRun kernel_end mmap s → count < 2 ^ 64 →
      AnyRun kernel_end mmap (pmm_alloc_pages s count).2
  | free_page {s} (addr : Nat) : AnyRun kernel_end mmap s → AnyRun kernel_end mmap (pmm_free_page s addr)
  | free_pages {s} (addr count : Nat) : AnyRun kernel_end mmap s → AnyRun kernel_end mmap (pmm_free_pages s addr count)

/-- What the operations keep; the report follows. -/
structure Counted (s : St) : Prop where
  used : s.used_pages = (setPages s).card
  beyond : ∀ p, s.total_pages ≤ p → bitmap_test s p = true
  total : s.total_pages ≤ PMM_MAX_PAGES

section
variable {s s' : St} {p : Nat}

theorem setPages_le (s : St) : (setPages s).card ≤ s.total_pages := by
  have h := Finset.card_filter_le (Finset.range s.total_pages) (fun p => bitmap_test s p = true)
  rwa [Finset.card_range] at h

theorem Counted.exact (h : Counted s) : Exact s := by
  have hsplit := Finset.card_filter_add_card_filter_not (s := Finset.range s.total_pages) (fun p => bitmap_test s p = true)
  simp only [Bool.not_eq_true, Finset.card_range] at hsplit
  refine ⟨h.used, h.beyond, h.total, ?_⟩
  have hle := setPages_le s
  have hused := h.used
  unfold setPages at hle hused
  unfold pmm_get_stats clearPages
  dsimp only
  split_ifs <;> omega

/-- Only a page that is counted can be clear. -/
theorem Counted.lt_of_clear (h : Counted s) (hp : bitmap_test s p = false) : p < s.total_pages := by
  by_contra hle
  rw [h.beyond p (by omega)] at hp
  cases hp

/-! ## Single pages -/

/-- The marked pages below `n`. -/
def marks (s : St) (n : Nat) : Finset Nat := (Finset.range n).filter (fun p => bitmap_test s p = true)

theorem setPages_eq (s : St) : setPages s = marks s s.total_pages := rfl

theorem mem_marks {n q : Nat} : q ∈ marks s n ↔ q < n ∧ bitmap_test s q = true := by
  simp [marks]

theorem marks_take {n : Nat} (hp : p < n) : marks (bitmap_take s p) n = insert p (marks s n) := by
  ext q
  simp only [mem_marks, Finset.mem_insert, test_take, Bool.or_eq_true, decide_eq_true_eq]
  constructor
  · rintro ⟨h1, h2 | h2⟩
    · exact .inr ⟨h1, h2⟩
    · exact .inl h2
  · rintro (h1 | ⟨h1, h2⟩)
    · exact ⟨by omega, .inr h1⟩
    · exact ⟨h1, .inl h2⟩

theorem marks_drop (n : Nat) : marks (bitmap_drop s p) n = (marks s n).erase p := by
  ext q
  simp only [mem_marks, Finset.mem_erase, test_drop, Bool.and_eq_true, Bool.not_eq_true', decide_eq_false_iff_not]
  constructor
  · rintro ⟨h1, h2, h3⟩
    exact ⟨h3, h1, h2⟩
  · rintro ⟨h3, h1, h2⟩
    exact ⟨h1, h2, h3⟩

theorem Counted.take (h : Counted s) (hp : bitmap_test s p = false) : Counted (bitmap_take s p) := by
  have hlt := h.lt_of_clear hp
  have hset : setPages (bitmap_take s p) = insert p (setPages s) := marks_take hlt
  have hnew : p ∉ setPages s := by
    simp [setPages, hp]
  -- no more pages are counted than there are, so the sum does not wrap
  refine ⟨?_, fun q hq => ?_, h.total⟩
  · rw [hset, Finset.card_insert_of_notMem hnew, ← h.used]
    have hle := setPages_le s
    rw [← h.used] at hle
    have := h.total
    refine add64_of_lt ?_
    unfold PMM_MAX_PAGES at this
    omega
  · rw [test_take, h.beyond q hq, Bool.true_or]

/-- A page taken is one less that is reported free. -/
theorem Counted.free_take (h : Counted s) (hp : bitmap_test s p = false) :
    (pmm_get_stats s).free_pages = (pmm_get_stats (bitmap_take s p)).free_pages + 1 := by
  have hset : clearPages (bitmap_take s p) = (clearPages s).erase p := by
    ext q
    simp only [clearPages, Finset.mem_filter, Finset.mem_erase, test_take, Bool.or_eq_false_iff, decide_eq_false_iff_not,
      Finset.mem_range]
    exact ⟨fun h => ⟨h.2.2, h.1, h.2.1⟩, fun h => ⟨h.2.1, h.2.2, h.1⟩⟩
  have hmem : p ∈ clearPages s := Finset.mem_filter.2 ⟨Finset.mem_range.2 (h.lt_of_clear hp), hp⟩
  have hpos := Finset.card_pos.2 ⟨p, hmem⟩
  rw [h.exact.free, (h.take hp).exact.free, hset, Finset.card_erase_of_mem hmem]
  omega

/-- None is reported free exactly when none is. -/
theorem Counted.free_zero (h : Counted s) :
    (pmm_get_stats s).free_pages = 0 ↔ ∀ q < s.total_pages, bitmap_test s q = true := by
  rw [h.exact.free, Finset.card_eq_zero, clearPages, Finset.filter_eq_empty_iff]
  simp

theorem Counted.drop (h : Counted s) (hlt : p < s.total_pages) (hp : bitmap_test s p = true) :
    Counted (bitmap_drop s p) := by
  have hset : setPages (bitmap_drop s p) = (setPages s).erase p := marks_drop s.total_pages
  have hmem : p ∈ setPages s := by
    simp [setPages, hp, hlt]
  have hpos := Finset.card_pos.2 ⟨p, hmem⟩
  refine ⟨?_, fun q hq => ?_, h.total⟩
  · rw [hset, Finset.card_erase_of_mem hmem, ← h.used]
    have hle := setPages_le s
    rw [← h.used] at hle hpos
    have := h.total
    refine sub64_of_le hpos ?_
    unfold PMM_MAX_PAGES at this
    omega
  · have hq' : s.total_pages ≤ q := hq
    rw [test_drop, h.beyond q hq']
    simp
    omega

/-! ## The operations -/

theorem Counted.reserve_region (h : Counted s) (addr len : Nat) : Counted (reserve_region s addr len) := by
  unfold Pmm.reserve_region
  refine forRange_keeps Counted h (fun i s _ _ hs => ?_)
  split_ifs with hb
  · exact hs.take (by simpa using hb)
  · exact hs

theorem Counted.pmm_alloc_page (h : Counted s) : Counted (pmm_alloc_page s).2 := by
  rcases alloc_page_cases s with he | ⟨p, -, hp, he⟩
  · rw [he]
    exact h
  · rw [he]
    exact h.take hp

theorem Counted.take_run (h : Counted s) {count : Nat} (hfree : ∀ i < count, bitmap_test s (p + i) = false) :
    Counted (take_run s p count) := by
  unfold Pmm.take_run
  -- the pages still to be taken are clear
  refine (forRange_inv (fun i s' => Counted s' ∧ ∀ j, i ≤ j → j < count → bitmap_test s' (p + j) = false)
    (Nat.zero_le count) ⟨h, fun j _ hj => hfree j hj⟩ ?_).1
  rintro i s' - hi ⟨hs, hrest⟩
  refine ⟨hs.take (hrest i (le_refl _) hi), fun j hj hjc => ?_⟩
  rw [test_take, hrest j (by omega) hjc, decide_eq_false (by omega)]
  rfl

theorem Counted.pmm_alloc_pages (h : Counted s) {count : Nat} (hc : count < 2 ^ 64) :
    Counted (pmm_alloc_pages s count).2 := by
  unfold Pmm.pmm_alloc_pages
  split_ifs
  · exact h
  · exact h.pmm_alloc_page
  · cases hf : find_run s count with
    | none => exact h
    | some p => exact h.take_run (find_run_bound hc h.total hf).2

theorem Counted.pmm_free_page (h : Counted s) (addr : Nat) : Counted (pmm_free_page s addr) := by
  unfold Pmm.pmm_free_page
  dsimp only
  split_ifs with h1 h2
  · exact h
  · exact h.drop (by omega) h2
  · exact h

theorem Counted.pmm_free_pages (h : Counted s) (addr count : Nat) : Counted (pmm_free_pages s addr count) := by
  unfold Pmm.pmm_free_pages
  exact forRange_keeps Counted h (fun i s _ _ hs => hs.pmm_free_page _)

/-! ## The three ways to set it up -/

theorem count_used_used (s : St) (h : s.total_pages < 2 ^ 64) : (count_used s).used_pages = (setPages s).card := by
  unfold count_used setPages
  -- after `i` turns the counter has seen the pages below `i`
  refine (forRange_inv (fun i s' => (∀ p, bitmap_test s' p = bitmap_test s p) ∧
    s'.used_pages = ((Finset.range i).filter (fun p => bitmap_test s p = true)).card) (Nat.zero_le _) ?_ ?_).2
  · exact ⟨fun _ => rfl, by simp⟩
  rintro i s' - hi ⟨hb, hu⟩
  rw [Finset.range_add_one, Finset.filter_insert, hb]
  have hle := Finset.card_filter_le (Finset.range i) (fun p => bitmap_test s p = true)
  rw [Finset.card_range, ← hu] at hle
  split_ifs with hset
  · refine ⟨hb, ?_⟩
    rw [Finset.card_insert_of_notMem (by simp), ← hu]
    exact add64_of_lt (by omega)
  · exact ⟨hb, hu⟩

theorem counted_count_used (hbelow : ∀ p, bitmap_test s p = false → p < s.total_pages)
    (htotal : s.total_pages ≤ PMM_MAX_PAGES) : Counted (count_used s) := by
  obtain ⟨ht, hb⟩ := count_used_bits s
  have hset : setPages (count_used s) = setPages s := by
    unfold setPages
    rw [ht]
    simp only [hb]
  refine ⟨?_, fun p hp => ?_, ht.trans_le htotal⟩
  · rw [hset]
    refine count_used_used s ?_
    unfold PMM_MAX_PAGES at htotal
    omega
  · rw [hb]
    by_contra hc
    have := hbelow p (by simpa using hc)
    omega

/-- Clear pages are below the end and inside the bitmap. -/
def ClearBelow (s : St) : Prop := ∀ p, bitmap_test s p = false → p < s.total_pages ∧ p < PMM_MAX_PAGES

theorem ClearBelow.map_entry (h : ClearBelow s) {e : mb2_mmap_entry_t} (he : e.addr + e.len + 4095 < 2 ^ 64) :
    ClearBelow (map_entry s e) := by
  intro p hp
  unfold Pmm.map_entry at hp ⊢
  dsimp only at hp ⊢
  have hgrow : p < s.total_pages → p < max s.total_pages (H3OS_ALIGN_UP (add64 e.addr e.len) PAGE_SIZE / PAGE_SIZE) :=
    fun h => lt_max_of_lt_left h
  split at hp
  · rename_i hav
    rw [if_pos hav, (clear_loop _ _ _).1]
    rw [(clear_loop _ _ _).2, Bool.and_eq_false_iff] at hp
    rcases hp with hp | hp
    · exact ⟨hgrow (h p hp).1, (h p hp).2⟩
    · simp only [Bool.not_eq_false', decide_eq_true_eq, lt_min_iff] at hp
      -- an entry clears whole pages only, and its end is rounded up into `total_pages`
      refine ⟨lt_max_of_lt_right ?_, hp.2.2⟩
      rw [add64_of_lt (by omega), down_page (by omega)] at hp
      rw [add64_of_lt (by omega), up_page (by omega)]
      omega
  · rename_i hav
    rw [if_neg hav]
    exact ⟨hgrow (h p hp).1, (h p hp).2⟩

theorem counted_map_memory {mmap : Option (List mb2_mmap_entry_t)} (hm : MapFits mmap) : Counted (map_memory mmap) := by
  cases mmap with
  | none =>
    have hset : setPages (map_memory none) = Finset.range 256 := by
      ext p
      have htotal : (map_memory none).total_pages = 32768 := rfl
      simp only [setPages, Finset.mem_filter, Finset.mem_range, map_none_bits, htotal, Bool.not_eq_true', decide_eq_false_iff_not]
      omega
    refine ⟨?_, fun p hp => ?_, map_memory_total none⟩
    · rw [hset, Finset.card_range]
      rfl
    · rw [map_none_bits]
      have htotal : 32768 ≤ p := hp
      simp
      omega
  | some entries =>
    have hclear : ClearBelow (entries.foldl map_entry blank) := by
      refine List.foldlRecOn entries map_entry (fun p hp => ?_) (fun s hs e he => hs.map_entry (hm e he))
      rw [test_blank] at hp
      cases hp
    exact counted_count_used (fun p hp => lt_min (hclear p hp).1 (hclear p hp).2) (Nat.min_le_right _ _)

theorem counted_init {mmap : Option (List mb2_mmap_entry_t)} (hm : MapFits mmap) (kernel_end : Nat) :
    Counted (pmm_init kernel_end mmap) :=
  ((counted_map_memory hm).reserve_region _ _).reserve_region _ _

theorem AnyRun.counted {kernel_end : Nat} {mmap : Option (List mb2_mmap_entry_t)} (h : AnyRun kernel_end mmap s)
    (hm : MapFits mmap) : Counted s := by
  induction h with
  | init => exact counted_init hm kernel_end
  | alloc_page _ ih => exact ih.pmm_alloc_page
  | alloc_pages count _ hc ih => exact ih.pmm_alloc_pages hc
  | free_page addr _ ih => exact ih.pmm_free_page addr
  | free_pages addr count _ ih => exact ih.pmm_free_pages addr count

theorem Runs.anyRun {kernel_end : Nat} {mmap : Option (List mb2_mmap_entry_t)} {held : List Grant}
    (h : Runs kernel_end mmap s held) : AnyRun kernel_end mmap s := by
  induction h with
  | init => exact .init
  | alloc_page _ ih => exact ih.alloc_page
  | alloc_pages count _ hc ih => exact ih.alloc_pages count hc
  | free_page addr _ _ ih => exact ih.free_page addr
  | free_pages addr count _ _ ih => exact ih.free_pages addr count

end

/-- Whatever is called after `pmm_init`, with whatever arguments, the counter is exact. -/
theorem accounting_exact {kernel_end : Nat} {mmap : Option (List mb2_mmap_entry_t)} (hm : MapFits mmap) {s : St}
    (h : AnyRun kernel_end mmap s) : Exact s :=
  (h.counted hm).exact

/-- Freeing what was never handed out, twice. -/
theorem accounting_exact_smallMap :
    Exact (pmm_free_page (pmm_free_page (pmm_init 0x101000 smallMap) 0x100000) 0x100000) :=
  accounting_exact (by simp [MapFits, smallMap]) (.free_page _ (.free_page _ .init))

end H3OS.Pmm
