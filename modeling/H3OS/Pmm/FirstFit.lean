import H3OS.Pmm.Counting
/-!
# First fit

`pmm_alloc_pages` takes the lowest run of clear pages there is, and reports
failure by the address 0. That is sound because page 0 is reserved by
`pmm_init` and never handed out, whatever the memory map says: nothing here
assumes that the entries of the map fit.
-/
open SysLib

namespace H3OS.Pmm

/-! ## The first run -/

/-- Pages `p..p + count - 1` are clear and below the end. -/
def FreeRun (s : St) (count p : Nat) : Prop := p + count ≤ s.total_pages ∧ ∀ i < count, bitmap_test s (p + i) = false

theorem run_free_iff {s : St} {p count : Nat} : run_free s p count = true ↔ ∀ i < count, bitmap_test s (p + i) = false := by
  simp [run_free]

/-- The starts that the outer loop tries: all those from which the run stays below the end. -/
theorem tried_starts {total count : Nat} (ht : total ≤ PMM_MAX_PAGES) (h0 : count ≠ 0) (hc : count < 2 ^ 64) :
    (List.range (total + 1)).takeWhile (fun p => add64 p count ≤ total) = List.range (total + 1 - count) := by
  unfold PMM_MAX_PAGES at ht
  obtain ⟨m, rfl⟩ := Nat.exists_eq_succ_of_ne_zero h0
  by_cases hle : m ≤ total
  · obtain ⟨k, rfl⟩ := Nat.exists_eq_add_of_le' hle
    have hin : ∀ p ∈ List.range k, decide (add64 p (m + 1) ≤ k + m) = true := by
      intro p hp
      have hp := List.mem_range.1 hp
      rw [add64_of_lt (by omega)]
      exact decide_eq_true (by omega)
    -- the first start past those is one too far
    rw [Nat.succ_eq_add_one, Nat.add_assoc, Nat.add_sub_cancel, List.range_add, List.takeWhile_append_of_pos hin,
      List.range_succ_eq_map, List.map_cons, List.takeWhile_cons, if_neg, List.append_nil]
    rw [add64_of_lt (by omega)]
    simp
  · rw [show total + 1 - (m + 1) = 0 by omega, List.range_succ_eq_map, List.takeWhile_cons, if_neg, List.range_zero]
    rw [add64, Nat.zero_add, Nat.mod_eq_of_lt hc]
    simp
    omega

/-- The search for a longer run, as one `find?`. -/
theorem find_run_eq {s : St} {count : Nat} (ht : s.total_pages ≤ PMM_MAX_PAGES) (h0 : count ≠ 0) (hc : count < 2 ^ 64) :
    find_run s count = (List.range (s.total_pages + 1 - count)).find? (fun p => run_free s p count) := by
  rw [find_run, tried_starts ht h0 hc]

/-- The start that both paths of `pmm_alloc_pages` look for. -/
def first_run (s : St) (count : Nat) : Option Nat :=
  (List.range (s.total_pages + 1 - count)).find? (fun p => run_free s p count)

theorem first_run_some {s : St} {count p : Nat} (h : first_run s count = some p) :
    IsLeast {p | FreeRun s count p} p := by
  obtain ⟨hrun, hmem, hleast⟩ := List.find?_range_eq_some.1 h
  have hp := List.mem_range.1 hmem
  refine ⟨⟨by omega, run_free_iff.1 hrun⟩, ?_⟩
  rintro q ⟨-, hq⟩
  by_contra hlt
  have := hleast q (by omega)
  rw [run_free_iff.2 hq] at this
  cases this

theorem first_run_none {s : St} {count : Nat} (h : first_run s count = none) : ¬ HasRun s count := by
  rintro ⟨p, hp, hfree⟩
  have := List.find?_range_eq_none.1 h p (by omega)
  rw [run_free_iff.2 hfree] at this
  cases this

theorem take_run_one (s : St) (p : Nat) : take_run s p 1 = bitmap_take s p := by
  rw [take_run, forRange_succ (Nat.zero_le 0), forRange_of_le (Nat.le_refl 0), Nat.add_zero]

/-- Both paths of `pmm_alloc_pages` take the first run, the one for a single page too. -/
theorem alloc_pages_eq {s : St} {count : Nat} (ht : s.total_pages ≤ PMM_MAX_PAGES) (h0 : count ≠ 0) (hc : count < 2 ^ 64) :
    pmm_alloc_pages s count =
      match first_run s count with
      | some p => (p * PAGE_SIZE, take_run s p count)
      | none => (0, s) := by
  unfold pmm_alloc_pages
  rw [if_neg h0]
  by_cases h1 : count = 1
  · subst h1
    have hsingle : (fun p => run_free s p 1) = fun p => !bitmap_test s p := by
      funext p
      simp [run_free]
    rw [if_pos rfl, pmm_alloc_page, first_run, hsingle, Nat.add_sub_cancel]
    cases (List.range s.total_pages).find? (fun p => !bitmap_test s p) with
    | none => rfl
    | some p => simp only [take_run_one]
  · rw [if_neg h1, find_run_eq ht h0 hc]
    rfl

/-! ## Taking a run and giving it back -/

/-- `s'` is `s` with exactly the pages `p..p + count - 1` marked in addition, and counted. -/
structure Takes (s s' : St) (p count : Nat) : Prop where
  bits : ∀ q, bitmap_test s' q = (bitmap_test s q || decide (p ≤ q ∧ q < p + count))
  used : s'.used_pages = s.used_pages + count
  total : s'.total_pages = s.total_pages
  highest : s'.highest_page = s.highest_page

theorem take_run_takes {s : St} {p count : Nat} (h : s.used_pages + count < 2 ^ 64) : Takes s (take_run s p count) p count := by
  obtain ⟨ht, hb⟩ := take_loop s p count
  have hcount : (take_run s p count).used_pages = s.used_pages + count ∧
      (take_run s p count).highest_page = s.highest_page := by
    refine forRange_inv (fun i (s' : St) => s'.used_pages = s.used_pages + i ∧ s'.highest_page = s.highest_page)
      (Nat.zero_le count) ⟨rfl, rfl⟩ ?_
    rintro i s' - hi ⟨hu, hh⟩
    refine ⟨?_, hh⟩
    change add64 s'.used_pages 1 = _
    rw [hu, add64_of_lt (by omega), Nat.add_assoc]
  exact ⟨hb, hcount.1, ht, hcount.2⟩

theorem bitmap_ext {s s' : St} (h : ∀ p, bitmap_test s p = bitmap_test s' p) : s.page_bitmap = s'.page_bitmap := by
  funext k
  apply BitVec.eq_of_getLsbD_eq
  intro j hj
  have hbit := h (8 * k + j)
  rw [bitmap_test_eq, bitmap_test_eq, show (8 * k + j) / 8 = k by omega, show (8 * k + j) % 8 = j by omega] at hbit
  exact hbit

theorem named_run {p count : Nat} (h : p + count ≤ PMM_MAX_PAGES) :
    named (p * PAGE_SIZE) count = (List.range count).map (p + ·) := by
  refine List.map_congr_left (fun i hi => ?_)
  have hi := List.mem_range.1 hi
  unfold PMM_MAX_PAGES at h
  unfold PAGE_SIZE
  rw [Nat.mod_eq_of_lt (by omega), add64_of_lt (by omega)]
  omega

/-- Freeing a run of marked pages counts every one of them back. -/
theorem free_run_used {s : St} {p count : Nat} (hmax : p + count ≤ PMM_MAX_PAGES) (hp : p + count ≤ s.total_pages)
    (hset : ∀ i < count, bitmap_test s (p + i) = true) (hu : count ≤ s.used_pages) (hlt : s.used_pages < 2 ^ 64) :
    (pmm_free_pages s (p * PAGE_SIZE) count).used_pages = s.used_pages - count ∧
      (pmm_free_pages s (p * PAGE_SIZE) count).highest_page = s.highest_page := by
  unfold PMM_MAX_PAGES at hmax
  -- after `i` turns the pages still to come are marked
  refine (forRange_inv (fun i s' => (s'.used_pages = s.used_pages - i ∧ s'.highest_page = s.highest_page) ∧
    s'.total_pages = s.total_pages ∧ ∀ j, i ≤ j → j < count → bitmap_test s' (p + j) = true)
    (Nat.zero_le count) ⟨⟨rfl, rfl⟩, rfl, fun j _ hj => hset j hj⟩ ?_).1
  rintro i s' - hi ⟨⟨hu', hh⟩, ht, hrest⟩
  have haddr : add64 (p * PAGE_SIZE) (i * PAGE_SIZE % 2 ^ 64) / PAGE_SIZE = p + i := by
    unfold PAGE_SIZE
    rw [Nat.mod_eq_of_lt (by omega), add64_of_lt (by omega)]
    omega
  rw [pmm_free_page, haddr, if_neg (by omega), if_pos (hrest i (le_refl _) hi)]
  refine ⟨⟨?_, hh⟩, ht, fun j hj hjc => ?_⟩
  · change sub64 s'.used_pages 1 = _
    rw [sub64_of_le (by omega) (by omega), hu']
    omega
  · rw [test_drop, hrest j (by omega) hjc]
    simp
    omega

/-- A run that was clear is given back bit for bit. -/
theorem Takes.free {s s' : St} {p count : Nat} (h : Takes s s' p count) (ht : s.total_pages ≤ PMM_MAX_PAGES)
    (hrun : FreeRun s count p) (hu : s.used_pages + count < 2 ^ 64) : pmm_free_pages s' (p * PAGE_SIZE) count = s := by
  obtain ⟨hp, hfree⟩ := hrun
  have hmax : p + count ≤ PMM_MAX_PAGES := hp.trans ht
  obtain ⟨htot, hbits⟩ := free_pages_bits s' (p * PAGE_SIZE) count
  obtain ⟨hused, hhigh⟩ := free_run_used (s := s') hmax (by rw [h.total]; exact hp)
    (fun i hi => by rw [h.bits]; simp [hi]) (by rw [h.used]; omega) (by rw [h.used]; exact hu)
  have hmap : (pmm_free_pages s' (p * PAGE_SIZE) count).page_bitmap = s.page_bitmap := by
    apply bitmap_ext
    intro q
    have hmem : (q ∈ named (p * PAGE_SIZE) count ∧ q < s'.total_pages) ↔ (p ≤ q ∧ q < p + count) := by
      rw [named_run hmax, List.mem_map, h.total]
      simp only [List.mem_range]
      constructor
      · rintro ⟨⟨i, hi, rfl⟩, -⟩
        omega
      · intro hq
        exact ⟨⟨q - p, by omega, by omega⟩, by omega⟩
    rw [hbits, h.bits]
    simp only [hmem]
    by_cases hq : p ≤ q ∧ q < p + count
    · have := hfree (q - p) (by omega)
      rw [Nat.add_sub_cancel' hq.1] at this
      simp [hq, this]
    · simp [hq]
  calc pmm_free_pages s' (p * PAGE_SIZE) count
      = ⟨(pmm_free_pages s' (p * PAGE_SIZE) count).page_bitmap, (pmm_free_pages s' (p * PAGE_SIZE) count).total_pages,
          (pmm_free_pages s' (p * PAGE_SIZE) count).used_pages,
          (pmm_free_pages s' (p * PAGE_SIZE) count).highest_page⟩ := rfl
    _ = ⟨s.page_bitmap, s.total_pages, s.used_pages, s.highest_page⟩ := by
      rw [hmap, htot, hused, hhigh, h.total, h.used, h.highest, Nat.add_sub_cancel]

/-! ## The counter never wraps -/

/-- The counter lies between the marks below the end and those of the whole bitmap. `reserve_region` also counts
pages past the end, so it need not be exact when an entry of the map wraps. -/
structure Bounds (s : St) : Prop where
  total : s.total_pages ≤ PMM_MAX_PAGES
  low : (setPages s).card ≤ s.used_pages
  high : s.used_pages ≤ (marks s PMM_MAX_PAGES).card

section
variable {s : St} {p : Nat}

theorem Bounds.used_le (h : Bounds s) : s.used_pages ≤ PMM_MAX_PAGES := by
  refine h.high.trans ?_
  have := Finset.card_filter_le (Finset.range PMM_MAX_PAGES) (fun p => bitmap_test s p = true)
  rwa [Finset.card_range] at this

theorem Bounds.take (h : Bounds s) (hlt : p < PMM_MAX_PAGES) (hp : bitmap_test s p = false) : Bounds (bitmap_take s p) := by
  have hused : (bitmap_take s p).used_pages = s.used_pages + 1 := by
    have := h.used_le
    unfold PMM_MAX_PAGES at this
    exact add64_of_lt (by omega)
  refine ⟨h.total, ?_, ?_⟩
  · have hsub : setPages (bitmap_take s p) ⊆ insert p (setPages s) := by
      intro q hq
      rw [setPages_eq, mem_marks, test_take, Bool.or_eq_true, decide_eq_true_eq] at hq
      rw [Finset.mem_insert, setPages_eq, mem_marks]
      exact hq.2.elim (fun hb => .inr ⟨hq.1, hb⟩) .inl
    rw [hused]
    exact (Finset.card_le_card hsub).trans ((Finset.card_insert_le _ _).trans (Nat.succ_le_succ h.low))
  · rw [marks_take hlt, Finset.card_insert_of_notMem (by simp [mem_marks, hp]), hused]
    exact Nat.succ_le_succ h.high

theorem Bounds.drop (h : Bounds s) (hlt : p < s.total_pages) (hp : bitmap_test s p = true) : Bounds (bitmap_drop s p) := by
  have hset : p ∈ setPages s := by
    rw [setPages_eq, mem_marks]
    exact ⟨hlt, hp⟩
  have hmark : p ∈ marks s PMM_MAX_PAGES := mem_marks.2 ⟨hlt.trans_le h.total, hp⟩
  have hpos := (Finset.card_pos.2 ⟨p, hset⟩).trans_le h.low
  have hused : (bitmap_drop s p).used_pages = s.used_pages - 1 := by
    have := h.used_le
    unfold PMM_MAX_PAGES at this
    exact sub64_of_le hpos (by omega)
  refine ⟨h.total, ?_, ?_⟩
  · rw [show setPages (bitmap_drop s p) = (setPages s).erase p from marks_drop s.total_pages, Finset.card_erase_of_mem hset,
      hused]
    exact Nat.sub_le_sub_right h.low 1
  · rw [marks_drop, Finset.card_erase_of_mem hmark, hused]
    exact Nat.sub_le_sub_right h.high 1

theorem Bounds.reserve_region (h : Bounds s) (addr len : Nat) : Bounds (reserve_region s addr len) := by
  unfold Pmm.reserve_region
  refine forRange_keeps Bounds h (fun i s _ hi hs => ?_)
  split_ifs with hb
  · exact hs.take (hi.trans_le (Nat.min_le_right _ _)) (by simpa using hb)
  · exact hs

theorem Bounds.take_run (h : Bounds s) {count : Nat} (hrun : FreeRun s count p) : Bounds (take_run s p count) := by
  obtain ⟨hp, hfree⟩ := hrun
  have ht := h.total
  unfold Pmm.take_run
  refine (forRange_inv (fun i s' => Bounds s' ∧ ∀ j, i ≤ j → j < count → bitmap_test s' (p + j) = false)
    (Nat.zero_le count) ⟨h, fun j _ hj => hfree j hj⟩ ?_).1
  rintro i s' - hi ⟨hs, hrest⟩
  refine ⟨hs.take (by omega) (hrest i (le_refl _) hi), fun j hj hjc => ?_⟩
  rw [test_take, hrest j (by omega) hjc, decide_eq_false (by omega)]
  rfl

theorem Bounds.pmm_free_page (h : Bounds s) (addr : Nat) : Bounds (pmm_free_page s addr) := by
  unfold Pmm.pmm_free_page
  dsimp only
  split_ifs with h1 h2
  · exact h
  · exact h.drop (by omega) h2
  · exact h

theorem Bounds.pmm_free_pages (h : Bounds s) (addr count : Nat) : Bounds (pmm_free_pages s addr count) := by
  unfold Pmm.pmm_free_pages
  exact forRange_keeps Bounds h (fun i s _ _ hs => hs.pmm_free_page _)

theorem bounds_of_exact (ht : s.total_pages ≤ PMM_MAX_PAGES) (hu : s.used_pages = (setPages s).card) : Bounds s := by
  refine ⟨ht, hu.ge, hu.trans_le (Finset.card_le_card ?_)⟩
  exact Finset.filter_subset_filter _ (Finset.range_mono ht)

theorem bounds_init (kernel_end : Nat) (mmap : Option (List mb2_mmap_entry_t)) : Bounds (pmm_init kernel_end mmap) := by
  have hmap : Bounds (map_memory mmap) := by
    cases mmap with
    | none =>
      have hc : Counted (map_memory none) := counted_map_memory trivial
      exact bounds_of_exact hc.total hc.used
    | some entries =>
      refine bounds_of_exact (map_memory_total _) ?_
      unfold map_memory
      dsimp only
      have hle := Nat.min_le_right (entries.foldl map_entry blank).total_pages PMM_MAX_PAGES
      rw [count_used_used _ (by unfold PMM_MAX_PAGES at hle ⊢; dsimp only; omega)]
      simp only [setPages, (count_used_bits _).1, (count_used_bits _).2]
  exact (hmap.reserve_region _ _).reserve_region _ _

end

/-! ## Page 0 stays reserved -/

/-- What holds of every state of a run and its ledger, for any memory map. -/
structure Ledger (s : St) (held : List Grant) : Prop extends Bounds s where
  zero : bitmap_test s 0 = true
  unheld : ¬ Held held 0

theorem init_zero (kernel_end : Nat) (mmap : Option (List mb2_mmap_entry_t)) :
    bitmap_test (pmm_init kernel_end mmap) 0 = true := by
  have hlow : 0 < min (H3OS_ALIGN_UP (add64 0 0x100000) PAGE_SIZE / PAGE_SIZE) PMM_MAX_PAGES := by decide +kernel
  unfold pmm_init
  dsimp only
  rw [(reserve_loop _ _ _).2, (reserve_loop _ _ _).2, decide_eq_true ⟨Nat.zero_le _, hlow⟩, Bool.or_true, Bool.true_or]

/-- A run that is clear does not start at page 0. -/
theorem Ledger.start_ne_zero {s : St} {held : List Grant} (h : Ledger s held) {count p : Nat} (h0 : count ≠ 0)
    (hrun : FreeRun s count p) : p ≠ 0 := by
  rintro rfl
  have := hrun.2 0 (by omega)
  rw [h.zero] at this
  cases this

theorem Ledger.used_add_lt {s : St} {held : List Grant} (h : Ledger s held) {count p : Nat} (hrun : FreeRun s count p) :
    s.used_pages + count < 2 ^ 64 := by
  have h1 := h.toBounds.used_le
  have h2 := h.total
  have h3 := hrun.1
  unfold PMM_MAX_PAGES at h1 h2
  omega

/-- An allocation that is not empty takes a run of clear pages, which does not start at page 0, or there is none. -/
theorem Ledger.alloc_cases {s : St} {held : List Grant} (h : Ledger s held) {count : Nat} (hc : count < 2 ^ 64) :
    (count = 0 ∨ ¬ HasRun s count) ∧ pmm_alloc_pages s count = (0, s) ∨
    count ≠ 0 ∧ ∃ p, p ≠ 0 ∧ FreeRun s count p ∧ pmm_alloc_pages s count = (p * PAGE_SIZE, take_run s p count) := by
  by_cases h0 : count = 0
  · exact .inl ⟨.inl h0, by rw [pmm_alloc_pages, if_pos h0]⟩
  · rw [alloc_pages_eq h.total h0 hc]
    cases hf : first_run s count with
    | none => exact .inl ⟨.inr (first_run_none hf), rfl⟩
    | some p =>
      obtain ⟨hrun, -⟩ := first_run_some hf
      exact .inr ⟨h0, p, h.start_ne_zero h0 hrun, hrun, rfl⟩

theorem Ledger.alloc_pages {s : St} {held : List Grant} (h : Ledger s held) {count : Nat} (hc : count < 2 ^ 64) :
    Ledger (pmm_alloc_pages s count).2 (grant (pmm_alloc_pages s count).1 count held) := by
  rcases h.alloc_cases hc with ⟨-, he⟩ | ⟨-, p, hp, hrun, he⟩
  · rw [he]
    exact h
  · rw [he]
    refine ⟨h.toBounds.take_run hrun, ?_, fun h0 => ?_⟩
    · dsimp only
      rw [(take_loop s p count).2, h.zero, Bool.true_or]
    · exact (held_grant_page.1 h0).elim h.unheld fun h1 => hp (Nat.le_zero.1 h1.2.1)

theorem Ledger.free {s s' : St} {held : List Grant} (h : Ledger s held) {ps : List Nat} (hps : ∀ p ∈ ps, Held held p)
    (hs' : Bounds s') (hb : ∀ q, bitmap_test s' q = (bitmap_test s q && !decide (q ∈ ps ∧ q < s.total_pages))) :
    Ledger s' (release ps held) := by
  refine ⟨hs', ?_, fun h0 => h.unheld (held_release.1 h0).1⟩
  have h0 : ¬ (0 ∈ ps ∧ 0 < s.total_pages) := fun hmem => h.unheld (hps 0 hmem.1)
  rw [hb, h.zero, decide_eq_false h0]
  rfl

theorem runs_ledger {kernel_end : Nat} {mmap : Option (List mb2_mmap_entry_t)} {s : St} {held : List Grant}
    (h : Runs kernel_end mmap s held) : Ledger s held := by
  induction h with
  | init => exact ⟨bounds_init kernel_end mmap, init_zero kernel_end mmap, by simp [Held]⟩
  | alloc_page _ ih => exact ih.alloc_pages (show 1 < 2 ^ 64 by omega)
  | alloc_pages count _ hc ih => exact ih.alloc_pages hc
  | @free_page s held addr _ hp ih =>
    refine ih.free (by simpa using hp) (ih.toBounds.pmm_free_page addr) (fun q => ?_)
    rw [(free_page_bits s addr).2]
    simp
  | @free_pages s held addr count _ hp ih =>
    exact ih.free hp (ih.toBounds.pmm_free_pages addr count) (free_pages_bits s addr count).2

/-- In every state of a run an allocation takes the lowest run of clear pages, fails exactly if there is none, and can
be undone. -/
theorem alloc_first_fit {kernel_end : Nat} {mmap : Option (List mb2_mmap_entry_t)} {s : St} {held : List Grant}
    (h : Runs kernel_end mmap s held) {count : Nat} (hc : count < 2 ^ 64) :
    ((pmm_alloc_pages s count).1 = 0 ↔ count = 0 ∨ ¬ ∃ p, FreeRun s count p) ∧
    ((pmm_alloc_pages s count).1 = 0 → (pmm_alloc_pages s count).2 = s) ∧
    ((pmm_alloc_pages s count).1 ≠ 0 →
      (∃ p, IsLeast {p | FreeRun s count p} p ∧ (pmm_alloc_pages s count).1 = 4096 * p ∧
        Takes s (pmm_alloc_pages s count).2 p count) ∧
      pmm_free_pages (pmm_alloc_pages s count).2 (pmm_alloc_pages s count).1 count = s) := by
  have hl := runs_ledger h
  by_cases h0 : count = 0
  · have he : pmm_alloc_pages s count = (0, s) := by rw [pmm_alloc_pages, if_pos h0]
    rw [he]
    exact ⟨by simp [h0], fun _ => rfl, fun hne => absurd rfl hne⟩
  · rw [alloc_pages_eq hl.total h0 hc]
    cases hf : first_run s count with
    | none =>
      have hnone : ¬ ∃ p, FreeRun s count p := first_run_none hf
      exact ⟨by simp [h0, hnone], fun _ => rfl, fun hne => absurd rfl hne⟩
    | some p =>
      have hleast := first_run_some hf
      have hpos : p * PAGE_SIZE ≠ 0 := by
        have := hl.start_ne_zero h0 hleast.1
        unfold PAGE_SIZE
        omega
      have hu := hl.used_add_lt hleast.1
      have htakes := take_run_takes (p := p) hu
      refine ⟨⟨fun he => absurd he hpos, ?_⟩, fun he => absurd he hpos, fun _ => ⟨⟨p, hleast, ?_, htakes⟩, ?_⟩⟩
      · rintro (he | hnone)
        · exact absurd he h0
        · exact absurd ⟨p, hleast.1⟩ hnone
      · exact Nat.mul_comm p 4096
      · exact htakes.free hl.total hleast.1 hu

/-- Two pages behind the kernel image, taken and given back. -/
theorem alloc_first_fit_smallMap :
    (pmm_alloc_pages (pmm_init 0x101000 smallMap) 2).1 = 0x101000 ∧
    pmm_free_pages (pmm_alloc_pages (pmm_init 0x101000 smallMap) 2).2 0x101000 2 = pmm_init 0x101000 smallMap := by
  have hr : (pmm_alloc_pages (pmm_init 0x101000 smallMap) 2).1 = 0x101000 := by rw [smallMap_alloc]
  have h := (alloc_first_fit (.init : Runs 0x101000 smallMap _ _) (show 2 < 2 ^ 64 by omega)).2.2
  rw [hr] at h
  exact ⟨hr, (h (by omega)).2⟩

end H3OS.Pmm
