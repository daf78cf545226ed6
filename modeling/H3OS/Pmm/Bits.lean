import H3OS.Pmm.Model
/-!
# What each operation does to the bitmap

One lemma per operation of `memory/pmm.c`: which bits it changes. The proofs
about runs use only these, never the bytes of the map.
-/
open SysLib

namespace H3OS.Pmm

/-! ## Single bits -/

theorem bit_eq (i : Nat) : 1#8 <<< i = BitVec.twoPow 8 i := rfl

theorem bitmap_test_eq (s : St) (p : Nat) : bitmap_test s p = (s.page_bitmap (p / 8)).getLsbD (p % 8) := by
  have hne : BitVec.twoPow 8 (p % 8) ≠ 0 := by
    intro h0
    have := congrArg (·.getLsbD (p % 8)) h0
    simp [BitVec.getLsbD_twoPow] at this
    omega
  unfold bitmap_test
  rw [bit_eq, BitVec.and_twoPow]
  cases (s.page_bitmap (p / 8)).getLsbD (p % 8) with
  | true => simpa using hne
  | false => simp

theorem test_set (s : St) (p q : Nat) : bitmap_test (bitmap_set s q) p = (bitmap_test s p || decide (p = q)) := by
  have hq : q % 8 < 8 := Nat.mod_lt _ (by omega)
  rw [bitmap_test_eq, bitmap_test_eq]
  unfold bitmap_set
  by_cases h8 : p / 8 = q / 8
  · have e : (p = q) ↔ (q % 8 = p % 8) := by omega
    simp [h8, bit_eq, BitVec.getLsbD_twoPow, hq, e]
  · have : p ≠ q := by rintro rfl; exact h8 rfl
    simp [h8, this]

theorem test_clear (s : St) (p q : Nat) : bitmap_test (bitmap_clear s q) p = (bitmap_test s p && !decide (p = q)) := by
  have hp : p % 8 < 8 := Nat.mod_lt _ (by omega)
  rw [bitmap_test_eq, bitmap_test_eq]
  unfold bitmap_clear
  by_cases h8 : p / 8 = q / 8
  · have e : (p = q) ↔ (p % 8 = q % 8) := by omega
    simp [h8, bit_eq, hp, e]
  · have : p ≠ q := by rintro rfl; exact h8 rfl
    simp [h8, this]

theorem test_take (s : St) (p q : Nat) : bitmap_test (bitmap_take s q) p = (bitmap_test s p || decide (p = q)) := by
  rw [← test_set, bitmap_test_eq, bitmap_test_eq]
  rfl

theorem test_drop (s : St) (p q : Nat) : bitmap_test (bitmap_drop s q) p = (bitmap_test s p && !decide (p = q)) := by
  rw [← test_clear, bitmap_test_eq, bitmap_test_eq]
  rfl

theorem test_blank (p : Nat) : bitmap_test blank p = true := by
  rw [bitmap_test_eq]
  have hp : p % 8 < 8 := Nat.mod_lt _ (by omega)
  change (0xFF#8).getLsbD (p % 8) = true
  interval_cases p % 8 <;> rfl

/-! ## Loops over pages -/

theorem clear_loop (s : St) (lo hi : Nat) :
    (forRange lo hi (fun p s => bitmap_clear s p) s).total_pages = s.total_pages ∧
    ∀ p, bitmap_test (forRange lo hi (fun p s => bitmap_clear s p) s) p =
      (bitmap_test s p && !decide (lo ≤ p ∧ p < hi)) := by
  rcases Nat.le_total lo hi with h | h
  · apply forRange_inv (fun i s' => s'.total_pages = s.total_pages ∧
      ∀ p, bitmap_test s' p = (bitmap_test s p && !decide (lo ≤ p ∧ p < i))) h
    · refine ⟨rfl, fun p => ?_⟩
      simp [show ¬ (lo ≤ p ∧ p < lo) by omega]
    · rintro i s' h1 - ⟨ht, hb⟩
      refine ⟨ht, fun p => ?_⟩
      rw [test_clear, hb, Bool.and_assoc]
      congr 1
      rw [← Bool.not_or, ← Bool.decide_or]
      congr 2
      exact propext (by omega)
  · rw [forRange_of_le h]
    refine ⟨rfl, fun p => ?_⟩
    simp [show ¬ (lo ≤ p ∧ p < hi) by omega]

/-- Counters are not bits. -/
theorem test_counters (s : St) (t h u p : Nat) :
    bitmap_test { s with total_pages := t, highest_page := h, used_pages := u } p = bitmap_test s p := rfl

/-- The bitmap that is assumed when the loader tells of no memory. -/
theorem map_none_bits (p : Nat) : bitmap_test (map_memory none) p = !decide (256 ≤ p ∧ p < 32768) := by
  rw [map_memory, test_counters, (clear_loop _ _ _).2, test_blank, Bool.true_and]
  rfl

theorem take_loop (s : St) (p count : Nat) :
    (take_run s p count).total_pages = s.total_pages ∧
    ∀ q, bitmap_test (take_run s p count) q = (bitmap_test s q || decide (p ≤ q ∧ q < p + count)) := by
  apply forRange_inv (fun i s' => s'.total_pages = s.total_pages ∧
    ∀ q, bitmap_test s' q = (bitmap_test s q || decide (p ≤ q ∧ q < p + i))) (Nat.zero_le count)
  · refine ⟨rfl, fun q => ?_⟩
    simp
  · rintro i s' - - ⟨ht, hb⟩
    refine ⟨ht, fun q => ?_⟩
    rw [test_take, hb, Bool.or_assoc]
    congr 1
    rw [← Bool.decide_or]
    congr 1
    exact propext (by omega)

theorem reserve_loop (s : St) (addr len : Nat) :
    (reserve_region s addr len).total_pages = s.total_pages ∧
    ∀ p, bitmap_test (reserve_region s addr len) p =
      (bitmap_test s p || decide (addr / PAGE_SIZE ≤ p ∧
        p < min (H3OS_ALIGN_UP (add64 addr len) PAGE_SIZE / PAGE_SIZE) PMM_MAX_PAGES)) := by
  unfold reserve_region
  dsimp only
  generalize addr / PAGE_SIZE = lo
  generalize min (H3OS_ALIGN_UP (add64 addr len) PAGE_SIZE / PAGE_SIZE) PMM_MAX_PAGES = hi
  rcases Nat.le_total lo hi with h | h
  · apply forRange_inv (fun i s' => s'.total_pages = s.total_pages ∧
      ∀ p, bitmap_test s' p = (bitmap_test s p || decide (lo ≤ p ∧ p < i))) h
    · refine ⟨rfl, fun p => ?_⟩
      simp [show ¬ (lo ≤ p ∧ p < lo) by omega]
    · rintro i s' h1 - ⟨ht, hb⟩
      refine ⟨by split <;> exact ht, fun p => ?_⟩
      have : bitmap_test (if (!bitmap_test s' i) = true then bitmap_take s' i else s') p =
          (bitmap_test s' p || decide (p = i)) := by
        split
        · exact test_take s' p i
        · rename_i hn
          by_cases hp : p = i
          · subst hp; simp_all
          · simp [hp]
      rw [this, hb, Bool.or_assoc, ← Bool.decide_or]
      congr 2
      exact propext (by omega)
  · rw [forRange_of_le h]
    refine ⟨rfl, fun p => ?_⟩
    simp [show ¬ (lo ≤ p ∧ p < hi) by omega]

theorem count_used_bits (s : St) :
    (count_used s).total_pages = s.total_pages ∧ ∀ p, bitmap_test (count_used s) p = bitmap_test s p := by
  unfold count_used
  apply forRange_keeps (fun s' => s'.total_pages = s.total_pages ∧ ∀ p, bitmap_test s' p = bitmap_test s p)
  · exact ⟨rfl, fun _ => rfl⟩
  · rintro i s' - - ⟨ht, hb⟩
    split <;> exact ⟨ht, hb⟩

/-! ## Allocating -/

theorem alloc_page_cases (s : St) :
    (pmm_alloc_page s = (0, s)) ∨
    ∃ p, p < s.total_pages ∧ bitmap_test s p = false ∧ pmm_alloc_page s = (p * PAGE_SIZE, bitmap_take s p) := by
  unfold pmm_alloc_page
  cases h : (List.range s.total_pages).find? (fun p => !bitmap_test s p) with
  | none => exact .inl rfl
  | some p =>
    have h1 := List.mem_of_find?_eq_some h
    have h2 := List.find?_some h
    exact .inr ⟨p, List.mem_range.1 h1, by simpa using h2, rfl⟩

/-- The outer loop never looks past the end, also when `p + count` could wrap. -/
theorem find_run_bound {s : St} {count p : Nat} (hc : count < 2 ^ 64) (ht : s.total_pages ≤ PMM_MAX_PAGES)
    (h : find_run s count = some p) : p + count ≤ s.total_pages ∧ ∀ i < count, bitmap_test s (p + i) = false := by
  unfold find_run at h
  have hmem := List.mem_of_find?_eq_some h
  have hrun := List.find?_some h
  -- the loop was entered, so already `0 + count` is within the end
  have h0 : count ≤ s.total_pages := by
    by_contra hn
    rw [List.range_succ_eq_map, List.takeWhile_cons, if_neg] at hmem
    · simp at hmem
    · rw [add64, Nat.zero_add, Nat.mod_eq_of_lt hc]
      simpa using hn
  have hp : p ≤ s.total_pages := by
    have := List.mem_range.1 ((List.takeWhile_sublist _).subset hmem)
    omega
  have hend : add64 p count ≤ s.total_pages := by simpa using List.mem_takeWhile_imp hmem
  rw [add64_of_lt (by unfold PMM_MAX_PAGES at ht; omega)] at hend
  refine ⟨hend, fun i hi => ?_⟩
  simpa using List.all_eq_true.1 hrun i (List.mem_range.2 hi)

/-- What an allocation does: nothing, or it takes a run of free pages below `total_pages`. -/
theorem alloc_cases {s : St} {count : Nat} (hc : count < 2 ^ 64) (ht : s.total_pages ≤ PMM_MAX_PAGES) :
    pmm_alloc_pages s count = (0, s) ∨
    ∃ p s', p + count ≤ s.total_pages ∧ (∀ i < count, bitmap_test s (p + i) = false) ∧
      pmm_alloc_pages s count = (p * PAGE_SIZE, s') ∧ s'.total_pages = s.total_pages ∧
      ∀ q, bitmap_test s' q = (bitmap_test s q || decide (p ≤ q ∧ q < p + count)) := by
  unfold pmm_alloc_pages
  split
  · exact .inl rfl
  split
  · rename_i h1
    subst h1
    rcases alloc_page_cases s with h | ⟨p, hp, hb, h⟩
    · exact .inl h
    · refine .inr ⟨p, _, by omega, fun i hi => ?_, h, rfl, fun q => ?_⟩
      · obtain rfl : i = 0 := by omega
        exact hb
      · rw [test_take]
        congr 2
        exact propext (by omega)
  · cases hf : find_run s count with
    | none => exact .inl rfl
    | some p =>
      obtain ⟨h1, h2⟩ := find_run_bound hc ht hf
      obtain ⟨h3, h4⟩ := take_loop s p count
      exact .inr ⟨p, _, h1, h2, rfl, h3, h4⟩

/-- There are `count` free pages in a row. -/
def HasRun (s : St) (count : Nat) : Prop := ∃ p, p + count ≤ s.total_pages ∧ ∀ i < count, bitmap_test s (p + i) = false

theorem HasRun.mono {s : St} {count n : Nat} (h : HasRun s n) (hle : count ≤ n) : HasRun s count := by
  obtain ⟨p, hp, hfree⟩ := h
  exact ⟨p, by omega, fun i hi => hfree i (by omega)⟩

theorem HasRun.find_run {s : St} {count : Nat} (ht : s.total_pages ≤ PMM_MAX_PAGES) (h : HasRun s count) :
    find_run s count ≠ none := by
  obtain ⟨p, hp, hfree⟩ := h
  intro hnone
  -- the outer loop gets as far as `p`
  have hmem : p ∈ (List.range (s.total_pages + 1)).takeWhile (fun p => add64 p count ≤ s.total_pages) := by
    rw [show s.total_pages + 1 = (p + 1) + (s.total_pages - p) by omega, List.range_add,
      List.takeWhile_append_of_pos (fun q hq => ?_)]
    · exact List.mem_append_left _ (List.mem_range.2 (by omega))
    · have hq := List.mem_range.1 hq
      unfold PMM_MAX_PAGES at ht
      rw [add64_of_lt (by omega)]
      exact decide_eq_true (by omega)
  have hrun := List.find?_eq_none.1 hnone p hmem
  refine hrun (List.all_eq_true.2 (fun i hi => ?_))
  rw [hfree i (List.mem_range.1 hi)]
  rfl

/-- An allocation takes a run exactly if there is one. -/
theorem alloc_run_cases {s : St} {count : Nat} (h0 : count ≠ 0) (hc : count < 2 ^ 64) (ht : s.total_pages ≤ PMM_MAX_PAGES) :
    (¬ HasRun s count ∧ pmm_alloc_pages s count = (0, s)) ∨
    (HasRun s count ∧ ∃ p, bitmap_test s p = false ∧ bitmap_test (pmm_alloc_pages s count).2 p = true) := by
  unfold pmm_alloc_pages
  rw [if_neg h0]
  by_cases h1 : count = 1
  · rw [if_pos h1, h1]
    unfold pmm_alloc_page
    cases hf : (List.range s.total_pages).find? (fun p => !bitmap_test s p) with
    | none =>
      refine .inl ⟨?_, rfl⟩
      rintro ⟨p, hp, hfree⟩
      have hused := List.find?_eq_none.1 hf p (List.mem_range.2 (by omega))
      have hp0 := hfree 0 (by omega)
      rw [Nat.add_zero] at hp0
      rw [hp0] at hused
      exact hused rfl
    | some p =>
      have hp := List.mem_range.1 (List.mem_of_find?_eq_some hf)
      have hfree : bitmap_test s p = false := by simpa using List.find?_some hf
      refine .inr ⟨⟨p, by omega, fun i hi => ?_⟩, p, hfree, ?_⟩
      · rw [show i = 0 by omega]
        exact hfree
      · rw [test_take, decide_eq_true rfl, Bool.or_true]
  · rw [if_neg h1]
    cases hf : find_run s count with
    | none => exact .inl ⟨fun hrun => hrun.find_run ht hf, rfl⟩
    | some p =>
      obtain ⟨hp, hfree⟩ := find_run_bound hc ht hf
      refine .inr ⟨⟨p, hp, hfree⟩, p, hfree 0 (by omega), ?_⟩
      rw [(take_loop s p count).2, decide_eq_true (by omega), Bool.or_true]

/-! ## Freeing -/

theorem free_page_bits (s : St) (addr : Nat) :
    (pmm_free_page s addr).total_pages = s.total_pages ∧
    ∀ q, bitmap_test (pmm_free_page s addr) q =
      (bitmap_test s q && !decide (q = addr / PAGE_SIZE ∧ q < s.total_pages)) := by
  unfold pmm_free_page
  dsimp only
  split
  · refine ⟨rfl, fun q => ?_⟩
    simp [show ¬ (q = addr / PAGE_SIZE ∧ q < s.total_pages) by omega]
  split
  · refine ⟨rfl, fun q => ?_⟩
    rw [test_drop]
    congr 3
    exact propext (by omega)
  · rename_i hb
    refine ⟨rfl, fun q => ?_⟩
    by_cases hq : q = addr / PAGE_SIZE
    · subst hq; simp_all
    · simp [hq]

/-- The pages that `pmm_free_pages(addr, count)` names. -/
def named (addr count : Nat) : List Nat :=
  (List.range count).map (fun i => add64 addr (i * PAGE_SIZE % 2 ^ 64) / PAGE_SIZE)

theorem free_pages_bits (s : St) (addr count : Nat) :
    (pmm_free_pages s addr count).total_pages = s.total_pages ∧
    ∀ q, bitmap_test (pmm_free_pages s addr count) q =
      (bitmap_test s q && !decide (q ∈ named addr count ∧ q < s.total_pages)) := by
  apply forRange_inv (fun i s' => s'.total_pages = s.total_pages ∧
    ∀ q, bitmap_test s' q = (bitmap_test s q && !decide (q ∈ named addr i ∧ q < s.total_pages))) (Nat.zero_le count)
  · exact ⟨rfl, fun q => by simp [named]⟩
  · rintro i s' - - ⟨ht, hb⟩
    obtain ⟨h1, h2⟩ := free_page_bits s' (add64 addr (i * PAGE_SIZE % 2 ^ 64))
    refine ⟨h1.trans ht, fun q => ?_⟩
    rw [h2, hb, ht, Bool.and_assoc, ← Bool.not_or, ← Bool.decide_or]
    congr 3
    simp [named, List.range_succ, or_and_right]

end H3OS.Pmm
