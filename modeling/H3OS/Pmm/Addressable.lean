import H3OS.Pmm.Counting
/-!
# Addressable pages

The boot code maps the first gigabyte onto itself, and the kernel reads and
writes the pages it is handed at their own addresses. The bitmap covers two
gigabytes. Which memory maps keep every page handed out inside the map is
worked out here, for callers that free what they hold and for any callers.
-/
open SysLib

namespace H3OS.Pmm

/-- The end of the identity map: `boot.asm` fills 512 entries of 2 MiB each. -/
def IDENTITY_END : Nat := 512 * 0x200000

/-- Whatever an allocation returns next is mapped. -/
def Addressable (s : St) : Prop :=
  ((pmm_alloc_page s).1 ≠ 0 → (pmm_alloc_page s).1 + PAGE_SIZE ≤ IDENTITY_END) ∧
  ∀ count < 2 ^ 64, (pmm_alloc_pages s count).1 ≠ 0 → (pmm_alloc_pages s count).1 + count * PAGE_SIZE ≤ IDENTITY_END

/-- The page behind the last one of an entry. -/
def end_page (e : mb2_mmap_entry_t) : Nat := H3OS_ALIGN_UP (add64 e.addr e.len) PAGE_SIZE / PAGE_SIZE

/-- An entry makes page `p` available: the page lies in it from end to end. -/
def Offers (e : mb2_mmap_entry_t) (p : Nat) : Prop :=
  e.type = MB2_MEMORY_AVAILABLE ∧ H3OS_ALIGN_UP e.addr PAGE_SIZE / PAGE_SIZE ≤ p ∧
    p < H3OS_ALIGN_DOWN (add64 e.addr e.len) PAGE_SIZE / PAGE_SIZE

/-- The map offers a page that the bitmap covers, the boot code does not map and the kernel image does not fill. -/
def OffersHigh (kernel_end : Nat) : Option (List mb2_mmap_entry_t) → Prop
  | none => False
  | some entries => ∃ p, IDENTITY_END ≤ p * PAGE_SIZE ∧ p < PMM_MAX_PAGES ∧ (∃ e ∈ entries, Offers e p) ∧
      (∃ e ∈ entries, p < end_page e) ∧ H3OS_ALIGN_UP kernel_end PAGE_SIZE / PAGE_SIZE ≤ p

/-- An entry, of any type, reaches past the identity map. -/
def ReachesHigh : Option (List mb2_mmap_entry_t) → Prop
  | none => False
  | some entries => ∃ e ∈ entries, IDENTITY_END < end_page e * PAGE_SIZE

/-! ## The bits after `pmm_init` -/

theorem map_entry_test (s : St) (e : mb2_mmap_entry_t) (p : Nat) :
    bitmap_test (map_entry s e) p = false ↔ bitmap_test s p = false ∨ Offers e p ∧ p < PMM_MAX_PAGES := by
  unfold map_entry Offers
  dsimp only
  split_ifs with hav
  · rw [(clear_loop _ _ _).2, Bool.and_eq_false_iff]
    simp only [Bool.not_eq_false', decide_eq_true_eq, lt_min_iff]
    change bitmap_test s p = false ∨ _ ↔ _
    simp only [hav, true_and, and_assoc]
  · change bitmap_test s p = false ↔ _
    simp [hav]

theorem map_entry_total (s : St) (e : mb2_mmap_entry_t) :
    (map_entry s e).total_pages = max s.total_pages (end_page e) := by
  unfold map_entry
  dsimp only
  split_ifs
  · exact (clear_loop _ _ _).1
  · rfl

theorem map_entries_bits (entries : List mb2_mmap_entry_t) (s : St) (p : Nat) :
    (bitmap_test (entries.foldl map_entry s) p = false ↔
      bitmap_test s p = false ∨ (∃ e ∈ entries, Offers e p) ∧ p < PMM_MAX_PAGES) ∧
    (p < (entries.foldl map_entry s).total_pages ↔ p < s.total_pages ∨ ∃ e ∈ entries, p < end_page e) := by
  induction entries generalizing s with
  | nil => simp
  | cons e entries ih =>
    obtain ⟨h1, h2⟩ := ih (map_entry s e)
    rw [List.foldl_cons, h1, h2, map_entry_test, map_entry_total, lt_max_iff]
    simp only [List.exists_mem_cons_iff, or_and_right, or_assoc, and_self]

theorem add64_sub64 {a k : Nat} (hk : k < 2 ^ 64) : add64 a (sub64 k a) = k := by
  unfold add64 sub64
  omega

/-- Of the two reservations only the kernel image can reach past the identity map. -/
theorem init_test_high {kernel_end : Nat} (hk : kernel_end < 2 ^ 64) (mmap : Option (List mb2_mmap_entry_t)) {p : Nat}
    (hp : IDENTITY_END ≤ p * PAGE_SIZE) (hmax : p < PMM_MAX_PAGES) :
    bitmap_test (pmm_init kernel_end mmap) p = false ↔
      bitmap_test (map_memory mmap) p = false ∧ H3OS_ALIGN_UP kernel_end PAGE_SIZE / PAGE_SIZE ≤ p := by
  unfold pmm_init
  dsimp only
  rw [(reserve_loop _ _ _).2, (reserve_loop _ _ _).2, add64_sub64 hk]
  simp only [Bool.or_eq_false_iff, decide_eq_false_iff_not, lt_min_iff]
  have h1 : H3OS_ALIGN_UP (add64 0 0x100000) PAGE_SIZE / PAGE_SIZE = 256 := by decide +kernel
  have h2 : 0x100000 / PAGE_SIZE = 256 := rfl
  rw [h1, h2, Nat.zero_div]
  have hlow : 262144 ≤ p := by
    unfold IDENTITY_END PAGE_SIZE at hp
    omega
  constructor
  · rintro ⟨⟨hb, -⟩, hn⟩
    exact ⟨hb, by omega⟩
  · rintro ⟨hb, hle⟩
    exact ⟨⟨hb, by omega⟩, by omega⟩

/-- A page past the identity map is free below `total_pages` exactly when the map offers it. -/
theorem init_high {kernel_end : Nat} (hk : kernel_end < 2 ^ 64) (mmap : Option (List mb2_mmap_entry_t)) :
    (∃ p, IDENTITY_END ≤ p * PAGE_SIZE ∧ p < (pmm_init kernel_end mmap).total_pages ∧
      bitmap_test (pmm_init kernel_end mmap) p = false) ↔ OffersHigh kernel_end mmap := by
  have htotal := init_total kernel_end mmap
  constructor
  · rintro ⟨p, hp, hlt, hb⟩
    have hmax : p < PMM_MAX_PAGES := by omega
    obtain ⟨hb, hkernel⟩ := (init_test_high hk mmap hp hmax).1 hb
    rw [init_total_eq] at hlt
    cases mmap with
    | none =>
      -- without a map there are 128 MiB
      have hle : p < 32768 := hlt
      unfold IDENTITY_END PAGE_SIZE at hp
      omega
    | some entries =>
      unfold map_memory at hb hlt
      rw [(count_used_bits _).2] at hb
      rw [(count_used_bits _).1] at hlt
      obtain ⟨h1, h2⟩ := map_entries_bits entries blank p
      refine ⟨p, hp, hmax, ?_, ?_, hkernel⟩
      · rcases h1.1 hb with h | h
        · rw [test_blank] at h
          cases h
        · exact h.1
      · have hlt' : p < (entries.foldl map_entry blank).total_pages := lt_of_lt_of_le hlt (Nat.min_le_left _ _)
        rcases h2.1 hlt' with h | h
        · exact absurd h (Nat.not_lt_zero _)
        · exact h
  · intro h
    cases mmap with
    | none => exact h.elim
    | some entries =>
      obtain ⟨p, hp, hmax, hoff, hend, hkernel⟩ := h
      obtain ⟨h1, h2⟩ := map_entries_bits entries blank p
      refine ⟨p, hp, ?_, (init_test_high hk _ hp hmax).2 ⟨?_, hkernel⟩⟩
      · rw [init_total_eq]
        unfold map_memory
        rw [(count_used_bits _).1]
        exact lt_min (h2.2 (.inr hend)) hmax
      · unfold map_memory
        rw [(count_used_bits _).2]
        exact h1.2 (.inr ⟨hoff, hmax⟩)

/-! ## Allocating until a high page comes -/

/-- As long as a page past the identity map is free, allocating page after page hands one out. -/
theorem exhaust {R : St → Prop} (hR : ∀ s, R s → R (pmm_alloc_page s).2) {p : Nat} (hp : IDENTITY_END ≤ p * PAGE_SIZE)
    {s : St} (hs : R s) (hlt : p < s.total_pages) (hb : bitmap_test s p = false) : ∃ s', R s' ∧ ¬ Addressable s' := by
  -- the number of free pages below `p` goes down with each call
  induction hk : ((Finset.range p).filter (fun q => bitmap_test s q = false)).card using Nat.strong_induction_on
    generalizing s with
  | _ k ih =>
    rcases alloc_page_cases s with h | ⟨q, hq, hqb, h⟩
    · have hnone : (List.range s.total_pages).find? (fun p => !bitmap_test s p) = none := by
        unfold pmm_alloc_page at h
        cases hf : (List.range s.total_pages).find? (fun p => !bitmap_test s p) with
        | none => rfl
        | some q =>
          rw [hf] at h
          have hsame := congrArg (fun r => bitmap_test r.2 q) h
          have hfree := List.find?_some hf
          simp only [test_take, decide_true, Bool.or_true] at hsame
          rw [← hsame] at hfree
          cases hfree
      have := List.find?_eq_none.1 hnone p (List.mem_range.2 hlt)
      rw [hb] at this
      exact absurd rfl this
    · by_cases hhigh : IDENTITY_END ≤ q * PAGE_SIZE
      · refine ⟨s, hs, fun ha => ?_⟩
        rw [Addressable, h] at ha
        have := ha.1 (by unfold IDENTITY_END at hhigh; dsimp only; omega)
        unfold PAGE_SIZE at this hhigh
        dsimp only at this
        omega
      · have hqp : q < p := by
          unfold PAGE_SIZE at hp hhigh
          omega
        have hs' := hR s hs
        rw [h] at hs'
        refine ih _ ?_ hs' hlt ?_ rfl
        · rw [← hk]
          refine Finset.card_lt_card (Finset.ssubset_iff_of_subset ?_ |>.2 ⟨q, ?_, ?_⟩)
          · intro r hr
            simp only [Finset.mem_filter, test_take, Bool.or_eq_false_iff] at hr ⊢
            exact ⟨hr.1, hr.2.1⟩
          · simp only [Finset.mem_filter, Finset.mem_range]
            exact ⟨hqp, hqb⟩
          · simp [test_take]
        · rw [test_take, hb, decide_eq_false (by omega)]
          rfl

/-! ## Runs that stay below -/

/-- What is free below `total_pages` is mapped. -/
theorem addressable_of_low {s : St} (ht : s.total_pages ≤ PMM_MAX_PAGES)
    (hlow : ∀ p < s.total_pages, bitmap_test s p = false → (p + 1) * PAGE_SIZE ≤ IDENTITY_END) : Addressable s := by
  constructor
  · intro hne
    rcases alloc_page_cases s with h | ⟨p, hp, hb, h⟩
    · rw [h] at hne
      exact absurd rfl hne
    · rw [h]
      have := hlow p hp hb
      dsimp only
      rwa [Nat.add_mul, Nat.one_mul] at this
  · intro count hc hne
    rcases alloc_cases hc ht with h | ⟨p, s', hp, hb, h, -⟩
    · rw [h] at hne
      exact absurd rfl hne
    · rw [h]
      dsimp only
      rw [← Nat.add_mul]
      rcases Nat.eq_zero_or_pos count with rfl | hpos
      · rw [h] at hne
        unfold pmm_alloc_pages at h
        rw [if_pos rfl] at h
        exact absurd (congrArg Prod.fst h).symm hne
      · have := hlow (p + (count - 1)) (by omega) (hb (count - 1) (by omega))
        rwa [show p + (count - 1) + 1 = p + count by omega] at this

/-- Free pages and pages held are mapped. -/
structure Low (s : St) (held : List Grant) : Prop where
  total : s.total_pages ≤ PMM_MAX_PAGES
  free : ∀ p < s.total_pages, bitmap_test s p = false → (p + 1) * PAGE_SIZE ≤ IDENTITY_END
  held : ∀ p, Held held p → (p + 1) * PAGE_SIZE ≤ IDENTITY_END

theorem Low.alloc {s s' : St} {held : List Grant} (hl : Low s held) {p count : Nat} (hp : p + count ≤ s.total_pages)
    (hfree : ∀ i < count, bitmap_test s (p + i) = false) (ht : s'.total_pages = s.total_pages)
    (hb : ∀ q, bitmap_test s' q = (bitmap_test s q || decide (p ≤ q ∧ q < p + count))) :
    Low s' (grant (p * PAGE_SIZE) count held) := by
  refine ⟨ht.trans_le hl.total, fun q hq hqb => ?_, fun q hq => ?_⟩
  · rw [hb, Bool.or_eq_false_iff] at hqb
    exact hl.free q (ht ▸ hq) hqb.1
  · rcases held_grant_page.1 hq with hq | ⟨-, h1, h2⟩
    · exact hl.held q hq
    · have hclear := hfree (q - p) (by omega)
      rw [show p + (q - p) = q by omega] at hclear
      exact hl.free q (by omega) hclear

theorem Low.free_held {s s' : St} {held : List Grant} (hl : Low s held) {ps : List Nat} (hps : ∀ p ∈ ps, Held held p)
    (ht : s'.total_pages = s.total_pages)
    (hb : ∀ q, bitmap_test s' q = (bitmap_test s q && !decide (q ∈ ps ∧ q < s.total_pages))) :
    Low s' (release ps held) := by
  refine ⟨ht.trans_le hl.total, fun q hq hqb => ?_, fun q hq => ?_⟩
  · rw [hb, Bool.and_eq_false_iff] at hqb
    rcases hqb with hqb | hqb
    · exact hl.free q (ht ▸ hq) hqb
    · simp only [Bool.not_eq_false', decide_eq_true_eq] at hqb
      exact hl.held q (hps q hqb.1)
  · exact hl.held q (held_release.1 hq).1

theorem runs_low {kernel_end : Nat} {mmap : Option (List mb2_mmap_entry_t)} (hk : kernel_end < 2 ^ 64)
    (hlow : ¬ OffersHigh kernel_end mmap) {s : St} {held : List Grant} (h : Runs kernel_end mmap s held) : Low s held := by
  induction h with
  | init =>
    refine ⟨init_total _ _, fun p hp hb => ?_, fun p hp => ?_⟩
    · by_contra hhigh
      refine hlow ((init_high hk mmap).1 ⟨p, ?_, hp, hb⟩)
      unfold IDENTITY_END PAGE_SIZE at hhigh ⊢
      omega
    · obtain ⟨g, hg, -⟩ := hp
      cases hg
  | @alloc_page s held _ ih =>
    rcases alloc_page_cases s with h | ⟨p, hp, hb, h⟩
    · rw [h]
      exact ih
    · rw [h]
      refine ih.alloc (by omega) (fun i hc => ?_) rfl (fun q => ?_)
      · obtain rfl : i = 0 := by omega
        exact hb
      · rw [test_take]
        congr 2
        exact propext (by omega)
  | @alloc_pages s held count _ hc ih =>
    rcases alloc_cases hc ih.total with h | ⟨p, s', h1, h2, h, ht, hb⟩
    · rw [h]
      exact ih
    · rw [h]
      exact ih.alloc h1 h2 ht hb
  | @free_page s held addr _ hp ih =>
    obtain ⟨ht, hb⟩ := free_page_bits s addr
    refine ih.free_held (by simpa using hp) ht (fun q => ?_)
    rw [hb]
    simp
  | @free_pages s held addr count _ hp ih =>
    obtain ⟨ht, hb⟩ := free_pages_bits s addr count
    exact ih.free_held hp ht hb

/-! ## Runs that free anything -/

/-- The first page past the identity map. -/
def high_page : Nat := IDENTITY_END / PAGE_SIZE

theorem high_page_eq : high_page = 262144 := rfl

theorem init_reaches (kernel_end : Nat) (mmap : Option (List mb2_mmap_entry_t)) :
    high_page < (pmm_init kernel_end mmap).total_pages ↔ ReachesHigh mmap := by
  rw [init_total_eq, high_page_eq]
  cases mmap with
  | none =>
    refine ⟨fun h => ?_, fun h => h.elim⟩
    have hle : 262144 < 32768 := h
    omega
  | some entries =>
    unfold map_memory ReachesHigh
    rw [(count_used_bits _).1]
    dsimp only
    rw [lt_min_iff, (map_entries_bits entries blank 262144).2]
    have hend : ∀ e, IDENTITY_END < end_page e * PAGE_SIZE ↔ 262144 < end_page e := by
      intro e
      unfold IDENTITY_END PAGE_SIZE
      omega
    simp only [hend]
    constructor
    · rintro ⟨h | h, -⟩
      · exact absurd h (Nat.not_lt_zero _)
      · exact h
    · exact fun h => ⟨.inr h, by decide⟩

theorem AnyRun.total_pages {kernel_end : Nat} {mmap : Option (List mb2_mmap_entry_t)} {s : St}
    (h : AnyRun kernel_end mmap s) : s.total_pages = (pmm_init kernel_end mmap).total_pages := by
  induction h with
  | init => rfl
  | @alloc_page s _ ih =>
    rcases alloc_page_cases s with h | ⟨p, -, -, h⟩
    · rw [h]
      exact ih
    · rw [h]
      exact ih
  | @alloc_pages s count _ hc ih =>
    rcases alloc_cases hc (ih.trans_le (init_total _ _)) with h | ⟨p, s', -, -, h, ht, -⟩
    · rw [h]
      exact ih
    · rw [h]
      exact ht.trans ih
  | @free_page s addr _ ih => exact (free_page_bits s addr).1.trans ih
  | @free_pages s addr count _ ih => exact (free_pages_bits s addr count).1.trans ih

/-- While callers free only what they hold, every page handed out is mapped exactly when the memory map offers none past
the identity map; when they may free anything, exactly when no entry reaches past it. -/
theorem addressable_iff {kernel_end : Nat} (hk : kernel_end < 2 ^ 64) (mmap : Option (List mb2_mmap_entry_t)) :
    ((∀ s held, Runs kernel_end mmap s held → Addressable s) ↔ ¬ OffersHigh kernel_end mmap) ∧
    ((∀ s, AnyRun kernel_end mmap s → Addressable s) ↔ ¬ ReachesHigh mmap) := by
  refine ⟨⟨fun h hoff => ?_, fun hlow s held hr => ?_⟩, ⟨fun h hreach => ?_, fun hlow s hr => ?_⟩⟩
  · obtain ⟨p, hp, hlt, hb⟩ := (init_high hk mmap).2 hoff
    obtain ⟨s, ⟨held, hs⟩, hbad⟩ := exhaust (R := fun s => ∃ held, Runs kernel_end mmap s held)
      (fun s ⟨held, hs⟩ => ⟨_, .alloc_page hs⟩) hp ⟨[], .init⟩ hlt hb
    exact hbad (h s held hs)
  · have hl := runs_low hk hlow hr
    exact addressable_of_low hl.total hl.free
  · -- freeing the first page past the map makes it available
    have hlt := (init_reaches kernel_end mmap).2 hreach
    obtain ⟨ht, hb⟩ := free_page_bits (pmm_init kernel_end mmap) IDENTITY_END
    have hclear : bitmap_test (pmm_free_page (pmm_init kernel_end mmap) IDENTITY_END) high_page = false := by
      rw [hb, decide_eq_true ⟨rfl, hlt⟩]
      simp
    obtain ⟨s, hs, hbad⟩ := exhaust (R := AnyRun kernel_end mmap) (fun s hs => .alloc_page hs) (by decide)
      (.free_page IDENTITY_END .init) (ht ▸ hlt) hclear
    exact hbad (h s hs)
  · have ht := hr.total_pages
    refine addressable_of_low (ht.trans_le (init_total _ _)) (fun p hp _ => ?_)
    have hle : ¬ high_page < s.total_pages := fun hlt => hlow ((init_reaches kernel_end mmap).1 (ht ▸ hlt))
    rw [high_page_eq] at hle
    unfold IDENTITY_END PAGE_SIZE
    omega

/-- A machine whose only free page is the first one past the identity map. -/
def highMap : Option (List mb2_mmap_entry_t) :=
  some [⟨0x100000, 0x1000, MB2_MEMORY_AVAILABLE, 0⟩, ⟨0x40000000, 0x1000, MB2_MEMORY_AVAILABLE, 0⟩]

theorem addressable_iff_smallMap :
    (pmm_alloc_pages (pmm_init 0x101000 smallMap) 2).1 = 0x101000 ∧
    Addressable (pmm_alloc_pages (pmm_init 0x101000 smallMap) 2).2 := by
  refine ⟨by rw [smallMap_alloc], (addressable_iff (by omega) smallMap).1.2 ?_ _ _ (.alloc_pages 2 .init (by omega))⟩
  rintro ⟨p, hp, -, ⟨e, he, -, -, hlt⟩, -⟩
  cases List.mem_singleton.1 he
  have hend : H3OS_ALIGN_DOWN (add64 0x100000 0x5000) PAGE_SIZE / PAGE_SIZE = 261 := by decide +kernel
  dsimp only at hlt
  rw [hend] at hlt
  unfold IDENTITY_END PAGE_SIZE at hp
  omega

/-- The page at 1 GiB is handed out. -/
theorem high_page_not_addressable :
    ¬ ∀ kernel_end mmap, kernel_end < 2 ^ 64 → ∀ s held, Runs kernel_end mmap s held → Addressable s := by
  intro h
  have hoff : OffersHigh 0x101000 highMap := by
    refine ⟨262144, by decide, by decide, ⟨⟨0x40000000, 0x1000, MB2_MEMORY_AVAILABLE, 0⟩, by simp, ?_⟩,
      ⟨⟨0x40000000, 0x1000, MB2_MEMORY_AVAILABLE, 0⟩, by simp, ?_⟩, by decide +kernel⟩
    · exact ⟨rfl, by decide +kernel, by decide +kernel⟩
    · unfold end_page
      decide +kernel
  obtain ⟨p, hp, hlt, hb⟩ := (init_high (by omega) highMap).2 hoff
  obtain ⟨s, ⟨held, hs⟩, hbad⟩ := exhaust (R := fun s => ∃ held, Runs 0x101000 highMap s held)
    (fun s ⟨held, hs⟩ => ⟨_, .alloc_page hs⟩) hp ⟨[], .init⟩ hlt hb
  exact hbad (h _ _ (by omega) s held hs)

end H3OS.Pmm
