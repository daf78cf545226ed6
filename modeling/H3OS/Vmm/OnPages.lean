import H3OS.Vmm.Machine
/-!
# The processor sees the map

Every table but those of `boot.asm` is a page that the allocator has handed out
and that nobody else holds, so nothing that the rest of the kernel may do
reaches a table. Whatever is in the TLB was read from the tables and is
still so: `invlpg` forgets the one page whose entry has just changed.
-/
open SysLib

namespace H3OS.Vmm

section
variable {s : St} {tab : Tabs} {A : PageMap}

/-- Memory may change anywhere but in the tables. -/
theorem Inv.withMem (hi : Inv s tab A) {m : Mem} (h : ∀ p a, tab p = some a → ∀ i < 512, entry m a i = entry s.mem a i) :
    Inv { s with mem := m } tab A where
  root := hi.root
  page := hi.page
  inj := hi.inj
  parent := hi.parent
  dir p a hp hlen hboot i hlt := (h p a hp i hlt).trans (hi.dir p a hp hlen hboot i hlt)
  boot := by
    obtain ⟨pd, hpd, hent⟩ := hi.boot
    exact ⟨pd, hpd, fun i hlt => ⟨(h _ pd hpd i hlt).trans (hent i hlt).1, (hent i hlt).2⟩⟩
  leaf v a hv := by
    dsimp only
    rw [h _ a hv _ (index1_lt v)]
    exact hi.leaf v a hv
  unmapped := hi.unmapped
  supply := hi.supply
  nodup := hi.nodup

/-- A page that is no table may become one. -/
theorem Inv.supplied {m : Mem} {pml4 page : Nat} (hi : Inv ⟨m, pml4, []⟩ tab A) (hal : page % 4096 = 0) (h64 : page < 2 ^ 64)
    (hnew : ∀ p, tab p ≠ some page) : Inv ⟨m, pml4, [page]⟩ tab A where
  root := hi.root
  page := hi.page
  inj := hi.inj
  parent := hi.parent
  dir := hi.dir
  boot := hi.boot
  leaf := hi.leaf
  unmapped := hi.unmapped
  supply a ha := by
    rw [List.mem_singleton.1 ha]
    exact ⟨hal, h64, fun _ => hnew⟩
  nodup := (List.nodup_singleton page).filter _

/-- The tables that are missing on the way to an address. -/
def gaps (tab : Tabs) (v : Nat) : Nat :=
  (tab [index4 v]).isNone.toNat + (tab [index4 v, index3 v]).isNone.toNat + (tab (pathOf v)).isNone.toNat

theorem Inv.missing_eq (hi : Inv s tab A) {v : Nat} (hv : [index4 v, index3 v] ≠ [0, 0]) :
    Machine.missing s v = gaps tab v := by
  unfold Machine.missing gaps
  dsimp only
  rcases hi.walk v with ⟨pdpt, pd, h4, h3, hv'⟩ | ⟨h4, -, h2⟩ | ⟨pdpt, h4, h3, -, h2⟩ | ⟨pdpt, pd, h4, h3, -, h2⟩ |
    ⟨pdpt, pd, pt, h4, h3, -, h2⟩
  · exact absurd hv' hv
  · have h3 : tab [index4 v, index3 v] = none := hi.none_below h4 (index3 v)
    rw [if_pos (hi.pml4_absent.2 h4), h4, h3, h2]
    rfl
  · rw [if_neg (by rw [hi.pml4_absent, h4]; simp), hi.pml4_below h4, if_pos ((hi.pdpt_absent h4).2 h3), h4, h3, h2]
    rfl
  · obtain ⟨hp4, ha4, hp3, ha3⟩ := hi.to_pd h4 h3
    rw [if_neg hp4, ha4, if_neg hp3, ha3, if_pos ((hi.pd_absent h3 hv).2 h2), h4, h3, h2]
    rfl
  · obtain ⟨hp4, ha4, hp3, ha3⟩ := hi.to_pd h4 h3
    rw [if_neg hp4, ha4, if_neg hp3, ha3, if_neg (by rw [hi.pd_absent h3 hv, h2]; simp), h4, h3, h2]
    rfl

/-! ## What the processor finds -/

theorem pageOf_low (v : Nat) : pageOf v < 2 ^ 18 ↔ [index4 v, index3 v] = [0, 0] := by
  simp only [pageOf, index4_eq, index3_eq, List.cons.injEq, and_true]
  omega

theorem page_of_low {v : Nat} (h : pageOf v < 2 ^ 18) : pageOf v = index2 v * 2 ^ 9 + index1 v := by
  rw [index2_eq, index1_eq]
  unfold pageOf at *
  omega

theorem Inv.entry_pml4 (hi : Inv s tab A) {v pdpt : Nat} (h4 : tab [index4 v] = some pdpt) :
    entry s.mem s.pml4 (index4 v) = pdpt + 3 :=
  (hi.dir [] _ hi.root (by simp) (by simp) _ (index4_lt v)).trans (congrArg linkOf h4)

theorem Inv.entry_pdpt (hi : Inv s tab A) {v pdpt pd : Nat} (h4 : tab [index4 v] = some pdpt)
    (h3 : tab [index4 v, index3 v] = some pd) : entry s.mem pdpt (index3 v) = pd + 3 :=
  (hi.dir _ _ h4 (by simp) (by simp) _ (index3_lt v)).trans (congrArg linkOf h3)

theorem boot_frame {i : Nat} (h : i < 512) : frame (i * 2 ^ 21 + 0x83) / 2 ^ 21 * 2 ^ 21 = i * 2 ^ 21 := by
  unfold frame
  omega

theorem boot_entry_follows {i : Nat} (h : i < 512) : Machine.Follows (i * 2 ^ 21 + 0x83) := by
  unfold Machine.Follows
  rw [and_present]
  omega

/-- A link below 2^52, as the processor takes it. -/
theorem link_taken {a : Nat} (hal : a % 4096 = 0) (hlt : a < 2 ^ 52) :
    Machine.Follows (a + 3) ∧ (a + 3) &&& PTE_HUGE = 0 ∧ frame (a + 3) = a :=
  have h : ∀ b, some a = some b → b % 4096 = 0 := fun b hb => Option.some.inj hb ▸ hal
  ⟨⟨(linkOf_present (some a) h).not.2 (by simp), by omega⟩, linkOf_not_huge (some a) h, (link_bits hal hlt).2.2.2⟩

theorem not_follows {e : Nat} (h : e &&& PTE_PRESENT = 0) : ¬ Machine.Follows e := fun hf => hf.1 h

/-- The processor's way through the directory at `pd`. -/
def walk_pd (m : Mem) (pd virt : Nat) : Option Nat :=
  let e2 := entry m pd (index2 virt)
  if ¬ Machine.Follows e2 then none else
  if e2 &&& PTE_HUGE ≠ 0 then some (frame e2 / 2 ^ 21 * 2 ^ 21 + index1 virt * 2 ^ 12) else
  let e1 := entry m (frame e2) (index1 virt)
  if ¬ Machine.Follows e1 then none else some (frame e1)

theorem Inv.walk_to_pd (hi : Inv s tab A) (hb : ∀ p a, tab p = some a → a < 2 ^ 52) {v pdpt pd : Nat}
    (h4 : tab [index4 v] = some pdpt) (h3 : tab [index4 v, index3 v] = some pd) :
    Machine.walk_frame s v = walk_pd s.mem pd v := by
  obtain ⟨hp4, -, hf4⟩ := link_taken (hi.aligned _ _ h4) (hb _ _ h4)
  obtain ⟨hp3, hh3, hf3⟩ := link_taken (hi.aligned _ _ h3) (hb _ _ h3)
  unfold Machine.walk_frame walk_pd
  dsimp only
  rw [hi.entry_pml4 h4, if_neg (not_not.2 hp4), hf4, hi.entry_pdpt h4 h3, if_neg (not_not.2 hp3), if_neg (not_not.2 hh3), hf3]

/-- The last entry on the way, which says what the map says. -/
theorem leaf_frame {e : Nat} {o : Option Nat} (he : e < 2 ^ 64) (hl : Leaf e o) :
    (if ¬ Machine.Follows e then none else some (frame e)) =
      o.bind fun phys => if phys < 2 ^ 63 then some (phys % 2 ^ 52) else none := by
  cases o with
  | none => exact if_pos (not_follows ((and_present e).trans hl))
  | some phys =>
    obtain ⟨hodd, rfl⟩ := hl
    have hfollows : Machine.Follows e ↔ e / 4096 * 4096 < 2 ^ 63 := by
      unfold Machine.Follows
      rw [and_present]
      omega
    rw [ite_not, Option.bind_some]
    refine if_congr hfollows (congrArg some ?_) rfl
    unfold frame
    omega

/-- Through tables below 2^52 the processor finds what the map says. -/
theorem Inv.walk_frame (hi : Inv s tab A) (hb : ∀ p a, tab p = some a → a < 2 ^ 52) (v : Nat) :
    Machine.walk_frame s v = Machine.frameOf A (pageOf v) := by
  have habove : [index4 v, index3 v] ≠ [0, 0] → ¬ pageOf v < 2 ^ 18 := (pageOf_low v).not.2
  unfold Machine.frameOf
  rcases hi.walk v with ⟨pdpt, pd, h4, h3, hv⟩ | ⟨h4, hv, h2⟩ | ⟨pdpt, h4, h3, hv, h2⟩ | ⟨pdpt, pd, h4, h3, hv, h2⟩ |
    ⟨pdpt, pd, pt, h4, h3, hv, h2⟩
  · have hlow := (pageOf_low v).2 hv
    rw [hi.walk_to_pd hb h4 h3, walk_pd, hi.huge (hv ▸ h3) (index2_lt v)]
    dsimp only
    rw [if_neg (not_not.2 (boot_entry_follows (index2_lt v))), if_pos (boot_entry_huge _), boot_frame (index2_lt v),
      if_pos hlow, page_of_low hlow]
    exact congrArg some (by omega)
  · rw [if_neg (habove hv), hi.unmapped v h2]
    exact if_pos (not_follows (hi.pml4_absent.2 h4))
  · obtain ⟨hp4, -, hf4⟩ := link_taken (hi.aligned _ _ h4) (hb _ _ h4)
    unfold Machine.walk_frame
    dsimp only
    rw [hi.entry_pml4 h4, if_neg (not_not.2 hp4), hf4, if_pos (not_follows ((hi.pdpt_absent h4).2 h3)), if_neg (habove hv),
      hi.unmapped v h2]
    rfl
  · rw [hi.walk_to_pd hb h4 h3, if_neg (habove hv), hi.unmapped v h2]
    exact if_pos (not_follows ((hi.pd_absent h3 hv).2 h2))
  · have hpd : entry s.mem pd (index2 v) = pt + 3 :=
      (hi.dir _ _ h3 (by simp) hv _ (index2_lt v)).trans (congrArg linkOf h2)
    obtain ⟨hp2, hh2, hf2⟩ := link_taken (hi.aligned _ _ h2) (hb _ _ h2)
    rw [hi.walk_to_pd hb h4 h3, walk_pd, hpd]
    dsimp only
    rw [if_neg (not_not.2 hp2), if_neg (not_not.2 hh2), hf2, if_neg (habove hv)]
    exact leaf_frame (entry_lt s.mem pt (index1 v)) (hi.leaf v pt h2)

end

namespace Machine

/-! ## The calls are those on a list of answers -/

theorem table_walk_answers (s : St) (table index : Nat) : ∃ a : List Nat, ∀ rest,
    Vmm.table_walk_alloc ⟨s.mem, s.pml4, a ++ rest⟩ table index = ((table_walk_alloc s table index).1,
      ⟨(table_walk_alloc s table index).2.mem, (table_walk_alloc s table index).2.pml4, rest⟩) := by
  unfold Vmm.table_walk_alloc table_walk_alloc
  dsimp only
  by_cases h : entry s.mem table index &&& PTE_PRESENT = 0
  · rcases Pmm.pmm_alloc_page s.pages with ⟨_ | page, pages⟩
    · refine ⟨[0], fun rest => ?_⟩
      rw [if_pos h, if_pos h]
      rfl
    · refine ⟨[page + 1], fun rest => ?_⟩
      rw [if_pos h, if_pos h]
      dsimp only
      rw [if_neg (Nat.succ_ne_zero page)]
      rfl
  · refine ⟨[], fun rest => ?_⟩
    rw [if_neg h, if_neg h]
    rfl

/-- A call is one of `Vmm`'s, with what the page allocator answers as the answers. -/
theorem map_answers (s : St) (virt phys flags : Nat) : ∃ pmm : List Nat,
    Vmm.vmm_map_page ⟨s.mem, s.pml4, pmm⟩ virt phys flags = ((vmm_map_page s virt phys flags).1,
      (vmm_map_page s virt phys flags).2.tables) := by
  obtain ⟨a1, h1⟩ := table_walk_answers s s.pml4 (index4 virt)
  rcases hw1 : table_walk_alloc s s.pml4 (index4 virt) with ⟨pdpt, s1⟩
  obtain ⟨a2, h2⟩ := table_walk_answers s1 pdpt (index3 virt)
  rcases hw2 : table_walk_alloc s1 pdpt (index3 virt) with ⟨pd, s2⟩
  obtain ⟨a3, h3⟩ := table_walk_answers s2 pd (index2 virt)
  rcases hw3 : table_walk_alloc s2 pd (index2 virt) with ⟨pt, s3⟩
  rw [hw1] at h1
  rw [hw2] at h2
  rw [hw3] at h3
  unfold Vmm.vmm_map_page vmm_map_page
  by_cases hpdpt : pdpt = 0
  · refine ⟨a1 ++ [], ?_⟩
    simp only [h1, hw1, if_pos hpdpt]
    rfl
  by_cases hpd : pd = 0
  · refine ⟨a1 ++ (a2 ++ []), ?_⟩
    simp only [h1, hw1, if_neg hpdpt, h2, hw2, if_pos hpd]
    rfl
  by_cases hhuge : entry s2.mem pd (index2 virt) &&& PTE_HUGE ≠ 0
  · refine ⟨a1 ++ (a2 ++ []), ?_⟩
    simp only [h1, hw1, if_neg hpdpt, h2, hw2, if_neg hpd, if_pos hhuge]
    rfl
  refine ⟨a1 ++ (a2 ++ (a3 ++ [])), ?_⟩
  by_cases hpt : pt = 0
  · simp only [h1, hw1, if_neg hpdpt, h2, hw2, if_neg hpd, if_neg hhuge, h3, hw3, if_pos hpt]
    rfl
  · simp only [h1, hw1, if_neg hpdpt, h2, hw2, if_neg hpd, if_neg hhuge, h3, hw3, if_neg hpt]
    rfl

section
variable {kernel_end base : Nat} {mmap : Option (List Pmm.mb2_mmap_entry_t)} {s : St} {tab : Tabs} {A : PageMap}
  {held : List Pmm.Grant}

/-! ## The invariant -/

/-- A page that is in use and that nobody but the tables has. -/
structure Owned (kernel_end : Nat) (pages : Pmm.St) (held : List Pmm.Grant) (a : Nat) : Prop where
  behind : kernel_end ≤ a
  mapped : a + PAGE_SIZE ≤ Pmm.IDENTITY_END
  tracked : a / PAGE_SIZE < pages.total_pages
  used : Pmm.bitmap_test pages (a / PAGE_SIZE) = true
  unheld : ¬ Pmm.Held held (a / PAGE_SIZE)

structure Inv (kernel_end base : Nat) (mmap : Option (List Pmm.mb2_mmap_entry_t)) (s : St) (tab : Tabs) (A : PageMap)
    (held : List Pmm.Grant) : Prop where
  tree : Vmm.Inv s.tables tab A
  ledger : ∃ all, Pmm.Runs kernel_end mmap s.pages all ∧ ∀ p, Pmm.Held held p → Pmm.Held all p
  owned : ∀ p a, tab p = some a → InBoot base a ∨ Owned kernel_end s.pages held a
  tlb : ∀ q f, s.tlb q = some f → frameOf A q = some f

/-- The free pages that the allocator reports. -/
def free (s : St) : Nat := (Pmm.pmm_get_stats s.pages).free_pages

theorem Placed.run_inv (hpl : Placed kernel_end base mmap) {pages : Pmm.St} {all : List Pmm.Grant}
    (h : Pmm.Runs kernel_end mmap pages all) : Pmm.Inv kernel_end mmap pages all := by
  have hlow := hpl.low
  have himage := hpl.image
  have haddr := hpl.addressable
  unfold Pmm.IDENTITY_END at haddr
  exact Pmm.runs_inv (by omega) (by omega) hpl.fits h

/-- A page that is not in use is behind the kernel, nobody's, and no table. -/
theorem Inv.clear (hi : Inv kernel_end base mmap s tab A held) (hpl : Placed kernel_end base mmap) {p : Nat}
    (hp : p < s.pages.total_pages) (hc : Pmm.bitmap_test s.pages p = false) :
    kernel_end ≤ p * PAGE_SIZE ∧ p * PAGE_SIZE + PAGE_SIZE ≤ Pmm.IDENTITY_END ∧ ¬ Pmm.Held held p ∧
      ∀ q a, tab q = some a → a / PAGE_SIZE ≠ p := by
  obtain ⟨all, hruns, hsub⟩ := hi.ledger
  have hpages := hpl.run_inv hruns
  have hend : kernel_end ≤ p * PAGE_SIZE :=
    (hpages.clear p hp hc _ (le_refl _) (by unfold PAGE_SIZE; omega)).2.2
  have hmapped : p * PAGE_SIZE + PAGE_SIZE ≤ Pmm.IDENTITY_END := by
    have hlow := (Pmm.runs_low (hpl.addressable.trans_lt (by decide)) hpl.offered hruns).free p hp hc
    rwa [Nat.add_mul, Nat.one_mul] at hlow
  refine ⟨hend, hmapped, fun hheld => ?_, fun q a hq hap => ?_⟩
  · obtain ⟨g, hg, hgp⟩ := hsub p hheld
    have hset := hpages.marked g hg p hgp
    rw [hc] at hset
    cases hset
  · rcases hi.owned q a hq with hboot | hown
    · obtain ⟨h1, h2⟩ := hboot
      have himage := hpl.image
      have haligned := hpl.aligned
      unfold PAGE_SIZE at *
      omega
    · have hset := hown.used
      rw [hap, hc] at hset
      cases hset

/-- `pmm_alloc_page` answers 0 only when no page is free, and else with one that may become a table. -/
theorem Inv.alloc_cases (hi : Inv kernel_end base mmap s tab A held) (hpl : Placed kernel_end base mmap) :
    (free s = 0 ∧ Pmm.pmm_alloc_page s.pages = (0, s.pages)) ∨
    ∃ p, p ≠ 0 ∧ p < s.pages.total_pages ∧ Pmm.bitmap_test s.pages p = false ∧
      Pmm.pmm_alloc_page s.pages = (p * PAGE_SIZE, Pmm.bitmap_take s.pages p) := by
  obtain ⟨all, hruns, -⟩ := hi.ledger
  unfold Pmm.pmm_alloc_page
  cases hfind : (List.range s.pages.total_pages).find? (fun p => !Pmm.bitmap_test s.pages p) with
  | none =>
    refine .inl ⟨(hruns.anyRun.counted hpl.fits).free_zero.2 fun p hp => ?_, rfl⟩
    simpa using List.find?_eq_none.1 hfind p (List.mem_range.2 hp)
  | some p =>
    have hlt := List.mem_range.1 (List.mem_of_find?_eq_some hfind)
    have hclear : Pmm.bitmap_test s.pages p = false := by simpa using List.find?_some hfind
    refine .inr ⟨p, ?_, hlt, hclear, rfl⟩
    rintro rfl
    have hend := (hi.clear hpl hlt hclear).1
    have hlow := hpl.low
    have himage := hpl.image
    omega

theorem Owned.take {pages : Pmm.St} {a : Nat} (h : Owned kernel_end pages held a) (p : Nat) :
    Owned kernel_end (Pmm.bitmap_take pages p) held a :=
  ⟨h.behind, h.mapped, h.tracked, by rw [Pmm.test_take, h.used, Bool.true_or], h.unheld⟩

/-! ## Walking down -/

/-- What walking one level down does: it finds a table, finds no page for a missing one, or makes it. -/
inductive Level (kernel_end base : Nat) (mmap : Option (List Pmm.mb2_mmap_entry_t)) (s : St) (tab : Tabs) (A : PageMap)
    (held : List Pmm.Grant) (q : List Nat) (r : Nat × St) : Prop
  | found (b : Nat) (h : tab q = some b) (hr : r = (b, s))
  | full (h : tab q = none) (h0 : free s = 0) (hr : r = (0, s))
  | made (b : Nat) (s' : St) (h : tab q = none) (hr : r = (b, s')) (htlb : s'.tlb = s.tlb) (hfree : free s = free s' + 1)
      (hi : Inv kernel_end base mmap s' (Function.update tab q (some b)) A held)

theorem Inv.table_walk_alloc (hi : Inv kernel_end base mmap s tab A held) (hpl : Placed kernel_end base mmap)
    {p : List Nat} {a i : Nat} (hp : tab p = some a) (hlen : p.length < 3) (hboot : p ≠ [0, 0]) (hlt : i < 512) :
    Level kernel_end base mmap s tab A held (p ++ [i]) (table_walk_alloc s a i) := by
  unfold Machine.table_walk_alloc
  have habsent : entry s.mem a i &&& PTE_PRESENT = 0 ↔ tab (p ++ [i]) = none := hi.tree.absent hp hlen hboot hlt
  by_cases h : entry s.mem a i &&& PTE_PRESENT = 0
  · rw [if_pos h]
    have hnone := habsent.1 h
    rcases hi.alloc_cases hpl with ⟨h0, he⟩ | ⟨n, hn0, hn, hclear, he⟩
    · rw [he]
      dsimp only
      rw [if_pos rfl]
      exact .full hnone h0 rfl
    · obtain ⟨all, hruns, hsub⟩ := hi.ledger
      obtain ⟨hend, hmapped, hnheld, hnew⟩ := hi.clear hpl hn hclear
      have htotal := (hpl.run_inv hruns).total
      have hpage : n * PAGE_SIZE ≠ 0 := Nat.mul_ne_zero hn0 (by decide)
      have hdiv : n * PAGE_SIZE / PAGE_SIZE = n := Nat.mul_div_cancel n (by decide)
      have hal : n * PAGE_SIZE % 4096 = 0 := Nat.mul_mod_left n 4096
      have h64 : n * PAGE_SIZE < 2 ^ 64 := by
        unfold Pmm.PMM_MAX_PAGES at htotal
        unfold PAGE_SIZE
        omega
      have hfresh : ∀ q, tab q ≠ some (n * PAGE_SIZE) := fun q hq => hnew q _ hq hdiv
      have hlinked : entry (link_table s.mem a i (n * PAGE_SIZE)) a i &&& ADDR_MASK = n * PAGE_SIZE := by
        rw [entry_link_self hal h64]
        exact linkOf_addr hal h64
      rw [he]
      dsimp only
      rw [if_neg hpage, hlinked]
      refine .made _ _ hnone rfl rfl ((hruns.anyRun.counted hpl.fits).free_take hclear) ⟨?_, ?_, ?_, hi.tlb⟩
      · exact (hi.tree.supplied hal h64 hfresh).link hp hlen hboot hlt hnone rfl hpage
      · have hnext := hruns.alloc_page
        rw [he] at hnext
        exact ⟨_, hnext, fun q hq => Pmm.held_grant.2 (.inl (hsub q hq))⟩
      · intro q b hq
        rcases update_cases hq with ⟨-, rfl⟩ | ⟨-, hq⟩
        · refine .inr ⟨hend, hmapped, ?_, ?_, ?_⟩
          · rw [hdiv]
            exact hn
          · rw [hdiv, Pmm.test_take]
            simp
          · rw [hdiv]
            exact hnheld
        · exact (hi.owned q b hq).imp id fun hown => hown.take n
  · rw [if_neg h]
    cases hb : tab (p ++ [i]) with
    | none => exact absurd (habsent.2 hb) h
    | some b => exact .found b hb (by rw [show entry s.mem a i &&& ADDR_MASK = b from hi.tree.below hp hboot hlt hb])

/-! ## Mapping -/

theorem gaps_update {v b : Nat} {q : List Nat} (hq : q ∈ [[index4 v], [index4 v, index3 v], pathOf v]) (h : tab q = none) :
    gaps (Function.update tab q (some b)) v + 1 = gaps tab v := by
  simp only [List.mem_cons, List.not_mem_nil, or_false] at hq
  unfold gaps pathOf at *
  rcases hq with rfl | rfl | rfl
  · simp [Function.update, h]
    omega
  · simp [Function.update, h]
    omega
  · simp [Function.update, h]

/-- A level leaves the answer open to the next one: what is missing fits into the free pages as before. -/
theorem Level.next {v : Nat} {q : List Nat} {r : Nat × St} (h : Level kernel_end base mmap s tab A held q r)
    (hi : Inv kernel_end base mmap s tab A held) (hq : q ∈ [[index4 v], [index4 v, index3 v], pathOf v]) :
    (r.1 = 0 ∧ r.2 = s ∧ free s < gaps tab v) ∨
    (r.1 ≠ 0 ∧ r.2.tlb = s.tlb ∧ ∃ tab', Inv kernel_end base mmap r.2 tab' A held ∧ tab' q = some r.1 ∧
      (gaps tab' v ≤ free r.2 ↔ gaps tab v ≤ free s) ∧ ∀ p a, tab p = some a → tab' p = some a) := by
  rcases h with ⟨b, hb, rfl⟩ | ⟨hnone, h0, rfl⟩ | ⟨b, s', hnone, rfl, htlb, hfree, hi'⟩
  · exact .inr ⟨(hi.tree.page q b hb).2.1, rfl, tab, hi, hb, Iff.rfl, fun _ _ h => h⟩
  · have hgap := gaps_update (b := 0) hq hnone
    exact .inl ⟨rfl, rfl, by omega⟩
  · have hgap := gaps_update (b := b) hq hnone
    have hself : Function.update tab q (some b) q = some b := Function.update_self q (some b) tab
    refine .inr ⟨(hi'.tree.page q b hself).2.1, htlb, _, hi', hself, ?_, fun p a hp => update_keep hnone hp⟩
    dsimp only
    omega

/-- A call to map succeeds exactly above the first gigabyte and with a free page for each missing table; then it writes
one entry of the last table. -/
theorem Inv.map_cases (hi : Inv kernel_end base mmap s tab A held) (hpl : Placed kernel_end base mmap) (virt phys flags : Nat) :
    ∃ tab' s', Inv kernel_end base mmap s' tab' A held ∧ s'.tlb = s.tlb ∧
      ((vmm_map_page s virt phys flags = (false, s') ∧ ([index4 virt, index3 virt] = [0, 0] ∨ free s < gaps tab virt)) ∨
      (∃ pt, tab' (pathOf virt) = some pt ∧ [index4 virt, index3 virt] ≠ [0, 0] ∧ gaps tab virt ≤ free s ∧
        vmm_map_page s virt phys flags =
          (true, invlpg { s' with mem := setEntry s'.mem pt (index1 virt) (leafOf phys flags) } virt))) := by
  unfold vmm_map_page
  have hlevel1 := hi.table_walk_alloc hpl hi.tree.root (by simp) (by simp) (index4_lt virt)
  change Level _ _ _ _ _ _ _ _ (Machine.table_walk_alloc s s.pml4 (index4 virt)) at hlevel1
  rcases hw1 : Machine.table_walk_alloc s s.pml4 (index4 virt) with ⟨pdpt, s1⟩
  rw [hw1] at hlevel1
  dsimp only
  rcases hlevel1.next (v := virt) hi (by simp) with ⟨h0, hs, hless⟩ | ⟨hne1, htlb1, tab1, hi1, hpdpt, hfits1, -⟩
  · dsimp only at h0 hs
    rw [if_pos h0]
    exact ⟨tab, s1, hs ▸ hi, by rw [hs], .inl ⟨rfl, .inr hless⟩⟩
  dsimp only at hne1 htlb1 hi1 hpdpt hfits1
  rw [if_neg hne1]
  have hlevel2 := hi1.table_walk_alloc hpl hpdpt (by simp) (by simp) (index3_lt virt)
  rcases hw2 : Machine.table_walk_alloc s1 pdpt (index3 virt) with ⟨pd, s2⟩
  rw [hw2] at hlevel2
  dsimp only
  rcases hlevel2.next (v := virt) hi1 (by simp) with ⟨h0, hs, hless⟩ | ⟨hne2, htlb2, tab2, hi2, hpd, hfits2, hkeep2⟩
  · dsimp only at h0 hs
    rw [if_pos h0]
    exact ⟨tab1, s2, hs ▸ hi1, by rw [hs, htlb1], .inl ⟨rfl, .inr (by omega)⟩⟩
  dsimp only at hne2 htlb2 hi2 hpd hfits2
  rw [if_neg hne2]
  by_cases hboot : [] ++ [index4 virt] ++ [index3 virt] = [0, 0]
  · have hhuge : entry s2.mem pd (index2 virt) &&& PTE_HUGE ≠ 0 := by
      rw [hboot] at hpd
      rw [show entry s2.mem pd (index2 virt) = _ from hi2.tree.huge hpd (index2_lt virt)]
      exact boot_entry_huge _
    rw [if_pos hhuge]
    exact ⟨tab2, s2, hi2, by rw [htlb2, htlb1], .inl ⟨rfl, .inl hboot⟩⟩
  have hhuge : entry s2.mem pd (index2 virt) &&& PTE_HUGE = 0 := hi2.tree.not_huge hpd (by simp) hboot (index2_lt virt)
  rw [if_neg (not_not.2 hhuge)]
  have hlevel3 := hi2.table_walk_alloc hpl hpd (by simp) hboot (index2_lt virt)
  rcases hw3 : Machine.table_walk_alloc s2 pd (index2 virt) with ⟨pt, s3⟩
  rw [hw3] at hlevel3
  dsimp only
  rcases hlevel3.next (v := virt) hi2 (by simp [pathOf]) with ⟨h0, hs, hless⟩ | ⟨hne3, htlb3, tab3, hi3, hpt, hfits3, hkeep3⟩
  · dsimp only at h0 hs
    rw [if_pos h0]
    exact ⟨tab2, s3, hs ▸ hi2, by rw [hs, htlb2, htlb1], .inl ⟨rfl, .inr (by omega)⟩⟩
  dsimp only at hne3 htlb3 hi3 hpt hfits3
  rw [if_neg hne3]
  have hnone : gaps tab3 virt = 0 := by
    have h4 : tab3 [index4 virt] = some pdpt := hkeep3 _ _ (hkeep2 _ _ hpdpt)
    have h3 : tab3 [index4 virt, index3 virt] = some pd := hkeep3 _ _ hpd
    have h2 : tab3 (pathOf virt) = some pt := hpt
    unfold gaps
    rw [h4, h3, h2]
    rfl
  exact ⟨tab3, s3, hi3, by rw [htlb3, htlb2, htlb1], .inr ⟨pt, hpt, hboot, by omega, rfl⟩⟩

/-- What is forgotten is not found, and the rest is. -/
theorem forget_some {t : Nat → Option Nat} {q page f : Nat} (h : Function.update t page none q = some f) :
    q ≠ page ∧ t q = some f := by
  by_cases hq : q = page
  · rw [hq, Function.update_self] at h
    cases h
  · rw [Function.update_of_ne hq] at h
    exact ⟨hq, h⟩

theorem frameOf_update {q page : Nat} (h : q ≠ page) (o : Option Nat) : frameOf (Function.update A page o) q = frameOf A q := by
  unfold frameOf
  rw [Function.update_of_ne h]

/-- An entry of a last table is written, and its page is forgotten. -/
theorem Inv.setLeaf (hi : Inv kernel_end base mmap s tab A held) {v pt e : Nat} {o : Option Nat}
    (hpt : tab (pathOf v) = some pt) (he : e < 2 ^ 64) (hl : Leaf e o) :
    Inv kernel_end base mmap (invlpg { s with mem := setEntry s.mem pt (index1 v) e } v) tab
      (Function.update A (pageOf v) o) held where
  tree := hi.tree.setLeaf hpt he hl
  ledger := hi.ledger
  owned := hi.owned
  tlb q f hf := by
    obtain ⟨hq, hf⟩ := forget_some hf
    rw [frameOf_update hq]
    exact hi.tlb q f hf

theorem Inv.vmm_map_page (hi : Inv kernel_end base mmap s tab A held) (hpl : Placed kernel_end base mmap)
    (virt : Nat) {phys : Nat} (flags : Nat) (hphys : phys < 2 ^ 64) :
    ∃ tab', Inv kernel_end base mmap (vmm_map_page s virt phys flags).2 tab'
      (if (vmm_map_page s virt phys flags).1 then (Op.map virt phys flags).apply A else A) held := by
  obtain ⟨tab', s', hi', -, ⟨he, -⟩ | ⟨pt, hpt, -, -, he⟩⟩ := hi.map_cases hpl virt phys flags
  · rw [he]
    exact ⟨tab', hi'⟩
  · rw [he]
    obtain ⟨hleaf, hlt⟩ := leaf_value phys flags hphys
    exact ⟨tab', hi'.setLeaf hpt hlt hleaf⟩

theorem Inv.vmm_unmap_page (hi : Inv kernel_end base mmap s tab A held) (virt : Nat) :
    Inv kernel_end base mmap (vmm_unmap_page s virt).2 tab
      (if (vmm_unmap_page s virt).1 then (Op.unmap virt).apply A else A) held := by
  unfold Machine.vmm_unmap_page
  obtain ⟨-, he⟩ | ⟨pt, hpt, he⟩ := hi.tree.unmap_cases virt
  · rw [he]
    exact hi
  · rw [he]
    exact hi.setLeaf hpt (by norm_num) rfl

/-- Where there is a last table, a call to unmap succeeds. -/
theorem Inv.unmap_true (hi : Inv kernel_end base mmap s tab A held) {virt : Nat} (h : tab (pathOf virt) ≠ none) :
    (Machine.vmm_unmap_page s virt).1 = true := by
  unfold Machine.vmm_unmap_page
  obtain ⟨hnone, -⟩ | ⟨pt, -, he⟩ := hi.tree.unmap_cases virt
  · exact absurd hnone h
  · rw [he]

/-! ## The processor and the rest of the kernel -/

theorem Inv.mapped (hi : Inv kernel_end base mmap s tab A held) (hpl : Placed kernel_end base mmap) {p : List Nat} {a : Nat}
    (hp : tab p = some a) : a + PAGE_SIZE ≤ Pmm.IDENTITY_END := by
  rcases hi.owned p a hp with ⟨-, hlt⟩ | hown
  · have himage := hpl.image
    have haddr := hpl.addressable
    have haligned := hpl.aligned
    have hpage := (hi.tree.page p a hp).1
    unfold Pmm.IDENTITY_END PAGE_SIZE at *
    omega
  · exact hown.mapped

theorem Inv.walk_frame (hi : Inv kernel_end base mmap s tab A held) (hpl : Placed kernel_end base mmap) (v : Nat) :
    walk_frame s.tables v = frameOf A (pageOf v) := by
  refine hi.tree.walk_frame (fun p a hp => ?_) v
  have hmapped := hi.mapped hpl hp
  unfold Pmm.IDENTITY_END at hmapped
  omega

theorem Inv.fill (hi : Inv kernel_end base mmap s tab A held) (hpl : Placed kernel_end base mmap) (v : Nat) :
    Inv kernel_end base mmap { s with tlb := Function.update s.tlb (pageOf v) (Machine.walk_frame s.tables v) } tab A held where
  tree := hi.tree
  ledger := hi.ledger
  owned := hi.owned
  tlb q f hf := by
    dsimp only at hf
    by_cases hq : q = pageOf v
    · rw [hq, Function.update_self, hi.walk_frame hpl] at hf
      rw [hq]
      exact hf
    · rw [Function.update_of_ne hq] at hf
      exact hi.tlb q f hf

theorem Inv.evict (hi : Inv kernel_end base mmap s tab A held) (page : Nat) :
    Inv kernel_end base mmap { s with tlb := Function.update s.tlb page none } tab A held where
  tree := hi.tree
  ledger := hi.ledger
  owned := hi.owned
  tlb q f hf := hi.tlb q f (forget_some hf).2

/-- Nothing that the rest of the kernel may write is in a table. -/
theorem Inv.not_writable (hi : Inv kernel_end base mmap s tab A held) (hpl : Placed kernel_end base mmap) {p : List Nat}
    {a x : Nat} (hp : tab p = some a) (h1 : a ≤ x) (h2 : x < a + PAGE_SIZE) : ¬ Writable kernel_end base s held x := by
  have hpage := (hi.tree.page p a hp).1
  have haligned := hpl.aligned
  rintro ⟨hboot, hx⟩
  rcases hi.owned p a hp with ⟨h3, h4⟩ | hown
  · refine hboot ⟨by omega, ?_⟩
    unfold PAGE_SIZE at *
    omega
  · have hdiv : x / PAGE_SIZE = a / PAGE_SIZE := by
      unfold PAGE_SIZE at *
      omega
    have hbehind := hown.behind
    have htracked := hown.tracked
    rw [hdiv] at hx
    rcases hx with hx | hx | hx
    · omega
    · exact hown.unheld hx
    · omega

theorem Inv.write (hi : Inv kernel_end base mmap s tab A held) (hpl : Placed kernel_end base mmap) {m : Mem}
    (hm : ∀ x, m x ≠ s.mem x → Writable kernel_end base s held x) :
    Inv kernel_end base mmap { s with mem := m } tab A held where
  tree := by
    refine hi.tree.withMem fun p a hp i hlt => load_congr fun x h1 h2 => ?_
    by_contra hne
    exact hi.not_writable hpl hp (by omega) (by unfold PAGE_SIZE; omega) (hm x hne)
  ledger := hi.ledger
  owned := hi.owned
  tlb := hi.tlb

/-- Others take pages that are free, and no table is in one of those. -/
theorem Inv.alloc_pages (hi : Inv kernel_end base mmap s tab A held) (hpl : Placed kernel_end base mmap) {count : Nat}
    (hc : count < 2 ^ 64) : Inv kernel_end base mmap { s with pages := (Pmm.pmm_alloc_pages s.pages count).2 } tab A
      (Pmm.grant (Pmm.pmm_alloc_pages s.pages count).1 count held) := by
  obtain ⟨all, hruns, hsub⟩ := hi.ledger
  have hnext := hruns.alloc_pages count hc
  refine ⟨hi.tree, ⟨_, hnext, fun p hp => Pmm.held_grant.2 ((Pmm.held_grant.1 hp).imp_left (hsub p))⟩,
    fun p a hp => (hi.owned p a hp).imp id fun hown => ?_, hi.tlb⟩
  rcases Pmm.alloc_cases hc (hpl.run_inv hruns).total with he | ⟨n, pages, -, hfree, he, htotal, hbits⟩
  · rw [he]
    exact hown
  · rw [he]
    refine ⟨hown.behind, hown.mapped, htotal ▸ hown.tracked, ?_, fun hheld => ?_⟩
    · rw [hbits, hown.used, Bool.true_or]
    · rcases Pmm.held_grant_page.1 hheld with hheld | ⟨-, h1, h2⟩
      · exact hown.unheld hheld
      · have hclear := hfree (a / PAGE_SIZE - n) (by omega)
        rw [show n + (a / PAGE_SIZE - n) = a / PAGE_SIZE by omega, hown.used] at hclear
        cases hclear

/-- Others give back pages they hold, and no table is in one of those. -/
theorem Inv.release (hi : Inv kernel_end base mmap s tab A held) {pages : Pmm.St} {ps : List Nat}
    (hps : ∀ p ∈ ps, Pmm.Held held p) (ht : pages.total_pages = s.pages.total_pages)
    (hb : ∀ q, Pmm.bitmap_test pages q = (Pmm.bitmap_test s.pages q && !decide (q ∈ ps ∧ q < s.pages.total_pages)))
    (hnext : ∀ all, Pmm.Runs kernel_end mmap s.pages all → (∀ p ∈ ps, Pmm.Held all p) →
      Pmm.Runs kernel_end mmap pages (Pmm.release ps all)) :
    Inv kernel_end base mmap { s with pages := pages } tab A (Pmm.release ps held) := by
  obtain ⟨all, hruns, hsub⟩ := hi.ledger
  refine ⟨hi.tree, ⟨_, hnext all hruns fun p hp => hsub p (hps p hp), fun p hp => ?_⟩,
    fun p a hp => (hi.owned p a hp).imp id fun hown => ?_, hi.tlb⟩
  · obtain ⟨hp, hnot⟩ := Pmm.held_release.1 hp
    exact Pmm.held_release.2 ⟨hsub p hp, hnot⟩
  · have hnot : ¬ (a / PAGE_SIZE ∈ ps ∧ a / PAGE_SIZE < s.pages.total_pages) := fun h => hown.unheld (hps _ h.1)
    refine ⟨hown.behind, hown.mapped, ht ▸ hown.tracked, ?_, fun hheld => hown.unheld (Pmm.held_release.1 hheld).1⟩
    rw [hb, hown.used, decide_eq_false hnot]
    rfl

theorem inv_boot (hpl : Placed kernel_end base mmap) (m : Mem) :
    Inv kernel_end base mmap (boot kernel_end base mmap m) (bootTabs base) (fun _ => none) [] where
  tree := by
    have hlow := hpl.low
    have himage := hpl.image
    have haddr := hpl.addressable
    unfold PAGE_SIZE at himage
    unfold Pmm.IDENTITY_END at haddr
    exact inv_init m hpl.aligned (by omega) (by omega) ⟨nofun, nofun, .nil⟩
  ledger := ⟨[], .init, fun _ h => h⟩
  owned p a hp := by
    refine .inl ?_
    unfold InBoot PAGE_SIZE
    rcases bootTabs_cases hp with ⟨-, rfl⟩ | ⟨-, rfl⟩ | ⟨-, rfl⟩ <;> omega
  tlb _ _ h := by cases h

/-- In every state of a run. -/
theorem Runs.inv (h : Runs kernel_end base mmap s A held) (hpl : Placed kernel_end base mmap) :
    ∃ tab, Inv kernel_end base mmap s tab A held := by
  induction h with
  | init m => exact ⟨_, inv_boot hpl m⟩
  | map virt phys flags _ hop ih =>
    obtain ⟨tab, hi⟩ := ih
    exact hi.vmm_map_page hpl virt flags hop.2.1
  | unmap virt _ _ ih =>
    obtain ⟨tab, hi⟩ := ih
    exact ⟨tab, hi.vmm_unmap_page virt⟩
  | fill virt _ ih =>
    obtain ⟨tab, hi⟩ := ih
    exact ⟨tab, hi.fill hpl virt⟩
  | evict page _ ih =>
    obtain ⟨tab, hi⟩ := ih
    exact ⟨tab, hi.evict page⟩
  | write m _ hm ih =>
    obtain ⟨tab, hi⟩ := ih
    exact ⟨tab, hi.write hpl hm⟩
  | alloc_pages count _ hc ih =>
    obtain ⟨tab, hi⟩ := ih
    exact ⟨tab, hi.alloc_pages hpl hc⟩
  | @free_page s A held addr _ hheld ih =>
    obtain ⟨tab, hi⟩ := ih
    obtain ⟨ht, hb⟩ := Pmm.free_page_bits s.pages addr
    refine ⟨tab, hi.release (by simpa using hheld) ht (fun q => ?_) fun all hruns hall => ?_⟩
    · rw [hb]
      simp
    · exact hruns.free_page addr (hall _ (by simp))
  | @free_pages s A held addr count _ hheld ih =>
    obtain ⟨tab, hi⟩ := ih
    obtain ⟨ht, hb⟩ := Pmm.free_pages_bits s.pages addr count
    exact ⟨tab, hi.release hheld ht hb fun all hruns hall => hruns.free_pages addr count hall⟩

/-! ## What a run shows -/

/-- Whatever the TLB holds, an access goes where the map says. -/
theorem Inv.translate (hi : Inv kernel_end base mmap s tab A held) (hpl : Placed kernel_end base mmap) (v : Nat) :
    translate s v = (frameOf A (pageOf v)).map (· + v % 4096) := by
  unfold Machine.translate
  cases ht : s.tlb (pageOf v) with
  | none => rw [Option.none_or, hi.walk_frame hpl]
  | some f => rw [Option.some_or, hi.tlb _ f ht]

/-- A table that the code comes to has a name. -/
theorem Inv.isTable (hi : Inv kernel_end base mmap s tab A held) {d a : Nat} (h : IsTable s.tables d a) :
    ∃ p, tab p = some a ∧ p.length = d := by
  induction h with
  | root => exact ⟨[], hi.tree.root, rfl⟩
  | @link d a i _ hd hlt hpresent hhuge ih =>
    obtain ⟨p, hp, rfl⟩ := ih
    by_cases hboot : p = [0, 0]
    · rw [show entry s.tables.mem a i = _ from hi.tree.huge (hboot ▸ hp) hlt] at hhuge
      exact absurd hhuge (boot_entry_huge _)
    · cases hb : tab (p ++ [i]) with
      | none => exact absurd ((hi.tree.absent hp hd hboot hlt).2 hb) hpresent
      | some b =>
        refine ⟨p ++ [i], ?_, by simp⟩
        rw [hb, show entry s.tables.mem a i &&& ADDR_MASK = b from hi.tree.below hp hboot hlt hb]

end

/-- A machine with 128 MiB, right after boot. -/
def fresh : St := boot 0x103000 0x100000 none fun _ => 0

theorem fresh_placed : Placed 0x103000 0x100000 none :=
  ⟨by decide, by decide, by decide, by decide, id, trivial⟩

/-- The pages behind the kernel are free. -/
theorem fresh_bits {p : Nat} (h1 : 259 ≤ p) (h2 : p < 32768) : Pmm.bitmap_test fresh.pages p = false := by
  show Pmm.bitmap_test (Pmm.pmm_init 0x103000 none) p = false
  unfold Pmm.pmm_init
  dsimp only
  rw [(Pmm.reserve_loop _ _ _).2, (Pmm.reserve_loop _ _ _).2, Pmm.map_none_bits,
    show min (H3OS_ALIGN_UP (add64 0 0x100000) PAGE_SIZE / PAGE_SIZE) Pmm.PMM_MAX_PAGES = 256 by decide +kernel,
    show min (H3OS_ALIGN_UP (add64 0x100000 (sub64 0x103000 0x100000)) PAGE_SIZE / PAGE_SIZE) Pmm.PMM_MAX_PAGES = 259
      by decide +kernel]
  simp
  omega

theorem fresh_free : 2 ≤ free fresh := by
  have hsub : ({300, 301} : Finset Nat) ⊆ Pmm.clearPages fresh.pages := by
    have htotal : fresh.pages.total_pages = 32768 := Pmm.init_total_eq _ none
    intro p hp
    refine Finset.mem_filter.2 ⟨Finset.mem_range.2 ?_, fresh_bits ?_ ?_⟩
    all_goals
      simp only [Finset.mem_insert, Finset.mem_singleton] at hp
      omega
  unfold free
  have hcounted : Pmm.Counted fresh.pages := Pmm.counted_init fresh_placed.fits 0x103000
  rw [hcounted.exact.free]
  exact (by decide : 2 ≤ ({300, 301} : Finset Nat).card).trans (Finset.card_le_card hsub)

theorem runs_fresh : Runs 0x103000 0x100000 none fresh (fun _ => none) [] := .init _

theorem fresh_inv : Inv 0x103000 0x100000 none fresh (bootTabs 0x100000) (fun _ => none) [] := inv_boot fresh_placed _

/-- The map with one page, the one at 1 GiB. -/
def onePage : PageMap := Function.update (fun _ => none) (pageOf 0x40000000) (some 0xABC000)

theorem fresh_maps : (vmm_map_page fresh 0x40000000 0xABC123 2).1 = true ∧
    ∃ tab, Inv 0x103000 0x100000 none (vmm_map_page fresh 0x40000000 0xABC123 2).2 tab onePage [] ∧
      tab (pathOf 0x40000000) ≠ none := by
  obtain ⟨tab, s, hi, -, ⟨-, hfail⟩ | ⟨pt, hpt, -, -, he⟩⟩ := fresh_inv.map_cases fresh_placed 0x40000000 0xABC123 2
  · have hgaps : gaps (bootTabs 0x100000) 0x40000000 = 2 := by decide
    rw [hgaps] at hfail
    exact absurd hfail (not_or.2 ⟨by decide, not_lt.2 fresh_free⟩)
  · obtain ⟨hleaf, hlt⟩ := leaf_value 0xABC123 2 (by norm_num)
    rw [he]
    exact ⟨rfl, tab, hi.setLeaf hpt hlt hleaf, by rw [hpt]; simp⟩

/-- That page is mapped, and the processor reads its frame. -/
theorem fresh_fills : ∃ s tab, Runs 0x103000 0x100000 none s onePage [] ∧ Inv 0x103000 0x100000 none s tab onePage [] ∧
    tab (pathOf 0x40000000) ≠ none ∧ s.tlb (pageOf 0x40000000) = some 0xABC000 := by
  have hrun := runs_fresh.map 0x40000000 0xABC123 2 (by norm_num [Op.Word64])
  obtain ⟨hok, tab, hi, hsome⟩ := fresh_maps
  rw [if_pos hok] at hrun
  generalize (vmm_map_page fresh 0x40000000 0xABC123 2).2 = s at hrun hi
  refine ⟨_, tab, hrun.fill 0x40000000, hi.fill fresh_placed 0x40000000, hsome, ?_⟩
  dsimp only
  rw [Function.update_self, hi.walk_frame fresh_placed]
  decide

/-- A call to map succeeds exactly when the address is not in the first gigabyte and the allocator has a page for each
table that is missing on the way. -/
theorem map_succeeds_iff {kernel_end base : Nat} {mmap : Option (List Pmm.mb2_mmap_entry_t)} (hpl : Placed kernel_end base mmap)
    {s : St} {A : PageMap} {held : List Pmm.Grant} (h : Runs kernel_end base mmap s A held) (virt phys flags : Nat) :
    (vmm_map_page s virt phys flags).1 = true ↔
      ¬ virt % 2 ^ 48 < 2 ^ 30 ∧ missing s.tables virt ≤ (Pmm.pmm_get_stats s.pages).free_pages := by
  obtain ⟨tab, hi⟩ := h.inv hpl
  have hlow : virt % 2 ^ 48 < 2 ^ 30 ↔ [index4 virt, index3 virt] = [0, 0] := by
    rw [low_iff]
    simp
  rw [hlow]
  obtain ⟨tab', s', -, -, ⟨he, hfail⟩ | ⟨pt, -, hv, hfree, he⟩⟩ := hi.map_cases hpl virt phys flags
  · rw [he]
    refine iff_of_false Bool.false_ne_true ?_
    rintro ⟨hv, hroom⟩
    rw [hi.tree.missing_eq hv] at hroom
    exact hfail.elim hv fun hless => absurd hroom (not_le.2 hless)
  · rw [he]
    refine iff_of_true rfl ⟨hv, ?_⟩
    rw [hi.tree.missing_eq hv]
    exact hfree

/-- Two tables are missing on the way to 1 GiB, and what lies below it cannot be mapped. -/
theorem map_succeeds_iff_fresh : (vmm_map_page fresh 0x40000000 0xABC123 2).1 = true ∧
    (vmm_map_page fresh 0x200000 0xABC123 2).1 = false := by
  have hmissing : missing fresh.tables 0x40000000 = 2 := by decide +kernel
  constructor
  · rw [map_succeeds_iff fresh_placed runs_fresh, hmissing]
    exact ⟨by norm_num, fresh_free⟩
  · rw [← Bool.not_eq_true, map_succeeds_iff fresh_placed runs_fresh]
    exact fun h => h.1 (by norm_num)

end Machine

end H3OS.Vmm
