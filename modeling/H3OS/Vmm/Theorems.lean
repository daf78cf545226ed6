import H3OS.Vmm.Tables
/-!
# The tables refine a map of pages

From the boot tables on, whatever is mapped and unmapped, resolving an
address gives what the map of pages says. `Inv` ties the two together; each
call keeps it, with the map changed as the call says when it returns `true`
and unchanged when it returns `false`.
-/
open SysLib

namespace H3OS.Vmm

/-! ## Reading a link -/

theorem linkOf_present (o : Option Nat) (h : ∀ a, o = some a → a % 4096 = 0) :
    linkOf o &&& PTE_PRESENT = 0 ↔ o = none := by
  rw [and_present]
  cases o with
  | none => simp [linkOf]
  | some a =>
    have := h a rfl
    simp only [linkOf, reduceCtorEq, iff_false]
    omega

theorem linkOf_addr {a : Nat} (h : a % 4096 = 0) (h64 : a < 2 ^ 64) : linkOf (some a) &&& ADDR_MASK = a := by
  have h3 : linkOf (some a) = a + 3 := rfl
  rw [h3, and_addr (by omega)]
  omega

theorem linkOf_not_huge (o : Option Nat) (h : ∀ a, o = some a → a % 4096 = 0) : linkOf o &&& PTE_HUGE = 0 := by
  by_contra hne
  rw [← ne_eq, and_huge] at hne
  cases o with
  | none => simp [linkOf] at hne
  | some a =>
    have := h a rfl
    simp only [linkOf] at hne
    omega

theorem boot_entry_huge (i : Nat) : (i * 2 ^ 21 + 0x83) &&& PTE_HUGE ≠ 0 := by
  rw [and_huge]
  omega

theorem boot_entry_frame {i : Nat} (h : i < 512) : (i * 2 ^ 21 + 0x83) &&& HUGE_MASK = i * 2 ^ 21 := by
  unfold HUGE_MASK
  rw [and_high_mask (by omega) (by omega)]
  omega

section
variable {s : St} {tab : Tabs} {A : PageMap}

theorem Inv.aligned (hi : Inv s tab A) (p : List Nat) : ∀ a, tab p = some a → a % 4096 = 0 := fun a h => (hi.page p a h).1

/-- An empty entry of a directory is a missing table. -/
theorem Inv.absent (hi : Inv s tab A) {p : List Nat} {a i : Nat} (hp : tab p = some a) (hlen : p.length < 3)
    (hboot : p ≠ [0, 0]) (hlt : i < 512) : entry s.mem a i &&& PTE_PRESENT = 0 ↔ tab (p ++ [i]) = none := by
  rw [hi.dir p a hp hlen hboot i hlt]
  exact linkOf_present _ (hi.aligned _)

/-- A present entry of a directory leads to the table below it. -/
theorem Inv.below (hi : Inv s tab A) {p : List Nat} {a b i : Nat} (hp : tab p = some a) (hboot : p ≠ [0, 0])
    (hlt : i < 512) (hb : tab (p ++ [i]) = some b) : entry s.mem a i &&& ADDR_MASK = b := by
  obtain ⟨hlen, -⟩ := hi.parent p i b hb
  rw [hi.dir p a hp hlen hboot i hlt, hb]
  exact linkOf_addr (hi.page _ b hb).1 (hi.page _ b hb).2.2

/-- Only the entries of the boot directory are huge pages. -/
theorem Inv.not_huge (hi : Inv s tab A) {p : List Nat} {a i : Nat} (hp : tab p = some a) (hlen : p.length < 3)
    (hboot : p ≠ [0, 0]) (hlt : i < 512) : entry s.mem a i &&& PTE_HUGE = 0 := by
  rw [hi.dir p a hp hlen hboot i hlt]
  exact linkOf_not_huge _ (hi.aligned _)

theorem Inv.huge (hi : Inv s tab A) {pd i : Nat} (hp : tab [0, 0] = some pd) (hlt : i < 512) :
    entry s.mem pd i = i * 2 ^ 21 + 0x83 := by
  obtain ⟨pd', hpd, hent⟩ := hi.boot
  obtain rfl : pd = pd' := Option.some.inj (hp.symm.trans hpd)
  exact (hent i hlt).1

/-! ## Mapping -/

/-- Every table, and every page that may become one, lies below `bound`. -/
structure Below (bound : Nat) (s : St) (tab : Tabs) : Prop where
  tabs : ∀ p a, tab p = some a → a < bound
  supply : ∀ a ∈ s.pmm, a < bound

theorem Below.dropSupply {bound : Nat} (h : Below bound s tab) : Below bound { s with pmm := s.pmm.tail } tab :=
  ⟨h.tabs, fun a ha => h.supply a (List.mem_of_mem_tail ha)⟩

theorem Below.link {bound page : Nat} {rest r : List Nat} {m : Mem} (h : Below bound s tab) (hs : s.pmm = page :: rest) :
    Below bound { s with mem := m, pmm := rest } (Function.update tab r (some page)) := by
  refine ⟨fun q b hq => ?_, fun b hb => h.supply b (by simp [hs, show b ∈ rest from hb])⟩
  rcases update_cases hq with ⟨-, rfl⟩ | ⟨-, hq⟩
  · exact h.supply b (by simp [hs])
  · exact h.tabs q b hq

/-- Walking one level down keeps the invariant and every table; an answer other than 0 is the table below. -/
theorem Inv.table_walk_alloc (hi : Inv s tab A) {p : List Nat} {a i : Nat} (hp : tab p = some a) (hlen : p.length < 3)
    (hboot : p ≠ [0, 0]) (hlt : i < 512) :
    ∃ tab', Inv (table_walk_alloc s a i).2 tab' A ∧
      ((table_walk_alloc s a i).1 ≠ 0 → tab' (p ++ [i]) = some (table_walk_alloc s a i).1) ∧
      ∀ bound, Below bound s tab → Below bound (table_walk_alloc s a i).2 tab' := by
  unfold Vmm.table_walk_alloc
  by_cases h : entry s.mem a i &&& PTE_PRESENT = 0
  · rw [if_pos h]
    have hnone := (hi.absent hp hlen hboot hlt).1 h
    rcases hs : s.pmm with _ | ⟨_ | page, rest⟩
    · simp only [pmm_alloc_page, hs, List.headD_nil, ne_eq, not_true_eq_false, false_imp_iff, true_and]
      exact ⟨tab, by simpa [hs] using hi.dropSupply, fun bound hb => by simpa [hs] using hb.dropSupply⟩
    · simp only [pmm_alloc_page, hs, List.headD_cons, ne_eq, not_true_eq_false, false_imp_iff, true_and]
      exact ⟨tab, by simpa [hs] using hi.dropSupply, fun bound hb => by simpa [hs] using hb.dropSupply⟩
    · simp only [pmm_alloc_page, hs, List.headD_cons, List.tail_cons]
      obtain ⟨hal, h64, -⟩ := hi.supply (page + 1) (by simp [hs])
      refine ⟨_, hi.link hp hlen hboot hlt hnone hs (by omega), fun _ => ?_, fun bound hb => hb.link hs⟩
      rw [Function.update_self, entry_link_self hal h64]
      exact congrArg some (linkOf_addr hal h64).symm
  · rw [if_neg h]
    refine ⟨tab, hi, fun _ => ?_, fun bound hb => hb⟩
    cases hb : tab (p ++ [i]) with
    | none => exact absurd ((hi.absent hp hlen hboot hlt).2 hb) h
    | some b => rw [hi.below hp hboot hlt hb]

theorem leaf_value (phys flags : Nat) (hp : phys < 2 ^ 64) :
    Leaf ((phys &&& ADDR_MASK) ||| (flags &&& 0xFFF) ||| PTE_PRESENT) (some (phys / 4096 * 4096)) ∧
    ((phys &&& ADDR_MASK) ||| (flags &&& 0xFFF) ||| PTE_PRESENT) < 2 ^ 64 := by
  have hf : (flags &&& 0xFFF) ||| PTE_PRESENT < 2 ^ 12 :=
    Nat.or_lt_two_pow (Nat.and_lt_two_pow _ (by norm_num)) (by decide)
  have hodd : ((flags &&& 0xFFF) ||| PTE_PRESENT) % 2 = 1 := by
    rw [← and_present, Nat.and_or_distrib_right, Nat.and_self, and_present]
    rcases Nat.mod_two_eq_zero_or_one (flags &&& 0xFFF) with h | h <;> rw [h] <;> rfl
  rw [and_addr hp, Nat.or_assoc, or_low (k := 12) (by omega) hf]
  exact ⟨⟨by omega, by omega⟩, by omega⟩

/-- What a call leaves behind: tables that stand for the map, changed by the call only when it returned `true`. -/
def Kept (A : PageMap) (op : Op) (r : Bool × St) : Prop := ∃ tab, Inv r.2 tab (if r.1 then op.apply A else A)

theorem Inv.kept (hi : Inv s tab A) (op : Op) : Kept A op (false, s) := ⟨tab, hi⟩

/-- The entry that maps a page: the frame, the low twelve bits of the flags, and present. -/
def leafOf (phys flags : Nat) : Nat := (phys &&& ADDR_MASK) ||| (flags &&& 0xFFF) ||| PTE_PRESENT

/-- What a call to map leaves behind: new tables at most, and when it returned `true`, one entry of the last table. -/
def Mapped (s : St) (tab : Tabs) (A : PageMap) (virt phys flags : Nat) (r : Bool × St) : Prop :=
  ∃ tab' s', Inv s' tab' A ∧ (∀ bound, Below bound s tab → Below bound s' tab') ∧
    (r = (false, s') ∨ ∃ pt, tab' (pathOf virt) = some pt ∧ [index4 virt, index3 virt] ≠ [0, 0] ∧
      r = (true, { s' with mem := setEntry s'.mem pt (index1 virt) (leafOf phys flags) }))

theorem Inv.map_cases (hi : Inv s tab A) (virt phys flags : Nat) :
    Mapped s tab A virt phys flags (Vmm.vmm_map_page s virt phys flags) := by
  unfold Vmm.vmm_map_page
  obtain ⟨tab1, hi1, h1, hb1⟩ := hi.table_walk_alloc hi.root (by simp) (by simp) (index4_lt virt)
  rcases hw1 : Vmm.table_walk_alloc s s.pml4 (index4 virt) with ⟨pdpt, s1⟩
  rw [hw1] at hi1 h1 hb1
  dsimp only at hi1 h1 hb1 ⊢
  by_cases hz1 : pdpt = 0
  · rw [if_pos hz1]
    exact ⟨tab1, s1, hi1, hb1, .inl rfl⟩
  rw [if_neg hz1]
  obtain ⟨tab2, hi2, h2, hb2⟩ := hi1.table_walk_alloc (h1 hz1) (by simp) (by simp) (index3_lt virt)
  rcases hw2 : Vmm.table_walk_alloc s1 pdpt (index3 virt) with ⟨pd, s2⟩
  rw [hw2] at hi2 h2 hb2
  dsimp only at hi2 h2 hb2 ⊢
  by_cases hz2 : pd = 0
  · rw [if_pos hz2]
    exact ⟨tab2, s2, hi2, fun bound hb => hb2 bound (hb1 bound hb), .inl rfl⟩
  rw [if_neg hz2]
  have hpd := h2 hz2
  by_cases hhuge : entry s2.mem pd (index2 virt) &&& PTE_HUGE ≠ 0
  · rw [if_pos hhuge]
    exact ⟨tab2, s2, hi2, fun bound hb => hb2 bound (hb1 bound hb), .inl rfl⟩
  rw [if_neg hhuge]
  have hboot : [] ++ [index4 virt] ++ [index3 virt] ≠ [0, 0] := by
    intro h
    rw [h] at hpd
    exact hhuge (hi2.huge hpd (index2_lt virt) ▸ boot_entry_huge _)
  obtain ⟨tab3, hi3, h3, hb3⟩ := hi2.table_walk_alloc hpd (by simp) hboot (index2_lt virt)
  rcases hw3 : Vmm.table_walk_alloc s2 pd (index2 virt) with ⟨pt, s3⟩
  rw [hw3] at hi3 h3 hb3
  dsimp only at hi3 h3 hb3 ⊢
  refine ⟨tab3, s3, hi3, fun bound hb => hb3 bound (hb2 bound (hb1 bound hb)), ?_⟩
  by_cases hz3 : pt = 0
  · rw [if_pos hz3]
    exact .inl rfl
  · rw [if_neg hz3]
    exact .inr ⟨pt, h3 hz3, hboot, rfl⟩

/-- Mapping a page changes the map there when it succeeds, and nothing when it does not. -/
theorem Inv.vmm_map_page (hi : Inv s tab A) (virt phys flags : Nat) (hphys : phys < 2 ^ 64) :
    Kept A (.map virt phys flags) (vmm_map_page s virt phys flags) := by
  obtain ⟨tab', s', hi', -, he | ⟨pt, hpt, -, he⟩⟩ := hi.map_cases virt phys flags
  · rw [he]
    exact hi'.kept _
  · rw [he]
    obtain ⟨hleaf, hlt⟩ := leaf_value phys flags hphys
    exact ⟨tab', hi'.setLeaf hpt hlt hleaf⟩

/-! ## Walking to a page -/

/-- The ways down to a page: a boot page, a table, or a table that is missing at some level. -/
inductive Walk (tab : Tabs) (v : Nat) : Prop
  | boot (pdpt pd : Nat) (h4 : tab [index4 v] = some pdpt) (h3 : tab [index4 v, index3 v] = some pd)
      (hv : [index4 v, index3 v] = [0, 0])
  | no_pdpt (h4 : tab [index4 v] = none) (hv : [index4 v, index3 v] ≠ [0, 0]) (h2 : tab (pathOf v) = none)
  | no_pd (pdpt : Nat) (h4 : tab [index4 v] = some pdpt) (h3 : tab [index4 v, index3 v] = none)
      (hv : [index4 v, index3 v] ≠ [0, 0]) (h2 : tab (pathOf v) = none)
  | no_pt (pdpt pd : Nat) (h4 : tab [index4 v] = some pdpt) (h3 : tab [index4 v, index3 v] = some pd)
      (hv : [index4 v, index3 v] ≠ [0, 0]) (h2 : tab (pathOf v) = none)
  | pt (pdpt pd pt : Nat) (h4 : tab [index4 v] = some pdpt) (h3 : tab [index4 v, index3 v] = some pd)
      (hv : [index4 v, index3 v] ≠ [0, 0]) (h2 : tab (pathOf v) = some pt)

theorem Inv.walk (hi : Inv s tab A) (v : Nat) : Walk tab v := by
  by_cases hv : [index4 v, index3 v] = [0, 0]
  · obtain ⟨pd, hpd, -⟩ := hi.boot
    rw [← hv] at hpd
    obtain ⟨-, pdpt, hpdpt⟩ := hi.parent [index4 v] (index3 v) pd hpd
    exact .boot pdpt pd hpdpt hpd hv
  rcases h4 : tab [index4 v] with _ | pdpt
  · exact .no_pdpt h4 hv (hi.none_below (hi.none_below h4 (index3 v)) (index2 v))
  rcases h3 : tab [index4 v, index3 v] with _ | pd
  · exact .no_pd pdpt h4 h3 hv (hi.none_below h3 (index2 v))
  rcases h2 : tab (pathOf v) with _ | pt
  · exact .no_pt pdpt pd h4 h3 hv h2
  · exact .pt pdpt pd pt h4 h3 hv h2

section
variable {v pdpt pd : Nat}

theorem Inv.pml4_absent (hi : Inv s tab A) : entry s.mem s.pml4 (index4 v) &&& PTE_PRESENT = 0 ↔ tab [index4 v] = none :=
  hi.absent hi.root (by simp) (by simp) (index4_lt v)

theorem Inv.pml4_below (hi : Inv s tab A) (h4 : tab [index4 v] = some pdpt) :
    entry s.mem s.pml4 (index4 v) &&& ADDR_MASK = pdpt :=
  hi.below hi.root (by simp) (index4_lt v) h4

theorem Inv.pdpt_absent (hi : Inv s tab A) (h4 : tab [index4 v] = some pdpt) :
    entry s.mem pdpt (index3 v) &&& PTE_PRESENT = 0 ↔ tab [index4 v, index3 v] = none :=
  hi.absent h4 (by simp) (by simp) (index3_lt v)

theorem Inv.pdpt_below (hi : Inv s tab A) (h4 : tab [index4 v] = some pdpt) (h3 : tab [index4 v, index3 v] = some pd) :
    entry s.mem pdpt (index3 v) &&& ADDR_MASK = pd :=
  hi.below h4 (by simp) (index3_lt v) h3

theorem Inv.pd_absent (hi : Inv s tab A) (h3 : tab [index4 v, index3 v] = some pd)
    (hv : [index4 v, index3 v] ≠ [0, 0]) : entry s.mem pd (index2 v) &&& PTE_PRESENT = 0 ↔ tab (pathOf v) = none :=
  hi.absent h3 (by simp) hv (index2_lt v)

theorem Inv.pd_not_huge (hi : Inv s tab A) (h3 : tab [index4 v, index3 v] = some pd)
    (hv : [index4 v, index3 v] ≠ [0, 0]) : entry s.mem pd (index2 v) &&& PTE_HUGE = 0 :=
  hi.not_huge h3 (by simp) hv (index2_lt v)

/-- The directory that a present path leads to. -/
theorem Inv.to_pd (hi : Inv s tab A) (h4 : tab [index4 v] = some pdpt) (h3 : tab [index4 v, index3 v] = some pd) :
    entry s.mem s.pml4 (index4 v) &&& PTE_PRESENT ≠ 0 ∧ entry s.mem s.pml4 (index4 v) &&& ADDR_MASK = pdpt ∧
    entry s.mem pdpt (index3 v) &&& PTE_PRESENT ≠ 0 ∧ entry s.mem pdpt (index3 v) &&& ADDR_MASK = pd := by
  refine ⟨?_, hi.pml4_below h4, ?_, hi.pdpt_below h4 h3⟩
  · rw [ne_eq, hi.pml4_absent, h4]
    simp
  · rw [ne_eq, hi.pdpt_absent h4, h3]
    simp

end

/-- The boot directory has no tables below it. -/
theorem Inv.no_pt_in_boot (hi : Inv s tab A) {v : Nat} (hv : [index4 v, index3 v] = [0, 0]) : tab (pathOf v) = none := by
  obtain ⟨pd, -, hent⟩ := hi.boot
  rw [show pathOf v = [index4 v, index3 v] ++ [index2 v] from rfl, hv]
  exact (hent _ (index2_lt v)).2

/-- What a call to unmap does: nothing where there is no last table, and else it clears one entry of it. -/
theorem Inv.unmap_cases (hi : Inv s tab A) (virt : Nat) :
    (tab (pathOf virt) = none ∧ Vmm.vmm_unmap_page s virt = (false, s)) ∨ ∃ pt, tab (pathOf virt) = some pt ∧
      Vmm.vmm_unmap_page s virt = (true, { s with mem := setEntry s.mem pt (index1 virt) 0 }) := by
  unfold Vmm.vmm_unmap_page
  dsimp only
  rcases hi.walk virt with ⟨pdpt, pd, h4, h3, hv⟩ | ⟨h4, hv, h2⟩ | ⟨pdpt, h4, h3, hv, h2⟩ | ⟨pdpt, pd, h4, h3, hv, h2⟩ |
    ⟨pdpt, pd, pt, h4, h3, hv, h2⟩
  · obtain ⟨hp4, ha4, hp3, ha3⟩ := hi.to_pd h4 h3
    rw [if_neg hp4, ha4, if_neg hp3, ha3, hi.huge (hv ▸ h3) (index2_lt virt), if_pos (boot_entry_huge _)]
    exact .inl ⟨hi.no_pt_in_boot hv, rfl⟩
  · rw [if_pos (hi.pml4_absent.2 h4)]
    exact .inl ⟨h2, rfl⟩
  · rw [if_neg (by rw [hi.pml4_absent, h4]; simp), hi.pml4_below h4, if_pos ((hi.pdpt_absent h4).2 h3)]
    exact .inl ⟨h2, rfl⟩
  · obtain ⟨hp4, ha4, hp3, ha3⟩ := hi.to_pd h4 h3
    rw [if_neg hp4, ha4, if_neg hp3, ha3, if_neg (not_not.2 (hi.pd_not_huge h3 hv)), if_pos ((hi.pd_absent h3 hv).2 h2)]
    exact .inl ⟨h2, rfl⟩
  · obtain ⟨hp4, ha4, hp3, ha3⟩ := hi.to_pd h4 h3
    rw [if_neg hp4, ha4, if_neg hp3, ha3, if_neg (not_not.2 (hi.pd_not_huge h3 hv)),
      if_neg (by rw [hi.pd_absent h3 hv, h2]; simp), hi.below h3 hv (index2_lt virt) h2]
    exact .inr ⟨pt, h2, rfl⟩

/-- Unmapping a page takes it out of the map when it succeeds, and changes nothing when it does not. -/
theorem Inv.vmm_unmap_page (hi : Inv s tab A) (virt : Nat) : Kept A (.unmap virt) (vmm_unmap_page s virt) := by
  obtain ⟨-, he⟩ | ⟨pt, hpt, he⟩ := hi.unmap_cases virt
  · rw [he]
    exact hi.kept _
  · rw [he]
    exact ⟨tab, hi.setLeaf hpt (by norm_num) rfl⟩

/-- Resolving an address gives what the map says. -/
theorem Inv.vmm_resolve (hi : Inv s tab A) (v : Nat) : vmm_resolve s v = answer A v := by
  have h12 : v &&& 0xFFF = v % 4096 := Nat.and_two_pow_sub_one_eq_mod v 12
  have h21 : v &&& 0x1FFFFF = v % 2 ^ 21 := Nat.and_two_pow_sub_one_eq_mod v 21
  have hlow : v % 2 ^ 48 < 2 ^ 30 ↔ [index4 v, index3 v] = [0, 0] := by rw [low_iff]; simp
  unfold Vmm.vmm_resolve answer
  dsimp only
  rcases hi.walk v with ⟨pdpt, pd, h4, h3, hv⟩ | ⟨h4, hv, h2⟩ | ⟨pdpt, h4, h3, hv, h2⟩ | ⟨pdpt, pd, h4, h3, hv, h2⟩ |
    ⟨pdpt, pd, pt, h4, h3, hv, h2⟩
  · obtain ⟨hp4, ha4, hp3, ha3⟩ := hi.to_pd h4 h3
    have hsmall := hlow.2 hv
    rw [if_pos hsmall, if_neg hp4, ha4, if_neg hp3, ha3, hi.huge (hv ▸ h3) (index2_lt v), if_pos (boot_entry_huge _),
      boot_entry_frame (index2_lt v), h21, index2_eq, add64_of_lt (by omega)]
    omega
  · rw [if_pos (hi.pml4_absent.2 h4), if_neg (hlow.not.2 hv), hi.unmapped v h2]
  · rw [if_neg (by rw [hi.pml4_absent, h4]; simp), hi.pml4_below h4, if_pos ((hi.pdpt_absent h4).2 h3),
      if_neg (hlow.not.2 hv), hi.unmapped v h2]
  · obtain ⟨hp4, ha4, hp3, ha3⟩ := hi.to_pd h4 h3
    rw [if_neg hp4, ha4, if_neg hp3, ha3, if_neg (not_not.2 (hi.pd_not_huge h3 hv)), if_pos ((hi.pd_absent h3 hv).2 h2),
      if_neg (hlow.not.2 hv), hi.unmapped v h2]
  · obtain ⟨hp4, ha4, hp3, ha3⟩ := hi.to_pd h4 h3
    have hleaf := hi.leaf v pt h2
    have hlt := entry_lt s.mem pt (index1 v)
    rw [if_neg hp4, ha4, if_neg hp3, ha3, if_neg (not_not.2 (hi.pd_not_huge h3 hv)),
      if_neg (by rw [hi.pd_absent h3 hv, h2]; simp), hi.below h3 hv (index2_lt v) h2, if_neg (hlow.not.2 hv),
      and_present, and_addr hlt, h12]
    cases hA : A (pageOf v) with
    | none =>
      rw [hA] at hleaf
      exact if_pos hleaf
    | some phys =>
      rw [hA] at hleaf
      obtain ⟨hodd, rfl⟩ := hleaf
      rw [if_neg (by omega), add64_of_lt (by omega)]

theorem Inv.exec (hi : Inv s tab A) (op : Op) (hop : op.Word64) : Kept A op (exec s op) := by
  cases op with
  | map virt phys flags => exact hi.vmm_map_page virt phys flags hop.2.1
  | unmap virt => exact hi.vmm_unmap_page virt

theorem Inv.run (hi : Inv s tab A) (ops : List Op) (hops : ∀ op ∈ ops, op.Word64) :
    ∃ tab', Inv (run s A ops).1 tab' (run s A ops).2 := by
  induction ops generalizing s tab A with
  | nil => exact ⟨tab, hi⟩
  | cons op ops ih =>
    obtain ⟨tab', hi'⟩ := hi.exec op (hops op (by simp))
    exact ih hi' (fun o ho => hops o (by simp [ho]))

end

/-! ## The boot tables -/

theorem entry_split (m : Mem) (table i : Nat) :
    entry m table i = load m (table + 8 * i) 4 + 2 ^ 32 * load m (table + 8 * i + 4) 4 := load_add m _ 4 4

/-- What the loop of `boot.asm` writes into the page directory, four bytes of each entry. -/
theorem boot_loop (m : Mem) (pd : Nat) :
    (∀ i < 512, load (forRange 0 512 (fun i m => store m (pd + i * 8) 4 ((i <<< 21) ||| 0x83)) m) (pd + 8 * i) 4
      = i * 2 ^ 21 + 0x83) ∧
    (∀ i < 512, load (forRange 0 512 (fun i m => store m (pd + i * 8) 4 ((i <<< 21) ||| 0x83)) m) (pd + 8 * i + 4) 4
      = load m (pd + 8 * i + 4) 4) ∧
    (∀ b k, Apart pd 4096 b k →
      load (forRange 0 512 (fun i m => store m (pd + i * 8) 4 ((i <<< 21) ||| 0x83)) m) b k = load m b k) := by
  have hval : ∀ i, (i <<< 21) ||| 0x83 = i * 2 ^ 21 + 0x83 := fun i => by
    rw [Nat.shiftLeft_eq, or_low (k := 21) (by omega) (by norm_num)]
  simp only [hval]
  refine forRange_inv (fun n m' => (∀ i < n, load m' (pd + 8 * i) 4 = i * 2 ^ 21 + 0x83) ∧
    (∀ i < 512, load m' (pd + 8 * i + 4) 4 = load m (pd + 8 * i + 4) 4) ∧
    (∀ b k, Apart pd 4096 b k → load m' b k = load m b k)) (by omega) ⟨by simp, by simp, by simp⟩ ?_
  rintro n m' - hn ⟨h1, h2, h3⟩
  refine ⟨fun i hi => ?_, fun i hi => ?_, fun b k hb => ?_⟩
  · by_cases hin : i = n
    · subst hin
      rw [Nat.mul_comm 8]
      exact load_store_of_lt (by omega)
    · rw [load_store_apart (by unfold Apart; omega)]
      exact h1 i (by omega)
  · rw [load_store_apart (by unfold Apart; omega)]
    exact h2 i hi
  · rw [load_store_apart (by unfold Apart at *; omega)]
    exact h3 b k hb

/-- The first entry of an empty table, written as a 32-bit word. -/
theorem entry_store_first {m : Mem} {a i v : Nat} (hv : v < 2 ^ 32) (hz : ∀ i < 512, entry m a i = 0) (hi : i < 512) :
    entry (store m a 4 v) a i = if i = 0 then v else 0 := by
  by_cases h : i = 0
  · subst h
    have hhigh := hz 0 hi
    rw [entry_split] at hhigh
    rw [if_pos rfl, entry_split, Nat.mul_zero, Nat.add_zero, load_store_of_lt (by omega),
      load_store_apart (by unfold Apart; omega)]
    simp only [Nat.mul_zero, Nat.add_zero] at hhigh
    omega
  · rw [if_neg h, ← hz i hi]
    exact load_store_apart (by unfold Apart; omega)

section
variable {base : Nat} (m : Mem)

theorem boot_pml4 (hal : base % 4096 = 0) (h32 : base + 3 * 4096 ≤ 2 ^ 32) {i : Nat} (hi : i < 512) :
    entry (boot_tables m base) base i = if i = 0 then base + 4096 + 3 else 0 := by
  unfold boot_tables PAGE_SIZE
  dsimp only
  rw [or_low (k := 12) (x := base + 4096) (by omega) (by norm_num)]
  have h := (boot_loop (store (store (fill m base (3 * 4096) 0) base 4 (base + 4096 + 3)) (base + 4096) 4
    ((base + 2 * 4096) ||| 3)) (base + 2 * 4096)).2.2 (base + 8 * i) 8 (by unfold Apart; omega)
  refine h.trans ?_
  rw [load_store_apart (by unfold Apart; omega)]
  exact entry_store_first (by omega) (fun j hj => load_fill_zero (by omega) (by omega)) hi

theorem boot_pdpt (hal : base % 4096 = 0) (h32 : base + 3 * 4096 ≤ 2 ^ 32) {i : Nat} (hi : i < 512) :
    entry (boot_tables m base) (base + 4096) i = if i = 0 then base + 2 * 4096 + 3 else 0 := by
  unfold boot_tables PAGE_SIZE
  dsimp only
  rw [or_low (k := 12) (x := base + 2 * 4096) (by omega) (by norm_num)]
  have h := (boot_loop (store (store (fill m base (3 * 4096) 0) base 4 ((base + 4096) ||| 3)) (base + 4096) 4
    (base + 2 * 4096 + 3)) (base + 2 * 4096)).2.2 (base + 4096 + 8 * i) 8 (by unfold Apart; omega)
  refine h.trans (entry_store_first (by omega) (fun j hj => ?_) hi)
  unfold entry
  rw [load_store_apart (by unfold Apart; omega)]
  exact load_fill_zero (by omega) (by omega)

theorem boot_pd {i : Nat} (hi : i < 512) : entry (boot_tables m base) (base + 2 * 4096) i = i * 2 ^ 21 + 0x83 := by
  unfold boot_tables PAGE_SIZE
  dsimp only
  obtain ⟨hlow, hhigh, -⟩ := boot_loop (store (store (fill m base (3 * 4096) 0) base 4 ((base + 4096) ||| 3)) (base + 4096) 4
    ((base + 2 * 4096) ||| 3)) (base + 2 * 4096)
  rw [entry_split, hlow i hi, hhigh i hi, load_store_apart (by unfold Apart; omega),
    load_store_apart (by unfold Apart; omega), load_fill_zero (by omega) (by omega), Nat.mul_zero, Nat.add_zero]

end

/-- The three boot tables. -/
def bootTabs (base : Nat) : Tabs
  | [] => some base
  | [0] => some (base + 4096)
  | [0, 0] => some (base + 2 * 4096)
  | _ => none

theorem bootTabs_cases {base a : Nat} {p : List Nat} (h : bootTabs base p = some a) :
    (p = [] ∧ a = base) ∨ (p = [0] ∧ a = base + 4096) ∨ (p = [0, 0] ∧ a = base + 2 * 4096) := by
  unfold bootTabs at h
  split at h <;> simp_all

theorem inv_init (m : Mem) {base : Nat} {pmm : List Nat} (hal : base % 4096 = 0) (h0 : base ≠ 0)
    (h32 : base + 3 * 4096 ≤ 2 ^ 32) (hs : SupplyOk base pmm) :
    Inv (vmm_init m base pmm) (bootTabs base) (fun _ => none) where
  root := rfl
  page p a hp := by
    rcases bootTabs_cases hp with ⟨-, rfl⟩ | ⟨-, rfl⟩ | ⟨-, rfl⟩ <;> omega
  inj p q a hp hq := by
    rcases bootTabs_cases hp with ⟨rfl, rfl⟩ | ⟨rfl, rfl⟩ | ⟨rfl, rfl⟩ <;>
      rcases bootTabs_cases hq with ⟨rfl, h⟩ | ⟨rfl, h⟩ | ⟨rfl, h⟩ <;> first | rfl | omega
  parent p i b hb := by
    rcases bootTabs_cases hb with ⟨h, -⟩ | ⟨h, -⟩ | ⟨h, -⟩
    · simp at h
    · have hsnoc : p ++ [i] = [] ++ [0] := h
      obtain ⟨rfl, -⟩ := List.append_inj' hsnoc rfl
      exact ⟨by simp, base, rfl⟩
    · have hsnoc : p ++ [i] = [0] ++ [0] := h
      obtain ⟨rfl, -⟩ := List.append_inj' hsnoc rfl
      exact ⟨by simp, base + 4096, rfl⟩
  dir p a hp _ hne i hi := by
    rcases bootTabs_cases hp with ⟨rfl, rfl⟩ | ⟨rfl, rfl⟩ | ⟨rfl, -⟩
    · refine (boot_pml4 m hal h32 hi).trans ?_
      rcases i with _ | i <;> rfl
    · refine (boot_pdpt m hal h32 hi).trans ?_
      rcases i with _ | i <;> rfl
    · exact absurd rfl hne
  boot := ⟨base + 2 * 4096, rfl, fun i hi => ⟨boot_pd m hi, rfl⟩⟩
  leaf v a hv := by
    rcases bootTabs_cases hv with ⟨h, -⟩ | ⟨h, -⟩ | ⟨h, -⟩ <;> simp [pathOf] at h
  unmapped _ _ := rfl
  supply a ha := by
    refine ⟨(hs.aligned a ha).1, (hs.aligned a ha).2, fun hne p hp => ?_⟩
    have hap := hs.boot a ha hne
    unfold Apart PAGE_SIZE at hap
    rcases bootTabs_cases hp with ⟨-, rfl⟩ | ⟨-, rfl⟩ | ⟨-, rfl⟩ <;> omega
  nodup := hs.nodup

/-! ## The whole run -/

/-- Mapping and unmapping refine a map of pages: after any calls from the boot tables on, every address resolves to what
the map says, and a call that returns `false` changes what no address resolves to. -/
theorem tables_refine_map (m : Mem) {base : Nat} {pmm : List Nat} (hal : base % PAGE_SIZE = 0) (h0 : base ≠ 0)
    (h32 : base + 3 * PAGE_SIZE ≤ 2 ^ 32) (hs : SupplyOk base pmm) (ops : List Op) (hops : ∀ op ∈ ops, op.Word64) :
    (∀ v < 2 ^ 64, vmm_resolve (run (vmm_init m base pmm) (fun _ => none) ops).1 v =
      answer (run (vmm_init m base pmm) (fun _ => none) ops).2 v) ∧
    ∀ op : Op, op.Word64 → (exec (run (vmm_init m base pmm) (fun _ => none) ops).1 op).1 = false →
      ∀ v < 2 ^ 64, vmm_resolve (exec (run (vmm_init m base pmm) (fun _ => none) ops).1 op).2 v =
        vmm_resolve (run (vmm_init m base pmm) (fun _ => none) ops).1 v := by
  obtain ⟨tab, hi⟩ := (inv_init m hal h0 h32 hs).run ops hops
  refine ⟨fun v _ => hi.vmm_resolve v, fun op hop hf v _ => ?_⟩
  obtain ⟨tab', hi'⟩ := hi.exec op hop
  rw [hf] at hi'
  rw [hi'.vmm_resolve v, hi.vmm_resolve v]
  rfl

/-- A page is mapped at 1 GiB, and the unmapping of a page below it is refused. -/
theorem tables_refine_map_mapped :
    vmm_resolve (run (vmm_init (fun _ => 0) 0x1000 [0x5000, 0x6000, 0]) (fun _ => none)
      [.map 0x40000000 0xABC123 2, .unmap 0x200000]).1 0x40000456 = 0xABC456 ∧
    vmm_resolve (run (vmm_init (fun _ => 0) 0x1000 [0x5000, 0x6000, 0]) (fun _ => none)
      [.map 0x40000000 0xABC123 2, .unmap 0x200000]).1 0x12345 = 0x12345 := by
  have hmap : (exec (vmm_init (fun _ => 0) 0x1000 [0x5000, 0x6000, 0]) (.map 0x40000000 0xABC123 2)).1 = true := by
    decide +kernel
  have hunmap : (exec (exec (vmm_init (fun _ => 0) 0x1000 [0x5000, 0x6000, 0]) (.map 0x40000000 0xABC123 2)).2
      (.unmap 0x200000)).1 = false := by decide +kernel
  obtain ⟨h, -⟩ := tables_refine_map (fun _ => 0) (by decide : 0x1000 % PAGE_SIZE = 0) (by decide) (by decide)
    (⟨by decide, by decide, by decide⟩ : SupplyOk 0x1000 [0x5000, 0x6000, 0])
    [.map 0x40000000 0xABC123 2, .unmap 0x200000] (by simp [Op.Word64])
  constructor
  · rw [h 0x40000456 (by norm_num), run, run, run, hmap, hunmap]
    rfl
  · rw [h 0x12345 (by norm_num)]
    exact if_pos (by norm_num)

end H3OS.Vmm
