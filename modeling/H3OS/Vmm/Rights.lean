import H3OS.Vmm.Theorems
import H3OS.Pmm.FirstFit
/-!
# What a mapping permits

The processor walks the four levels itself and combines the rights of the
entries it passes. `table_walk_alloc` gives every table it links the write
bit and nothing else, and `vmm_map_page` keeps the low twelve bits of its
flags, so that neither `PTE_USER` nor `PTE_NX` takes effect.
-/
open SysLib

namespace H3OS.Vmm

def PTE_USER : Nat := 2 ^ 2
def PTE_NX : Nat := 2 ^ 63

/-! ## The walk of the processor -/

/-- The table or page an entry points at: bits 12 to 51. -/
def frame (e : Nat) : Nat := e / 2 ^ 12 % 2 ^ 40 * 2 ^ 12

/-- The entries the processor reads for `virt`, one of each level. -/
def walk (s : St) (virt : Nat) : List Nat :=
  let e4 := entry s.mem s.pml4 (index4 virt)
  let e3 := entry s.mem (frame e4) (index3 virt)
  let e2 := entry s.mem (frame e3) (index2 virt)
  let e1 := entry s.mem (frame e2) (index1 virt)
  [e4, e3, e2, e1]

def permits_write (s : St) (virt : Nat) : Prop := ∀ e ∈ walk s virt, e &&& PTE_WRITE ≠ 0

def permits_user (s : St) (virt : Nat) : Prop := ∀ e ∈ walk s virt, e &&& PTE_USER ≠ 0

def forbids_exec (s : St) (virt : Nat) : Prop := ∃ e ∈ walk s virt, e &&& PTE_NX ≠ 0

/-- The walk of `virt` grants the rights that `flags` asks for, and no others. -/
def GrantsExactly (s : St) (virt flags : Nat) : Prop :=
  (permits_write s virt ↔ flags &&& PTE_WRITE ≠ 0) ∧ (permits_user s virt ↔ flags &&& PTE_USER ≠ 0) ∧
    (forbids_exec s virt ↔ flags &&& PTE_NX ≠ 0)

/-! ## Single bits -/

theorem and_bit (e k : Nat) : e &&& 2 ^ k ≠ 0 ↔ e.testBit k = true := by
  rw [Nat.and_two_pow]
  cases e.testBit k <;> simp

/-- Among the bits that matter, a link has the write bit only. -/
theorem link_bits {a : Nat} (hal : a % 4096 = 0) (hlt : a < 2 ^ 52) :
    a + 3 &&& PTE_WRITE ≠ 0 ∧ a + 3 &&& PTE_USER = 0 ∧ a + 3 &&& PTE_NX = 0 ∧ frame (a + 3) = a := by
  refine ⟨(and_bit _ 1).2 ?_, not_not.1 ((and_bit _ 2).not.2 ?_), not_not.1 ((and_bit _ 63).not.2 ?_), ?_⟩
  · rw [Nat.testBit_eq_decide_div_mod_eq]
    exact decide_eq_true (by omega)
  · rw [Nat.testBit_eq_decide_div_mod_eq, decide_eq_false (by omega)]
    simp
  · rw [Nat.testBit_lt_two_pow (by omega)]
    simp
  · unfold frame
    omega

/-- The last entry has the low bits of the flags, and the top bit of the physical address. -/
theorem leaf_bits {phys flags : Nat} :
    (leafOf phys flags &&& PTE_WRITE ≠ 0 ↔ flags &&& PTE_WRITE ≠ 0) ∧
    (leafOf phys flags &&& PTE_NX ≠ 0 ↔ phys &&& PTE_NX ≠ 0) := by
  have hm : ADDR_MASK.testBit 1 = false ∧ ADDR_MASK.testBit 63 = true := by decide +kernel
  have hf : Nat.testBit 0xFFF 1 = true ∧ Nat.testBit 0xFFF 63 = false := by decide
  have hp : PTE_PRESENT.testBit 1 = false ∧ PTE_PRESENT.testBit 63 = false := by decide
  constructor
  · rw [PTE_WRITE, and_bit, and_bit, leafOf, Nat.testBit_or, Nat.testBit_or, Nat.testBit_and, Nat.testBit_and, hm.1, hf.1, hp.1]
    simp
  · rw [PTE_NX, and_bit, and_bit, leafOf, Nat.testBit_or, Nat.testBit_or, Nat.testBit_and, Nat.testBit_and, hm.2, hf.2, hp.2]
    simp

/-! ## The walk through the tables -/

section
variable {s : St} {tab : Tabs} {A : PageMap}

/-- Through tables below 2^52 the processor passes three links and arrives at the last table. -/
theorem Inv.walk_eq (hi : Inv s tab A) (hb : Below (2 ^ 52) s tab) {virt pt : Nat} (hpt : tab (pathOf virt) = some pt)
    (hv : [index4 virt, index3 virt] ≠ [0, 0]) :
    ∃ pdpt pd, (pdpt % 4096 = 0 ∧ pdpt < 2 ^ 52) ∧ (pd % 4096 = 0 ∧ pd < 2 ^ 52) ∧ (pt % 4096 = 0 ∧ pt < 2 ^ 52) ∧
      Vmm.walk s virt = [pdpt + 3, pd + 3, pt + 3, entry s.mem pt (index1 virt)] := by
  obtain ⟨-, pd, hpd⟩ := hi.parent [index4 virt, index3 virt] (index2 virt) pt hpt
  obtain ⟨-, pdpt, hpdpt⟩ := hi.parent [index4 virt] (index3 virt) pd hpd
  have hat : ∀ {p a}, tab p = some a → a % 4096 = 0 ∧ a < 2 ^ 52 := fun h => ⟨(hi.page _ _ h).1, hb.tabs _ _ h⟩
  have h4 : entry s.mem s.pml4 (index4 virt) = pdpt + 3 := by
    rw [hi.dir [] _ hi.root (by simp) (by simp) _ (index4_lt virt), List.nil_append, hpdpt]
    rfl
  have h3 : entry s.mem pdpt (index3 virt) = pd + 3 := by
    rw [hi.dir _ _ hpdpt (by simp) (by simp) _ (index3_lt virt)]
    exact congrArg linkOf hpd
  have h2 : entry s.mem pd (index2 virt) = pt + 3 := by
    rw [hi.dir _ _ hpd (by simp) hv _ (index2_lt virt)]
    exact congrArg linkOf hpt
  have frame_link : ∀ {a}, a % 4096 = 0 ∧ a < 2 ^ 52 → frame (a + 3) = a := fun h => (link_bits h.1 h.2).2.2.2
  refine ⟨pdpt, pd, hat hpdpt, hat hpd, hat hpt, ?_⟩
  simp only [Vmm.walk, h4, frame_link (hat hpdpt), h3, frame_link (hat hpd), h2, frame_link (hat hpt)]

/-- One call keeps the tables and the supply below the bound. -/
theorem Inv.exec_below (hi : Inv s tab A) (op : Op) (hop : op.Word64) {bound : Nat} (hb : Below bound s tab) :
    ∃ tab', Inv (Vmm.exec s op).2 tab' (if (Vmm.exec s op).1 then op.apply A else A) ∧ Below bound (Vmm.exec s op).2 tab' := by
  cases op with
  | map virt phys flags =>
    obtain ⟨tab', s', hi', hb', he | ⟨pt, hpt, -, he⟩⟩ := hi.map_cases virt phys flags
    · rw [Vmm.exec, he]
      exact ⟨tab', hi', hb' bound hb⟩
    · rw [Vmm.exec, he]
      obtain ⟨hleaf, hlt⟩ := leaf_value phys flags hop.2.1
      exact ⟨tab', hi'.setLeaf hpt hlt hleaf, (hb' bound hb).tabs, (hb' bound hb).supply⟩
  | unmap virt =>
    obtain ⟨-, he⟩ | ⟨pt, hpt, he⟩ := hi.unmap_cases virt
    · rw [Vmm.exec, he]
      exact ⟨tab, hi, hb⟩
    · rw [Vmm.exec, he]
      exact ⟨tab, hi.setLeaf hpt (by norm_num) rfl, hb.tabs, hb.supply⟩

theorem Inv.run_below (hi : Inv s tab A) (ops : List Op) (hops : ∀ op ∈ ops, op.Word64) {bound : Nat}
    (hb : Below bound s tab) : ∃ tab', Inv (Vmm.run s A ops).1 tab' (Vmm.run s A ops).2 ∧ Below bound (Vmm.run s A ops).1 tab' := by
  induction ops generalizing s tab A with
  | nil => exact ⟨tab, hi, hb⟩
  | cons op ops ih =>
    obtain ⟨tab', hi', hb'⟩ := hi.exec_below op (hops op (by simp)) hb
    exact ih hi' (fun o ho => hops o (by simp [ho])) hb'

end

/-- The boot tables and the pages of the allocator are below 2^52. -/
theorem init_below (m : Mem) {base : Nat} {pmm : List Nat} (h32 : base + 3 * PAGE_SIZE ≤ 2 ^ 32)
    (hlow : ∀ a ∈ pmm, a < Pmm.PMM_MAX_PAGES * PAGE_SIZE) : Below (2 ^ 52) (vmm_init m base pmm) (bootTabs base) := by
  unfold PAGE_SIZE at h32
  refine ⟨fun p a hp => ?_, fun a ha => (hlow a ha).trans (by decide)⟩
  rcases bootTabs_cases hp with ⟨-, rfl⟩ | ⟨-, rfl⟩ | ⟨-, rfl⟩ <;> omega

/-- Whatever was allocated and freed, `pmm_alloc_page` answers with an address in the two gigabytes it tracks. -/
theorem pmm_alloc_page_low {kernel_end : Nat} {mmap : Option (List Pmm.mb2_mmap_entry_t)} {s : Pmm.St}
    {held : List Pmm.Grant} (h : Pmm.Runs kernel_end mmap s held) :
    (Pmm.pmm_alloc_page s).1 < Pmm.PMM_MAX_PAGES * PAGE_SIZE := by
  rcases Pmm.alloc_page_cases s with he | ⟨p, hp, -, he⟩
  · rw [he]
    exact Nat.mul_pos (by decide) (by decide)
  · rw [he]
    exact Nat.mul_lt_mul_of_pos_right (hp.trans_le (Pmm.runs_ledger h).total) (by decide)

/-- After a call that returned `true`, the rights along the walk. -/
theorem Inv.map_rights {s : St} {tab : Tabs} {A : PageMap} (hi : Inv s tab A) (hb : Below (2 ^ 52) s tab)
    {virt phys flags : Nat} (hphys : phys < 2 ^ 64) (hok : (Vmm.vmm_map_page s virt phys flags).1 = true) :
    (permits_write (Vmm.vmm_map_page s virt phys flags).2 virt ↔ flags &&& PTE_WRITE ≠ 0) ∧
    ¬ permits_user (Vmm.vmm_map_page s virt phys flags).2 virt ∧
    (forbids_exec (Vmm.vmm_map_page s virt phys flags).2 virt ↔ phys &&& PTE_NX ≠ 0) := by
  obtain ⟨tab', s', hi', hb', he | ⟨pt, hpt, hv, he⟩⟩ := hi.map_cases virt phys flags
  · rw [he] at hok
    cases hok
  obtain ⟨hleaf, hlt⟩ := leaf_value phys flags hphys
  have hb'' := hb' _ hb
  obtain ⟨pdpt, pd, h4, h3, h2, hwalk⟩ :=
    (hi'.setLeaf hpt hlt hleaf).walk_eq ⟨hb''.tabs, hb''.supply⟩ hpt hv
  rw [he]
  dsimp only
  rw [permits_write, permits_user, forbids_exec]
  unfold leafOf
  rw [hwalk, entry_setEntry_same hlt]
  obtain ⟨hw4, hu4, hx4, -⟩ := link_bits h4.1 h4.2
  obtain ⟨hw3, -, hx3, -⟩ := link_bits h3.1 h3.2
  obtain ⟨hw2, -, hx2, -⟩ := link_bits h2.1 h2.2
  obtain ⟨hw1, hx1⟩ := @leaf_bits phys flags
  unfold leafOf at hw1 hx1
  refine ⟨?_, fun h => h _ (by simp) hu4, ?_⟩
  · simp [hw4, hw3, hw2, hw1]
  · simp [hx4, hx3, hx2, hx1]

/-! ## Every mapping after boot -/

/-- A mapping made after any calls grants exactly what its flags say if and only if they do not ask for user access,
and ask for no execution exactly if the physical address has its top bit set. -/
theorem map_grants_iff (m : Mem) {base : Nat} {pmm : List Nat} (hal : base % PAGE_SIZE = 0) (h0 : base ≠ 0)
    (h32 : base + 3 * PAGE_SIZE ≤ 2 ^ 32) (hs : SupplyOk base pmm) (hlow : ∀ a ∈ pmm, a < Pmm.PMM_MAX_PAGES * PAGE_SIZE)
    (ops : List Op) (hops : ∀ op ∈ ops, op.Word64) {virt phys flags : Nat} (hop : (Op.map virt phys flags).Word64)
    (hok : (vmm_map_page (run (vmm_init m base pmm) (fun _ => none) ops).1 virt phys flags).1 = true) :
    GrantsExactly (vmm_map_page (run (vmm_init m base pmm) (fun _ => none) ops).1 virt phys flags).2 virt flags ↔
      flags &&& PTE_USER = 0 ∧ (flags &&& PTE_NX ≠ 0 ↔ phys &&& PTE_NX ≠ 0) := by
  obtain ⟨tab, hi, hb⟩ := (inv_init m hal h0 h32 hs).run_below ops hops (init_below m h32 hlow)
  obtain ⟨hw, hu, hx⟩ := hi.map_rights hb hop.2.1 hok
  unfold GrantsExactly
  rw [iff_true_intro hw, true_and, iff_false_intro hu, hx]
  constructor
  · rintro ⟨h1, h2⟩
    exact ⟨not_not.1 (fun h => h1.2 h), h2.symm⟩
  · rintro ⟨h1, h2⟩
    exact ⟨⟨False.elim, fun h => h h1⟩, h2.symm⟩

/-- Boot tables at 4 KiB, and two pages to make tables of. -/
def afterBoot : St := vmm_init (fun _ => 0) 0x1000 [0x5000, 0x6000]

theorem afterBoot_supply : SupplyOk 0x1000 [0x5000, 0x6000] := by
  refine ⟨?_, ?_, ?_⟩
  · decide
  · decide
  · decide

theorem map_grants_iff_write :
    GrantsExactly (vmm_map_page afterBoot 0x40000000 0xABC000 PTE_WRITE).2 0x40000000 PTE_WRITE := by
  have h := map_grants_iff (fun _ => 0) (by decide) (by decide) (by decide) afterBoot_supply (by decide) []
    (by simp) (show (Op.map 0x40000000 0xABC000 PTE_WRITE).Word64 from ⟨by decide, by decide, by decide⟩)
    (show (vmm_map_page afterBoot _ _ _).1 = true by decide +kernel)
  exact h.2 (by decide)

/-- A mapping for user code is made but grants no user access, and one that forbids execution lets its page be run. -/
theorem map_loses_rights :
    (vmm_map_page afterBoot 0x40000000 0xABC000 PTE_USER).1 = true ∧
    ¬ GrantsExactly (vmm_map_page afterBoot 0x40000000 0xABC000 PTE_USER).2 0x40000000 PTE_USER ∧
    (vmm_map_page afterBoot 0x40000000 0xABC000 PTE_NX).1 = true ∧
    ¬ GrantsExactly (vmm_map_page afterBoot 0x40000000 0xABC000 PTE_NX).2 0x40000000 PTE_NX := by
  have hi : Inv afterBoot (bootTabs 0x1000) (fun _ => none) :=
    inv_init (fun _ => 0) (by decide) (by decide) (by decide) afterBoot_supply
  have hb : Below (2 ^ 52) afterBoot (bootTabs 0x1000) := init_below (fun _ => 0) (by decide) (by decide)
  have hu : (vmm_map_page afterBoot 0x40000000 0xABC000 PTE_USER).1 = true := by decide +kernel
  have hx : (vmm_map_page afterBoot 0x40000000 0xABC000 PTE_NX).1 = true := by decide +kernel
  refine ⟨hu, fun hg => ?_, hx, fun hg => ?_⟩
  · exact (hi.map_rights hb (by decide) hu).2.1 (hg.2.1.2 (by decide))
  · exact (hi.map_rights hb (by decide) hx).2.2.1 (hg.2.2.2 (by decide +kernel)) (by decide +kernel)

end H3OS.Vmm
