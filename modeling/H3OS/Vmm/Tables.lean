import H3OS.Vmm.Model
/-!
# The tree of page tables

A table is named by the indices that lead to it from the root. `Inv` says
that the entries of every table link to the tables named one index further,
that no two names share a table, and that the last level holds the map. Each
operation changes one entry of one table, or links one zeroed page.
-/
open SysLib

namespace H3OS.Vmm

/-! ## Entries and indices as arithmetic -/

theorem and_present (e : Nat) : e &&& PTE_PRESENT = e % 2 := Nat.and_one_is_mod e

theorem and_huge (e : Nat) : e &&& PTE_HUGE ≠ 0 ↔ e / 128 % 2 = 1 := by
  unfold PTE_HUGE
  rw [Nat.and_two_pow, Nat.testBit_eq_decide_div_mod_eq]
  by_cases h : e / 2 ^ 7 % 2 = 1 <;> simp

theorem and_addr {e : Nat} (h : e < 2 ^ 64) : e &&& ADDR_MASK = e / 4096 * 4096 := and_high_mask (by omega) h

theorem index4_eq (v : Nat) : index4 v = v / 2 ^ 39 % 512 := by
  unfold index4
  rw [show 0x1FF = 2 ^ 9 - 1 by rfl, Nat.and_two_pow_sub_one_eq_mod, Nat.shiftRight_eq_div_pow]

theorem index3_eq (v : Nat) : index3 v = v / 2 ^ 30 % 512 := by
  unfold index3
  rw [show 0x1FF = 2 ^ 9 - 1 by rfl, Nat.and_two_pow_sub_one_eq_mod, Nat.shiftRight_eq_div_pow]

theorem index2_eq (v : Nat) : index2 v = v / 2 ^ 21 % 512 := by
  unfold index2
  rw [show 0x1FF = 2 ^ 9 - 1 by rfl, Nat.and_two_pow_sub_one_eq_mod, Nat.shiftRight_eq_div_pow]

theorem index1_eq (v : Nat) : index1 v = v / 2 ^ 12 % 512 := by
  unfold index1
  rw [show 0x1FF = 2 ^ 9 - 1 by rfl, Nat.and_two_pow_sub_one_eq_mod, Nat.shiftRight_eq_div_pow]

theorem index4_lt (v : Nat) : index4 v < 512 := by rw [index4_eq]; omega
theorem index3_lt (v : Nat) : index3 v < 512 := by rw [index3_eq]; omega
theorem index2_lt (v : Nat) : index2 v < 512 := by rw [index2_eq]; omega
theorem index1_lt (v : Nat) : index1 v < 512 := by rw [index1_eq]; omega

/-- The tables on the way to `v`'s page, and its entry in the last of them. -/
def pathOf (v : Nat) : List Nat := [index4 v, index3 v, index2 v]

/-- A page is its four indices. -/
theorem pageOf_eq_iff (v w : Nat) : pageOf v = pageOf w ↔ pathOf v = pathOf w ∧ index1 v = index1 w := by
  simp only [pathOf, pageOf, index4_eq, index3_eq, index2_eq, index1_eq, List.cons.injEq, and_true]
  omega

/-- The first gigabyte is what the boot page directory covers. -/
theorem low_iff (v : Nat) : v % 2 ^ 48 < 2 ^ 30 ↔ index4 v = 0 ∧ index3 v = 0 := by
  rw [index4_eq, index3_eq]
  omega

theorem entry_lt (m : Mem) (table i : Nat) : entry m table i < 2 ^ 64 := load64_lt m _

/-! ## Changing one table leaves the others alone -/

theorem apart_pages {a b : Nat} (ha : a % 4096 = 0) (hb : b % 4096 = 0) (h : a ≠ b) : Apart a 4096 b 4096 := by
  unfold Apart
  omega

theorem entry_setEntry_same {m : Mem} {a i e : Nat} (he : e < 2 ^ 64) : entry (setEntry m a i e) a i = e :=
  load_store_of_lt he

theorem entry_setEntry_index {m : Mem} {a i j e : Nat} (h : j ≠ i) : entry (setEntry m a i e) a j = entry m a j :=
  load_store_apart (by unfold Apart; omega)

theorem entry_setEntry_table {m : Mem} {a b i j e : Nat} (h : Apart a 4096 b 4096) (hi : i < 512) (hj : j < 512) :
    entry (setEntry m a i e) b j = entry m b j :=
  load_store_apart (by unfold Apart at *; omega)

theorem entry_fill_table {m : Mem} {a b j : Nat} (h : Apart a 4096 b 4096) (hj : j < 512) :
    entry (fill m a PAGE_SIZE 0) b j = entry m b j :=
  load_fill_apart (by unfold Apart at *; unfold PAGE_SIZE; omega)

theorem entry_fill_same {m : Mem} {a j : Nat} (hj : j < 512) : entry (fill m a PAGE_SIZE 0) a j = 0 :=
  load_fill_zero (by omega) (by unfold PAGE_SIZE; omega)

/-! ## The invariant -/

/-- The table at the end of each path of indices. -/
abbrev Tabs := List Nat → Option Nat

/-- The entry that links to a table: present and writable. -/
def linkOf : Option Nat → Nat
  | none => 0
  | some a => a + 3

/-- A last-level entry that says what the map says. -/
def Leaf (e : Nat) : Option Nat → Prop
  | none => e % 2 = 0
  | some phys => e % 2 = 1 ∧ e / 4096 * 4096 = phys

structure Inv (s : St) (tab : Tabs) (A : PageMap) : Prop where
  root : tab [] = some s.pml4
  page : ∀ p a, tab p = some a → a % 4096 = 0 ∧ a ≠ 0 ∧ a < 2 ^ 64
  inj : ∀ p q a, tab p = some a → tab q = some a → p = q
  parent : ∀ p i b, tab (p ++ [i]) = some b → p.length < 3 ∧ ∃ a, tab p = some a
  dir : ∀ p a, tab p = some a → p.length < 3 → p ≠ [0, 0] → ∀ i < 512, entry s.mem a i = linkOf (tab (p ++ [i]))
  boot : ∃ pd, tab [0, 0] = some pd ∧ ∀ i < 512, entry s.mem pd i = i * 2 ^ 21 + 0x83 ∧ tab [0, 0, i] = none
  leaf : ∀ v a, tab (pathOf v) = some a → Leaf (entry s.mem a (index1 v)) (A (pageOf v))
  unmapped : ∀ v, tab (pathOf v) = none → A (pageOf v) = none
  supply : ∀ a ∈ s.pmm, a % 4096 = 0 ∧ a < 2 ^ 64 ∧ (a ≠ 0 → ∀ p, tab p ≠ some a)
  nodup : (s.pmm.filter (· ≠ 0)).Nodup

section
variable {s : St} {tab : Tabs} {A : PageMap}

theorem Inv.apart (hi : Inv s tab A) {p q : List Nat} {a b : Nat} (hp : tab p = some a) (hq : tab q = some b)
    (h : p ≠ q) : Apart a 4096 b 4096 := by
  refine apart_pages (hi.page p a hp).1 (hi.page q b hq).1 ?_
  rintro rfl
  exact h (hi.inj p q a hp hq)

/-- Handing out no page keeps the invariant. -/
theorem Inv.dropSupply (hi : Inv s tab A) : Inv { s with pmm := s.pmm.tail } tab A where
  root := hi.root
  page := hi.page
  inj := hi.inj
  parent := hi.parent
  dir := hi.dir
  boot := hi.boot
  leaf := hi.leaf
  unmapped := hi.unmapped
  supply a ha := hi.supply a (List.mem_of_mem_tail ha)
  nodup := hi.nodup.sublist ((List.tail_sublist _).filter _)

theorem link_value {page : Nat} (h : page % 4096 = 0) : page ||| PTE_PRESENT ||| PTE_WRITE = page + 3 := by
  rw [Nat.or_assoc]
  exact or_low (k := 12) h (by decide)

/-- After linking `page` below `a[i]`, that entry links to it. -/
theorem entry_link_self {m : Mem} {a i page : Nat} (h : page % 4096 = 0) (h64 : page < 2 ^ 64) :
    entry (link_table m a i page) a i = page + 3 := by
  unfold link_table
  rw [link_value h]
  exact entry_setEntry_same (by omega)

/-- The linked page is empty. -/
theorem entry_link_new {m : Mem} {a i page j : Nat} (h : Apart page 4096 a 4096) (hi : i < 512) (hj : j < 512) :
    entry (link_table m a i page) page j = 0 := by
  unfold link_table
  rw [entry_setEntry_table (by unfold Apart at *; omega) hi hj, entry_fill_same hj]

/-- No other entry of an old table changes. -/
theorem Inv.entry_link_old (hi : Inv s tab A) {p q : List Nat} {a b i j page : Nat} (hp : tab p = some a)
    (hq : tab q = some b) (hnew : Apart page 4096 b 4096) (hlt : i < 512) (hj : j < 512) (hne : q ≠ p ∨ j ≠ i) :
    entry (link_table s.mem a i page) b j = entry s.mem b j := by
  unfold link_table
  by_cases hqp : q = p
  · subst hqp
    obtain rfl : a = b := Option.some.inj (hp.symm.trans hq)
    rw [entry_setEntry_index (hne.resolve_left (fun h => h rfl)), entry_fill_table hnew hj]
  · rw [entry_setEntry_table (hi.apart hp hq (Ne.symm hqp)) hlt hj, entry_fill_table hnew hj]

theorem update_cases {q r : List Nat} {b page : Nat} (h : Function.update tab r (some page) q = some b) :
    (q = r ∧ b = page) ∨ (q ≠ r ∧ tab q = some b) := by
  by_cases hq : q = r
  · subst hq
    rw [Function.update_self, Option.some.injEq] at h
    exact .inl ⟨rfl, h.symm⟩
  · rw [Function.update_of_ne hq] at h
    exact .inr ⟨hq, h⟩

/-- Nothing is linked below a table that does not exist. -/
theorem Inv.none_below (hi : Inv s tab A) {p : List Nat} (h : tab p = none) (j : Nat) : tab (p ++ [j]) = none := by
  cases hc : tab (p ++ [j]) with
  | none => rfl
  | some c =>
    obtain ⟨-, d, hd⟩ := hi.parent p j c hc
    rw [h] at hd
    cases hd

theorem update_keep {q r : List Nat} {b page : Nat} (hr : tab r = none) (hq : tab q = some b) :
    Function.update tab r (some page) q = some b := by
  rw [Function.update_of_ne, hq]
  rintro rfl
  rw [hr] at hq
  cases hq

/-- A page still to be handed out lies apart from every table. -/
theorem Inv.apart_supply (hi : Inv s tab A) {q : List Nat} {page b : Nat} (hm : page ∈ s.pmm) (h0 : page ≠ 0)
    (hq : tab q = some b) : Apart page 4096 b 4096 := by
  obtain ⟨hal, -, hfresh⟩ := hi.supply page hm
  refine apart_pages hal (hi.page q b hq).1 ?_
  rintro rfl
  exact hfresh h0 q hq

/-- The entries of every table but the boot directory link to the tables named by one index more. -/
theorem Inv.link_dir (hi : Inv s tab A) {p : List Nat} {a i page : Nat} (hp : tab p = some a) (hlt : i < 512)
    (hnone : tab (p ++ [i]) = none) (hm : page ∈ s.pmm) (h0 : page ≠ 0) {q : List Nat} {b : Nat}
    (hq : Function.update tab (p ++ [i]) (some page) q = some b) (hql : q.length < 3) (hqb : q ≠ [0, 0]) {j : Nat}
    (hj : j < 512) :
    entry (link_table s.mem a i page) b j = linkOf (Function.update tab (p ++ [i]) (some page) (q ++ [j])) := by
  obtain ⟨hal, h64, -⟩ := hi.supply page hm
  rcases update_cases hq with ⟨rfl, rfl⟩ | ⟨-, hq'⟩
  · -- the new table is empty, and nothing is named below it yet
    rw [Function.update_of_ne (by simp), hi.none_below hnone j]
    exact entry_link_new (hi.apart_supply hm h0 hp) hlt hj
  · by_cases hqj : q = p ∧ j = i
    · obtain ⟨rfl, rfl⟩ := hqj
      obtain rfl : a = b := Option.some.inj (hp.symm.trans hq')
      rw [Function.update_self]
      exact entry_link_self hal h64
    · have hne : q ++ [j] ≠ p ++ [i] := by
        intro h
        obtain ⟨h1, h2⟩ := List.append_inj' h rfl
        exact hqj ⟨h1, by simpa using h2⟩
      rw [Function.update_of_ne hne, ← hi.dir q b hq' hql hqb j hj]
      exact hi.entry_link_old hp hq' (hi.apart_supply hm h0 hq') hlt hj (by tauto)

/-- Linking a fresh zeroed page below `p` makes it the table `p ++ [i]`. -/
theorem Inv.link (hi : Inv s tab A) {p : List Nat} {a i page : Nat} {rest : List Nat} (hp : tab p = some a)
    (hlen : p.length < 3) (hboot : p ≠ [0, 0]) (hlt : i < 512) (hnone : tab (p ++ [i]) = none)
    (hpmm : s.pmm = page :: rest) (h0 : page ≠ 0) :
    Inv { s with mem := link_table s.mem a i page, pmm := rest } (Function.update tab (p ++ [i]) (some page)) A := by
  have hm : page ∈ s.pmm := by simp [hpmm]
  obtain ⟨hal, h64, hfresh⟩ := hi.supply page hm
  have hn := hi.nodup
  rw [hpmm, List.filter_cons_of_pos (by simpa using h0), List.nodup_cons] at hn
  exact {
    root := update_keep hnone hi.root
    page := by
      intro q b hq
      rcases update_cases hq with ⟨-, rfl⟩ | ⟨-, hq⟩
      · exact ⟨hal, h0, h64⟩
      · exact hi.page q b hq
    inj := by
      intro q r b hq hr
      rcases update_cases hq with ⟨rfl, rfl⟩ | ⟨-, hq⟩ <;> rcases update_cases hr with ⟨rfl, hb⟩ | ⟨-, hr⟩
      · rfl
      · exact absurd hr (hfresh h0 r)
      · exact absurd (hb ▸ hq) (hfresh h0 q)
      · exact hi.inj q r b hq hr
    parent := by
      intro q j b hq
      rcases update_cases hq with ⟨hqj, -⟩ | ⟨-, hq⟩
      · obtain ⟨rfl, -⟩ := List.append_inj' hqj rfl
        exact ⟨hlen, a, update_keep hnone hp⟩
      · obtain ⟨h1, c, hc⟩ := hi.parent q j b hq
        exact ⟨h1, c, update_keep hnone hc⟩
    dir := by
      intro q b hq hql hqb j hj
      exact hi.link_dir hp hlt hnone hm h0 hq hql hqb hj
    boot := by
      obtain ⟨pd, hpd, hent⟩ := hi.boot
      refine ⟨pd, update_keep hnone hpd, fun j hj => ⟨?_, ?_⟩⟩
      · rw [← (hent j hj).1]
        exact hi.entry_link_old hp hpd (hi.apart_supply hm h0 hpd) hlt hj (.inl (Ne.symm hboot))
      · rw [Function.update_of_ne, (hent j hj).2]
        intro h
        have hsnoc : [0, 0] ++ [j] = p ++ [i] := h
        exact hboot (List.append_inj' hsnoc rfl).1.symm
    leaf := by
      intro v b hv
      rcases update_cases hv with ⟨hpv, rfl⟩ | ⟨-, hv⟩
      · rw [entry_link_new (hi.apart_supply hm h0 hp) hlt (index1_lt v), hi.unmapped v (hpv ▸ hnone)]
        rfl
      · rw [hi.entry_link_old hp hv (hi.apart_supply hm h0 hv) hlt (index1_lt v) (.inl (by rintro rfl; simp [pathOf] at hlen))]
        exact hi.leaf v b hv
    unmapped := by
      intro v hv
      by_cases h : pathOf v = p ++ [i]
      · rw [h, Function.update_self] at hv
        cases hv
      · rw [Function.update_of_ne h] at hv
        exact hi.unmapped v hv
    supply := by
      intro b hb
      obtain ⟨h1, h2, h3⟩ := hi.supply b (by simp [hpmm, hb])
      refine ⟨h1, h2, fun hb0 q hq => ?_⟩
      rcases update_cases hq with ⟨-, rfl⟩ | ⟨-, hq⟩
      · -- the supply never hands out the same page twice
        exact hn.1 (by simp [hb, h0])
      · exact h3 hb0 q hq
    nodup := hn.2 }

/-- Writing a last-level entry changes the map at that page. -/
theorem Inv.setLeaf (hi : Inv s tab A) {v a e : Nat} {o : Option Nat} (hv : tab (pathOf v) = some a)
    (he : e < 2 ^ 64) (hl : Leaf e o) :
    Inv { s with mem := setEntry s.mem a (index1 v) e } tab (Function.update A (pageOf v) o) := by
  have hold : ∀ q b j, tab q = some b → j < 512 → q ≠ pathOf v → entry (setEntry s.mem a (index1 v) e) b j = entry s.mem b j :=
    fun q b j hq hj hne => entry_setEntry_table (hi.apart hv hq (Ne.symm hne)) (index1_lt v) hj
  have hshort : ∀ q : List Nat, q.length < 3 → q ≠ pathOf v := by
    rintro q hq rfl
    simp [pathOf] at hq
  refine ⟨hi.root, hi.page, hi.inj, hi.parent, ?_, ?_, ?_, ?_, hi.supply, hi.nodup⟩
  · intro q b hq hql hqb j hj
    rw [← hi.dir q b hq hql hqb j hj]
    exact hold q b j hq hj (hshort q hql)
  · obtain ⟨pd, hpd, hent⟩ := hi.boot
    refine ⟨pd, hpd, fun j hj => ?_⟩
    rw [hold _ pd j hpd hj (hshort _ (by simp))]
    exact hent j hj
  · intro w b hw
    by_cases hvw : pageOf w = pageOf v
    · obtain ⟨hpath, hidx⟩ := (pageOf_eq_iff w v).1 hvw
      obtain rfl : a = b := Option.some.inj (hv.symm.trans (hpath ▸ hw))
      rw [hvw, Function.update_self, hidx, entry_setEntry_same he]
      exact hl
    · rw [Function.update_of_ne hvw]
      by_cases hpath : pathOf w = pathOf v
      · obtain rfl : a = b := Option.some.inj (hv.symm.trans (hpath ▸ hw))
        rw [entry_setEntry_index (fun h => hvw ((pageOf_eq_iff w v).2 ⟨hpath, h⟩))]
        exact hi.leaf w a hw
      · rw [hold _ b _ hw (index1_lt w) hpath]
        exact hi.leaf w b hw
  · intro w hw
    rw [Function.update_of_ne]
    · exact hi.unmapped w hw
    · intro h
      rw [((pageOf_eq_iff w v).1 h).1, hv] at hw
      cases hw

end

end H3OS.Vmm
