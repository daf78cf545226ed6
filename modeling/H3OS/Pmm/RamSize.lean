import H3OS.Pmm.Addressable
import H3OS.Wm.Model
/-!
# What the reported memory size depends on

`pmm_init` takes the highest end of any entry of the memory map for the amount
of memory, also of entries that are no RAM. `adaptive_init` chooses the profile
from it. Two maps with the same RAM are told apart exactly when the entries
that are no RAM end past the RAM, and in different places.
-/
open SysLib

namespace H3OS.Pmm

def isAvailable (e : mb2_mmap_entry_t) : Bool := e.type = MB2_MEMORY_AVAILABLE

/-- The highest page behind an entry, as far as the bitmap goes. -/
def top (entries : List mb2_mmap_entry_t) : Nat := min ((entries.map end_page).foldr max 0) PMM_MAX_PAGES

def ramTop (entries : List mb2_mmap_entry_t) : Nat := top (entries.filter isAvailable)

def otherTop (entries : List mb2_mmap_entry_t) : Nat := top (entries.filter fun e => !isAvailable e)

theorem top_cons (e : mb2_mmap_entry_t) (entries : List mb2_mmap_entry_t) :
    top (e :: entries) = max (min (end_page e) PMM_MAX_PAGES) (top entries) :=
  min_max_distrib_right _ _ _

/-- RAM or not, every entry counts. -/
theorem top_eq (entries : List mb2_mmap_entry_t) : top entries = max (ramTop entries) (otherTop entries) := by
  induction entries with
  | nil => rfl
  | cons e entries ih =>
    rw [top_cons, ih]
    simp only [ramTop, otherTop, List.filter_cons]
    cases isAvailable e with
    | true =>
      rw [if_pos rfl, if_neg nofun, top_cons, max_assoc]
    | false =>
      rw [if_neg nofun, Bool.not_false, if_pos rfl, top_cons, max_left_comm]

theorem map_entries_total (entries : List mb2_mmap_entry_t) (s : St) :
    (entries.foldl map_entry s).total_pages = max s.total_pages ((entries.map end_page).foldr max 0) := by
  induction entries generalizing s with
  | nil => exact (Nat.max_zero _).symm
  | cons e entries ih => rw [List.foldl_cons, ih, map_entry_total, List.map_cons, List.foldr_cons, max_assoc]

theorem init_total_top (kernel_end : Nat) (entries : List mb2_mmap_entry_t) :
    (pmm_init kernel_end (some entries)).total_pages = top entries := by
  rw [init_total_eq, map_memory, (count_used_bits _).1]
  dsimp only
  rw [map_entries_total]
  change min (max 0 _) _ = top entries
  rw [Nat.zero_max, top]

theorem init_total_bytes (kernel_end : Nat) (entries : List mb2_mmap_entry_t) :
    (pmm_get_stats (pmm_init kernel_end (some entries))).total_bytes =
      max (ramTop entries) (otherTop entries) * PAGE_SIZE := by
  have hmax : top entries ≤ PMM_MAX_PAGES := Nat.min_le_right _ _
  unfold pmm_get_stats
  dsimp only
  rw [init_total_top, ← top_eq, Nat.mod_eq_of_lt]
  unfold PMM_MAX_PAGES at hmax
  unfold PAGE_SIZE
  omega

/-- Of two maps with the same RAM the reported size and the profile are the same exactly when no other entry reaches past
the RAM in either of them, or the highest ones end together. -/
theorem same_ram_same_size_iff (kernel_end : Nat) {m1 m2 : List mb2_mmap_entry_t}
    (hram : m1.filter isAvailable = m2.filter isAvailable) :
    ((pmm_get_stats (pmm_init kernel_end (some m1))).total_bytes =
        (pmm_get_stats (pmm_init kernel_end (some m2))).total_bytes ∧
      ∀ cpu, (Wm.adaptive_init (pmm_get_stats (pmm_init kernel_end (some m1))).total_bytes cpu).profile =
        (Wm.adaptive_init (pmm_get_stats (pmm_init kernel_end (some m2))).total_bytes cpu).profile) ↔
    (otherTop m1 ≤ ramTop m1 ∧ otherTop m2 ≤ ramTop m1) ∨ otherTop m1 = otherTop m2 := by
  have hsame : ramTop m2 = ramTop m1 := by rw [ramTop, ramTop, hram]
  rw [init_total_bytes, init_total_bytes, hsame]
  constructor
  · rintro ⟨hbytes, -⟩
    have hmax := Nat.eq_of_mul_eq_mul_right (by decide) hbytes
    omega
  · intro h
    have hmax : max (ramTop m1) (otherTop m1) = max (ramTop m1) (otherTop m2) := by omega
    rw [hmax]
    exact ⟨rfl, fun _ => rfl⟩

/-- 256 MiB of RAM, and the same with the pages of an I/O controller below 4 GiB listed. -/
def ramMap : List mb2_mmap_entry_t := [⟨0x100000, 0x10000000, MB2_MEMORY_AVAILABLE, 0⟩]

def mmioMap : List mb2_mmap_entry_t := ramMap ++ [⟨0xFEC00000, 0x1000, 2, 0⟩]

theorem same_ram_same_size_iff_low :
    (pmm_get_stats (pmm_init 0x200000 (some ramMap))).total_bytes =
      (pmm_get_stats (pmm_init 0x200000 (some (⟨0, 0x1000, 2, 0⟩ :: ramMap)))).total_bytes :=
  ((same_ram_same_size_iff 0x200000 rfl).2 (.inl ⟨by decide +kernel, by decide +kernel⟩)).1

/-- The listed controller makes 2 GiB of 257 MiB, and the high profile of the low one. -/
theorem mmio_changes_profile :
    ramMap.filter isAvailable = mmioMap.filter isAvailable ∧
    (pmm_get_stats (pmm_init 0x200000 (some ramMap))).total_bytes = 257 * 2 ^ 20 ∧
    (pmm_get_stats (pmm_init 0x200000 (some mmioMap))).total_bytes = 2 ^ 31 ∧
    (Wm.adaptive_init (pmm_get_stats (pmm_init 0x200000 (some ramMap))).total_bytes ⟨4, true⟩).profile = .PERF_LOW ∧
    (Wm.adaptive_init (pmm_get_stats (pmm_init 0x200000 (some mmioMap))).total_bytes ⟨4, true⟩).profile = .PERF_HIGH := by
  have h1 : (pmm_get_stats (pmm_init 0x200000 (some ramMap))).total_bytes = 257 * 2 ^ 20 := by
    rw [init_total_bytes]
    decide +kernel
  have h2 : (pmm_get_stats (pmm_init 0x200000 (some mmioMap))).total_bytes = 2 ^ 31 := by
    rw [init_total_bytes]
    decide +kernel
  refine ⟨rfl, h1, h2, ?_, ?_⟩
  · rw [h1]
    rfl
  · rw [h2]
    rfl

end H3OS.Pmm
