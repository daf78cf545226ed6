import H3OS.Heap.Limits
/-!
# Alignment of what is handed out

Sizes are rounded up to multiples of 16, and so is the start of the arena; a
new region starts at a page. Between the start of a region and its first
payload, though, there is a header of 40 bytes. So the first pointer of a run
is not aligned, whatever came before it.
-/
open SysLib

namespace H3OS.Backed

/-! ## Runs with what was returned -/

/-- A call of a run, with the state that it found. -/
structure Returned where
  before : St
  op : Op
  ret : Nat

/-- The runs after boot as in `Runs`, with all calls of the heap in order. -/
inductive Trace (kernel_end arena : Nat) (mmap : Option (List Pmm.mb2_mmap_entry_t)) :
    List Returned → St → List Nat → List Pmm.Grant → Prop
  | init (m : Mem) : Trace kernel_end arena mmap [] ⟨Pmm.pmm_init kernel_end mmap, Heap.heap_init m arena⟩ [] []
  | call {calls s s' live held} {r : Nat} (op : Op) : Trace kernel_end arena mmap calls s live held → op.Allowed s live →
      exec s op = some (r, s') → Trace kernel_end arena mmap (calls ++ [⟨s, op, r⟩]) s' ((op.onHeap s).live r live) held
  | alloc_page {calls s live held} : Trace kernel_end arena mmap calls s live held →
      Trace kernel_end arena mmap calls { s with pmm := (Pmm.pmm_alloc_page s.pmm).2 } live
        (Pmm.grant (Pmm.pmm_alloc_page s.pmm).1 1 held)
  | alloc_pages {calls s live held} (count : Nat) : Trace kernel_end arena mmap calls s live held → count < 2 ^ 64 →
      Trace kernel_end arena mmap calls { s with pmm := (Pmm.pmm_alloc_pages s.pmm count).2 } live
        (Pmm.grant (Pmm.pmm_alloc_pages s.pmm count).1 count held)
  | free_page {calls s live held} (addr : Nat) : Trace kernel_end arena mmap calls s live held →
      Pmm.Held held (addr / PAGE_SIZE) →
      Trace kernel_end arena mmap calls { s with pmm := Pmm.pmm_free_page s.pmm addr } live
        (Pmm.release [addr / PAGE_SIZE] held)
  | free_pages {calls s live held} (addr count : Nat) : Trace kernel_end arena mmap calls s live held →
      (∀ p ∈ Pmm.named addr count, Pmm.Held held p) →
      Trace kernel_end arena mmap calls { s with pmm := Pmm.pmm_free_pages s.pmm addr count } live
        (Pmm.release (Pmm.named addr count) held)
  /-- Anyone sets a byte outside the heap. -/
  | poke {calls s live held} (a : Nat) (v : UInt8) : Trace kernel_end arena mmap calls s live held →
      (∀ r ∈ s.heap.regions, a < r.1 ∨ r.1 + r.2 ≤ a) →
      Trace kernel_end arena mmap calls { s with heap := { s.heap with mem := Function.update s.heap.mem a v } } live held

/-- The runs of `Runs` are these, with the condition on the calls that were made. -/
theorem runs_iff_trace {kernel_end arena : Nat} {mmap : Option (List Pmm.mb2_mmap_entry_t)} {P : St → Op → Prop} {s : St}
    {live : List Nat} {held : List Pmm.Grant} : Runs kernel_end arena mmap P s live held ↔
      ∃ calls, Trace kernel_end arena mmap calls s live held ∧ ∀ c ∈ calls, P c.before c.op := by
  constructor
  · intro h
    induction h with
    | init m => exact ⟨[], .init m, by simp⟩
    | @call s s' live held r op _ hop hP he ih =>
      obtain ⟨calls, ht, hall⟩ := ih
      refine ⟨calls ++ [⟨s, op, r⟩], ht.call op hop he, fun c hc => ?_⟩
      rcases List.mem_append.1 hc with hc | hc
      · exact hall c hc
      · rw [List.mem_singleton.1 hc]
        exact hP
    | alloc_page _ ih =>
      obtain ⟨calls, ht, hall⟩ := ih
      exact ⟨calls, ht.alloc_page, hall⟩
    | alloc_pages count _ hc ih =>
      obtain ⟨calls, ht, hall⟩ := ih
      exact ⟨calls, ht.alloc_pages count hc, hall⟩
    | free_page addr _ hp ih =>
      obtain ⟨calls, ht, hall⟩ := ih
      exact ⟨calls, ht.free_page addr hp, hall⟩
    | free_pages addr count _ hp ih =>
      obtain ⟨calls, ht, hall⟩ := ih
      exact ⟨calls, ht.free_pages addr count hp, hall⟩
    | poke a v _ hout ih =>
      obtain ⟨calls, ht, hall⟩ := ih
      exact ⟨calls, ht.poke a v hout, hall⟩
  · rintro ⟨calls, ht, hall⟩
    induction ht with
    | init m => exact .init m
    | @call calls s s' live held r op _ hop he ih =>
      have hP : P s op := hall ⟨s, op, r⟩ (by simp)
      exact .call op (ih fun c hc => hall c (by simp [hc])) hop hP he
    | alloc_page _ ih => exact .alloc_page (ih hall)
    | alloc_pages count _ hc ih => exact .alloc_pages count (ih hall) hc
    | free_page addr _ hp ih => exact .free_page addr (ih hall) hp
    | free_pages addr count _ hp ih => exact .free_pages addr count (ih hall) hp
    | poke a v _ hout ih => exact .poke a v (ih hall) hout

/-- Nothing is asked for, or there is no room for it. -/
def Denied (s : St) (size : Nat) : Prop := size = 0 ∨ ¬ Room s (Heap.request size)

/-- The call asks for no memory, or for more than there is. -/
def Refused (s : St) : Op → Prop
  | .kmalloc size => Denied s size
  | .kcalloc n size => Denied s (n * size % 2 ^ 64)
  | .krealloc ptr size =>
    Denied s size ∧ (ptr = 0 ∨ size = 0 ∨ (Heap.block s.heap.mem (sub64 ptr Heap.BLOCK)).size < size)
  | .kfree _ | .write _ _ _ => True

/-! ## Until the first pointer -/

section
variable {s s' : St} {live : List Nat} {held held' : List Pmm.Grant} {segs : List (List Heap.Blk)} {size r a : Nat} {op : Op}

/-- No pointer was handed out yet, and every block begins at a multiple of 16. -/
def Untouched (s : St) (live : List Nat) (held : List Pmm.Grant) : Prop :=
  live = [] ∧ ∃ segs, Inv s live held segs ∧ ∀ b ∈ segs.flatten, Heap.HEAP_ALIGN ∣ b.addr

theorem Begins.aligned (h : Begins segs a) (hal : ∀ b ∈ segs.flatten, Heap.HEAP_ALIGN ∣ b.addr) : Heap.HEAP_ALIGN ∣ a := by
  rcases h with ⟨b, hb, rfl⟩ | hpage
  · exact hal b hb
  · apply Dvd.dvd.trans _ hpage
    decide

/-- A header further on. -/
theorem misaligned (h : Heap.HEAP_ALIGN ∣ a) : (a + Heap.BLOCK) % Heap.HEAP_ALIGN = 8 := by
  unfold Heap.HEAP_ALIGN Heap.BLOCK at *
  omega

/-- What the other users of the machine do. -/
theorem Untouched.other (hu : Untouched s live held) (h : ∀ segs, Inv s live held segs → Inv s' live held' segs) :
    Untouched s' live held' := by
  obtain ⟨hnone, segs, hi, hal⟩ := hu
  exact ⟨hnone, segs, h segs hi, hal⟩

theorem Untouched.kmalloc (hu : Untouched s live held) (he : kmalloc s size = some (r, s')) :
    Denied s size ∧ r = 0 ∧ Untouched s' live held ∨ ¬ Denied s size ∧ r % Heap.HEAP_ALIGN = 8 := by
  by_cases h0 : size = 0
  · rw [Backed.kmalloc, if_pos h0] at he
    cases he
    exact .inl ⟨.inl h0, rfl, hu⟩
  obtain ⟨hnone, segs, hi, hal⟩ := hu
  rcases hi.kmalloc_cases h0 with ⟨hroom, -, p, t, segs', hs⟩ | ⟨hroom, -, hcall, -⟩ |
    ⟨hroom, -, -, -, t, segs', hcall, hinv, -, hbegins⟩
  · rw [hs.call] at he
    cases he
    obtain ⟨a, ha, rfl⟩ := hs.origin
    refine .inr ⟨?_, misaligned (ha.aligned hal)⟩
    rintro (hz | hno)
    · exact h0 hz
    · exact hno hroom
  · rw [hcall] at he
    cases he
    exact .inl ⟨.inr hroom, rfl, hnone, segs, hi, hal⟩
  · rw [hcall] at he
    cases he
    exact .inl ⟨.inr hroom, rfl, hnone, segs', hinv, fun b hb => (hbegins b hb).aligned hal⟩

theorem Untouched.kcalloc {n : Nat} (hu : Untouched s live held) (he : kcalloc s n size = some (r, s')) :
    Denied s (n * size % 2 ^ 64) ∧ r = 0 ∧ Untouched s' live held ∨
    ¬ Denied s (n * size % 2 ^ 64) ∧ r % Heap.HEAP_ALIGN = 8 := by
  cases hcall : Backed.kmalloc s (n * size % 2 ^ 64) with
  | none =>
    simp only [Backed.kcalloc, hcall] at he
    cases he
  | some res =>
    obtain ⟨p, t⟩ := res
    by_cases hp : p = 0
    · subst hp
      rw [kcalloc_refused hcall] at he
      cases he
      exact hu.kmalloc hcall
    · rw [kcalloc_served hcall hp] at he
      cases he
      rcases hu.kmalloc hcall with ⟨-, hz, -⟩ | hserved
      · exact absurd hz hp
      · exact .inr hserved

/-- A call returns NULL and hands out nothing, or the first pointer, which is not aligned. -/
theorem Untouched.exec (hu : Untouched s live held) (hop : op.Allowed s live) (he : exec s op = some (r, s')) :
    Refused s op ∧ r = 0 ∧ Untouched s' ((op.onHeap s).live r live) held ∨ ¬ Refused s op ∧ r % Heap.HEAP_ALIGN = 8 := by
  have hnone := hu.1
  cases op with
  | kmalloc size =>
    rcases hu.kmalloc he with ⟨hd, rfl, hu'⟩ | hserved
    · exact .inl ⟨hd, rfl, hu'⟩
    · exact .inr hserved
  | kcalloc n size =>
    rcases hu.kcalloc he with ⟨hd, rfl, hu'⟩ | hserved
    · exact .inl ⟨hd, rfl, hu'⟩
    · exact .inr hserved
  | krealloc ptr size =>
    -- nothing is live, so there is nothing to move
    obtain rfl : ptr = 0 := hop.2.resolve_right (by simp [hnone])
    have hiff : Refused s (.krealloc 0 size) ↔ Denied s size := and_iff_left (.inl rfl)
    rw [hiff]
    rcases hu.kmalloc he with ⟨hd, rfl, hu'⟩ | hserved
    · exact .inl ⟨hd, rfl, by simpa [Op.onHeap, Heap.Op.live] using hu'⟩
    · exact .inr hserved
  | kfree ptr =>
    obtain rfl : ptr = 0 := hop.resolve_right (by simp [hnone])
    cases he
    exact .inl ⟨trivial, rfl, by simpa [Op.onHeap, Heap.Op.live, Heap.kfree, hnone] using hu⟩
  | write ptr i v =>
    rw [hnone] at hop
    cases hop.1

/-! ## Every run -/

/-- All calls so far were refused and nothing was handed out, or one handed out a pointer that is not aligned. -/
def Along (calls : List Returned) (s : St) (live : List Nat) (held : List Pmm.Grant) : Prop :=
  (∀ c ∈ calls, Refused c.before c.op ∧ c.ret = 0) ∧ Untouched s live held ∨
  ∃ c ∈ calls, ¬ Refused c.before c.op ∧ c.ret % Heap.HEAP_ALIGN = 8

theorem Along.other {calls : List Returned} (h : Along calls s live held)
    (hstep : ∀ segs, Inv s live held segs → Inv s' live held' segs) : Along calls s' live held' :=
  h.imp_left fun ⟨hall, hu⟩ => ⟨hall, hu.other hstep⟩

theorem Along.call {calls : List Returned} (h : Along calls s live held) (hop : op.Allowed s live)
    (he : Backed.exec s op = some (r, s')) : Along (calls ++ [⟨s, op, r⟩]) s' ((op.onHeap s).live r live) held := by
  rcases h with ⟨hall, hu⟩ | ⟨c, hc, hbad⟩
  · rcases hu.exec hop he with ⟨href, hr, hu'⟩ | hbad
    · refine .inl ⟨?_, hu'⟩
      intro c hc
      rcases List.mem_append.1 hc with hc | hc
      · exact hall c hc
      · rw [List.mem_singleton.1 hc]
        exact ⟨href, hr⟩
    · exact .inr ⟨⟨s, op, r⟩, by simp, hbad⟩
  · exact .inr ⟨c, by simp [hc], hbad⟩

theorem trace_along {kernel_end arena : Nat} {mmap : Option (List Pmm.mb2_mmap_entry_t)} {calls : List Returned}
    (hk : kernel_end + 4095 < 2 ^ 64) (ha : 0x100000 ≤ arena) (hak : arena + Heap.EARLY_HEAP ≤ kernel_end)
    (h16 : Heap.HEAP_ALIGN ∣ arena) (h : Trace kernel_end arena mmap calls s live held) : Along calls s live held := by
  induction h with
  | init m => exact .inl ⟨by simp, rfl, _, inv_boot m mmap hk ha hak, by simpa using h16⟩
  | call op _ hop he ih => exact ih.call hop he
  | alloc_page _ ih => exact ih.other fun _ hi => hi.alloc (show 1 < 2 ^ 64 by omega)
  | alloc_pages count _ hc ih => exact ih.other fun _ hi => hi.alloc hc
  | free_page addr _ hp ih => exact ih.other fun _ hi => hi.free_page hp
  | free_pages addr count _ hp ih => exact ih.other fun _ hi => hi.free_pages hp
  | poke a v _ hout ih => exact ih.other fun _ hi => hi.poke v hout

end

/-- In every run after boot, all pointers that the heap returns are aligned exactly if every request is refused. -/
theorem pointers_aligned_iff {kernel_end arena : Nat} {mmap : Option (List Pmm.mb2_mmap_entry_t)}
    (hk : kernel_end + 4095 < 2 ^ 64) (ha : 0x100000 ≤ arena) (hak : arena + Heap.EARLY_HEAP ≤ kernel_end)
    (h16 : Heap.HEAP_ALIGN ∣ arena) {calls : List Returned} {s : St} {live : List Nat} {held : List Pmm.Grant}
    (h : Trace kernel_end arena mmap calls s live held) :
    (∀ c ∈ calls, c.ret ≠ 0 → Heap.HEAP_ALIGN ∣ c.ret) ↔ ∀ c ∈ calls, Refused c.before c.op := by
  rcases trace_along hk ha hak h16 h with ⟨hall, -⟩ | ⟨c, hc, hserved, hret⟩
  · refine iff_of_true (fun c hc hne => ?_) (fun c hc => (hall c hc).1)
    exact absurd (hall c hc).2 hne
  · refine iff_of_false (fun hal => ?_) (fun href => hserved (href c hc))
    have hne : c.ret ≠ 0 := by
      intro hz
      rw [hz] at hret
      cases hret
    have := Nat.mod_eq_zero_of_dvd (hal c hc hne)
    omega

/-- A tebibyte on a machine with 128 MiB. -/
theorem tebibyte_refused : kmalloc booted (2 ^ 40) = some (0, booted) ∧ Refused booted (.kmalloc (2 ^ 40)) := by
  have hi := inv_boot (fun _ => 0) none (show 0x300000 + 4095 < 2 ^ 64 by omega) (show 0x100000 ≤ 0x200000 by omega)
    (by decide)
  obtain ⟨hle, -⟩ := request_fits (show 2 ^ 40 ≤ 2 ^ 64 - 16 by omega)
  rcases hi.kmalloc_cases (show 2 ^ 40 ≠ 0 by norm_num) with ⟨-, hsmall, -⟩ | ⟨hroom, -, hcall, -⟩ | ⟨-, -, -, hlt, -⟩
  · omega
  · exact ⟨hcall, .inr hroom⟩
  · exact absurd hlt (by decide +kernel)

theorem pointers_aligned_iff_tebibyte : ∃ calls, Trace 0x300000 0x200000 none calls booted [] [] ∧ calls.length = 1 ∧
    ∀ c ∈ calls, c.ret ≠ 0 → Heap.HEAP_ALIGN ∣ c.ret := by
  obtain ⟨hcall, href⟩ := tebibyte_refused
  have htrace : Trace 0x300000 0x200000 none [⟨booted, .kmalloc (2 ^ 40), 0⟩] booted [] [] :=
    .call (.kmalloc (2 ^ 40)) (.init _) (show 2 ^ 40 < 2 ^ 64 by omega) hcall
  refine ⟨_, htrace, rfl, (pointers_aligned_iff (by omega) (by omega) (by decide) (by decide) htrace).2 fun c hc => ?_⟩
  rw [List.mem_singleton.1 hc]
  exact href

/-- The first block after boot is handed out 40 bytes into the arena. -/
theorem first_pointer_misaligned : ∃ s' live, Trace 0x300000 0x200000 none [⟨booted, .kmalloc 100, 0x200028⟩] s' live [] ∧
    ¬ Heap.HEAP_ALIGN ∣ 0x200028 := by
  obtain ⟨⟨r, s⟩, he⟩ := Option.isSome_iff_exists.1 (by decide +kernel : (exec booted (.kmalloc 100)).isSome)
  have hr : (exec booted (.kmalloc 100)).map Prod.fst = some 0x200028 := by decide +kernel
  rw [he, Option.map_some, Option.some.injEq] at hr
  dsimp only at hr
  subst hr
  exact ⟨s, _, .call (.kmalloc 100) (.init _) (show 100 < 2 ^ 64 by omega) he, by decide⟩

end H3OS.Backed
