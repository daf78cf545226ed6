import H3OS.Lib.Blocks
import H3OS.Heap.Limits
import H3OS.Heap.Realloc
/-!
# What the heap's calls leave alone

A call writes into headers, into the free block that it hands out and into
pages that it takes as a new region. So it changes no byte of a payload in
use, and none outside the heap in a page that is marked: such bytes are
`Steady`, and no block that is handed out later has them.
-/
open SysLib

namespace H3OS.Heap

section
variable {s s' : St} {bs pre post : List Blk} {b : Blk} {size p : Nat} {pmm : List Nat}

/-- Where a new block comes from: a free block of the list, or the pages that `pmm_alloc_pages` answers with. -/
def Source (bs : List Blk) (size : Nat) (pmm : List Nat) (lo hi : Nat) : Prop :=
  (∃ b ∈ bs, b.free = true ∧ lo = b.addr ∧ hi = b.stop) ∨
    pmm.headD 0 ≠ 0 ∧ lo = pmm.headD 0 ∧ hi = lo + expand_pages (request size) * PAGE_SIZE

/-- A block handed out from the free memory `lo` to `hi`; only headers and that memory are written. -/
structure HandedFrom (s : St) (bs : List Blk) (size p : Nat) (s' : St) (bs' : List Blk) (lo hi : Nat) : Prop where
  rep : Rep s'.mem bs'
  block : ∃ c ∈ bs', c.addr + BLOCK = p ∧ lo ≤ c.addr ∧ c.stop ≤ hi ∧ size ≤ c.size
  keeps : ∀ d ∈ bs, d.free = false → d ∈ bs'
  off : ∀ x, OffHeaders bs x → (x < lo ∨ hi ≤ x) → s'.mem x = s.mem x

theorem Sound.handed_from (hs : Sound s (pre ++ b :: post)) (hb : b.free = true) (h0 : 0 < size) (hfit : size ≤ b.size)
    (h64 : size + 72 < 2 ^ 64) :
    ∃ s' bs', take_block s b.addr size = (b.addr + BLOCK, s') ∧
      HandedFrom s (pre ++ b :: post) size (b.addr + BLOCK) s' bs' b.addr b.stop := by
  obtain ⟨m', c, rest, he, hrep, ht, -, hcs, -, hoff⟩ := hs.take h0 hfit h64
  have hin := ht.bounds Blk.addr_le_stop c List.mem_cons_self
  refine ⟨_, _, he, hrep, ⟨c, by simp, by rw [ht.1], hin.1, hin.2, hcs⟩, fun d hd hdf => ?_, hoff⟩
  have hdb : d ≠ b := by
    rintro rfl
    simp [hb] at hdf
  have hmem : d ∈ pre ∨ d = b ∨ d ∈ post := by simpa using hd
  rcases hmem with hd | hd | hd
  · simp [hd]
  · exact absurd hd hdb
  · simp [hd]

/-- `kmalloc` on a sound list takes its block from one piece of free memory. -/
theorem Sound.kmalloc_from (hs : Sound s bs) (hsize : size ≤ 2 ^ 63) (hg : Supplied bs size pmm)
    (he : Heap.kmalloc s size pmm = some (p, s')) (hp : p ≠ 0) :
    ∃ bs' lo hi, HandedFrom s bs size p s' bs' lo hi ∧ Source bs size pmm lo hi := by
  have hz : size ≠ 0 := by
    rintro rfl
    rw [Heap.kmalloc, if_pos rfl] at he
    cases he
    exact hp rfl
  obtain ⟨h0, hle, hmax⟩ := request_bounds hsize
  have hweaken : ∀ {t bs₁ bs' q lo hi}, HandedFrom t bs₁ (request size) q s' bs' lo hi →
      ∃ c ∈ bs', c.addr + BLOCK = q ∧ lo ≤ c.addr ∧ c.stop ≤ hi ∧ size ≤ c.size := by
    intro t bs₁ bs' q lo hi h
    obtain ⟨c, hc, hcp, h1, h2, h3⟩ := h.block
    exact ⟨c, hc, hcp, h1, h2, hle.trans h3⟩
  rcases hs.kmalloc_cases hz pmm with ⟨pre, b, post, rfl, hb, hfit, he'⟩ | ⟨-, he'⟩
  · obtain ⟨t, bs', ht, hd⟩ := hs.handed_from hb h0 hfit (by omega)
    rw [he, ht] at he'
    cases he'
    exact ⟨bs', _, _, ⟨hd.rep, hweaken hd, hd.keeps, hd.off⟩, .inl ⟨b, by simp, hb, rfl, rfl⟩⟩
  · by_cases ha : pmm.headD 0 = 0
    · rw [he, if_pos ha] at he'
      cases he'
      exact absurd rfl hp
    · have hmem : pmm.headD 0 ∈ pmm := by
        cases pmm with
        | nil => simp at ha
        | cons a pmm => simp
      obtain ⟨h64, hap⟩ := hg _ hmem ha
      obtain ⟨hmin, hlen⟩ := expand_serves hmax
      obtain ⟨hs', hoff⟩ := hs.add hmin (Nat.pos_of_ne_zero ha) h64 hap
      obtain ⟨t, bs', ht, hd⟩ := (show Sound _ ([] ++ _ :: bs) from hs').handed_from rfl h0 hlen (by omega)
      rw [he, if_neg ha, hs'.grown hlen, ht] at he'
      cases he'
      have hstop : (⟨pmm.headD 0, expand_pages (request size) * PAGE_SIZE - BLOCK, true⟩ : Blk).stop =
          pmm.headD 0 + expand_pages (request size) * PAGE_SIZE := by
        simp only [Blk.stop]
        omega
      rw [hstop] at hd
      refine ⟨bs', _, _, ⟨hd.rep, hweaken hd, fun d hd' hdf => hd.keeps d (by simp [hd']) hdf, fun x hx hout => ?_⟩,
        .inr ⟨ha, rfl, rfl⟩⟩
      refine (hd.off x (fun c hc => ?_) hout).trans (hoff x hx hout)
      -- the header of the new block is part of the new region
      have hout' : x < pmm.headD 0 ∨ pmm.headD 0 + expand_pages (request size) * PAGE_SIZE ≤ x := hout
      rcases List.mem_cons.1 hc with rfl | hc
      · show x < pmm.headD 0 ∨ pmm.headD 0 + BLOCK ≤ x
        omega
      · exact hx c hc

end

end H3OS.Heap

namespace H3OS.Backed

def St.withMem (s : St) (m : Mem) : St := { s with heap := { s.heap with mem := m } }

/-- The block behind a live pointer. -/
def blockAt (s : St) (p : Nat) : Block := ⟨p, payload s p⟩

/-- The byte is in no region of the heap. -/
def Outside (s : St) (x : Nat) : Prop := ∀ r ∈ s.heap.regions, x < r.1 ∨ r.1 + r.2 ≤ x

/-- The byte is in a live payload. -/
def Used (s : St) (live : List Nat) (x : Nat) : Prop := ∃ p ∈ live, (blockAt s p).Has x

/-- No block that is handed out later has the byte. -/
def Steady (s : St) (live : List Nat) (x : Nat) : Prop :=
  Used s live x ∨ Outside s x ∧ Pmm.bitmap_test s.pmm (x / PAGE_SIZE) = true

/-- A block of `size` bytes was handed out, of memory that was nobody's, and what was somebody's is as it was. -/
structure Fresh (s : St) (live : List Nat) (size r : Nat) (s' : St) : Prop where
  real : (blockAt s' r).Real
  size_le : size ≤ payload s' r
  apart : ∀ x, (blockAt s' r).Has x → ¬ Steady s live x
  payload : ∀ p ∈ live, payload s' p = payload s p
  mem : ∀ x, Steady s live x → s'.heap.mem x = s.heap.mem x

section
variable {s s' : St} {live : List Nat} {held : List Pmm.Grant} {segs : List (List Heap.Blk)} {size p x : Nat}

theorem payload_of_mem {bs : List Heap.Blk} {b : Heap.Blk} (hrep : Heap.Rep s.heap.mem bs) (hb : b ∈ bs) :
    payload s (b.addr + Heap.BLOCK) = b.size := by
  obtain ⟨nx, pv, hblk⟩ := hrep.block_of_mem hb
  unfold payload
  rw [sub64_block _ (hrep.pos b hb).2, hblk]

/-- The block of a live pointer, in the list. -/
theorem Inv.blk (hi : Inv s live held segs) (hp : p ∈ live) :
    ∃ b ∈ segs.flatten, b.free = false ∧ b.addr + Heap.BLOCK = p ∧ payload s p = b.size ∧
      ∀ x, (blockAt s p).Has x ↔ b.Holds x := by
  obtain ⟨b, hb, hbf, rfl⟩ := hi.heap.live p hp
  have hsize := payload_of_mem hi.heap.rep hb
  refine ⟨b, hb, hbf, rfl, hsize, fun x => ?_⟩
  unfold blockAt Block.Has Heap.Blk.Holds Heap.Blk.stop
  rw [hsize]

/-- A byte of a live payload is in no header. -/
theorem Inv.used_off (hi : Inv s live held segs) (hx : Used s live x) : Heap.OffHeaders segs.flatten x := by
  obtain ⟨p, hp, hx⟩ := hx
  obtain ⟨b, hb, -, -, -, hhas⟩ := hi.blk hp
  exact hi.heap.sound.off_headers hb ((hhas x).1 hx)

/-- A byte outside the heap is in no block. -/
theorem Inv.outside_off (hi : Inv s live held segs) (hx : Outside s x) :
    ∀ b ∈ segs.flatten, x < b.addr ∨ b.stop ≤ x := by
  intro b hb
  obtain ⟨r, hr, h1, h2⟩ := Heap.fills_mem hi.heap.fills b hb
  have := hx r hr
  omega

theorem Inv.supplied (hi : Inv s live held segs) : Heap.Supplied segs.flatten size [answer s size] := by
  intro a ha hne
  obtain ⟨h64, hap⟩ := hi.grants a ha hne
  refine ⟨h64, fun b hb => ?_⟩
  obtain ⟨r, hr, h1, h2⟩ := Heap.fills_mem hi.heap.fills b hb
  have := hap r hr
  unfold Heap.Blk.stop at h2
  unfold Apart at this ⊢
  omega

/-- New pages were clear. -/
theorem Inv.answer_clear (hi : Inv s live held segs) (h0 : answer s size ≠ 0) (h1 : answer s size ≤ x)
    (h2 : x < answer s size + Heap.expand_pages (Heap.request size) * PAGE_SIZE) :
    Pmm.bitmap_test s.pmm (x / PAGE_SIZE) = false := by
  unfold answer at h0 h1 h2
  rcases hi.ledger.alloc_cases (expand_pages_lt (Heap.request size)) with ⟨-, he⟩ | ⟨-, q, -, hrun, he⟩
  · rw [he] at h0
    exact absurd rfl h0
  · rw [he] at h1 h2
    dsimp only at h1 h2
    have hclear := hrun.2 (x / PAGE_SIZE - q) (by unfold PAGE_SIZE at *; omega)
    rwa [show q + (x / PAGE_SIZE - q) = x / PAGE_SIZE by unfold PAGE_SIZE at *; omega] at hclear

/-- A steady byte is in no header, and not in the memory that a new block comes from. -/
theorem Inv.steady_off {lo top : Nat} (hi : Inv s live held segs) (hx : Steady s live x)
    (hsrc : Heap.Source segs.flatten size [answer s size] lo top) :
    Heap.OffHeaders segs.flatten x ∧ (x < lo ∨ top ≤ x) := by
  rcases hx with hused | ⟨hout, hset⟩
  · refine ⟨hi.used_off hused, ?_⟩
    obtain ⟨p, hp, hx⟩ := hused
    obtain ⟨b, hb, hbf, -, -, hhas⟩ := hi.blk hp
    obtain ⟨h1, h2⟩ := (hhas x).1 hx
    unfold Heap.Blk.stop at h2
    rcases hsrc with ⟨d, hd, hdf, rfl, rfl⟩ | ⟨hne, rfl, rfl⟩
    · have hbd : b ≠ d := by
        rintro rfl
        rw [hbf] at hdf
        cases hdf
      have hap := hi.heap.sound.apart.forall hb hd hbd
      unfold Heap.BlkApart Apart at hap
      unfold Heap.Blk.stop
      omega
    · have hap := (hi.supplied _ (List.mem_singleton_self _) hne).2 b hb
      rw [List.headD_cons]
      unfold Apart at hap
      omega
  · have hoff := hi.outside_off hout
    refine ⟨fun b hb => ?_, ?_⟩
    · have := hoff b hb
      unfold Heap.Blk.stop at this
      omega
    rcases hsrc with ⟨d, hd, -, rfl, rfl⟩ | ⟨hne, rfl, rfl⟩
    · exact hoff d hd
    · rw [List.headD_cons] at hne ⊢
      by_contra hin
      have hclear := hi.answer_clear hne (by omega) (by omega : x < _)
      rw [hset] at hclear
      cases hclear

/-- `kmalloc` hands out memory that was nobody's, or returns NULL and changes nothing. -/
theorem Inv.kmalloc_frame (hi : Inv s live held segs) (hsize : size ≤ 2 ^ 63) :
    Backed.kmalloc s size = some (0, s) ∨
      ∃ r s' segs', Backed.kmalloc s size = some (r, s') ∧ r ≠ 0 ∧ Inv s' (r :: live) held segs' ∧ Fresh s live size r s' := by
  by_cases h0 : size = 0
  · exact .inl (by rw [Backed.kmalloc, if_pos h0])
  obtain ⟨hpos, hle, hmax⟩ := Heap.request_bounds hsize
  rcases hi.kmalloc_cases h0 with ⟨-, -, r, s', segs', hs⟩ | ⟨-, -, hcall, -⟩ | ⟨-, -, -, hlt, -⟩
  · obtain ⟨bs', lo, top, hd, hsrc⟩ := hi.heap.sound.kmalloc_from hsize hi.supplied hs.heap_call hs.ne_zero
    obtain ⟨c, hc, rfl, hlo, htop, hcs⟩ := hd.block
    have hpay := payload_of_mem hd.rep hc
    have hstop : c.addr + Heap.BLOCK + c.size ≤ 2 ^ 64 := by
      obtain ⟨b, hb, hba, -, -⟩ := hs.fits
      have hbs := payload_of_mem hs.inv.heap.rep hb
      rw [hba, hpay] at hbs
      have := hs.inv.heap.sound.bound b hb
      unfold Heap.Blk.stop at this
      omega
    refine .inr ⟨_, s', segs', hs.call, hs.ne_zero, hs.inv, ⟨⟨?_, ?_, ?_⟩, ?_, fun x hx hst => ?_, fun p hp => ?_, fun x hx => ?_⟩⟩
    · show 0 < c.addr + Heap.BLOCK
      unfold Heap.BLOCK
      omega
    · show 0 < payload s' _
      rw [hpay]
      omega
    · show _ + payload s' _ ≤ 2 ^ 64
      rw [hpay]
      exact hstop
    · rw [hpay]
      exact hcs
    · have hx' : c.addr + Heap.BLOCK ≤ x ∧ x < c.addr + Heap.BLOCK + payload s' _ := hx
      rw [hpay] at hx'
      have := (hi.steady_off hst hsrc).2
      unfold Heap.Blk.stop at htop
      omega
    · obtain ⟨b, hb, hbf, rfl, hbs, -⟩ := hi.blk hp
      rw [hbs, payload_of_mem hd.rep (hd.keeps b hb hbf)]
    · obtain ⟨h1, h2⟩ := hi.steady_off hx hsrc
      exact hd.off x h1 h2
  · exact .inl hcall
  · have := (Heap.expand_room hmax).1
    omega

/-- `kfree` changes no payload and nothing outside the heap. -/
theorem Inv.kfree_frame (hi : Inv s live held segs) (hp : p ∈ live) (hok : Heap.ReleaseOk s.heap p) :
    (∃ segs', Inv { s with heap := Heap.kfree s.heap p } (live.filter (· ≠ p)) held segs') ∧
      (∀ q ∈ live, q ≠ p → payload { s with heap := Heap.kfree s.heap p } q = payload s q) ∧
      ∀ x, Used s live x ∨ Outside s x → (Heap.kfree s.heap p).mem x = s.heap.mem x := by
  obtain ⟨segs', hheap⟩ := hi.heap.kfree hp hok
  obtain ⟨b, hb, hbf, rfl, -, -⟩ := hi.blk hp
  have hs := hi.heap.sound
  obtain ⟨pre, post, hsplit⟩ := List.append_of_mem hb
  rw [hsplit] at hs
  obtain ⟨bs', hrep, -, hmem, hoff⟩ := hs.kfree hbf
  rw [← hsplit] at hoff
  refine ⟨⟨segs', hi.withHeap hheap (Heap.kfree_regions _ _)⟩, fun q hq hne => ?_, fun x hx => hoff x ?_⟩
  · obtain ⟨d, hd, hdf, rfl, hds, -⟩ := hi.blk hq
    have hdb : d ≠ b := by
      rintro rfl
      exact hne rfl
    rw [hsplit] at hd
    have hd' : d ∈ pre ∨ d = b ∨ d ∈ post := by simpa using hd
    have hkept := (hmem d hdf).2 (hd'.imp_right (·.resolve_left hdb))
    rw [hds]
    exact payload_of_mem (s := { s with heap := Heap.kfree s.heap (b.addr + Heap.BLOCK) }) hrep hkept
  · rcases hx with hx | hx
    · exact hi.used_off hx
    · intro b hb
      have := hi.outside_off hx b hb
      unfold Heap.Blk.stop at this
      omega

/-- Writes into live payloads and outside the heap. -/
theorem Inv.scribble {m : Mem} (hi : Inv s live held segs)
    (hm : ∀ x, m x ≠ s.heap.mem x → Used s live x ∨ Outside s x) :
    Inv (s.withMem m) live held segs ∧ ∀ p ∈ live, payload (s.withMem m) p = payload s p := by
  have hhdr : ∀ b ∈ segs.flatten, ∀ x, b.addr ≤ x → x < b.addr + Heap.BLOCK → m x = s.heap.mem x := by
    intro b hb x h1 h2
    by_contra hne
    rcases hm x hne with hx | hx
    · have := hi.used_off hx b hb
      omega
    · have := hi.outside_off hx b hb
      unfold Heap.Blk.stop at this
      omega
  have hrep : Heap.Rep m segs.flatten :=
    ⟨hi.heap.rep.toSpaced, hi.heap.rep.linked.congr (fun b hb => Heap.block_congr (hhdr b hb))⟩
  refine ⟨hi.withHeap ⟨hrep, hi.heap.head, hi.heap.fills, hi.heap.apart, hi.heap.bound, hi.heap.used, hi.heap.total,
    hi.heap.live⟩ rfl, fun p hp => ?_⟩
  obtain ⟨b, hb, -, rfl, hbs, -⟩ := hi.blk hp
  rw [hbs]
  exact payload_of_mem (s := s.withMem m) hrep hb

end

/-! ## A supply of blocks -/

/-- `live` are the blocks that the heap has handed out. -/
structure Supplies (k : St) (live : List Block) (held : List Pmm.Grant) : Prop where
  inUse : InUse live
  inv : ∃ segs, Inv k (live.map Block.start) held segs
  sizes : ∀ b ∈ live, payload k b.start = b.len

section
variable {k : St} {live : List Block} {held : List Pmm.Grant} {size p x : Nat}

theorem Supplies.block_eq (hk : Supplies k live held) {b : Block} (hb : b ∈ live) : blockAt k b.start = b :=
  congrArg (Block.mk b.start) (hk.sizes b hb)

theorem Supplies.used (hk : Supplies k live held) : Used k (live.map Block.start) x ↔ ∃ b ∈ live, b.Has x := by
  constructor
  · rintro ⟨p, hp, hx⟩
    obtain ⟨b, hb, rfl⟩ := List.mem_map.1 hp
    exact ⟨b, hb, hk.block_eq hb ▸ hx⟩
  · rintro ⟨b, hb, hx⟩
    exact ⟨b.start, List.mem_map_of_mem hb, (hk.block_eq hb).symm ▸ hx⟩

/-- A block in use lies in the heap. -/
theorem Supplies.inside (hk : Supplies k live held) {b : Block} (hb : b ∈ live) (hx : b.Has x) : ¬ Outside k x := by
  intro hout
  obtain ⟨segs, hi⟩ := hk.inv
  obtain ⟨c, hc, -, -, -, hhas⟩ := hi.blk (List.mem_map_of_mem hb)
  rw [hk.block_eq hb] at hhas
  have hin := (hhas x).1 hx
  have := hi.outside_off hout c hc
  unfold Heap.Blk.Holds at hin
  unfold Heap.Blk.stop at hin this
  omega

/-- No block is larger than 2 GiB. -/
theorem Supplies.len_le (hk : Supplies k live held) {b : Block} (hb : b ∈ live) : b.len ≤ 2 ^ 31 := by
  obtain ⟨segs, hi⟩ := hk.inv
  obtain ⟨c, hc, -, -, hsize, -⟩ := hi.blk (List.mem_map_of_mem hb)
  rw [← hk.sizes b hb, hsize]
  exact hi.block_le hc

theorem Supplies.kmalloc (hk : Supplies k live held) (hsize : size ≤ 2 ^ 63) :
    Backed.kmalloc k size = some (0, k) ∨
      ∃ b k', Backed.kmalloc k size = some (b.start, k') ∧ Supplies k' (b :: live) held ∧ size ≤ b.len ∧
        (∀ x, b.Has x → ¬ Steady k (live.map Block.start) x) ∧
        ∀ x, Steady k (live.map Block.start) x → k'.heap.mem x = k.heap.mem x := by
  obtain ⟨segs, hi⟩ := hk.inv
  rcases hi.kmalloc_frame hsize with hnone | ⟨r, k', segs', hcall, -, hi', hf⟩
  · exact .inl hnone
  refine .inr ⟨blockAt k' r, k', hcall, ⟨?_, ⟨segs', hi'⟩, fun b hb => ?_⟩, hf.size_le, hf.apart, hf.mem⟩
  · exact hk.inUse.cons hf.real fun c hc x hx hcx => hf.apart x hx (.inl (hk.used.2 ⟨c, hc, hcx⟩))
  · rcases List.mem_cons.1 hb with rfl | hb
    · rfl
    · rw [hf.payload b.start (List.mem_map_of_mem hb), hk.sizes b hb]

theorem Supplies.kfree (hk : Supplies k live held) (hp : ∃ b ∈ live, b.start = p) (hok : Heap.ReleaseOk k.heap p) :
    Supplies { k with heap := Heap.kfree k.heap p } (release p live) held ∧
      ∀ x, (∃ b ∈ live, b.Has x) ∨ Outside k x → (Heap.kfree k.heap p).mem x = k.heap.mem x := by
  obtain ⟨segs, hi⟩ := hk.inv
  obtain ⟨b, hb, rfl⟩ := hp
  obtain ⟨⟨segs', hi'⟩, hpay, hmem⟩ := hi.kfree_frame (List.mem_map_of_mem hb) hok
  refine ⟨⟨hk.inUse.release _, ⟨segs', hi'.mono fun q hq => ?_⟩, fun c hc => ?_⟩, fun x hx => hmem x (hx.imp_left hk.used.2)⟩
  · obtain ⟨c, hc, rfl⟩ := List.mem_map.1 hq
    obtain ⟨hc, hne⟩ := hk.inUse.mem_release.1 hc
    exact List.mem_filter.2 ⟨List.mem_map_of_mem hc, by simpa using hne⟩
  · obtain ⟨hc, hne⟩ := hk.inUse.mem_release.1 hc
    rw [hpay c.start (List.mem_map_of_mem hc) hne, hk.sizes c hc]

theorem Supplies.scribble {m : Mem} (hk : Supplies k live held)
    (hm : ∀ x, m x ≠ k.heap.mem x → (∃ b ∈ live, b.Has x) ∨ Outside k x) : Supplies (k.withMem m) live held := by
  obtain ⟨segs, hi⟩ := hk.inv
  obtain ⟨hi', hpay⟩ := hi.scribble fun x hx => (hm x hx).imp_left hk.used.2
  exact ⟨hk.inUse, ⟨segs, hi'⟩, fun b hb => (hpay b.start (List.mem_map_of_mem hb)).trans (hk.sizes b hb)⟩

end

end H3OS.Backed
