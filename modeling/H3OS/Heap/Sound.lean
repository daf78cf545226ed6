import H3OS.Heap.Invariant
/-!
# Heap lists whose blocks are apart

What handing out and releasing do to any list of blocks that is linked and
whose blocks do not overlap, wherever the blocks lie. Every write lands in a
header of the list, in the free block that is handed out or in a new region,
so a payload in use keeps its bytes.
-/
open SysLib

namespace H3OS.Heap

/-! ## Writes to headers -/

/-- `x` is in no header of the list. -/
def OffHeaders (bs : List Blk) (x : Nat) : Prop := ∀ b ∈ bs, x < b.addr ∨ b.addr + BLOCK ≤ x

section
variable {m : Mem} {a v x : Nat} {post : List Blk}

theorem setMagic_off (h : x < a ∨ a + BLOCK ≤ x) : setMagic m a v x = m x := store_out (by unfold BLOCK at h; omega)

theorem setSize_off (h : x < a ∨ a + BLOCK ≤ x) : setSize m a v x = m x := store_out (by unfold BLOCK at h; omega)

theorem setFree_off {f : Bool} (h : x < a ∨ a + BLOCK ≤ x) : setFree m a f x = m x := store_out (by unfold BLOCK at h; omega)

theorem setNext_off (h : x < a ∨ a + BLOCK ≤ x) : setNext m a v x = m x := store_out (by unfold BLOCK at h; omega)

theorem setPrev_off (h : x < a ∨ a + BLOCK ≤ x) : setPrev m a v x = m x := store_out (by unfold BLOCK at h; omega)

theorem relink_off (h : OffHeaders post x) : relink m (first 0 post) v x = m x := by
  unfold relink
  split
  · cases post with
    | nil => simp [first] at *
    | cons z post => exact setPrev_off (h z (by simp))
  · rfl

theorem newBlock_off {size next prev : Nat} (h : x < a ∨ a + BLOCK ≤ x) : newBlock m a size next prev x = m x := by
  unfold newBlock
  rw [setPrev_off h, setNext_off h, setFree_off h, setSize_off h, setMagic_off h]

theorem absorb_off (h : x < a ∨ a + BLOCK ≤ x) (hp : OffHeaders post x) : absorb m a v (first 0 post) x = m x := by
  unfold absorb
  rw [relink_off hp, setNext_off h, setSize_off h]

end

/-! ## Blocks in place of a block -/

section
variable {s : St} {m : Mem} {bs pre post mid : List Blk} {b c : Blk} {size : Nat}

theorem spaced_of_apart (h : bs.Pairwise BlkApart) (h0 : ∀ b ∈ bs, 0 < b.addr) (h64 : ∀ b ∈ bs, b.stop ≤ 2 ^ 64) :
    Spaced bs := by
  refine ⟨h.imp ?_, fun b hb => ⟨h0 b hb, ?_⟩⟩
  · intro b c hbc
    unfold BlkApart Apart at hbc
    unfold HdrApart Apart
    omega
  · have := h64 b hb
    unfold Blk.stop BLOCK at this
    omega

/-- Blocks inside `b` that are apart may stand in its place. -/
theorem apart_refine (h : (pre ++ b :: post).Pairwise BlkApart) (hin : ∀ c ∈ mid, b.addr ≤ c.addr ∧ c.stop ≤ b.stop)
    (hmid : mid.Pairwise BlkApart) : (pre ++ (mid ++ post)).Pairwise BlkApart := by
  obtain ⟨hpre, hb, hsides⟩ := List.pairwise_append.1 h
  obtain ⟨hb, hpost⟩ := List.pairwise_cons.1 hb
  have hinside : ∀ c ∈ mid, ∀ d, BlkApart b d → BlkApart c d := by
    intro c hc d hd
    have := hin c hc
    unfold Blk.stop at this
    unfold BlkApart Apart at *
    omega
  refine List.pairwise_append.2 ⟨hpre, List.pairwise_append.2 ⟨hmid, hpost, ?_⟩, ?_⟩
  · intro c hc d hd
    exact hinside c hc d (hb d hd)
  · intro d hd c hc
    rcases List.mem_append.1 hc with hc | hc
    · exact (hinside c hc d (hsides d hd b (by simp)).symm).symm
    · exact hsides d hd c (by simp [hc])

/-- A heap list in memory: linked, inside the address space, and no two of its blocks overlap. -/
structure Sound (s : St) (bs : List Blk) : Prop where
  rep : Rep s.mem bs
  head : s.heap_head = first 0 bs
  apart : bs.Pairwise BlkApart
  bound : ∀ b ∈ bs, b.stop ≤ 2 ^ 64

/-- `x` is a byte of the block's payload. -/
def Blk.Holds (b : Blk) (x : Nat) : Prop := b.addr + BLOCK ≤ x ∧ x < b.stop

/-- The bytes of a payload are in no header. -/
theorem Sound.off_headers {x : Nat} (hs : Sound s bs) (hb : b ∈ bs) (hx : b.Holds x) : OffHeaders bs x := by
  intro c hc
  obtain ⟨h1, h2⟩ := hx
  by_cases hbc : b = c
  · subst hbc
    exact .inr h1
  · have hap := hs.apart.forall hb hc hbc
    unfold Blk.stop at h2
    unfold BlkApart Apart at hap
    omega

/-- Blocks that tile `b` are apart from all others, inside the address space and behind address 0. -/
theorem Sound.tiled (hs : Sound s (pre ++ b :: post)) (ht : Tiles Blk.addr Blk.stop b.addr mid b.stop) :
    (pre ++ (mid ++ post)).Pairwise BlkApart ∧ ∀ c ∈ pre ++ (mid ++ post), 0 < c.addr ∧ c.stop ≤ 2 ^ 64 := by
  have hin := ht.bounds Blk.addr_le_stop
  refine ⟨apart_refine hs.apart hin ((ht.ordered Blk.addr_le_stop).imp ?_), ?_⟩
  · intro c d hcd
    unfold Blk.stop at hcd
    exact .inl (by omega)
  · intro c hc
    rcases List.mem_append.1 hc with hc | hc
    · exact ⟨(hs.rep.pos c (by simp [hc])).1, hs.bound c (by simp [hc])⟩
    rcases List.mem_append.1 hc with hc | hc
    · have hpos := (hs.rep.pos b (by simp)).1
      have hstop := hs.bound b (by simp)
      have := hin c hc
      omega
    · exact ⟨(hs.rep.pos c (by simp [hc])).1, hs.bound c (by simp [hc])⟩

/-- Blocks that tile `b` may stand in its place, once memory holds them. -/
theorem Sound.refine {u k : Nat} (hs : Sound s (pre ++ b :: post)) (ht : Tiles Blk.addr Blk.stop b.addr (c :: mid) b.stop)
    (hrep : Rep m (pre ++ c :: (mid ++ post))) :
    Sound { s with mem := m, heap_used := u, heap_allocs := k } (pre ++ c :: (mid ++ post)) := by
  obtain ⟨hap, hb⟩ := hs.tiled ht
  refine ⟨hrep, ?_, hap, fun d hd => (hb d hd).2⟩
  refine hs.head.trans ?_
  simp only [first_append, first_cons]
  rw [ht.1]

/-! ## Handing out -/

/-- The splitting of a block writes into that block and into headers. -/
theorem Rep.split_off {x : Nat} (h : Rep m (pre ++ b :: post)) (hfit : size + BLOCK ≤ b.size) (hstop : b.stop ≤ 2 ^ 64)
    (hx : OffHeaders (pre ++ b :: post) x) (hb : x < b.addr ∨ b.stop ≤ x) : split_block m b.addr size x = m x := by
  have hxb := hx b (by simp)
  have hxp : OffHeaders post x := fun c hc => hx c (by simp [hc])
  have hxn : x < b.addr + BLOCK + size ∨ b.addr + BLOCK + size + BLOCK ≤ x := by
    unfold Blk.stop at hb
    omega
  rw [h.split_eq rfl hfit hstop, setSize_off hxb, setNext_off hxb, relink_off hxp, newBlock_off hxn]

/-- `take_block` puts a block in use, with what it cuts off as a free block behind it, in the place of a free block. -/
theorem Sound.take (hs : Sound s (pre ++ b :: post)) (h0 : 0 < size) (hfit : size ≤ b.size) (h64 : size + 72 < 2 ^ 64) :
    ∃ m' c rest, take_block s b.addr size = (b.addr + BLOCK,
        { s with mem := m', heap_used := add64 s.heap_used c.size, heap_allocs := add64 s.heap_allocs 1 }) ∧
      Rep m' (pre ++ c :: (rest ++ post)) ∧ Tiles Blk.addr Blk.stop b.addr (c :: rest) b.stop ∧
      c.free = false ∧ size ≤ c.size ∧ (rest = [] ∨ ∃ y, rest = [y] ∧ y.free = true) ∧
      ∀ x, OffHeaders (pre ++ b :: post) x → (x < b.addr ∨ b.stop ≤ x) → m' x = s.mem x := by
  have hstop := hs.bound b (by simp)
  have hstop' : b.addr + 40 + b.size ≤ 2 ^ 64 := hstop
  have hlim : add64 (add64 size BLOCK) HEAP_MIN = size + 72 := by
    unfold BLOCK HEAP_MIN
    rw [add64_of_lt (a := size) (by omega), add64_of_lt (by omega)]
  have hptr : add64 b.addr BLOCK = b.addr + BLOCK := add64_of_lt (by unfold BLOCK; omega)
  unfold take_block
  rw [hlim, hptr, hs.rep.middle]
  dsimp only
  by_cases hsplit : size + 72 ≤ b.size
  · have hle : size + BLOCK ≤ b.size := by unfold BLOCK; omega
    have ht : Tiles Blk.addr Blk.stop b.addr [{ b with size := size, free := false },
        ⟨b.addr + BLOCK + size, b.size - size - BLOCK, true⟩] b.stop := by
      refine ⟨rfl, rfl, ?_⟩
      simp only [tiles_nil, Blk.stop]
      omega
    have hrep : Rep (split_block s.mem b.addr size) (pre ++ { b with size := size } ::
        ⟨b.addr + BLOCK + size, b.size - size - BLOCK, true⟩ :: post) := by
      refine hs.rep.split rfl hle hstop ?_
      obtain ⟨hap, hin⟩ := hs.tiled ht
      exact (spaced_of_apart hap (fun c hc => (hin c hc).1) (fun c hc => (hin c hc).2)).replace rfl
    rw [if_pos hsplit]
    have hmid : block (setFree (split_block s.mem b.addr size) b.addr false) b.addr = _ := (hrep.setFree false).middle
    rw [hmid]
    exact ⟨_, { b with size := size, free := false }, [_], rfl, hrep.setFree false, ht, rfl, le_refl _, .inr ⟨_, rfl, rfl⟩,
      fun x hx hb => by rw [setFree_off (hx b (by simp)), hs.rep.split_off hle hstop hx hb]⟩
  · rw [if_neg hsplit]
    have hmid : block (setFree s.mem b.addr false) b.addr = _ := (hs.rep.setFree false).middle
    rw [hmid]
    exact ⟨_, { b with free := false }, [], rfl, hs.rep.setFree false, ⟨rfl, rfl⟩, rfl, hfit, .inl rfl,
      fun x hx _ => setFree_off (hx b (by simp))⟩

/-! ## Growing -/

/-- A new region, apart from all blocks, is one more block, free and first in the list. -/
theorem Sound.add {addr : Nat} (hs : Sound s bs) (hsize : BLOCK + HEAP_MIN ≤ size) (h0 : 0 < addr)
    (h64 : addr + size ≤ 2 ^ 64) (hap : ∀ b ∈ bs, Apart addr size b.addr (BLOCK + b.size)) :
    Sound (heap_add_region s addr size) (⟨addr, size - BLOCK, true⟩ :: bs) ∧
      ∀ x, OffHeaders bs x → (x < addr ∨ addr + size ≤ x) → (heap_add_region s addr size).mem x = s.mem x := by
  unfold BLOCK HEAP_MIN at hsize
  have hstop : (⟨addr, size - BLOCK, true⟩ : Blk).stop = addr + size := by
    simp only [Blk.stop, BLOCK]
    omega
  have hapart : (⟨addr, size - BLOCK, true⟩ :: bs).Pairwise BlkApart := by
    refine List.pairwise_cons.2 ⟨fun b hb => ?_, hs.apart⟩
    have := hap b hb
    simp only [BlkApart, Apart, BLOCK] at *
    omega
  have hbound : ∀ b ∈ (⟨addr, size - BLOCK, true⟩ :: bs : List Blk), b.stop ≤ 2 ^ 64 := by
    intro b hb
    rcases List.mem_cons.1 hb with rfl | hb
    · exact hstop.trans_le h64
    · exact hs.bound b hb
  have hspaced : Spaced (⟨addr, size - BLOCK, true⟩ :: bs) := by
    refine spaced_of_apart hapart (fun b hb => ?_) hbound
    rcases List.mem_cons.1 hb with rfl | hb
    · exact h0
    · exact (hs.rep.pos b hb).1
  unfold heap_add_region
  rw [if_neg (by unfold BLOCK HEAP_MIN; omega), hs.head]
  refine ⟨⟨hs.rep.push hspaced (by omega), rfl, hapart, hbound⟩, fun x hx hxr => ?_⟩
  refine (relink_off hx).trans (newBlock_off ?_)
  unfold BLOCK
  omega

theorem request_bounds {size : Nat} (h : size ≤ 2 ^ 63) :
    0 < request size ∧ size ≤ request size ∧ request size ≤ 2 ^ 63 + 32 := by
  have hup : H3OS_ALIGN_UP size HEAP_ALIGN = (size + 15) / 16 * 16 := align_up_eq (k := 4) (by norm_num) (by omega)
  unfold request HEAP_MIN
  rw [hup]
  split <;> omega

/-- The new region has room for what was asked. -/
theorem expand_room {need : Nat} (h : need ≤ 2 ^ 63 + 32) :
    need + BLOCK + PAGE_SIZE ≤ expand_pages need * PAGE_SIZE ∧ expand_pages need * PAGE_SIZE < 2 ^ 64 := by
  have hup : H3OS_ALIGN_UP (need + 40 + 4096) 4096 = (need + 40 + 4096 + 4095) / 4096 * 4096 :=
    align_up_eq (k := 12) (by norm_num) (by omega)
  unfold expand_pages BLOCK PAGE_SIZE
  rw [add64_of_lt (a := need) (by omega), add64_of_lt (by omega), hup]
  omega

/-- The new region is one block that fits. -/
theorem expand_serves {need : Nat} (h : need ≤ 2 ^ 63 + 32) :
    BLOCK + HEAP_MIN ≤ expand_pages need * PAGE_SIZE ∧ need ≤ expand_pages need * PAGE_SIZE - BLOCK := by
  obtain ⟨hroom, -⟩ := expand_room h
  unfold BLOCK PAGE_SIZE at *
  unfold HEAP_MIN
  omega

/-! ## kmalloc -/

theorem Sound.find_fit (hs : Sound s bs) (size : Nat) :
    (find_fit s.mem size FUEL s.heap_head = some 0 ∧ ∀ b ∈ bs, b.free = true → b.size < size) ∨
    ∃ pre b post, bs = pre ++ b :: post ∧ Heap.find_fit s.mem size FUEL s.heap_head = some b.addr ∧ 0 < b.addr ∧
      b.free = true ∧ size ≤ b.size := by
  rw [hs.head]
  rcases find_fit_spec hs.rep.linked (fun b hb => (hs.rep.pos b hb).1) hs.rep.length_lt with h | ⟨pre, b, post, hm, hf, hb⟩
  · exact .inl h
  · exact .inr ⟨pre, b, post, hm, hf, (hs.rep.pos b (by rw [hm]; simp)).1, hb⟩

theorem attempts_fit {size k b : Nat} {pmm : List Nat} (h : find_fit s.mem size FUEL s.heap_head = some b) (h0 : 0 < b) :
    attempts size (k + 1) s pmm = some (take_block s b size) := by
  unfold attempts
  rw [h]
  cases b with
  | zero => simp at h0
  | succ b => rfl

theorem attempts_grow {size k : Nat} {pmm : List Nat} (h : find_fit s.mem size FUEL s.heap_head = some 0) :
    attempts size (k + 1) s pmm = if pmm.headD 0 = 0 then some (0, s)
      else attempts size k (heap_add_region s (pmm.headD 0) (expand_pages size * PAGE_SIZE)) pmm.tail := by
  rw [attempts, h]
  unfold expand_heap
  split_ifs <;> rfl

/-- A call hands out a free block that fits, or asks the page allocator when there is none. -/
theorem Sound.kmalloc_cases (hs : Sound s bs) (hz : size ≠ 0) (pmm : List Nat) :
    (∃ pre b post, bs = pre ++ b :: post ∧ b.free = true ∧ request size ≤ b.size ∧
      kmalloc s size pmm = some (take_block s b.addr (request size))) ∨
    (∀ b ∈ bs, b.free = true → b.size < request size) ∧ kmalloc s size pmm = if pmm.headD 0 = 0 then some (0, s) else
      attempts (request size) 1 (heap_add_region s (pmm.headD 0) (expand_pages (request size) * PAGE_SIZE)) pmm.tail := by
  unfold kmalloc
  rw [if_neg hz]
  rcases hs.find_fit (request size) with ⟨hf, hnone⟩ | ⟨pre, b, post, hm, hf, hpos, hb, hfit⟩
  · exact .inr ⟨hnone, attempts_grow hf⟩
  · exact .inl ⟨pre, b, post, hm, hb, hfit, attempts_fit hf hpos⟩

/-- A new region that is large enough is found first. -/
theorem Sound.find_first {addr len : Nat} (hs : Sound s (⟨addr, len, true⟩ :: bs)) (hfit : size ≤ len) :
    Heap.find_fit s.mem size FUEL s.heap_head = some addr := by
  have hne : addr ≠ 0 := Nat.pos_iff_ne_zero.1 (hs.rep.pos ⟨addr, len, true⟩ (by simp)).1
  have hmid : block s.mem addr = _ := hs.rep.linked.1
  rw [hs.head, FUEL, show (2 : Nat) ^ 64 = (2 ^ 64 - 1) + 1 by norm_num, Heap.find_fit, first_cons, if_neg hne, hmid]
  simp [hfit]

theorem Sound.grown {addr len k : Nat} {pmm : List Nat} (hs : Sound s (⟨addr, len, true⟩ :: bs)) (hfit : size ≤ len) :
    attempts size (k + 1) s pmm = some (take_block s addr size) :=
  attempts_fit (hs.find_first hfit) (hs.rep.pos ⟨addr, len, true⟩ (by simp)).1

/-- What `pmm_alloc_pages` answers is 0 or memory that no block has. -/
def Supplied (bs : List Blk) (size : Nat) (pmm : List Nat) : Prop :=
  ∀ a ∈ pmm, a ≠ 0 → a + expand_pages (request size) * PAGE_SIZE ≤ 2 ^ 64 ∧
    ∀ b ∈ bs, Apart a (expand_pages (request size) * PAGE_SIZE) b.addr (BLOCK + b.size)

/-- What a call that hands out `p` for `size` bytes leaves behind. -/
structure Handed (s : St) (bs : List Blk) (size p : Nat) (s' : St) (bs' : List Blk) : Prop where
  sound : Sound s' bs'
  fits : p ≠ 0 → ∃ c ∈ bs', c.addr + BLOCK = p ∧ c.free = false ∧ size ≤ c.size ∧
    ∀ b ∈ bs, b.free = false → b.addr ≠ c.addr
  keeps : ∀ b ∈ bs, b.free = false → b ∈ bs' ∧ ∀ x, b.Holds x → s'.mem x = s.mem x

/-- Handing out a free block leaves those in use alone. -/
theorem Sound.handed (hs : Sound s (pre ++ b :: post)) (hb : b.free = true) (h0 : 0 < size) (hfit : size ≤ b.size)
    (h64 : size + 72 < 2 ^ 64) :
    ∃ s' bs', take_block s b.addr size = (b.addr + BLOCK, s') ∧ Handed s (pre ++ b :: post) size (b.addr + BLOCK) s' bs' := by
  obtain ⟨m', c, rest, he, hrep, ht, hcf, hcs, -, hoff⟩ := hs.take h0 hfit h64
  have hne : ∀ d, d.free = false → b ≠ d := by
    rintro d hdf rfl
    simp [hb] at hdf
  refine ⟨_, _, he, hs.refine ht hrep, fun _ => ⟨c, by simp, by rw [ht.1], hcf, hcs, fun d hd hdf hdc => ?_⟩,
    fun d hd hdf => ?_⟩
  · exact hne d hdf (hs.rep.eq_of_addr (by simp) hd (hdc.trans ht.1).symm)
  have hdb := hne d hdf
  refine ⟨?_, fun x hx => hoff x (hs.off_headers hd hx) ?_⟩
  · have hmem : d ∈ pre ∨ d = b ∨ d ∈ post := by simpa using hd
    rcases hmem with hd | rfl | hd
    · simp [hd]
    · exact absurd rfl hdb
    · simp [hd]
  · have hap := hs.apart.forall (by simp : b ∈ pre ++ b :: post) hd hdb
    unfold Blk.Holds Blk.stop at hx
    unfold BlkApart Apart at hap
    unfold Blk.stop
    omega

/-- A call to `kmalloc` returns; it hands out a block of at least the size asked for, or nothing and changes nothing. -/
theorem Sound.kmalloc {pmm : List Nat} (hs : Sound s bs) (hsize : size ≤ 2 ^ 63) (hg : Supplied bs size pmm) :
    ∃ p s' bs', kmalloc s size pmm = some (p, s') ∧ Handed s bs size p s' bs' ∧ (p = 0 → s' = s) := by
  have hnothing : Handed s bs size 0 s bs := ⟨hs, fun h => absurd rfl h, fun b hb _ => ⟨hb, fun _ _ => rfl⟩⟩
  by_cases hz : size = 0
  · exact ⟨0, s, bs, by rw [Heap.kmalloc, if_pos hz], hnothing, fun _ => rfl⟩
  obtain ⟨h0, hle, hmax⟩ := request_bounds hsize
  have hne : ∀ a, a + BLOCK = 0 → False := by
    intro a ha
    unfold BLOCK at ha
    omega
  have hweaken : ∀ {p s' bs'}, Handed s bs (request size) p s' bs' → Handed s bs size p s' bs' := by
    intro p s' bs' h
    refine ⟨h.sound, fun hp => ?_, h.keeps⟩
    obtain ⟨c, hc, hcp, hcf, hcs, hnew⟩ := h.fits hp
    exact ⟨c, hc, hcp, hcf, hle.trans hcs, hnew⟩
  rcases hs.kmalloc_cases hz pmm with ⟨pre, b, post, rfl, hb, hfit, he⟩ | ⟨-, he⟩
  · obtain ⟨s', bs', ht, hd⟩ := hs.handed hb h0 hfit (by omega)
    exact ⟨_, s', bs', by rw [he, ht], hweaken hd, fun h => (hne _ h).elim⟩
  · by_cases ha : pmm.headD 0 = 0
    · exact ⟨0, s, bs, by rw [he, if_pos ha], hnothing, fun _ => rfl⟩
    · have hmem : pmm.headD 0 ∈ pmm := by
        cases pmm with
        | nil => simp at ha
        | cons a pmm => simp
      obtain ⟨h64, hap⟩ := hg _ hmem ha
      obtain ⟨hmin, hlen⟩ := expand_serves hmax
      obtain ⟨hs', hoff⟩ := hs.add hmin (Nat.pos_of_ne_zero ha) h64 hap
      obtain ⟨s', bs', ht, hd⟩ := (show Sound _ ([] ++ _ :: bs) from hs').handed rfl h0 hlen (by omega)
      refine ⟨_, s', bs', by rw [he, if_neg ha, hs'.grown hlen, ht], hweaken ⟨hd.sound, fun hp => ?_, ?_⟩,
        fun h => (hne _ h).elim⟩
      · obtain ⟨c, hc, hcp, hcf, hcs, hnew⟩ := hd.fits hp
        exact ⟨c, hc, hcp, hcf, hcs, fun b hb => hnew b (by simp [hb])⟩
      intro b hb hbf
      obtain ⟨hb', hk⟩ := hd.keeps b (by simp [hb]) hbf
      refine ⟨hb', fun x hx => (hk x hx).trans (hoff x (hs.off_headers hb hx) ?_)⟩
      have := hap b hb
      unfold Blk.Holds Blk.stop at hx
      unfold Apart at this
      omega

/-! ## Writing into a payload -/

/-- Bytes of a payload are the client's. -/
theorem Sound.write (hs : Sound s bs) (hb : b ∈ bs) (hm : ∀ x, ¬ b.Holds x → m x = s.mem x) :
    Sound { s with mem := m } bs := by
  refine ⟨⟨hs.rep.toSpaced, hs.rep.linked.congr (fun c hc => block_congr (fun x h1 h2 => hm x ?_))⟩, hs.head, hs.apart,
    hs.bound⟩
  intro hx
  have := hs.off_headers hb hx c hc
  omega

/-! ## Releasing -/

theorem BlkApart.sum_lt (h : BlkApart b c) (hb : b.stop ≤ 2 ^ 64) (hc : c.stop ≤ 2 ^ 64) :
    b.size + BLOCK + c.size < 2 ^ 64 := by
  unfold BlkApart Apart at h
  unfold Blk.stop BLOCK at *
  omega

/-- The sizes of blocks that are apart add up to less than the address space. -/
theorem BlkApart.sum_lt_of_three {d : Blk} (h1 : BlkApart b c) (h2 : BlkApart b d) (h3 : BlkApart c d)
    (hb : b.stop ≤ 2 ^ 64) (hc : c.stop ≤ 2 ^ 64) (hd : d.stop ≤ 2 ^ 64) :
    b.size + BLOCK + (c.size + BLOCK + d.size) < 2 ^ 64 := by
  unfold BlkApart Apart at h1 h2 h3
  unfold Blk.stop BLOCK at *
  omega

theorem OffHeaders.mono {x : Nat} (h : OffHeaders bs x) (hsub : ∀ c ∈ mid, ∃ b ∈ bs, b.addr = c.addr) : OffHeaders mid x := by
  intro c hc
  obtain ⟨b, hb, hbc⟩ := hsub c hc
  rw [← hbc]
  exact h b hb

/-- The first half of `coalesce` on any list: the block stays where it is, and none in use goes. -/
theorem Rep.next_any (h : Rep m (pre ++ b :: post)) (hsum : ∀ y ∈ post, b.size + BLOCK + y.size < 2 ^ 64) :
    ∃ size post', Rep (merge_next m b.addr) (pre ++ { b with size := size } :: post') ∧
      (size = b.size ∨ ∃ y ∈ post, size = b.size + BLOCK + y.size) ∧ (∀ c ∈ post', c ∈ post) ∧
      (∀ c ∈ post, c.free = false → c ∈ post') ∧ ∀ x, OffHeaders (pre ++ b :: post) x → merge_next m b.addr x = m x := by
  cases post with
  | nil =>
    rw [h.skip_next (by simp)]
    exact ⟨b.size, [], h, .inl rfl, by simp, by simp, fun _ _ => rfl⟩
  | cons y post =>
    by_cases hy : y.free = true
    · have hxy := hsum y (by simp)
      refine ⟨_, post, h.into_next hy hxy, .inr ⟨y, by simp, rfl⟩, fun c hc => by simp [hc], ?_, fun x hx => ?_⟩
      · intro c hc hcf
        rcases List.mem_cons.1 hc with rfl | hc
        · simp [hy] at hcf
        · exact hc
      · rw [h.merge_next_eq hy hxy, absorb_off (hx b (by simp)) (fun c hc => hx c (by simp [hc]))]
    · rw [h.skip_next (by simpa using hy)]
      exact ⟨b.size, y :: post, h, .inl rfl, fun c hc => hc, fun c hc _ => hc, fun _ _ => rfl⟩

/-- The second half on any list. -/
theorem Rep.prev_any (h : Rep m (pre ++ b :: post)) (hb : b.free = true)
    (hsum : ∀ x ∈ pre, x.size + BLOCK + b.size < 2 ^ 64) :
    ∃ bs', Rep (merge_prev m b.addr) bs' ∧ first 0 bs' = first 0 (pre ++ b :: post) ∧
      (∀ c, c.free = false → (c ∈ bs' ↔ c ∈ pre ∨ c ∈ post)) ∧
      ∀ x, OffHeaders (pre ++ b :: post) x → merge_prev m b.addr x = m x := by
  have hskip : (∀ x ∈ pre.getLast?, x.free = false) → ∃ bs', Rep (merge_prev m b.addr) bs' ∧
      first 0 bs' = first 0 (pre ++ b :: post) ∧ (∀ c, c.free = false → (c ∈ bs' ↔ c ∈ pre ∨ c ∈ post)) ∧
      ∀ x, OffHeaders (pre ++ b :: post) x → merge_prev m b.addr x = m x := by
    intro hp
    rw [h.skip_prev hp]
    refine ⟨_, h, rfl, fun c hc => ?_, fun _ _ => rfl⟩
    have hcb : c ≠ b := by
      rintro rfl
      simp [hb] at hc
    simp [hcb]
  rcases List.eq_nil_or_concat pre with rfl | ⟨pre, x, rfl⟩
  · exact hskip (by simp)
  rw [List.concat_eq_append] at *
  by_cases hx : x.free = true
  · have h' : Rep m (pre ++ x :: b :: post) := by simpa using h
    have hxb := hsum x (by simp)
    refine ⟨_, h'.into_prev hx hxb, by simp, fun c hc => ?_, fun z hz => ?_⟩
    · have hcx : c ≠ x := by
        rintro rfl
        simp [hx] at hc
      have hcx' : c ≠ { x with size := x.size + BLOCK + b.size } := by
        rintro rfl
        simp [hx] at hc
      simp [hcx, hcx']
    · rw [h'.merge_prev_eq hx hxb, absorb_off (hz x (by simp)) (fun c hc => hz c (by simp [hc]))]
  · exact hskip (by simpa using hx)

/-- Coalescing a free block on any list of blocks that are apart, wherever its neighbours lie. -/
theorem Rep.coalesce_any (h : Rep m (pre ++ b :: post)) (hb : b.free = true) (hap : (pre ++ b :: post).Pairwise BlkApart)
    (h64 : ∀ c ∈ pre ++ b :: post, c.stop ≤ 2 ^ 64) :
    ∃ bs', Rep (coalesce m b.addr) bs' ∧ first 0 bs' = first 0 (pre ++ b :: post) ∧
      (∀ c, c.free = false → (c ∈ bs' ↔ c ∈ pre ∨ c ∈ post)) ∧
      ∀ x, OffHeaders (pre ++ b :: post) x → coalesce m b.addr x = m x := by
  obtain ⟨-, hbpost, hpre⟩ := List.pairwise_append.1 hap
  obtain ⟨hbpost, -⟩ := List.pairwise_cons.1 hbpost
  have hb64 := h64 b (by simp)
  have hsum2 : ∀ y ∈ post, b.size + BLOCK + y.size < 2 ^ 64 :=
    fun y hy => (hbpost y hy).sum_lt hb64 (h64 y (by simp [hy]))
  obtain ⟨size, post', hrep', hsize, hsub, hkeep, hoff⟩ := h.next_any hsum2
  have hsum3 : ∀ x ∈ pre, x.size + BLOCK + size < 2 ^ 64 := by
    intro x hx
    have hxb := hpre x hx b (by simp)
    have hx64 := h64 x (by simp [hx])
    rcases hsize with rfl | ⟨y, hy, rfl⟩
    · exact hxb.sum_lt hx64 hb64
    · exact hxb.sum_lt_of_three (hpre x hx y (by simp [hy])) (hbpost y hy) hx64 hb64 (h64 y (by simp [hy]))
  obtain ⟨bs', hrep'', hfirst, hmem, hoff'⟩ := hrep'.prev_any hb hsum3
  refine ⟨bs', hrep'', ?_, fun c hc => ?_, fun x hx => (hoff' x ?_).trans (hoff x hx)⟩
  · rw [hfirst]
    simp only [first_append, first_cons]
  · rw [hmem c hc]
    exact or_congr_right ⟨hsub c, fun hcp => hkeep c hcp hc⟩
  · refine hx.mono (fun c hc => ?_)
    have hcm : c ∈ pre ∨ c = { b with size := size } ∨ c ∈ post' := by simpa using hc
    rcases hcm with hc | rfl | hc
    · exact ⟨c, by simp [hc], rfl⟩
    · exact ⟨b, by simp, rfl⟩
    · exact ⟨c, by simp [hsub c hc], rfl⟩

/-- Releasing a block in use: the list without it holds the same blocks in use, and only headers are written. -/
theorem Sound.kfree (hs : Sound s (pre ++ b :: post)) (hb : b.free = false) :
    ∃ bs', Rep (kfree s (b.addr + BLOCK)).mem bs' ∧ (Heap.kfree s (b.addr + BLOCK)).heap_head = first 0 bs' ∧
      (∀ c, c.free = false → (c ∈ bs' ↔ c ∈ pre ∨ c ∈ post)) ∧
      ∀ x, OffHeaders (pre ++ b :: post) x → (Heap.kfree s (b.addr + BLOCK)).mem x = s.mem x := by
  have haddr := (hs.rep.pos b (by simp)).2
  have hsub : sub64 (b.addr + BLOCK) BLOCK = b.addr := by
    unfold sub64 BLOCK
    omega
  have ht : Tiles Blk.addr Blk.stop b.addr [{ b with free := true }] b.stop := ⟨rfl, rfl⟩
  obtain ⟨hap, hin⟩ := hs.tiled ht
  have hrep : Rep (setFree s.mem b.addr true) (pre ++ { b with free := true } :: post) := hs.rep.setFree true
  obtain ⟨bs', hrep', hfirst, hmem, hoff⟩ := hrep.coalesce_any rfl hap (fun c hc => (hin c hc).2)
  have hkfree : Heap.kfree s (b.addr + BLOCK) = { s with
      mem := coalesce (setFree s.mem b.addr true) b.addr,
      heap_used := sub64 s.heap_used (block (setFree s.mem b.addr true) b.addr).size } := by
    unfold Heap.kfree
    rw [if_neg (by unfold BLOCK; omega)]
    dsimp only
    rw [hsub, hs.rep.middle, if_neg (by simp [hb])]
  rw [hkfree]
  dsimp only at hrep' hoff ⊢
  refine ⟨bs', hrep', ?_, hmem, fun x hx => ?_⟩
  · rw [hfirst]
    refine hs.head.trans ?_
    simp only [first_append, first_cons]
  · refine (hoff x ?_).trans (setFree_off (hx b (by simp)))
    refine hx.mono (fun c hc => ?_)
    have hcm : c ∈ pre ∨ c = { b with free := true } ∨ c ∈ post := by simpa using hc
    rcases hcm with hc | rfl | hc
    · exact ⟨c, by simp [hc], rfl⟩
    · exact ⟨b, by simp, rfl⟩
    · exact ⟨c, by simp [hc], rfl⟩

end

end H3OS.Heap
