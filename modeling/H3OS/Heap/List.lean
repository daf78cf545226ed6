import H3OS.Heap.Model
/-!
# The list of blocks in memory

`Linked m p bs q`: memory holds the headers of the blocks `bs`, linked both
ways, with `p` before the first and `q` behind the last. `Rep` adds that the
headers do not overlap. Taking, splitting, merging and adding a block are
stated here on lists of blocks.
-/
open SysLib

namespace H3OS.Heap

/-! ## One header -/

section
variable {m m' : Mem} {a b v : Nat}

theorem block_congr (h : ∀ x, b ≤ x → x < b + BLOCK → m' x = m x) : block m' b = block m b := by
  unfold BLOCK at h
  unfold block
  rw [load_congr (fun x h1 h2 => h x (by omega) (by omega)), load_congr (fun x h1 h2 => h x (by omega) (by omega)),
    load_congr (a := b + 16) (fun x h1 h2 => h x (by omega) (by omega)),
    load_congr (a := b + 24) (fun x h1 h2 => h x (by omega) (by omega)),
    load_congr (a := b + 32) (fun x h1 h2 => h x (by omega) (by omega))]

/-- A store inside another header does not touch this one. -/
theorem block_store_apart {d w : Nat} (hd : d + w ≤ BLOCK) (h : Apart a BLOCK b BLOCK) :
    block (store m (a + d) w v) b = block m b :=
  block_congr (fun x h1 h2 => store_out (by unfold Apart BLOCK at *; omega))

theorem block_setMagic_apart (h : Apart a BLOCK b BLOCK) : block (setMagic m a v) b = block m b :=
  block_store_apart (d := 0) (by decide) h

theorem block_setSize_apart (h : Apart a BLOCK b BLOCK) : block (setSize m a v) b = block m b :=
  block_store_apart (by decide) h

theorem block_setFree_apart {f : Bool} (h : Apart a BLOCK b BLOCK) : block (setFree m a f) b = block m b :=
  block_store_apart (by decide) h

theorem block_setNext_apart (h : Apart a BLOCK b BLOCK) : block (setNext m a v) b = block m b :=
  block_store_apart (by decide) h

theorem block_setPrev_apart (h : Apart a BLOCK b BLOCK) : block (setPrev m a v) b = block m b :=
  block_store_apart (by decide) h

theorem block_setMagic (hv : v < 2 ^ 64) : block (setMagic m a v) a = { block m a with magic := v } := by
  unfold block setMagic
  rw [load_store_of_lt hv, load_store_apart (by unfold Apart; omega), load_store_apart (by unfold Apart; omega),
    load_store_apart (by unfold Apart; omega), load_store_apart (by unfold Apart; omega)]

theorem block_setSize (hv : v < 2 ^ 64) : block (setSize m a v) a = { block m a with size := v } := by
  unfold block setSize
  rw [load_store_of_lt hv, load_store_apart (by unfold Apart; omega), load_store_apart (by unfold Apart; omega),
    load_store_apart (by unfold Apart; omega), load_store_apart (by unfold Apart; omega)]

theorem block_setFree {f : Bool} : block (setFree m a f) a = { block m a with free := f } := by
  unfold block setFree
  rw [load_store_of_lt (Nat.lt_of_le_of_lt f.toNat_le (by norm_num)), load_store_apart (by unfold Apart; omega),
    load_store_apart (by unfold Apart; omega), load_store_apart (by unfold Apart; omega),
    load_store_apart (by unfold Apart; omega)]
  cases f <;> rfl

theorem block_setNext (hv : v < 2 ^ 64) : block (setNext m a v) a = { block m a with next := v } := by
  unfold block setNext
  rw [load_store_of_lt hv, load_store_apart (by unfold Apart; omega), load_store_apart (by unfold Apart; omega),
    load_store_apart (by unfold Apart; omega), load_store_apart (by unfold Apart; omega)]

theorem block_setPrev (hv : v < 2 ^ 64) : block (setPrev m a v) a = { block m a with prev := v } := by
  unfold block setPrev
  rw [load_store_of_lt hv, load_store_apart (by unfold Apart; omega), load_store_apart (by unfold Apart; omega),
    load_store_apart (by unfold Apart; omega), load_store_apart (by unfold Apart; omega)]

end

/-! ## The linked blocks -/

/-- A block of the list: where its header is, its payload's size and whether it is free. -/
structure Blk where
  addr : Nat
  size : Nat
  free : Bool

/-- Where the block's payload ends. -/
def Blk.stop (b : Blk) : Nat := b.addr + BLOCK + b.size

/-- The first address of a list, or what follows it. -/
def first (q : Nat) : List Blk → Nat
  | [] => q
  | b :: _ => b.addr

/-- The last address of a list, or what comes before it. -/
def last (p : Nat) : List Blk → Nat
  | [] => p
  | b :: bs => last b.addr bs

def Linked (m : Mem) : Nat → List Blk → Nat → Prop
  | _, [], _ => True
  | p, b :: bs, q => block m b.addr = ⟨HEAP_MAGIC, b.size, b.free, first q bs, p⟩ ∧ Linked m b.addr bs q

section
variable {m m' : Mem} {p q : Nat} {b : Blk} {l l₁ l₂ : List Blk}

@[simp] theorem linked_nil : Linked m p [] q := trivial

theorem linked_cons : Linked m p (b :: l) q ↔
    block m b.addr = ⟨HEAP_MAGIC, b.size, b.free, first q l, p⟩ ∧ Linked m b.addr l q := Iff.rfl

@[simp] theorem first_nil : first q [] = q := rfl

@[simp] theorem first_cons : first q (b :: l) = b.addr := rfl

@[simp] theorem first_append : first q (l₁ ++ l₂) = first (first q l₂) l₁ := by
  cases l₁ <;> rfl

@[simp] theorem last_append : last p (l₁ ++ l₂) = last (last p l₁) l₂ := by
  induction l₁ generalizing p with
  | nil => rfl
  | cons b l₁ ih => exact ih

theorem linked_append : Linked m p (l₁ ++ l₂) q ↔ Linked m p l₁ (first q l₂) ∧ Linked m (last p l₁) l₂ q := by
  induction l₁ generalizing p with
  | nil => simp [last]
  | cons b l₁ ih =>
    rw [List.cons_append, linked_cons, linked_cons, ih, first_append, last, and_assoc]

theorem Linked.congr (h : Linked m p l q) (hm : ∀ b ∈ l, block m' b.addr = block m b.addr) : Linked m' p l q := by
  induction l generalizing p with
  | nil => trivial
  | cons b l ih =>
    obtain ⟨hb, hl⟩ := h
    exact ⟨(hm b (by simp)).trans hb, ih hl (fun c hc => hm c (by simp [hc]))⟩

/-- Following `next` from the first block passes the blocks in order. -/
theorem Linked.seg (h : Linked m p l q) (h0 : ∀ b ∈ l, b.addr ≠ 0) :
    Seg (fun b => ptr (block m b).next) (ptr (first q l)) (l.map Blk.addr) (ptr q) := by
  induction l generalizing p with
  | nil => rfl
  | cons b l ih =>
    obtain ⟨hb, hl⟩ := h
    refine ⟨if_neg (h0 b (by simp)), ?_⟩
    dsimp only
    rw [hb]
    exact ih hl (fun c hc => h0 c (by simp [hc]))

end

/-! ## The list operations -/

/-- Headers that do not overlap. -/
def HdrApart (b c : Blk) : Prop := Apart b.addr BLOCK c.addr BLOCK

instance : Std.Symm HdrApart := ⟨fun _ _ => Apart.symm⟩

/-- Headers that are apart, at 64-bit addresses. -/
structure Spaced (bs : List Blk) : Prop where
  apart : bs.Pairwise HdrApart
  pos : ∀ b ∈ bs, 0 < b.addr ∧ b.addr < 2 ^ 64

/-- Memory holds the blocks `bs` as the whole heap list. -/
structure Rep (m : Mem) (bs : List Blk) : Prop extends Spaced bs where
  linked : Linked m 0 bs 0

section
variable {m : Mem} {pre post : List Blk} {b c x y : Blk} {p a v : Nat}

theorem Spaced.sublist {bs cs : List Blk} (h : Spaced bs) (hs : cs.Sublist bs) : Spaced cs :=
  ⟨h.apart.sublist hs, fun b hb => h.pos b (hs.subset hb)⟩

/-- Only the addresses matter. -/
theorem Spaced.replace (h : Spaced (pre ++ b :: post)) (hbc : c.addr = b.addr) : Spaced (pre ++ c :: post) := by
  refine ⟨?_, fun d hd => ?_⟩
  · have := h.apart
    simpa only [List.pairwise_append, List.pairwise_cons, List.mem_cons, forall_eq_or_imp, HdrApart, hbc] using this
  · have hmem : d ∈ pre ∨ d = c ∨ d ∈ post := by simpa using hd
    rcases hmem with hd | rfl | hd
    · exact h.pos d (by simp [hd])
    · rw [hbc]
      exact h.pos b (by simp)
    · exact h.pos d (by simp [hd])

/-- An address has one block. -/
theorem Spaced.eq_of_addr {bs : List Blk} (h : Spaced bs) (hb : b ∈ bs) (hc : c ∈ bs) (he : b.addr = c.addr) : b = c := by
  by_contra hne
  have hap := h.apart.forall hb hc hne
  unfold HdrApart Apart BLOCK at hap
  omega

theorem Spaced.first_lt (h : Spaced post) : first 0 post < 2 ^ 64 := by
  cases post with
  | nil => simp [first]
  | cons b post => exact (h.pos b (by simp)).2

theorem Spaced.behind (h : Spaced (pre ++ b :: post)) : Spaced post :=
  h.sublist ((List.sublist_cons_self b post).trans (List.sublist_append_right pre (b :: post)))

/-- Blocks on the two sides of `b` are apart from it and from one another. -/
theorem Spaced.sides (h : Spaced (pre ++ b :: post)) :
    (∀ c ∈ pre, Apart b.addr BLOCK c.addr BLOCK) ∧ (∀ c ∈ post, Apart b.addr BLOCK c.addr BLOCK) ∧
    (∀ c ∈ pre, ∀ d ∈ post, Apart d.addr BLOCK c.addr BLOCK) := by
  obtain ⟨-, hb, hpre⟩ := List.pairwise_append.1 h.apart
  obtain ⟨hb, -⟩ := List.pairwise_cons.1 hb
  exact ⟨fun c hc => (hpre c hc b (by simp)).symm, hb, fun c hc d hd => (hpre c hc d (by simp [hd])).symm⟩

/-- Relinking the first block behind leaves headers apart from it alone. -/
theorem block_relink (h : ∀ z ∈ post, Apart z.addr BLOCK p BLOCK) : block (relink m (first 0 post) a) p = block m p := by
  unfold relink
  split
  · cases post with
    | nil => simp [first] at *
    | cons z post => exact block_setPrev_apart (h z (by simp))
  · rfl

/-- Relinking puts `a` before the list. -/
theorem Linked.relink (h : Linked m p post 0) (hs : Spaced post) (h64 : a < 2 ^ 64) :
    Linked (relink m (first 0 post) a) a post 0 := by
  cases post with
  | nil => trivial
  | cons z post =>
    obtain ⟨hz, hl⟩ := h
    unfold Heap.relink first
    rw [if_pos (Nat.pos_iff_ne_zero.1 (hs.pos z (by simp)).1)]
    refine ⟨?_, hl.congr (fun c hc => block_setPrev_apart ((List.pairwise_cons.1 hs.apart).1 c hc))⟩
    rw [block_setPrev h64, hz]

theorem Rep.middle (h : Rep m (pre ++ b :: post)) :
    block m b.addr = ⟨HEAP_MAGIC, b.size, b.free, first 0 post, last 0 pre⟩ :=
  (linked_append.1 h.linked).2.1

theorem Rep.block_of_mem {bs : List Blk} (h : Rep m bs) (hb : b ∈ bs) :
    ∃ next prev, block m b.addr = ⟨HEAP_MAGIC, b.size, b.free, next, prev⟩ := by
  obtain ⟨pre, post, rfl⟩ := List.append_of_mem hb
  exact ⟨_, _, h.middle⟩

theorem Rep.blocks {s : St} {bs : List Blk} (h : Rep s.mem bs) (hh : s.heap_head = first 0 bs) :
    Blocks s (bs.map Blk.addr) := by
  unfold Blocks
  rw [hh]
  exact h.linked.seg (fun b hb => Nat.pos_iff_ne_zero.1 (h.pos b hb).1)

theorem last_cases (p : Nat) (l : List Blk) : (last p l = p ∧ l = []) ∨ ∃ b ∈ l, last p l = b.addr := by
  rcases List.eq_nil_or_concat l with rfl | ⟨l, b, rfl⟩
  · exact .inl ⟨rfl, rfl⟩
  · exact .inr ⟨b, by simp, by simp [last]⟩

/-- The links of a block lead to blocks of the list. -/
theorem Rep.neighbour {bs : List Blk} (h : Rep m bs) (hb : b ∈ bs)
    (hp : p = (block m b.addr).next ∨ p = (block m b.addr).prev) (h0 : p ≠ 0) : ∃ c ∈ bs, c.addr = p := by
  obtain ⟨pre, post, rfl⟩ := List.append_of_mem hb
  rw [h.middle] at hp
  rcases hp with rfl | rfl
  · cases post with
    | nil => exact absurd rfl h0
    | cons c post => exact ⟨c, by simp, rfl⟩
  · rcases last_cases 0 pre with ⟨hl, -⟩ | ⟨c, hc, hl⟩
    · exact absurd hl h0
    · exact ⟨c, by simp [hc], hl.symm⟩

/-- The free flag of one block. -/
theorem Rep.setFree (h : Rep m (pre ++ b :: post)) (f : Bool) :
    Rep (setFree m b.addr f) (pre ++ { b with free := f } :: post) := by
  obtain ⟨hpre, hpost, -⟩ := h.sides
  obtain ⟨h1, hb, h2⟩ := linked_append.1 h.linked
  refine ⟨h.toSpaced.replace rfl, linked_append.2 ⟨?_, ?_, ?_⟩⟩
  · exact h1.congr (fun c hc => block_setFree_apart (hpre c hc))
  · rw [block_setFree, hb]
  · exact h2.congr (fun c hc => block_setFree_apart (hpost c hc))

/-- The assignments that make `v` the size of a block and `q` the one behind it. -/
def absorb (m : Mem) (a v q : Nat) : Mem := Heap.relink (setNext (setSize m a v) a q) q a

/-- Block `x` takes in the block `y` behind it. -/
theorem Rep.absorb (h : Rep m (pre ++ x :: y :: post)) (hv : v < 2 ^ 64) :
    Rep (Heap.absorb m x.addr v (first 0 post)) (pre ++ { x with size := v } :: post) := by
  have hs : Spaced (pre ++ x :: post) :=
    h.toSpaced.sublist (List.Sublist.append_left (List.Sublist.cons_cons x (List.sublist_cons_self y post)) pre)
  obtain ⟨hpre, hpost, hsides⟩ := hs.sides
  obtain ⟨h1, hx, -, h2⟩ := linked_append.1 h.linked
  have hbody : ∀ c, Apart x.addr BLOCK c BLOCK →
      block (setNext (setSize m x.addr v) x.addr (first 0 post)) c = block m c := fun c hc => by
    rw [block_setNext_apart hc, block_setSize_apart hc]
  unfold Heap.absorb
  refine ⟨hs.replace rfl, linked_append.2 ⟨?_, ?_, ?_⟩⟩
  · refine h1.congr (fun c hc => ?_)
    rw [block_relink (hsides c hc), hbody c.addr (hpre c hc)]
  · rw [block_relink (fun z hz => (hpost z hz).symm), block_setNext (hs.behind.first_lt), block_setSize hv, hx]
  · exact Linked.relink (h2.congr (fun c hc => hbody c.addr (hpost c hc))) hs.behind (h.pos x (by simp)).2

/-- The five assignments that make a free block. -/
def newBlock (m : Mem) (n size next prev : Nat) : Mem :=
  setPrev (setNext (Heap.setFree (setSize (setMagic m n HEAP_MAGIC) n size) n true) n next) n prev

theorem block_newBlock {n size next prev : Nat} (h1 : size < 2 ^ 64) (h2 : next < 2 ^ 64) (h3 : prev < 2 ^ 64) :
    block (newBlock m n size next prev) n = ⟨HEAP_MAGIC, size, true, next, prev⟩ := by
  unfold newBlock
  rw [block_setPrev h3, block_setNext h2, block_setFree, block_setSize h1, block_setMagic (by decide)]

theorem block_newBlock_apart {n size next prev : Nat} (h : Apart n BLOCK p BLOCK) :
    block (newBlock m n size next prev) p = block m p := by
  unfold newBlock
  rw [block_setPrev_apart h, block_setNext_apart h, block_setFree_apart h, block_setSize_apart h, block_setMagic_apart h]

/-- Adding a region puts a free block before the list. -/
theorem Rep.push {bs : List Blk} {n size : Nat} (h : Rep m bs) (hs : Spaced (⟨n, size, true⟩ :: bs)) (h64 : size < 2 ^ 64) :
    Rep (Heap.relink (newBlock m n size (first 0 bs) 0) (first 0 bs) n) (⟨n, size, true⟩ :: bs) := by
  have hap := (List.pairwise_cons.1 hs.apart).1
  refine ⟨hs, ?_, ?_⟩
  · rw [block_relink (fun z hz => (hap z hz).symm)]
    exact block_newBlock h64 (h.first_lt) (by norm_num)
  · exact (h.linked.congr (fun c hc => block_newBlock_apart (hap c hc))).relink h.toSpaced (hs.pos ⟨n, size, true⟩ (by simp)).2

/-- The memory after a split: the new block's header, the link back to it, and the old block's link and size. -/
theorem Rep.split_eq {n size : Nat} (h : Rep m (pre ++ b :: post)) (hn : n = b.addr + BLOCK + size)
    (hfit : size + BLOCK ≤ b.size) (hstop : b.stop ≤ 2 ^ 64) :
    split_block m b.addr size = setSize (setNext (Heap.relink (newBlock m n (b.size - size - BLOCK) (first 0 post) b.addr)
      (first 0 post) n) b.addr n) b.addr size := by
  have hstop' : b.addr + 40 + b.size ≤ 2 ^ 64 := hstop
  unfold BLOCK at hn hfit
  have hadd : add64 (add64 b.addr BLOCK) size = n := by
    unfold BLOCK
    rw [add64_of_lt (a := b.addr) (by omega), add64_of_lt (by omega), hn]
  have hsub : sub64 (sub64 b.size size) BLOCK = b.size - size - BLOCK := by
    unfold BLOCK
    rw [sub64_of_le (a := b.size) (by omega) (by omega), sub64_of_le (by omega) (by omega)]
  have hnb : Apart n BLOCK b.addr BLOCK := by unfold Apart BLOCK; omega
  unfold split_block newBlock
  simp only [hadd, block_setMagic_apart hnb, block_setSize_apart hnb, block_setFree_apart hnb, block_setNext_apart hnb,
    block_setPrev_apart hnb, h.middle, hsub]

/-- Splitting a block. -/
theorem Rep.split {n size : Nat} (h : Rep m (pre ++ b :: post)) (hn : n = b.addr + BLOCK + size)
    (hfit : size + BLOCK ≤ b.size) (hstop : b.stop ≤ 2 ^ 64)
    (hs : Spaced (pre ++ { b with size := size } :: ⟨n, b.size - size - BLOCK, true⟩ :: post)) :
    Rep (split_block m b.addr size) (pre ++ { b with size := size } :: ⟨n, b.size - size - BLOCK, true⟩ :: post) := by
  rw [h.split_eq hn hfit hstop]
  have hstop' : b.addr + 40 + b.size ≤ 2 ^ 64 := hstop
  unfold BLOCK at hn hfit
  have hn64 : n < 2 ^ 64 := by omega
  have hnb : Apart n BLOCK b.addr BLOCK := by unfold Apart BLOCK; omega
  obtain ⟨hpre, hpost, hsides⟩ := h.sides
  have hs' : Spaced ((pre ++ [{ b with size := size }]) ++ ⟨n, b.size - size - BLOCK, true⟩ :: post) := by simpa using hs
  obtain ⟨hnpre, hnpost, -⟩ := hs'.sides
  obtain ⟨h1, hb, h2⟩ := linked_append.1 h.linked
  have hfirst := hs'.behind.first_lt
  have h64 := (h.pos b (by simp)).2
  refine ⟨hs, linked_append.2 ⟨?_, ?_, ?_, ?_⟩⟩
  · refine h1.congr (fun c hc => ?_)
    rw [block_setSize_apart (hpre c hc), block_setNext_apart (hpre c hc), block_relink (hsides c hc),
      block_newBlock_apart (hnpre c (by simp [hc]))]
  · rw [block_setSize (by omega), block_setNext hn64, block_relink (fun z hz => (hpost z hz).symm),
      block_newBlock_apart hnb, hb]
    rfl
  · rw [block_setSize_apart hnb.symm, block_setNext_apart hnb.symm, block_relink (fun z hz => (hnpost z hz).symm),
      block_newBlock (by omega) hfirst h64]
  · have hpush : Linked (newBlock m n (b.size - size - BLOCK) (first 0 post) b.addr) b.addr post 0 :=
      h2.congr (fun c hc => block_newBlock_apart (hnpost c hc))
    refine (hpush.relink hs'.behind hn64).congr (fun c hc => ?_)
    rw [block_setSize_apart (hpost c hc), block_setNext_apart (hpost c hc)]

/-! ## Merging and searching, on the list -/

theorem Rep.merge_next_eq (h : Rep m (pre ++ x :: y :: post)) (hy : y.free = true)
    (hsum : x.size + BLOCK + y.size < 2 ^ 64) :
    merge_next m x.addr = Heap.absorb m x.addr (x.size + BLOCK + y.size) (first 0 post) := by
  have h' : Rep m ((pre ++ [x]) ++ y :: post) := by simpa using h
  have hxy : Apart x.addr BLOCK y.addr BLOCK := h.sides.2.1 y (by simp)
  have hx := h.middle
  have hy' := h'.middle
  have hsize : add64 x.size (add64 BLOCK y.size) = x.size + BLOCK + y.size := by
    rw [add64_of_lt (a := BLOCK) (by omega), add64_of_lt (by omega), Nat.add_assoc]
  unfold Heap.merge_next
  have hc : (block m x.addr).next ≠ 0 ∧ (block m (block m x.addr).next).free = true := by
    rw [hx]
    exact ⟨Nat.pos_iff_ne_zero.1 (h'.pos y (by simp)).1, by rw [first, hy', hy]⟩
  have hnext : (block m x.addr).next = y.addr := by rw [hx]; rfl
  have hnext' : (block (setSize m x.addr (x.size + BLOCK + y.size)) x.addr).next = y.addr := by
    rw [block_setSize hsum]
    exact hnext
  have hsecond : (block (setNext (setSize m x.addr (x.size + BLOCK + y.size)) x.addr (first 0 post)) x.addr).next =
      first 0 post := by
    rw [block_setNext h'.behind.first_lt]
  rw [if_pos hc]
  dsimp only
  rw [hnext, hy', hx]
  dsimp only
  rw [hsize, hnext', block_setSize_apart hxy, hy']
  dsimp only
  rw [hsecond]
  rfl

/-- A free next block is taken in. -/
theorem Rep.into_next (h : Rep m (pre ++ x :: y :: post)) (hy : y.free = true) (hsum : x.size + BLOCK + y.size < 2 ^ 64) :
    Rep (merge_next m x.addr) (pre ++ { x with size := x.size + BLOCK + y.size } :: post) := by
  rw [h.merge_next_eq hy hsum]
  exact h.absorb hsum

/-- A next block in use, or none, is left alone. -/
theorem Rep.skip_next (h : Rep m (pre ++ x :: post)) (hp : ∀ y ∈ post.head?, y.free = false) :
    merge_next m x.addr = m := by
  unfold Heap.merge_next
  rw [if_neg]
  rw [h.middle]
  cases post with
  | nil => simp [first]
  | cons y post =>
    have h' : Rep m ((pre ++ [x]) ++ y :: post) := by simpa using h
    rw [first, h'.middle, hp y rfl]
    simp

theorem Rep.merge_prev_eq (h : Rep m (pre ++ x :: y :: post)) (hx : x.free = true)
    (hsum : x.size + BLOCK + y.size < 2 ^ 64) :
    merge_prev m y.addr = Heap.absorb m x.addr (x.size + BLOCK + y.size) (first 0 post) := by
  have h' : Rep m ((pre ++ [x]) ++ y :: post) := by simpa using h
  have hxy : Apart x.addr BLOCK y.addr BLOCK := h.sides.2.1 y (by simp)
  have hx' := h.middle
  have hy := h'.middle
  rw [last_append, last, last] at hy
  have hsize : add64 x.size (add64 BLOCK y.size) = x.size + BLOCK + y.size := by
    rw [add64_of_lt (a := BLOCK) (by omega), add64_of_lt (by omega), Nat.add_assoc]
  unfold Heap.merge_prev
  rw [if_pos (by rw [hy]; exact ⟨Nat.pos_iff_ne_zero.1 (h.pos x (by simp)).1, by rw [hx', hx]⟩)]
  simp only [hx', hy, hsize, block_setSize_apart hxy, block_setNext_apart hxy, Heap.absorb]

/-- A free previous block takes the block in. -/
theorem Rep.into_prev (h : Rep m (pre ++ x :: y :: post)) (hx : x.free = true) (hsum : x.size + BLOCK + y.size < 2 ^ 64) :
    Rep (merge_prev m y.addr) (pre ++ { x with size := x.size + BLOCK + y.size } :: post) := by
  rw [h.merge_prev_eq hx hsum]
  exact h.absorb hsum

theorem Rep.skip_prev (h : Rep m (pre ++ y :: post)) (hp : ∀ x ∈ pre.getLast?, x.free = false) :
    merge_prev m y.addr = m := by
  unfold Heap.merge_prev
  rw [if_neg]
  rw [h.middle]
  rcases List.eq_nil_or_concat pre with rfl | ⟨pre, x, rfl⟩
  · simp [last]
  · have h' : Rep m (pre ++ x :: y :: post) := by simpa using h
    rw [List.concat_eq_append, last_append, last, last, h'.middle, hp x (by simp)]
    simp

/-- The scan stops at the first block that fits, or at the end of a list with none. -/
theorem find_fit_spec {bs : List Blk} {size fuel : Nat} (h : Linked m p bs 0) (hpos : ∀ b ∈ bs, 0 < b.addr)
    (hf : bs.length < fuel) :
    (find_fit m size fuel (first 0 bs) = some 0 ∧ ∀ b ∈ bs, b.free = true → b.size < size) ∨
    ∃ pre b post, bs = pre ++ b :: post ∧ find_fit m size fuel (first 0 bs) = some b.addr ∧
      b.free = true ∧ size ≤ b.size := by
  induction bs generalizing p fuel with
  | nil =>
    cases fuel with
    | zero => simp at hf
    | succ fuel => exact .inl ⟨by simp [find_fit, first], by simp⟩
  | cons b bs ih =>
    cases fuel with
    | zero => simp at hf
    | succ fuel =>
      obtain ⟨hb, hl⟩ := h
      have h0 : b.addr ≠ 0 := Nat.pos_iff_ne_zero.1 (hpos b (by simp))
      simp only [find_fit, first, h0, if_false, hb, ne_eq, not_true_eq_false]
      by_cases hfit : b.free = true ∧ size ≤ b.size
      · rw [if_pos hfit]
        exact .inr ⟨[], b, bs, rfl, rfl, hfit.1, hfit.2⟩
      · rw [if_neg hfit]
        rcases ih hl (fun c hc => hpos c (by simp [hc])) (by simpa using hf) with ⟨he, hnone⟩ | ⟨pre, c, post, rfl, he, hc⟩
        · refine .inl ⟨he, fun c hc => ?_⟩
          rcases List.mem_cons.1 hc with rfl | hc
          · intro hfree
            by_contra hle
            exact hfit ⟨hfree, by omega⟩
          · exact hnone c hc
        · exact .inr ⟨b :: pre, c, post, rfl, he, hc⟩

/-- Distinct 64-bit addresses run out before the scan's fuel does. -/
theorem Spaced.length_lt {bs : List Blk} (h : Spaced bs) : bs.length < FUEL := by
  have hnd : (bs.map Blk.addr).Nodup := by
    refine List.pairwise_map.2 (h.apart.imp ?_)
    rintro b c hap heq
    unfold HdrApart Apart BLOCK at hap
    omega
  have hsub : (bs.map Blk.addr).toFinset ⊆ Finset.Ico 1 FUEL := by
    intro a ha
    obtain ⟨b, hb, rfl⟩ := List.mem_map.1 (List.mem_toFinset.1 ha)
    exact Finset.mem_Ico.2 (h.pos b hb)
  have hcard := Finset.card_le_card hsub
  rw [List.toFinset_card_of_nodup hnd, Nat.card_Ico, List.length_map] at hcard
  unfold FUEL at *
  omega

end

end H3OS.Heap
