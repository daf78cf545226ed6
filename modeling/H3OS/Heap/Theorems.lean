import H3OS.Heap.Steps
/-!
# The heap over whole runs

Blocks stay apart and inside their regions as long as no call merges blocks
of two regions. `coalesce` looks at list neighbours only, so after the heap
has grown it can: one allocation that fits the rest of the new region exactly
and its release are enough. While the heap has one region nothing of the kind
can happen, and the blocks tile the arena exactly.
-/
open SysLib

namespace H3OS.Heap

section
variable {s : St} {live : List Nat} {segs : List (List Blk)} {op : Op}

theorem Inv.mono {live' : List Nat} (hi : Inv s live segs) (h : ∀ p ∈ live', p ∈ live) : Inv s live' segs :=
  ⟨hi.rep, hi.head, hi.fills, hi.apart, hi.bound, hi.used, hi.total, fun p hp => hi.live p (h p hp)⟩

/-- The block of a live pointer. -/
theorem Inv.block_of_live {p : Nat} (hi : Inv s live segs) (hp : p ∈ live) :
    ∃ b ∈ segs.flatten, b.free = false ∧ b.addr + BLOCK = p ∧ sub64 p BLOCK = b.addr ∧
      (block s.mem (sub64 p BLOCK)).size = b.size := by
  obtain ⟨b, hb, hbf, rfl⟩ := hi.live p hp
  have haddr := (hi.rep.pos b hb).2
  have hsub : sub64 (b.addr + BLOCK) BLOCK = b.addr := by
    unfold sub64 BLOCK
    omega
  obtain ⟨nx, pv, hblk⟩ := hi.rep.block_of_mem hb
  exact ⟨b, hb, hbf, rfl, hsub, by rw [hsub, hblk]⟩

/-- The heap that `krealloc` releases the old block of: the new block is handed out and filled. -/
theorem Inv.copied {ptr size n : Nat} {s' : St} {segs' : List (List Blk)} (hi : Inv s live segs) (hp : ptr ∈ live)
    (hlt : (block s.mem (sub64 ptr BLOCK)).size < size) (hs : Served s live segs size n s' segs') (hn : n ≠ 0) :
    Inv { s' with mem := copy s'.mem n ptr (block s'.mem (sub64 ptr BLOCK)).size } (n :: live) segs' := by
  obtain ⟨b, hb, hbf, hbp, hsub, hbs⟩ := hi.block_of_live hp
  obtain ⟨-, c, hc, hcn, hcf, hcs⟩ := hs.fits hn
  have hi' := hs.inv
  rw [if_neg hn] at hi'
  obtain ⟨nx, pv, hblk⟩ := hi'.rep.block_of_mem (hs.keeps b hb hbf)
  rw [hbs] at hlt
  refine hi'.write hc (fun x hx => copy_out ?_)
  rw [hsub, hblk]
  unfold Blk.stop at hx
  dsimp only
  omega

/-- Every block lies in one region. -/
theorem Inv.inRegion (hi : Inv s live segs) : ∀ b ∈ segs.flatten, ∃ r ∈ s.regions, InRegion s.mem r b.addr := by
  intro b hb
  obtain ⟨r, hr, h⟩ := fills_mem hi.fills b hb
  obtain ⟨nx, pv, hblk⟩ := hi.rep.block_of_mem hb
  refine ⟨r, hr, ?_⟩
  unfold InRegion
  rw [hblk]
  exact h

theorem Inv.blocks (hi : Inv s live segs) : Blocks s (segs.flatten.map Blk.addr) := hi.rep.blocks hi.head

theorem Inv.safe (hi : Inv s live segs) : Safe s := by
  refine ⟨_, hi.blocks, ?_, fun a ha => ?_⟩
  · refine List.pairwise_map.2 ((fills_apart hi.fills hi.apart).imp_of_mem ?_)
    intro b c hb hc hbc
    obtain ⟨nx, pv, hb⟩ := hi.rep.block_of_mem hb
    obtain ⟨nx', pv', hc⟩ := hi.rep.block_of_mem hc
    rw [hb, hc]
    exact hbc
  · obtain ⟨b, hb, rfl⟩ := List.mem_map.1 ha
    exact hi.inRegion b hb

/-! ## One call -/

/-- A call enters `kfree` with a sound heap and a live pointer. -/
theorem Inv.releases {t : St} {p : Nat} (hi : Inv s live segs) (hop : op.Allowed s live) (h : op.releases s = some (t, p)) :
    ∃ live' segs', Inv t live' segs' ∧ p ∈ live' ∧ (NoGrowth s op → t.regions = s.regions) := by
  cases op with
  | kmalloc size pmm => cases h
  | kcalloc n size pmm => cases h
  | write ptr i v => cases h
  | kfree ptr =>
    simp only [Op.releases] at h
    split at h
    · cases h
    · next h0 =>
      cases h
      exact ⟨live, segs, hi, hop.resolve_left h0, fun _ => rfl⟩
  | krealloc ptr size pmm =>
    obtain ⟨hsize, hptr, hg⟩ := hop
    simp only [Op.releases] at h
    split at h
    · cases h
    next h0 =>
    have hp := hptr.resolve_left h0
    split at h
    · cases h
      exact ⟨live, segs, hi, hp, fun _ => rfl⟩
    split at h
    · cases h
    next hlt =>
    obtain ⟨n, s', segs', he, hs, hreg⟩ := hi.kmalloc hsize hg
    rw [he] at h
    dsimp only at h
    split at h
    · cases h
    · next hn =>
      simp only [Option.some.injEq, Prod.mk.injEq] at h
      obtain ⟨rfl, rfl⟩ := h
      exact ⟨n :: live, segs', hi.copied hp (not_le.1 hlt) hs hn, List.mem_cons_of_mem _ hp, hreg⟩

/-- An allowed call returns. -/
theorem Inv.returns (hi : Inv s live segs) (hop : op.Allowed s live) : (exec s op).isSome := by
  cases op with
  | kmalloc size pmm =>
    obtain ⟨p, s', -, he, -⟩ := hi.kmalloc hop.1 hop.2
    rw [exec, he]
    rfl
  | kcalloc n size pmm =>
    have hmod : n * size % 2 ^ 64 = n * size := Nat.mod_eq_of_lt (lt_of_le_of_lt hop.1 (by norm_num))
    obtain ⟨p, s', -, he, -⟩ := hi.kmalloc hop.1 hop.2
    simp only [exec, kcalloc, hmod, he]
    rfl
  | krealloc ptr size pmm =>
    obtain ⟨p, s', -, he, -⟩ := hi.kmalloc hop.1 hop.2.2
    simp only [exec, krealloc, he]
    split_ifs <;> rfl
  | kfree ptr => rfl
  | write ptr i v => rfl

theorem Inv.exec_kcalloc {n size r : Nat} {pmm : List Nat} {s' : St} (hi : Inv s live segs)
    (hop : (Op.kcalloc n size pmm).Allowed s live) (he : exec s (.kcalloc n size pmm) = some (r, s')) :
    ∃ segs', Inv s' ((Op.kcalloc n size pmm).live r live) segs' := by
  have hmod : n * size % 2 ^ 64 = n * size := Nat.mod_eq_of_lt (lt_of_le_of_lt hop.1 (by norm_num))
  obtain ⟨p, t, segs', he', hs, -⟩ := hi.kmalloc hop.1 hop.2
  simp only [exec, kcalloc, hmod, he', Option.some.injEq, Prod.mk.injEq] at he
  obtain ⟨rfl, rfl⟩ := he
  refine ⟨segs', ?_⟩
  by_cases hp : p = 0
  · rw [if_neg (not_not.2 hp)]
    exact hs.inv
  · rw [if_pos hp]
    obtain ⟨-, c, hc, hcp, -, hcs⟩ := hs.fits hp
    refine hs.inv.write hc (fun x hx => fill_out ?_)
    unfold Blk.stop at hx
    omega

/-- `krealloc` by its five exits. -/
theorem Inv.exec_krealloc {ptr size r : Nat} {pmm : List Nat} {s' : St} (hi : Inv s live segs)
    (hop : (Op.krealloc ptr size pmm).Allowed s live) (hm : MergeOk s (.krealloc ptr size pmm))
    (he : exec s (.krealloc ptr size pmm) = some (r, s')) : ∃ segs', Inv s' ((Op.krealloc ptr size pmm).live r live) segs' := by
  obtain ⟨hsize, hptr, hg⟩ := hop
  obtain ⟨n, t, segs', he', hs, -⟩ := hi.kmalloc hsize hg
  simp only [exec, krealloc] at he
  by_cases h0 : ptr = 0
  · rw [if_pos h0] at he
    cases he'.symm.trans he
    refine ⟨segs', hs.inv.mono (fun p hp => ?_)⟩
    rw [Op.live, if_neg (by simp [h0])] at hp
    split_ifs at hp ⊢ with hn
    · exact hp
    · rcases List.mem_cons.1 hp with rfl | hp
      · simp
      · exact List.mem_cons_of_mem _ (List.mem_filter.1 hp).1
  have hp := hptr.resolve_left h0
  rw [if_neg h0] at he
  by_cases hz : size = 0
  · rw [if_pos hz] at he
    cases he
    rw [Op.live, if_pos ⟨h0, hz⟩]
    refine hi.kfree hp (hm s ptr ?_)
    rw [Op.releases, if_neg h0, if_pos hz]
  rw [if_neg hz] at he
  rw [Op.live, if_neg (by simp [hz])]
  by_cases hlt : size ≤ (block s.mem (sub64 ptr BLOCK)).size
  · rw [if_pos hlt] at he
    cases he
    refine ⟨segs, hi.mono (fun p hpm => ?_)⟩
    rw [if_neg h0] at hpm
    rcases List.mem_cons.1 hpm with rfl | hpm
    · exact hp
    · exact (List.mem_filter.1 hpm).1
  rw [if_neg hlt, he'] at he
  dsimp only at he
  by_cases hn : n = 0
  · rw [if_pos hn] at he
    cases he
    have hinv := hs.inv
    rw [if_pos hn] at hinv
    exact ⟨segs', hinv⟩
  rw [if_neg hn] at he
  simp only [Option.some.injEq, Prod.mk.injEq] at he
  obtain ⟨rfl, rfl⟩ := he
  rw [if_neg hn]
  -- the released block is the old one, the new one stays
  have hne : n ≠ ptr := fun hnp => (hs.fits hn).1 (hnp ▸ hp)
  have hrel := (hi.copied hp (not_le.1 hlt) hs hn).kfree (List.mem_cons_of_mem _ hp) (hm _ ptr (by
    rw [Op.releases, if_neg h0, if_neg hz, if_neg hlt, he']
    exact if_neg hn))
  rwa [List.filter_cons_of_pos (by simpa using hne)] at hrel

/-- An allowed call that merges no blocks of different regions keeps the invariant. -/
theorem Inv.exec {r : Nat} {s' : St} (hi : Inv s live segs) (hop : op.Allowed s live) (hm : MergeOk s op)
    (he : exec s op = some (r, s')) : ∃ segs', Inv s' (op.live r live) segs' := by
  cases op with
  | kmalloc size pmm =>
    obtain ⟨p, t, segs', he', hs, -⟩ := hi.kmalloc hop.1 hop.2
    cases he'.symm.trans he
    exact ⟨segs', hs.inv⟩
  | kcalloc n size pmm => exact hi.exec_kcalloc hop he
  | kfree ptr =>
    cases he
    by_cases h0 : ptr = 0
    · have hsame : Heap.kfree s ptr = s := if_pos h0
      rw [hsame]
      exact ⟨segs, hi.mono (fun p hp => (List.mem_filter.1 hp).1)⟩
    · exact hi.kfree (hop.resolve_left h0) (hm s ptr (if_neg h0))
  | krealloc ptr size pmm => exact hi.exec_krealloc hop hm he
  | write ptr i v =>
    cases he
    obtain ⟨b, hb, -, hbp, -, hbs⟩ := hi.block_of_live hop.1
    have hlt := hop.2
    rw [hbs] at hlt
    refine ⟨segs, hi.write hb (fun x hx => Function.update_of_ne ?_ _ _)⟩
    unfold Blk.stop at hx
    omega

theorem Inv.regions_of_noGrowth {r : Nat} {s' : St} (hi : Inv s live segs) (hop : op.Allowed s live)
    (hz : NoGrowth s op) (he : Heap.exec s op = some (r, s')) : s'.regions = s.regions := by
  cases op with
  | kmalloc size pmm =>
    obtain ⟨p, t, segs', he', -, hreg⟩ := hi.kmalloc hop.1 hop.2
    cases he'.symm.trans he
    exact hreg hz
  | kcalloc n size pmm =>
    have hmod : n * size % 2 ^ 64 = n * size := Nat.mod_eq_of_lt (lt_of_le_of_lt hop.1 (by norm_num))
    obtain ⟨p, t, segs', he', -, hreg⟩ := hi.kmalloc hop.1 hop.2
    simp only [Heap.exec, kcalloc, hmod, he', Option.some.injEq, Prod.mk.injEq] at he
    obtain ⟨rfl, rfl⟩ := he
    rw [← hreg hz]
    split_ifs <;> rfl
  | kfree ptr =>
    cases he
    exact kfree_regions s ptr
  | krealloc ptr size pmm =>
    obtain ⟨p, t, segs', he', -, hreg⟩ := hi.kmalloc hop.1 hop.2.2
    have ht := hreg hz
    simp only [Heap.exec, krealloc, he'] at he
    split_ifs at he <;> simp only [Option.some.injEq, Prod.mk.injEq] at he <;> obtain ⟨-, rfl⟩ := he
    · exact ht
    · exact kfree_regions s ptr
    · rfl
    · exact ht
    · exact (kfree_regions _ ptr).trans ht
  | write ptr i v =>
    cases he
    rfl

/-- With one region, no call merges blocks of different regions. -/
theorem Inv.mergeOk_of_noGrowth {a : Nat × Nat} (hi : Inv s live segs) (hop : op.Allowed s live) (hz : NoGrowth s op)
    (hr : s.regions = [a]) : MergeOk s op := by
  intro t p h r hrm hb c hc h0 hfree
  obtain ⟨live', segs', hi', hp, hreg⟩ := hi.releases hop h
  obtain ⟨b, hbm, -, -, hsub, -⟩ := hi'.block_of_live hp
  rw [hsub] at hc
  obtain ⟨d, hd, rfl⟩ := hi'.rep.neighbour hbm hc h0
  obtain ⟨r', hr', hin⟩ := hi'.inRegion d hd
  rw [hreg hz, hr, List.mem_singleton] at hrm hr'
  rw [hrm, ← hr']
  exact hin

end

/-! ## Every run -/

theorem inv_init (m : Mem) {arena : Nat} (h0 : 0 < arena) (h64 : arena + EARLY_HEAP ≤ 2 ^ 64) :
    Inv (heap_init m arena) [] [[⟨arena, EARLY_HEAP - BLOCK, true⟩]] := by
  have hempty : Inv ⟨m, 0, 0, 0, 0, []⟩ [] [] :=
    ⟨⟨⟨.nil, by simp⟩, trivial⟩, rfl, .nil, .nil, by simp, rfl, rfl, by simp⟩
  exact hempty.addRegion (by decide) h0 h64 (by simp)

theorem runs_inv {arena : Nat} {P : St → Op → Prop} {s : St} {live : List Nat} (h0 : 0 < arena)
    (h64 : arena + EARLY_HEAP ≤ 2 ^ 64) (hP : ∀ s op, P s op → MergeOk s op) (h : Runs arena P s live) :
    ∃ segs, Inv s live segs := by
  induction h with
  | init m => exact ⟨_, inv_init m h0 h64⟩
  | step op _ hop hp he ih =>
    obtain ⟨segs, hi⟩ := ih
    exact hi.exec hop (hP _ op hp) he

/-- While every free list neighbour of a released block lies in that block's region, blocks stay apart and inside their
regions, and every call returns. -/
theorem heap_safe {arena : Nat} (h0 : 0 < arena) (h64 : arena + EARLY_HEAP ≤ 2 ^ 64) {s : St} {live : List Nat}
    (h : Runs arena MergeOk s live) : Safe s ∧ ∀ op : Op, op.Allowed s live → (exec s op).isSome := by
  obtain ⟨segs, hi⟩ := runs_inv h0 h64 (fun _ _ => id) h
  exact ⟨hi.safe, fun op hop => hi.returns hop⟩

/-- A first allocation from a fresh arena at 2 MiB. -/
theorem first_alloc : ∃ s, exec (heap_init (fun _ => 0) 0x200000) (.kmalloc 100 []) = some (0x200028, s) := by
  obtain ⟨⟨r, s⟩, he⟩ := Option.isSome_iff_exists.1
    (by decide +kernel : (exec (heap_init (fun _ => 0) 0x200000) (.kmalloc 100 [])).isSome)
  have hr : (exec (heap_init (fun _ => 0) 0x200000) (.kmalloc 100 [])).map Prod.fst = some 0x200028 := by decide +kernel
  rw [he, Option.map_some, Option.some.injEq] at hr
  dsimp only at hr
  subst hr
  exact ⟨s, he⟩

theorem first_allowed : Op.Allowed (heap_init (fun _ => 0) 0x200000) [] (.kmalloc 100 []) := ⟨by norm_num, by simp [Grants]⟩

theorem heap_safe_first : ∃ s, exec (heap_init (fun _ => 0) 0x200000) (.kmalloc 100 []) = some (0x200028, s) ∧ Safe s := by
  obtain ⟨s, he⟩ := first_alloc
  refine ⟨s, he, (heap_safe (by decide) (by decide) (.step _ (.init _) first_allowed ?_ he)).1⟩
  intro t p h
  cases h

/-! ## Merging across regions -/

/-- The heap grows for a large request at 16 MiB. -/
def grown : Option (Nat × St) := exec (heap_init (fun _ => 0) 0x200000) (.kmalloc 614400 [0x1000000])

/-- The rest of the new region is handed out whole. -/
def filled : Option (Nat × St) := grown.bind (fun r => exec r.2 (.kmalloc 8112 []))

/-- And released: its next block in the list is the free arena. -/
def crossed : Option (Nat × St) := filled.bind (fun r => exec r.2 (.kfree r.1))

theorem crossed_runs : ∃ s, crossed = some (0, s) ∧ Runs 0x200000 (fun _ _ => True) s [0x1000028] := by
  obtain ⟨⟨r1, s1⟩, h1⟩ := Option.isSome_iff_exists.1 (by decide +kernel : grown.isSome)
  obtain ⟨⟨r2, s2⟩, h2⟩ := Option.isSome_iff_exists.1 (by decide +kernel : filled.isSome)
  have hr1 : grown.map Prod.fst = some 0x1000028 := by decide +kernel
  have hr2 : filled.map Prod.fst = some 0x1096050 := by decide +kernel
  rw [h1, Option.map_some, Option.some.injEq] at hr1
  rw [h2, Option.map_some, Option.some.injEq] at hr2
  dsimp only at hr1 hr2
  subst hr1 hr2
  have he2 : exec s1 (.kmalloc 8112 []) = some (0x1096050, s2) := by
    rw [← h2, filled, h1]
    rfl
  have hgrant : Op.Allowed (heap_init (fun _ => 0) 0x200000) [] (.kmalloc 614400 [0x1000000]) := by
    refine ⟨by norm_num, ?_⟩
    unfold Grants
    decide +kernel
  refine ⟨kfree s2 0x1096050, by rw [crossed, h2]; rfl, ?_⟩
  have hrun1 := Runs.step (P := fun _ _ => True) (.kmalloc 614400 [0x1000000]) (.init (fun _ => 0)) hgrant trivial h1
  have hrun2 := Runs.step (.kmalloc 8112 []) hrun1 ⟨by norm_num, by simp [Grants]⟩ trivial he2
  exact Runs.step (.kfree 0x1096050) hrun2 (.inr (by simp [Op.live])) trivial rfl

/-- The released block has taken in the arena, which lies in another region. -/
theorem crossed_not_safe : ∃ s, crossed = some (0, s) ∧ Runs 0x200000 (fun _ _ => True) s [0x1000028] ∧ ¬ Safe s := by
  obtain ⟨s, hs, hrun⟩ := crossed_runs
  refine ⟨s, hs, hrun, ?_⟩
  rintro ⟨l, hl, -, hin⟩
  have hview : crossed.map (fun r => (r.2.heap_head, (block r.2.mem 0x1000000).next, (block r.2.mem 0x1096028).size,
      r.2.regions)) = some (0x1000000, 0x1096028, 532400, [(0x1000000, 622592), (0x200000, 524288)]) := by decide +kernel
  rw [hs, Option.map_some, Option.some.injEq, Prod.mk.injEq, Prod.mk.injEq, Prod.mk.injEq] at hview
  obtain ⟨hhead, hnext, hsize, hregs⟩ := hview
  dsimp only at hhead hnext hsize hregs
  -- the second block of the list is the one that was released
  have hsecond : 0x1096028 ∈ l := by
    unfold Blocks at hl
    rw [hhead] at hl
    have hfirst : Seg (fun b => ptr (block s.mem b).next) (ptr 0x1000000) [0x1000000] (ptr 0x1096028) :=
      ⟨rfl, by simp only [hnext, seg_nil]⟩
    obtain ⟨l', rfl, hl'⟩ := Chain.split hl hfirst
    cases l' with
    | nil => cases hl'
    | cons b l' =>
      obtain ⟨hb, -⟩ := hl'
      cases hb
      simp
  obtain ⟨r, hr, h1, h2⟩ := hin _ hsecond
  rw [hregs] at hr
  rw [hsize] at h2
  unfold BLOCK at h2
  rcases List.mem_cons.1 hr with rfl | hr
  · omega
  · rw [List.mem_singleton.1 hr] at h1 h2
    omega

/-! ## The arena alone -/

section
variable {m : Mem} {p q a e : Nat} {bs : List Blk}

theorem Linked.isChain (h : Linked m p bs q) :
    (bs.map Blk.addr).IsChain (fun b c => (block m b).next = c ∧ (block m c).prev = b) := by
  induction bs generalizing p with
  | nil => exact List.isChain_nil
  | cons b bs ih =>
    refine List.isChain_cons.2 ⟨fun y hy => ?_, ih h.2⟩
    cases bs with
    | nil => simp at hy
    | cons c bs =>
      simp only [List.map_cons, List.head?_cons, Option.mem_def, Option.some.injEq] at hy
      subst hy
      rw [h.1, h.2.1]
      exact ⟨rfl, rfl⟩

/-- What is in use of a tiled range is at most its length. -/
theorem usedBytes_le (h : Tiles Blk.addr Blk.stop a bs e) : a + usedBytes bs ≤ e := by
  induction bs generalizing a with
  | nil => exact (tiles_nil.1 h).le
  | cons b bs ih =>
    have := ih h.2
    have hb : b.addr = a := h.1
    unfold Blk.stop at this
    unfold usedBytes
    split <;> omega

theorem usedBytes_eq (h : ∀ b ∈ bs, (block m b.addr).size = b.size ∧ (block m b.addr).free = b.free) :
    (((bs.map Blk.addr).filter (fun b => !(block m b).free)).map (fun b => (block m b).size)).sum = usedBytes bs := by
  induction bs with
  | nil => rfl
  | cons b bs ih =>
    obtain ⟨hs, hf⟩ := h b (by simp)
    have hrest := ih (fun c hc => h c (by simp [hc]))
    rw [List.map_cons, usedBytes]
    cases hb : b.free with
    | true =>
      rw [List.filter_cons_of_neg (by simp [hf, hb]), hrest]
      simp
    | false =>
      rw [List.filter_cons_of_pos (by simp [hf, hb]), List.map_cons, List.sum_cons, hrest, hs]
      simp

/-- With the arena as the only region, the invariant is exact tiling. -/
theorem Inv.exact {s : St} {live : List Nat} {segs : List (List Blk)} {arena : Nat} (hi : Inv s live segs)
    (hr : s.regions = [(arena, EARLY_HEAP)]) : ∃ l, Exact arena s l := by
  have hf := hi.fills
  rw [hr] at hf
  obtain ⟨bs, rest, hbs, hrest, rfl⟩ := List.forall₂_cons_left_iff.1 hf
  rw [List.forall₂_nil_left_iff] at hrest
  subst hrest
  have hrep : Rep s.mem bs := by simpa using hi.rep
  have hblk : ∀ b ∈ bs, (block s.mem b.addr).magic = HEAP_MAGIC ∧ (block s.mem b.addr).size = b.size ∧
      (block s.mem b.addr).free = b.free := by
    intro b hb
    obtain ⟨nx, pv, h⟩ := hrep.block_of_mem hb
    rw [h]
    exact ⟨rfl, rfl, rfl⟩
  have hne : bs ≠ [] := by
    rintro rfl
    have := hbs.tiles
    simp [EARLY_HEAP] at this
  have hhead : s.heap_head = arena := by
    rw [hi.head, List.flatten_singleton]
    exact tiles_first hbs.tiles hne
  refine ⟨bs.map Blk.addr, ⟨by simpa using hi.blocks, hhead, ?_, ?_, hrep.linked.isChain, ?_, ?_, ?_, ?_⟩⟩
  · refine hbs.tiles.starts (fun b hb => ?_)
    rw [(hblk b hb).2.1]
    rfl
  · obtain ⟨b, bs, rfl⟩ := List.exists_cons_of_ne_nil hne
    have hb : b.addr = arena := hbs.tiles.1
    rw [hhead, ← hb, hrep.linked.1]
  · intro a ha
    obtain ⟨b, hb, rfl⟩ := List.mem_map.1 ha
    exact (hblk b hb).1
  · refine (List.isChain_map _).2 (hbs.merged.imp_of_mem_imp ?_)
    intro b c hb hc hbc
    rw [(hblk b hb).2.2, (hblk c hc).2.2]
    exact hbc
  · have hu := hi.used
    have hle := usedBytes_le hbs.tiles
    have hbound := (hi.bound (arena, EARLY_HEAP) (by simp [hr])).2
    rw [List.flatten_singleton] at hu
    dsimp only at hle hbound
    rw [usedBytes_eq (fun b hb => (hblk b hb).2)]
    refine hu.trans (Nat.mod_eq_of_lt ?_)
    unfold EARLY_HEAP at hle
    omega
  · refine hi.total.trans ?_
    rw [hr]
    rfl

end

/-- Runs that never grow the heap keep its one region. -/
theorem runs_arena {arena : Nat} {s : St} {live : List Nat} (h0 : 0 < arena) (h64 : arena + EARLY_HEAP ≤ 2 ^ 64)
    (h : Runs arena NoGrowth s live) : s.regions = [(arena, EARLY_HEAP)] ∧ ∃ segs, Inv s live segs := by
  induction h with
  | init m => exact ⟨rfl, _, inv_init m h0 h64⟩
  | step op _ hop hz he ih =>
    obtain ⟨hr, segs, hi⟩ := ih
    exact ⟨(hi.regions_of_noGrowth hop hz he).trans hr, hi.exec hop (hi.mergeOk_of_noGrowth hop hz hr) he⟩

/-- While the heap does not grow, its blocks tile the arena exactly and are fully merged, and every call returns. -/
theorem arena_exact {arena : Nat} (h0 : 0 < arena) (h64 : arena + EARLY_HEAP ≤ 2 ^ 64) {s : St} {live : List Nat}
    (h : Runs arena NoGrowth s live) : (∃ l, Exact arena s l) ∧ ∀ op : Op, op.Allowed s live → (exec s op).isSome := by
  obtain ⟨hr, segs, hi⟩ := runs_arena h0 h64 h
  exact ⟨hi.exact hr, fun op hop => hi.returns hop⟩

theorem arena_exact_first :
    ∃ s, exec (heap_init (fun _ => 0) 0x200000) (.kmalloc 100 []) = some (0x200028, s) ∧ ∃ l, Exact 0x200000 s l := by
  obtain ⟨s, he⟩ := first_alloc
  refine ⟨s, he, (arena_exact (by decide) (by decide) (.step _ (.init _) first_allowed ?_ he)).1⟩
  simp [NoGrowth, Op.pmm]

end H3OS.Heap
