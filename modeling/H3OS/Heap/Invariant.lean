import H3OS.Heap.List
import H3OS.Lib.Tiling
/-!
# The heap invariant

The heap list is one run of blocks per region, newest region first. Each run
tiles its region exactly and holds no two free blocks in a row.
-/
open SysLib

namespace H3OS.Heap

/-- Bytes in use. -/
def usedBytes : List Blk → Nat
  | [] => 0
  | b :: bs => (if b.free then 0 else b.size) + usedBytes bs

/-- No two blocks in a row are free. -/
def Merged (bs : List Blk) : Prop := bs.IsChain (fun b c => ¬(b.free = true ∧ c.free = true))

/-- The run of one region: its blocks tile it, and of two neighbours one is in use. -/
structure Fills (r : Nat × Nat) (bs : List Blk) : Prop where
  tiles : Tiles Blk.addr Blk.stop r.1 bs (r.1 + r.2)
  merged : Merged bs

structure Inv (s : St) (live : List Nat) (segs : List (List Blk)) : Prop where
  rep : Rep s.mem segs.flatten
  head : s.heap_head = first 0 segs.flatten
  fills : List.Forall₂ Fills s.regions segs
  apart : s.regions.Pairwise (fun r t => Apart r.1 r.2 t.1 t.2)
  bound : ∀ r ∈ s.regions, 0 < r.1 ∧ r.1 + r.2 ≤ 2 ^ 64
  used : s.heap_used = usedBytes segs.flatten % 2 ^ 64
  total : s.heap_total = (s.regions.map Prod.snd).sum % 2 ^ 64
  live : ∀ p ∈ live, ∃ b ∈ segs.flatten, b.free = false ∧ b.addr + BLOCK = p

section
variable {rs : List (Nat × Nat)} {segs A B : List (List Blk)} {pre post bs : List Blk} {b c : Blk} {r : Nat × Nat}

theorem Blk.addr_le_stop (b : Blk) : b.addr ≤ b.stop := by unfold Blk.stop; omega

@[simp] theorem usedBytes_append : usedBytes (pre ++ post) = usedBytes pre + usedBytes post := by
  induction pre with
  | nil => simp [usedBytes]
  | cons b pre ih => rw [List.cons_append, usedBytes, usedBytes, ih, Nat.add_assoc]

/-- A free block has no free neighbour. -/
theorem merged_middle : Merged (pre ++ b :: post) ↔ Merged pre ∧ Merged post ∧
    (b.free = true → (∀ x ∈ pre.getLast?, x.free = false) ∧ ∀ y ∈ post.head?, y.free = false) := by
  unfold Merged
  rw [List.isChain_append, List.isChain_cons]
  simp only [List.head?_cons, Option.mem_def, Option.some.injEq, forall_eq', not_and, Bool.not_eq_true]
  constructor
  · rintro ⟨h1, ⟨h2, h3⟩, h4⟩
    refine ⟨h1, h3, fun hb => ⟨fun x hx => ?_, fun y hy => h2 y hy hb⟩⟩
    by_contra hne
    have := h4 x hx (by simpa using hne)
    simp [hb] at this
  · rintro ⟨h1, h2, h3⟩
    refine ⟨h1, ⟨fun y hy hb => (h3 hb).2 y hy, h2⟩, fun x hx hxf => ?_⟩
    by_contra hne
    have := (h3 (by simpa using hne)).1 x hx
    simp [hxf] at this

theorem merged_cons : Merged (b :: post) ↔ Merged post ∧ (b.free = true → ∀ y ∈ post.head?, y.free = false) := by
  have h := @merged_middle [] post b
  simpa [Merged] using h

theorem merged_concat : Merged (pre ++ [b]) ↔ Merged pre ∧ (b.free = true → ∀ x ∈ pre.getLast?, x.free = false) := by
  have h := @merged_middle pre [] b
  simpa [Merged] using h

/-- A block of the list sits in the run of one region. -/
theorem flatten_middle (h : segs.flatten = pre ++ b :: post) :
    ∃ A pre' post' B, segs = A ++ (pre' ++ b :: post') :: B ∧ pre = A.flatten ++ pre' ∧ post = post' ++ B.flatten := by
  rcases List.flatten_eq_append_iff.1 h with ⟨A, B, rfl, rfl, hB⟩ | ⟨A, pre', c, post', B, rfl, rfl, hB⟩
  · obtain ⟨A', post', B', rfl, hnil, rfl⟩ := List.flatten_eq_cons_iff.1 hB.symm
    refine ⟨A ++ A', [], post', B', by simp, ?_, rfl⟩
    simp [List.flatten_eq_nil_iff.2 hnil]
  · obtain ⟨rfl, rfl⟩ := List.cons.inj hB
    exact ⟨A, pre', post', B, rfl, rfl, rfl⟩

/-- Blocks that do not overlap, payloads included. -/
def BlkApart (b c : Blk) : Prop := Apart b.addr (BLOCK + b.size) c.addr (BLOCK + c.size)

instance : Std.Symm BlkApart := ⟨fun _ _ => Apart.symm⟩

theorem Fills.bounds (h : Fills r bs) : ∀ b ∈ bs, r.1 ≤ b.addr ∧ b.stop ≤ r.1 + r.2 := h.tiles.bounds Blk.addr_le_stop

theorem Fills.apart (h : Fills r bs) : bs.Pairwise BlkApart := by
  refine (h.tiles.ordered Blk.addr_le_stop).imp ?_
  intro b c hbc
  unfold Blk.stop at hbc
  exact .inl (by omega)

/-- Every block lies in one of the regions. -/
theorem fills_mem (h : List.Forall₂ Fills rs segs) : ∀ b ∈ segs.flatten, ∃ r ∈ rs, r.1 ≤ b.addr ∧ b.stop ≤ r.1 + r.2 := by
  induction h with
  | nil => simp
  | @cons r bs rs segs hr h ih =>
    intro b hb
    rcases List.mem_append.1 hb with hb | hb
    · exact ⟨r, by simp, hr.bounds b hb⟩
    · obtain ⟨t, ht, hbt⟩ := ih b hb
      exact ⟨t, by simp [ht], hbt⟩

/-- Regions that are apart have blocks that are apart. -/
theorem fills_apart (h : List.Forall₂ Fills rs segs) (hr : rs.Pairwise (fun r t => Apart r.1 r.2 t.1 t.2)) :
    segs.flatten.Pairwise BlkApart := by
  induction h with
  | nil => exact .nil
  | @cons r bs rs segs hf h ih =>
    obtain ⟨hap, hr⟩ := List.pairwise_cons.1 hr
    refine List.pairwise_append.2 ⟨hf.apart, ih hr, fun b hb c hc => ?_⟩
    obtain ⟨t, ht, hc⟩ := fills_mem h c hc
    have hb := hf.bounds b hb
    have := hap t ht
    unfold Apart at this
    unfold Blk.stop at *
    unfold BlkApart Apart
    omega

/-- The region of a run: the run may be replaced by another that fills it, and all other blocks are apart from it. -/
theorem fills_middle (h : List.Forall₂ Fills rs (A ++ bs :: B)) (hr : rs.Pairwise (fun r t => Apart r.1 r.2 t.1 t.2)) :
    ∃ r ∈ rs, Fills r bs ∧ (∀ bs', Fills r bs' → List.Forall₂ Fills rs (A ++ bs' :: B)) ∧
      ∀ c ∈ A.flatten ++ B.flatten, Apart r.1 r.2 c.addr (BLOCK + c.size) := by
  induction A generalizing rs with
  | nil =>
    cases h with
    | @cons r _ rs _ hf h =>
      refine ⟨r, by simp, hf, fun bs' h' => .cons h' h, fun c hc => ?_⟩
      obtain ⟨t, ht, h1, h2⟩ := fills_mem h c (by simpa using hc)
      have hap := (List.pairwise_cons.1 hr).1 t ht
      unfold Blk.stop at h2
      unfold Apart at *
      omega
  | cons a A ih =>
    cases h with
    | @cons t _ rs _ ht h =>
      obtain ⟨hap, hr⟩ := List.pairwise_cons.1 hr
      obtain ⟨r, hrm, hf, hrep, hother⟩ := ih h hr
      refine ⟨r, by simp [hrm], hf, fun bs' h' => .cons ht (hrep bs' h'), fun c hc => ?_⟩
      rw [List.flatten_cons, List.append_assoc, List.mem_append] at hc
      rcases hc with hc | hc
      · have hb := ht.bounds c hc
        have := hap r hrm
        unfold Blk.stop at hb
        unfold Apart at *
        omega
      · exact hother c hc

end

end H3OS.Heap
