import H3OS.Vfs.Calls
import H3OS.Vfs.Raw
/-!
# Every node owns its block

Across any run, a node's data is a block in use, large enough for its size and
the NUL behind it, and no other node's. So the bytes of a file change only
when the file is written or unlinked, and the view of a run of calls over the
heap is a run of the calls on contents.
-/
open SysLib

namespace H3OS.Vfs.Raw

structure Inv (p : St) : Prop where
  inUse : InUse p.live
  owns : ∀ n, (p.nodes n).data ≠ 0 → ∃ b ∈ p.live, b.start = (p.nodes n).data ∧ (p.nodes n).size < b.len
  own : ∀ n m, (p.nodes n).data = (p.nodes m).data → (p.nodes n).data ≠ 0 → n = m
  empty : ∀ n, (p.nodes n).data = 0 → (p.nodes n).size = 0
  unused : ∀ n, p.node_count ≤ n.val → (p.nodes n).type = .none ∧ (p.nodes n).data = 0

section
variable {p p' p'' : St} {n m : NodePtr} {b : Block}

/-- Bytes in a node's block are the node's bytes. -/
theorem Inv.bytes_kept (hi : Inv p) {m' : Mem}
    (h : ∀ b ∈ p.live, b.start = (p.nodes n).data → SameOn b p.mem m') :
    bytesAt m' (p.nodes n).data (p.nodes n).size = p.bytes n := by
  unfold St.bytes
  by_cases hd : (p.nodes n).data = 0
  · rw [hi.empty n hd, bytesAt_zero, bytesAt_zero]
  · obtain ⟨b, hb, hs, hlt⟩ := hi.owns n hd
    rw [← hs]
    exact (h b hb hs).bytes hlt.le

theorem Inv.view_kept (hi : Inv p) {m' : Mem}
    (h : ∀ b ∈ p.live, b.start = (p.nodes n).data → SameOn b p.mem m') :
    (p.nodes n).view m' = (p.nodes n).view p.mem := by
  unfold vfs_node_t.view
  rw [hi.bytes_kept h]
  rfl

/-! ## Calls that leave the data alone -/

structure SameData (p p' : St) : Prop where
  data : ∀ n, (p'.nodes n).data = (p.nodes n).data
  size : ∀ n, (p'.nodes n).size = (p.nodes n).size
  mem : p'.mem = p.mem
  live : p'.live = p.live
  count : p.node_count ≤ p'.node_count
  unused : ∀ n, p'.node_count ≤ n.val → (p'.nodes n).type = (p.nodes n).type

theorem SameData.refl (p : St) : SameData p p := ⟨fun _ => rfl, fun _ => rfl, rfl, rfl, le_refl _, fun _ _ => rfl⟩

theorem SameData.trans (h : SameData p p') (h' : SameData p' p'') : SameData p p'' :=
  ⟨fun n => (h'.data n).trans (h.data n), fun n => (h'.size n).trans (h.size n), h'.mem.trans h.mem,
    h'.live.trans h.live, h.count.trans h'.count,
    fun n hn => (h'.unused n hn).trans (h.unused n (h'.count.trans hn))⟩

theorem SameData.inv (h : SameData p p') (hi : Inv p) : Inv p' := by
  refine ⟨h.live ▸ hi.inUse, fun n => ?_, fun n m => ?_, fun n => ?_, fun n hn => ?_⟩
  · rw [h.data, h.size, h.live]
    exact hi.owns n
  · rw [h.data, h.data]
    exact hi.own n m
  · rw [h.data, h.size]
    exact hi.empty n
  · rw [h.data, h.unused n hn]
    exact hi.unused n (h.count.trans hn)

theorem set_same (p : St) (n : NodePtr) (v : vfs_node_t) : (p.set n v).nodes n = v := by
  simp [St.set]

theorem set_other (p : St) (v : vfs_node_t) (h : m ≠ n) : (p.set n v).nodes m = p.nodes m := by
  simp [St.set, h]

theorem sameData_set {v : vfs_node_t} (ht : v.type = (p.nodes n).type) (hd : v.data = (p.nodes n).data)
    (hs : v.size = (p.nodes n).size) : SameData p (p.set n v) := by
  have hall : ∀ m, ((p.set n v).nodes m).type = (p.nodes m).type ∧ ((p.set n v).nodes m).data = (p.nodes m).data ∧
      ((p.set n v).nodes m).size = (p.nodes m).size := by
    intro m
    by_cases hm : m = n
    · rw [hm, set_same]
      exact ⟨ht, hd, hs⟩
    · rw [set_other p v hm]
      exact ⟨rfl, rfl, rfl⟩
  exact ⟨fun m => (hall m).2.1, fun m => (hall m).2.2, rfl, rfl, le_refl _, fun m _ => (hall m).1⟩

theorem sameData_link_child (p : St) (parent child : NodePtr) : SameData p (link_child p parent child) := by
  unfold link_child
  refine SameData.trans ?_ (sameData_set rfl rfl rfl)
  exact sameData_set rfl rfl rfl

theorem sameData_unlink_child (p : St) (parent n : NodePtr) : SameData p (unlink_child p parent n) := by
  unfold unlink_child
  split_ifs
  · exact sameData_set rfl rfl rfl
  · split
    · exact sameData_set rfl rfl rfl
    · exact .refl p

/-- A node that was never allocated has no data to lose. -/
theorem Inv.alloc_node (hi : Inv p) {name : List UInt8} {type : vfs_type_t} {mode : Nat}
    (h : alloc_node p name type mode = some (n, p')) : SameData p p' := by
  unfold Raw.alloc_node at h
  split_ifs at h with hlt
  cases h
  have hnone := (hi.unused ⟨p.node_count, hlt⟩ (le_refl _)).2
  have hother : ∀ m, m ≠ ⟨p.node_count, hlt⟩ → (p.set ⟨p.node_count, hlt⟩
      ⟨name.take (VFS_NAME_MAX - 1), type, mode, 0, 0, none, none, none⟩).nodes m = p.nodes m :=
    fun m hm => set_other p _ hm
  refine ⟨fun m => ?_, fun m => ?_, rfl, rfl, Nat.le_succ _, fun m hm => ?_⟩
  · by_cases hm : m = ⟨p.node_count, hlt⟩
    · rw [hm, hnone, set_same]
    · rw [hother m hm]
  · by_cases hm : m = ⟨p.node_count, hlt⟩
    · rw [hm, hi.empty _ hnone, set_same]
    · rw [hother m hm]
  · rw [hother m]
    rintro rfl
    exact absurd hm (Nat.not_succ_le_self _)

theorem Inv.make_node (hi : Inv p) (type : vfs_type_t) (path : List UInt8) (mode : Nat) :
    SameData p (make_node type p path mode).2 := by
  unfold Raw.make_node
  dsimp only
  split
  · exact .refl p
  · split_ifs
    · exact .refl p
    · split
      · exact .refl p
      · split
        · exact .refl p
        · next halloc => exact (hi.alloc_node halloc).trans (sameData_link_child _ _ _)

/-! ## What the view sees -/

theorem view_set (p : St) (n : NodePtr) (v : vfs_node_t) : (p.set n v).view = p.view.set n (v.view p.mem) := by
  unfold St.view Vfs.St.set
  congr 1
  funext m
  by_cases hm : m = n
  · rw [hm, set_same, Function.update_self]
    rfl
  · rw [set_other p v hm, Function.update_of_ne hm]
    rfl

theorem view_setChild (p : St) (n : NodePtr) (c : Option NodePtr) :
    (p.set n { p.nodes n with child := c }).view = p.view.setChild n c := view_set _ _ _

theorem view_setSibling (p : St) (n : NodePtr) (c : Option NodePtr) :
    (p.set n { p.nodes n with sibling := c }).view = p.view.setSibling n c := view_set _ _ _

theorem view_link_child (p : St) (parent child : NodePtr) :
    (link_child p parent child).view = Vfs.link_child p.view parent child :=
  (view_setChild _ parent (some child)).trans (congrArg (·.setChild parent (some child)) (view_set p child _))

theorem view_unlink_child (p : St) (parent n : NodePtr) :
    (unlink_child p parent n).view = Vfs.unlink_child p.view parent n := by
  unfold unlink_child Vfs.unlink_child
  have hchild : (p.view.nodes parent).child = (p.nodes parent).child := rfl
  rw [hchild]
  split_ifs
  · exact view_setChild _ _ _
  · cases find_prev p.view n (siblings p.view VFS_MAX_NODES (p.nodes parent).child) with
    | some c => exact view_setSibling _ _ _
    | none => rfl

theorem view_alloc_node (p : St) (name : List UInt8) (type : vfs_type_t) (mode : Nat) :
    Vfs.alloc_node p.view name type mode = (alloc_node p name type mode).map fun r => (r.1, r.2.view) := by
  unfold alloc_node Vfs.alloc_node
  have hcount : p.view.node_count = p.node_count := rfl
  simp only [hcount]
  split_ifs with hlt
  · have hset := view_set p ⟨p.node_count, hlt⟩ ⟨name.take (VFS_NAME_MAX - 1), type, mode, 0, 0, none, none, none⟩
    rw [Option.map_some]
    congr 2
    exact congrArg (fun s : Vfs.St => { s with node_count := p.node_count + 1 }) hset.symm
  · rfl

theorem view_make_node (type : vfs_type_t) (p : St) (path : List UInt8) (mode : Nat) :
    Vfs.make_node type p.view path mode = ((make_node type p path mode).1, (make_node type p path mode).2.view) := by
  unfold make_node Vfs.make_node
  dsimp only
  cases (ensure_parent p.view path).1 with
  | none => rfl
  | some parent =>
    dsimp only
    have htype : (p.view.nodes parent).type = (p.nodes parent).type := rfl
    rw [htype]
    split_ifs
    · rfl
    · cases find_child p.view parent (ensure_parent p.view path).2 with
      | some c => rfl
      | none =>
        rw [view_alloc_node]
        cases alloc_node p (ensure_parent p.view path).2 type mode with
        | none => rfl
        | some r =>
          dsimp only [Option.map_some]
          rw [view_link_child]

end

/-! ## Calls that replace one node's block -/

/-- The node is now `v`, and the blocks but its old one are as they were. -/
structure Replaced (p p' : St) (n : NodePtr) (v : vfs_node_t) : Prop where
  nodes : p'.nodes = Function.update p.nodes n v
  count : p'.node_count = p.node_count
  cwd : p'.cwd = p.cwd
  kept : ∀ c ∈ release (p.nodes n).data p.live, c ∈ p'.live ∧ SameOn c p.mem p'.mem

section
variable {p p' : St} {n m : NodePtr} {v : vfs_node_t} {c : Block}

theorem Replaced.same (hr : Replaced p p' n v) : p'.nodes n = v := by rw [hr.nodes, Function.update_self]

theorem Replaced.other (hr : Replaced p p' n v) (hm : m ≠ n) : p'.nodes m = p.nodes m := by
  rw [hr.nodes, Function.update_of_ne hm]

/-- The blocks of the other nodes are among those that are left. -/
theorem Replaced.left (hr : Replaced p p' n v) (hi : Inv p) (hm : m ≠ n) (hc : c ∈ p.live)
    (hd : c.start = (p.nodes m).data) : c ∈ p'.live ∧ SameOn c p.mem p'.mem := by
  refine hr.kept c (hi.inUse.mem_release.2 ⟨hc, fun heq => hm ?_⟩)
  exact hi.own m n (hd.symm.trans heq) (hd ▸ (hi.inUse.real c hc).start.ne')

theorem Replaced.bytes (hr : Replaced p p' n v) (hi : Inv p) (hm : m ≠ n) : p'.bytes m = p.bytes m := by
  unfold St.bytes
  rw [hr.other hm]
  exact hi.bytes_kept fun c hc hd => (hr.left hi hm hc hd).2

theorem Replaced.view (hr : Replaced p p' n v) (hi : Inv p) : p'.view = p.view.set n (v.view p'.mem) := by
  have hnodes : p'.view.nodes = Function.update p.view.nodes n (v.view p'.mem) := by
    funext m
    by_cases hm : m = n
    · rw [hm, Function.update_self, ← hr.same]
      rfl
    · rw [Function.update_of_ne hm]
      show (p'.nodes m).view p'.mem = (p.nodes m).view p.mem
      rw [hr.other hm]
      exact hi.view_kept fun c hc hd => (hr.left hi hm hc hd).2
  unfold Vfs.St.set
  rw [← hnodes]
  unfold St.view
  rw [hr.count, hr.cwd]

/-- Enough that the node's new block, if any, is no other node's. -/
theorem Replaced.inv (hr : Replaced p p' n v) (hi : Inv p) (huse : InUse p'.live)
    (hown : v.data = 0 ∧ v.size = 0 ∨
      ∃ b ∈ p'.live, b.start = v.data ∧ v.size < b.len ∧ ∀ m, (p.nodes m).data ≠ v.data)
    (hun : p.node_count ≤ n.val → v.type = .none ∧ v.data = 0) : Inv p' := by
  have hnew : ∀ m, v.data ≠ 0 → (p.nodes m).data ≠ v.data := by
    intro m hd
    rcases hown with ⟨hzero, -⟩ | ⟨b, -, -, -, hne⟩
    · exact absurd hzero hd
    · exact hne m
  refine ⟨huse, fun m => ?_, fun m k => ?_, fun m => ?_, fun m hm => ?_⟩
  · by_cases hmn : m = n
    · rw [hmn, hr.same]
      intro hd
      rcases hown with ⟨hzero, -⟩ | ⟨b, hb, hs, hlt, -⟩
      · exact absurd hzero hd
      · exact ⟨b, hb, hs, hlt⟩
    · rw [hr.other hmn]
      intro hd
      obtain ⟨c, hc, hcs, hlt⟩ := hi.owns m hd
      exact ⟨c, (hr.left hi hmn hc hcs).1, hcs, hlt⟩
  · by_cases hmn : m = n
    · by_cases hkn : k = n
      · exact fun _ _ => hmn.trans hkn.symm
      · rw [hmn, hr.same, hr.other hkn]
        exact fun heq hd => absurd heq.symm (hnew k hd)
    · by_cases hkn : k = n
      · rw [hkn, hr.same, hr.other hmn]
        exact fun heq hd => absurd heq (hnew m (heq ▸ hd))
      · rw [hr.other hmn, hr.other hkn]
        exact hi.own m k
  · by_cases hmn : m = n
    · rw [hmn, hr.same]
      intro hd
      rcases hown with ⟨-, hzero⟩ | ⟨b, hb, hs, -, -⟩
      · exact hzero
      · exact absurd (hs.trans hd) (huse.real b hb).start.ne'
    · rw [hr.other hmn]
      exact hi.empty m
  · rw [hr.count] at hm
    by_cases hmn : m = n
    · rw [hmn, hr.same]
      exact hun (hmn ▸ hm)
    · rw [hr.other hmn]
      exact hi.unused m hm

end

/-! ## Writing -/

/-- The new block with the bytes of the buffer and a NUL. -/
def filled (m : Mem) (b : Block) (buf size : Nat) (h : HeapCall) : Mem :=
  Function.update (copy (h.grow m) b.start buf size) (b.start + size) 0

/-- The state once the block `b` has taken the place of the node's old one. -/
def written (p : St) (n : NodePtr) (b : Block) (buf size : Nat) (h : HeapCall) : St where
  nodes := Function.update p.nodes n { p.nodes n with data := b.start, size := size }
  node_count := p.node_count
  cwd := p.cwd
  mem := if (p.nodes n).data ≠ 0 then h.drop (filled p.mem b buf size h) else filled p.mem b buf size h
  live := release (p.nodes n).data (b :: p.live)

section
variable {p : St} {n : NodePtr} {b c : Block} {buf size : Nat} {h : HeapCall}

theorem vfs_write_not_file (hf : (p.nodes n).type ≠ .VFS_FILE) : vfs_write p (some n) buf size h = (-1, p) := if_pos hf

theorem vfs_write_no_memory (hf : (p.nodes n).type = .VFS_FILE) (hfind : h.find (add64 size 1) = none) :
    vfs_write p (some n) buf size h = (-1, { p with mem := h.grow p.mem }) := by
  unfold vfs_write kmalloc
  dsimp only
  rw [if_neg (not_not.2 hf), hfind]
  rfl

/-- Without an old block `release` has nothing to take. -/
theorem vfs_write_found (hi : Inv p) (hs : h.Sound p.live ⟨buf, size⟩ (add64 size 1) (p.nodes n).data)
    (hf : (p.nodes n).type = .VFS_FILE) (hfind : h.find (add64 size 1) = some b) :
    vfs_write p (some n) buf size h = (i32 size, written p n b buf size h) := by
  have hreal := (hs.real b hfind).1
  have huse : InUse (b :: p.live) := hi.inUse.cons hreal (hs.fresh b hfind).2
  unfold vfs_write kmalloc
  dsimp only
  rw [if_neg (not_not.2 hf), hfind]
  dsimp only
  rw [if_neg hreal.start.ne']
  unfold written
  by_cases hd : (p.nodes n).data = 0
  · simp only [hd, ne_eq, not_true_eq_false, ↓reduceIte, huse.release_null]
    rfl
  · simp only [hd, ne_eq, not_false_eq_true, ↓reduceIte]
    rfl

/-! A write that finds a block. -/

variable (hi : Inv p) (hs : h.Sound p.live ⟨buf, size⟩ (add64 size 1) (p.nodes n).data)
  (hfind : h.find (add64 size 1) = some b) (hsize : size + 1 < 2 ^ 64)
include hi hs hfind

/-- No node has the new block. -/
theorem Inv.new_start (m : NodePtr) : (p.nodes m).data ≠ b.start := by
  intro heq
  have hreal := (hs.real b hfind).1
  obtain ⟨c, hc, hcs, -⟩ := hi.owns m (heq ▸ hreal.start.ne')
  exact ((hs.fresh b hfind).2 c hc).start_ne hreal (hi.inUse.real c hc) (hcs.trans heq).symm

theorem Inv.written_live : (written p n b buf size h).live = b :: release (p.nodes n).data p.live :=
  release_cons (hi.new_start hs hfind n).symm

omit hi in
/-- What is left in use keeps what it holds once the new block is filled. -/
theorem HeapCall.Sound.written_mem (hc : c ∈ release (p.nodes n).data (b :: p.live)) :
    SameOn c (filled p.mem b buf size h) (written p n b buf size h).mem := by
  unfold written
  dsimp only
  split_ifs
  · exact hs.drop b hfind c hc _
  · exact fun _ _ => rfl

include hsize

omit hi in
theorem HeapCall.Sound.room : size < b.len := by
  have hlen := (hs.real b hfind).2
  rw [add64_of_lt hsize] at hlen
  exact hlen

/-- The buffer's bytes are in the new block, also where the buffer lies in the block that was given back. -/
theorem Inv.written_bytes {i : Nat} (hlt : i < size) :
    (written p n b buf size h).mem (b.start + i) = p.mem (buf + i) := by
  have hroom := hs.room hfind hsize
  have hnew : b ∈ release (p.nodes n).data (b :: p.live) := by
    rw [release_cons (hi.new_start hs hfind n).symm]
    exact List.mem_cons_self
  have hapart : (Block.mk b.start size).Apart ⟨buf, size⟩ := by
    intro x hx
    exact (hs.fresh b hfind).1 x ⟨hx.1, hx.2.trans (Nat.add_lt_add_left hroom _)⟩
  rw [hs.written_mem hfind hnew (b.start + i) ⟨Nat.le_add_right _ _, Nat.add_lt_add_left (hlt.trans hroom) _⟩, filled,
    Function.update_of_ne (by omega), copy_in hapart hlt]
  exact hs.grow _ List.mem_cons_self p.mem (buf + i) ⟨Nat.le_add_right _ _, Nat.add_lt_add_left hlt _⟩

/-- The other blocks keep their bytes. -/
theorem Inv.written_kept (hc : c ∈ release (p.nodes n).data p.live) :
    SameOn c p.mem (written p n b buf size h).mem := by
  intro x hx
  have hroom := hs.room hfind hsize
  have hlive := (hi.inUse.mem_release.1 hc).1
  have hout : ¬ b.Has x := fun hb => (hs.fresh b hfind).2 c hlive x hb hx
  have hrange : x < b.start ∨ b.start + b.len ≤ x := by
    unfold Block.Has at hout
    omega
  have hmem : c ∈ release (p.nodes n).data (b :: p.live) := by
    rw [release_cons (hi.new_start hs hfind n).symm]
    exact List.mem_cons_of_mem _ hc
  rw [hs.written_mem hfind hmem x hx, filled, Function.update_of_ne (by omega), copy_out (by omega)]
  exact hs.grow c (List.mem_cons_of_mem _ hlive) p.mem x hx

theorem Inv.replaced_written :
    Replaced p (written p n b buf size h) n { p.nodes n with data := b.start, size := size } := by
  refine ⟨rfl, rfl, rfl, fun c hc => ⟨?_, hi.written_kept hs hfind hsize hc⟩⟩
  rw [hi.written_live hs hfind]
  exact List.mem_cons_of_mem _ hc

theorem Inv.written (hf : (p.nodes n).type = .VFS_FILE) : Inv (written p n b buf size h) := by
  have hreal := (hs.real b hfind).1
  have huse : InUse (b :: p.live) := hi.inUse.cons hreal (hs.fresh b hfind).2
  refine (hi.replaced_written hs hfind hsize).inv hi (huse.release _) (.inr ⟨b, ?_, rfl, hs.room hfind hsize, ?_⟩) ?_
  · rw [hi.written_live hs hfind]
    exact List.mem_cons_self
  · exact hi.new_start hs hfind
  · intro hn
    rw [(hi.unused n hn).1] at hf
    cases hf

theorem Inv.view_written : (Raw.written p n b buf size h).view =
    p.view.set n { p.view.nodes n with data := some (bytesAt p.mem buf size), size := size } := by
  rw [(hi.replaced_written hs hfind hsize).view hi]
  unfold vfs_node_t.view
  dsimp only
  rw [if_neg (hs.real b hfind).1.start.ne', bytesAt_congr fun i hlt => hi.written_bytes hs hfind hsize hlt]
  rfl

end

/-! ## The calls -/

section
variable {p : St} {h : HeapCall}

/-- What goes on around the nodes' blocks. -/
theorem Inv.around (hi : Inv p) {live : List Block} {m : Mem} (huse : InUse live)
    (hown : ∀ b, p.Owns b → b ∈ live ∧ SameOn b p.mem m) :
    Inv { p with live := live, mem := m } ∧ ({ p with live := live, mem := m } : St).view = p.view := by
  constructor
  · refine ⟨huse, fun n hd => ?_, hi.own, hi.empty, hi.unused⟩
    obtain ⟨b, hb, hs, hlt⟩ := hi.owns n hd
    exact ⟨b, (hown b ⟨hb, n, hs.symm⟩).1, hs, hlt⟩
  · unfold St.view
    congr 1
    funext n
    exact hi.view_kept fun b hb hs => (hown b ⟨hb, n, hs.symm⟩).2

theorem Inv.vfs_write (hi : Inv p) {node : Option NodePtr} {buf size : Nat} (hsize : size + 1 < 2 ^ 64)
    (hs : Served p node buf size h) :
    Inv (vfs_write p node buf size h).2 ∧
    Vfs.vfs_write p.view node (bytesAt p.mem buf size) (h.find (add64 size 1)).isSome =
      ((vfs_write p node buf size h).1, (vfs_write p node buf size h).2.view) := by
  cases node with
  | none => exact ⟨hi, rfl⟩
  | some n =>
    have hs := hs n rfl
    have htype : (p.view.nodes n).type = (p.nodes n).type := rfl
    unfold Vfs.vfs_write
    dsimp only
    rw [htype]
    by_cases hf : (p.nodes n).type = .VFS_FILE
    · rw [if_neg (not_not.2 hf)]
      cases hfind : h.find (add64 size 1) with
      | none =>
        obtain ⟨hi', hview⟩ := hi.around (m := h.grow p.mem) hi.inUse fun b hb =>
          ⟨hb.1, hs.grow b (List.mem_cons_of_mem _ hb.1) p.mem⟩
        rw [vfs_write_no_memory hf hfind]
        exact ⟨hi', congrArg (Prod.mk (-1)) hview.symm⟩
      | some b =>
        rw [vfs_write_found hi hs hf hfind]
        refine ⟨hi.written hs hfind hsize hf, ?_⟩
        rw [hi.view_written hs hfind hsize, if_neg (by simp), bytesAt_length]
        rfl
    · rw [vfs_write_not_file hf, if_pos hf]
      exact ⟨hi, rfl⟩

/-- The node without its block and its name. -/
def dropped (p : St) (n : NodePtr) (h : HeapCall) : St where
  nodes := Function.update p.nodes n { p.nodes n with data := 0, size := 0, name := [] }
  node_count := p.node_count
  cwd := p.cwd
  mem := if (p.nodes n).data ≠ 0 then h.drop p.mem else p.mem
  live := release (p.nodes n).data p.live

theorem Inv.drop_eq (hi : Inv p) (n : NodePtr) (h : HeapCall) :
    (if (p.nodes n).data ≠ 0 then (kfree p (p.nodes n).data h).set n { p.nodes n with data := 0 } else p).set n
      { (if (p.nodes n).data ≠ 0 then (kfree p (p.nodes n).data h).set n { p.nodes n with data := 0 } else p).nodes n with
        size := 0, name := [] } = dropped p n h := by
  unfold dropped St.set kfree
  by_cases hd : (p.nodes n).data = 0
  · simp [hd, hi.inUse.release_null]
  · simp [hd]

theorem Inv.dropped (hi : Inv p) {n : NodePtr} (hfree : Spares h.drop (release (p.nodes n).data p.live)) :
    Inv (dropped p n h) ∧
    (dropped p n h).view = p.view.set n { p.view.nodes n with data := none, size := 0, name := [] } := by
  have hr : Replaced p (Raw.dropped p n h) n { p.nodes n with data := 0, size := 0, name := [] } := by
    refine ⟨rfl, rfl, rfl, fun c hc => ⟨hc, ?_⟩⟩
    unfold Raw.dropped
    dsimp only
    split_ifs
    · exact hfree c hc p.mem
    · exact fun _ _ => rfl
  refine ⟨hr.inv hi (hi.inUse.release _) (.inl ⟨rfl, rfl⟩) fun hn => ⟨(hi.unused n hn).1, rfl⟩, ?_⟩
  rw [hr.view hi]
  rfl

theorem Inv.vfs_unlink (hi : Inv p) {path : List UInt8} (hs : FreeServed p path h) :
    Inv (vfs_unlink p path h).2 ∧
    Vfs.vfs_unlink p.view path = ((vfs_unlink p path h).1, (vfs_unlink p path h).2.view) := by
  unfold Raw.vfs_unlink Vfs.vfs_unlink
  cases hn : vfs_resolve p.view path with
  | none => exact ⟨hi, rfl⟩
  | some n =>
    dsimp only
    by_cases hroot : n = root
    · rw [if_pos hroot, if_pos hroot]
      exact ⟨hi, rfl⟩
    · rw [if_neg hroot, if_neg hroot]
      have hparent : (p.view.nodes n).parent = (p.nodes n).parent := rfl
      rw [hparent]
      cases (p.nodes n).parent with
      | none => exact ⟨hi, rfl⟩
      | some parent =>
        dsimp only
        have hsame := sameData_unlink_child p parent n
        have hi' := hsame.inv hi
        have hfree := hs n hn
        rw [← hsame.data, ← hsame.live] at hfree
        obtain ⟨hinv, hview⟩ := hi'.dropped hfree
        rw [hi'.drop_eq, hview, view_unlink_child]
        exact ⟨hinv, rfl⟩

/-- A node's size leaves room for the NUL behind it. -/
theorem Inv.size_lt (hi : Inv p) (n : NodePtr) : (p.nodes n).size + 1 < 2 ^ 64 := by
  by_cases hd : (p.nodes n).data = 0
  · rw [hi.empty n hd]
    decide
  · obtain ⟨b, hb, -, hlt⟩ := hi.owns n hd
    have hstop := (hi.inUse.real b hb).stop
    have hstart := (hi.inUse.real b hb).start
    omega

theorem view_bytes (p : St) {n : NodePtr} (hd : (p.nodes n).data ≠ 0) : p.view.bytes n = p.bytes n := by
  unfold Vfs.St.bytes St.view vfs_node_t.view
  dsimp only
  rw [if_neg hd, Option.getD_some, bytesAt_take, min_self]
  rfl

theorem view_data (p : St) (n : NodePtr) : (p.view.nodes n).data ≠ none ↔ (p.nodes n).data ≠ 0 := by
  unfold St.view vfs_node_t.view
  dsimp only
  split_ifs with hd <;> simp [hd]

/-- Whether `kmalloc` has room for a copy of the file. -/
def copyMem (p : St) (src : List UInt8) (h : HeapCall) : Bool :=
  (vfs_resolve p.view src).any fun n => (h.find (add64 (p.nodes n).size 1)).isSome

theorem Inv.vfs_copy (hi : Inv p) {src dst : List UInt8} (hs : CopyServed p src dst h) :
    Inv (vfs_copy p src dst h).2 ∧
    Vfs.vfs_copy p.view src dst (copyMem p src h) = ((vfs_copy p src dst h).1, (vfs_copy p src dst h).2.view) := by
  unfold Raw.vfs_copy Vfs.vfs_copy copyMem
  cases hn : vfs_resolve p.view src with
  | none => exact ⟨hi, rfl⟩
  | some n =>
    dsimp only [Option.any_some]
    have htype : (p.view.nodes n).type = (p.nodes n).type := rfl
    have hmode : (p.view.nodes n).mode = (p.nodes n).mode := rfl
    rw [htype, hmode]
    by_cases hf : (p.nodes n).type ≠ .VFS_FILE
    · rw [if_pos hf, if_pos hf]
      exact ⟨hi, rfl⟩
    · rw [if_neg hf, if_neg hf]
      have hs := hs n hn
      have hsame := hi.make_node .VFS_FILE dst (if (p.nodes n).mode ≠ 0 then (p.nodes n).mode else 0o644)
      have hview := view_make_node .VFS_FILE p dst (if (p.nodes n).mode ≠ 0 then (p.nodes n).mode else 0o644)
      unfold Raw.vfs_create Vfs.vfs_create at *
      rw [hview, ← hsame.size]
      generalize Raw.make_node .VFS_FILE p dst (if (p.nodes n).mode ≠ 0 then (p.nodes n).mode else 0o644) = r at hs hsame ⊢
      obtain ⟨d, q⟩ := r
      have hq : Inv q := hsame.inv hi
      cases d with
      | none => exact ⟨hq, rfl⟩
      | some d =>
        dsimp only at hs ⊢
        have hsize : (q.view.nodes n).size = (q.nodes n).size := rfl
        simp only [hsize, view_data]
        by_cases hfull : (q.nodes n).size ≠ 0 ∧ (q.nodes n).data ≠ 0
        · rw [if_pos hfull, if_pos hfull, view_bytes q hfull.2]
          exact hq.vfs_write (hq.size_lt n) hs
        · rw [if_neg hfull, if_neg hfull]
          exact ⟨hq, rfl⟩

theorem Inv.vfs_rename (hi : Inv p) {src dst : List UInt8} {h' : HeapCall} (hs : CopyServed p src dst h)
    (hs' : FreeServed (Raw.vfs_copy p src dst h).2 src h') :
    Inv (vfs_rename p src dst h h').2 ∧ Vfs.vfs_rename p.view src dst (copyMem p src h) =
      ((vfs_rename p src dst h h').1, (vfs_rename p src dst h h').2.view) := by
  obtain ⟨hi', hcopy⟩ := hi.vfs_copy hs
  unfold Raw.vfs_rename Vfs.vfs_rename
  rw [hcopy]
  dsimp only
  split_ifs
  · exact ⟨hi', rfl⟩
  · exact hi'.vfs_unlink hs'

/-- Memory once `k` bytes of a file and their number are with the caller. -/
def readMem (p : St) (n : NodePtr) (buf k out_size : Nat) : Mem :=
  let m := if k ≠ 0 ∧ (p.nodes n).data ≠ 0 then copy p.mem buf (p.nodes n).data k else p.mem
  if out_size ≠ 0 then store m out_size 8 k else m

theorem vfs_read_eq {n : NodePtr} (hf : (p.nodes n).type = .VFS_FILE) (buf max out_size : Nat) :
    vfs_read p (some n) buf max out_size =
      (i32 (min (p.nodes n).size max), { p with mem := readMem p n buf (min (p.nodes n).size max) out_size }) := by
  have hmin : (if (p.nodes n).size < max then (p.nodes n).size else max) = min (p.nodes n).size max := by
    split_ifs
    · rw [min_eq_left (by omega)]
    · rw [min_eq_right (by omega)]
  unfold vfs_read readMem
  dsimp only
  rw [if_neg (not_not.2 hf), hmin]
  congr 1
  split_ifs <;> rfl

/-- A read changes no byte but the caller's. -/
theorem readMem_out (p : St) (n : NodePtr) {buf k out_size x : Nat} (hbuf : ¬ (Block.mk buf k).Has x)
    (hout : ¬ (Block.mk out_size 8).Has x) : readMem p n buf k out_size x = p.mem x := by
  rw [Block.has_mk] at hbuf hout
  unfold readMem
  have hcopy : (if k ≠ 0 ∧ (p.nodes n).data ≠ 0 then copy p.mem buf (p.nodes n).data k else p.mem) x = p.mem x := by
    split_ifs
    · exact copy_out (by omega)
    · rfl
  split_ifs at hcopy ⊢
  · exact (store_out (by omega)).trans hcopy
  · exact (store_out (by omega)).trans hcopy
  · exact hcopy
  · exact hcopy

theorem Inv.vfs_read (hi : Inv p) {node : Option NodePtr} {buf max out_size : Nat}
    (hapart : ∀ b, p.Owns b → (Block.mk buf max).Apart b ∧ (Block.mk out_size 8).Apart b) :
    Inv (vfs_read p node buf max out_size).2 ∧ (vfs_read p node buf max out_size).2.view = p.view := by
  cases node with
  | none => exact ⟨hi, rfl⟩
  | some n =>
    by_cases hf : (p.nodes n).type = .VFS_FILE
    · rw [vfs_read_eq hf]
      refine hi.around hi.inUse fun b hb => ⟨hb.1, fun x hx => ?_⟩
      refine readMem_out p n (fun hbuf => ?_) fun hout => (hapart b hb).2 x hout hx
      refine (hapart b hb).1 x ⟨hbuf.1, lt_of_lt_of_le hbuf.2 ?_⟩ hx
      exact Nat.add_le_add_left (min_le_right _ _) _
    · have heq : Raw.vfs_read p (some n) buf max out_size = (-1, p) := if_pos hf
      rw [heq]
      exact ⟨hi, rfl⟩

/-! ## Runs -/

/-- The call on contents that a step amounts to. -/
def Op.view (p : St) : Op → Option Vfs.Op
  | .mkdir path mode => some (.mkdir path mode)
  | .create path mode => some (.create path mode)
  | .write node buf size h => some (.write node (bytesAt p.mem buf size) (h.find (add64 size 1)).isSome)
  | .read _ _ _ _ => none
  | .unlink path _ => some (.unlink path)
  | .copy src dst h => some (.copy src dst (copyMem p src h))
  | .rename src dst h _ => some (.rename src dst (copyMem p src h))
  | .chdir path junk => some (.chdir path junk)
  | .other _ _ => none

/-- Every step keeps every node the owner of its block, and the view takes the same step on contents. -/
theorem Inv.exec (hi : Inv p) {op : Op} (hop : op.Allowed p) :
    Inv (exec p op) ∧ (exec p op).view = (op.view p).elim p.view (Vfs.exec p.view) := by
  cases op with
  | mkdir path mode =>
    exact ⟨(hi.make_node _ path mode).inv hi, (congrArg Prod.snd (view_make_node .VFS_DIR p path mode)).symm⟩
  | create path mode =>
    exact ⟨(hi.make_node _ path mode).inv hi, (congrArg Prod.snd (view_make_node .VFS_FILE p path mode)).symm⟩
  | write node buf size h =>
    obtain ⟨hinv, hview⟩ := hi.vfs_write hop.1 hop.2
    exact ⟨hinv, (congrArg Prod.snd hview).symm⟩
  | read node buf max out_size => exact hi.vfs_read hop
  | unlink path h =>
    obtain ⟨hinv, hview⟩ := hi.vfs_unlink hop.2
    exact ⟨hinv, (congrArg Prod.snd hview).symm⟩
  | copy src dst h =>
    obtain ⟨hinv, hview⟩ := hi.vfs_copy hop.2.2
    exact ⟨hinv, (congrArg Prod.snd hview).symm⟩
  | rename src dst h h' =>
    obtain ⟨hinv, hview⟩ := hi.vfs_rename hop.2.2.1 hop.2.2.2
    exact ⟨hinv, (congrArg Prod.snd hview).symm⟩
  | chdir path junk =>
    refine ⟨⟨hi.inUse, hi.owns, hi.own, hi.empty, hi.unused⟩, ?_⟩
    obtain ⟨cwd, hcwd⟩ := vfs_chdir_cases p.view path junk
    show ({ p with cwd := (Vfs.vfs_chdir p.view path junk).2.cwd } : St).view = (Vfs.vfs_chdir p.view path junk).2
    rw [hcwd]
    rfl
  | other live f =>
    exact hi.around hop.1 fun b hb => ⟨(hop.2 b hb).1, (hop.2 b hb).2 b List.mem_cons_self p.mem⟩

theorem Op.Allowed.view {op : Op} {op' : Vfs.Op} (hop : op.Allowed p) (h : op.view p = some op') : op'.Allowed p.view := by
  cases op with
  | read node buf max out_size => cases h
  | other live f => cases h
  | mkdir path mode => cases h; exact hop
  | create path mode => cases h; exact hop
  | write node buf size h => cases h; trivial
  | unlink path h => cases h; exact hop.1
  | copy src dst h => cases h; exact ⟨hop.1, hop.2.1⟩
  | rename src dst h h' => cases h; exact ⟨hop.1, hop.2.1⟩
  | chdir path junk => cases h; exact hop

theorem inv_init_root (m : Mem) {live : List Block} (h : InUse live) : Inv (init_root m live) := by
  have hnode : ∀ n, ((init_root m live).nodes n).data = 0 ∧ ((init_root m live).nodes n).size = 0 := by
    intro n
    by_cases hn : n = root
    · rw [hn]
      exact ⟨rfl, rfl⟩
    · have hblank : (init_root m live).nodes n = blank := set_other _ _ hn
      rw [hblank]
      exact ⟨rfl, rfl⟩
  refine ⟨h, fun n hd => absurd (hnode n).1 hd, fun n _ _ hd => absurd (hnode n).1 hd, fun n _ => (hnode n).2,
    fun n hn => ⟨?_, (hnode n).1⟩⟩
  have hblank : (init_root m live).nodes n = blank := by
    refine set_other _ _ ?_
    rintro rfl
    exact absurd hn (Nat.not_succ_le_self 0)
  rw [hblank]
  rfl

theorem view_init_root (m : Mem) (live : List Block) : (init_root m live).view = Vfs.init_root := by
  have halloc := view_alloc_node ⟨fun _ => blank, 0, str "/", m, live⟩ (str "/") .VFS_DIR 0o755
  have hblank : (⟨fun _ => blank, 0, str "/", m, live⟩ : St).view = ⟨fun _ => Vfs.blank, 0, str "/"⟩ := rfl
  rw [hblank] at halloc
  unfold init_root Vfs.init_root
  rw [halloc]
  cases alloc_node ⟨fun _ => blank, 0, str "/", m, live⟩ (str "/") .VFS_DIR 0o755 with
  | none => rfl
  | some r => rfl

theorem Reach.inv (h : Reach p) : Inv p := by
  induction h with
  | init m live h => exact inv_init_root m h
  | step op _ hop ih => exact (ih.exec hop).1

/-- Seen through the view, a run is a run of the calls on contents. -/
theorem Reach.refines (h : Reach p) :
    Relation.ReflTransGen (fun s s' => ∃ op : Vfs.Op, op.Allowed s ∧ Vfs.exec s op = s') Vfs.init_root p.view := by
  induction h with
  | init m live h =>
    rw [view_init_root]
  | @step p op hp hop ih =>
    rw [(hp.inv.exec hop).2]
    cases hview : op.view p with
    | none => exact ih
    | some op' => exact ih.tail ⟨op', hop.view hview, rfl⟩

end

end H3OS.Vfs.Raw
