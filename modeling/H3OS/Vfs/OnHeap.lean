import H3OS.Vfs.Machine
import H3OS.Vfs.WriteRead
/-!
# The files survive on the kernel's heap

Every call of the file system on the kernel's heap is a call of `Vfs.Raw` with
a heap that keeps its promises, so what is proved there holds here. Each node's
data is a block that the heap has handed out, and what else
happens between the calls leaves those blocks alone.
-/
open SysLib

namespace H3OS.Vfs.Machine

structure Inv (s : St) (others : List Nat) (held : List Pmm.Grant) (live : List Block) : Prop where
  files : Raw.Inv (s.files live)
  kernel : Backed.Supplies s.kernel live held
  others : ∀ p ∈ others, ∃ b ∈ live, b.start = p ∧ ∀ n, (s.nodes n).data ≠ p

/-- A call leads to `s'`, with `live'` in use, and leaves the blocks of the others alone. -/
structure Leads (s : St) (others : List Nat) (held : List Pmm.Grant) (live : List Block) (s' : St) (live' : List Block) :
    Prop where
  inv : Inv s' others held live'
  kept : ∀ c ∈ live, c.start ∈ others → c ∈ live' ∧ SameOn c s.kernel.heap.mem s'.kernel.heap.mem

/-! ## Calls on links alone -/

section
variable {s s' s'' : St} {others : List Nat} {held : List Pmm.Grant} {live live' live'' : List Block}

theorem Inv.leads (hi : Inv s others held live) : Leads s others held live s live :=
  ⟨hi, fun _ hc _ => ⟨hc, fun _ _ => rfl⟩⟩

theorem Leads.trans (h : Leads s others held live s' live') (h' : Leads s' others held live' s'' live'') :
    Leads s others held live s'' live'' := by
  refine ⟨h'.inv, fun c hc ho => ?_⟩
  obtain ⟨hc', hsame⟩ := h.kept c hc ho
  obtain ⟨hc'', hsame'⟩ := h'.kept c hc' ho
  exact ⟨hc'', fun x hx => (hsame' x hx).trans (hsame x hx)⟩

theorem make_node_live (type : vfs_type_t) (p : Raw.St) (path : List UInt8) (mode : Nat) (l : List Block) :
    Raw.make_node type { p with live := l } path mode =
      ((Raw.make_node type p path mode).1, { (Raw.make_node type p path mode).2 with live := l }) := by
  unfold Raw.make_node
  have hview : ({ p with live := l } : Raw.St).view = p.view := rfl
  rw [hview]
  rcases ensure_parent p.view path with ⟨_ | parent, leaf⟩
  · rfl
  dsimp only
  split_ifs
  · rfl
  cases find_child p.view parent leaf with
  | some c => rfl
  | none =>
    dsimp only
    unfold Raw.alloc_node
    split_ifs <;> rfl

theorem unlink_child_live (p : Raw.St) (parent n : NodePtr) (l : List Block) :
    Raw.unlink_child { p with live := l } parent n = { Raw.unlink_child p parent n with live := l } := by
  unfold Raw.unlink_child
  have hview : ({ p with live := l } : Raw.St).view = p.view := rfl
  dsimp only
  rw [hview]
  split_ifs
  · rfl
  · cases find_prev p.view n (siblings p.view VFS_MAX_NODES (p.nodes parent).child) <;> rfl

/-- Nodes that have the same data may take the place of the old ones. -/
theorem Inv.withTree (hi : Inv s others held live) {p : Raw.St} (hsame : Raw.SameData (s.files live) p) :
    (s.withTree p).files live = p ∧ Leads s others held live (s.withTree p) live := by
  have hfiles : (s.withTree p).files live = p := by
    unfold St.withTree St.files
    dsimp only
    rw [show s.kernel.heap.mem = p.mem from hsame.mem.symm, show live = p.live from hsame.live.symm]
  refine ⟨hfiles, ⟨hfiles.symm ▸ hsame.inv hi.files, hi.kernel, fun q hq => ?_⟩, fun _ hc _ => ⟨hc, fun _ _ => rfl⟩⟩
  obtain ⟨b, hb, hs, hne⟩ := hi.others q hq
  exact ⟨b, hb, hs, fun n => (hsame.data n).symm ▸ hne n⟩

theorem Inv.make_node (hi : Inv s others held live) (type : vfs_type_t) (path : List UInt8) (mode : Nat) :
    Vfs.make_node type s.view path mode = ((Raw.make_node type (s.files []) path mode).1,
        (s.withTree (Raw.make_node type (s.files []) path mode).2).view) ∧
      Leads s others held live (s.withTree (Raw.make_node type (s.files []) path mode).2) live ∧
      Raw.SameData (s.files live) ((s.withTree (Raw.make_node type (s.files []) path mode).2).files live) := by
  have hlive : Raw.make_node type (s.files live) path mode = ((Raw.make_node type (s.files []) path mode).1,
      { (Raw.make_node type (s.files []) path mode).2 with live := live }) :=
    make_node_live type (s.files []) path mode live
  have hsame := hi.files.make_node type path mode
  have hview := Raw.view_make_node type (s.files live) path mode
  rw [hlive] at hsame hview
  obtain ⟨hfiles, hleads⟩ := hi.withTree hsame
  refine ⟨hview.trans (congrArg (Prod.mk _) ?_), hleads, hfiles.symm ▸ hsame⟩
  exact (congrArg Raw.St.view hfiles).symm

theorem Inv.unlink_child (hi : Inv s others held live) (parent n : NodePtr) :
    (s.withTree (Raw.unlink_child (s.files []) parent n)).view = Vfs.unlink_child s.view parent n ∧
      Leads s others held live (s.withTree (Raw.unlink_child (s.files []) parent n)) live ∧
      Raw.SameData (s.files live) ((s.withTree (Raw.unlink_child (s.files []) parent n)).files live) := by
  have hlive : Raw.unlink_child (s.files live) parent n = { Raw.unlink_child (s.files []) parent n with live := live } :=
    unlink_child_live (s.files []) parent n live
  have hsame := Raw.sameData_unlink_child (s.files live) parent n
  have hview := Raw.view_unlink_child (s.files live) parent n
  rw [hlive] at hsame hview
  obtain ⟨hfiles, hleads⟩ := hi.withTree hsame
  exact ⟨(congrArg Raw.St.view hfiles).trans hview, hleads, hfiles.symm ▸ hsame⟩

theorem Inv.vfs_chdir (hi : Inv s others held live) (path : List UInt8) (junk : Nat → List UInt8) :
    Vfs.vfs_chdir s.view path junk = ((vfs_chdir s path junk).1, (vfs_chdir s path junk).2.view) ∧
      Leads s others held live (vfs_chdir s path junk).2 live := by
  obtain ⟨-, hleads⟩ := hi.withTree (p := { s.files live with cwd := (Vfs.vfs_chdir s.view path junk).2.cwd })
    ⟨fun _ => rfl, fun _ => rfl, rfl, rfl, le_refl _, fun _ _ => rfl⟩
  refine ⟨Prod.ext rfl ?_, hleads⟩
  obtain ⟨cwd, hcwd⟩ := vfs_chdir_cases s.view path junk
  show _ = ({ s with cwd := (Vfs.vfs_chdir s.view path junk).2.cwd } : St).view
  rw [hcwd]
  rfl

/-! ## Releasing -/

/-- Giving back the block at `p`, if there is one. -/
theorem give_back {k : Backed.St} {p : Nat} (hk : Backed.Supplies k live held)
    (hp : p ≠ 0 → (∃ b ∈ live, b.start = p) ∧ Heap.ReleaseOk k.heap p) :
    Backed.Supplies (if p ≠ 0 then kfree k p else k) (release p live) held ∧
      ∀ b ∈ live, SameOn b k.heap.mem (if p ≠ 0 then kfree k p else k).heap.mem := by
  by_cases h0 : p = 0
  · rw [if_neg (not_not.2 h0), h0, hk.inUse.release_null]
    exact ⟨hk, fun _ _ _ _ => rfl⟩
  · rw [if_pos h0]
    obtain ⟨hmem, hok⟩ := hp h0
    obtain ⟨hk', hsame⟩ := hk.kfree hmem hok
    exact ⟨hk', fun b hb x hx => hsame x (.inl ⟨b, hb, hx⟩)⟩

theorem Inv.data_start (hi : Inv s others held live) {n : NodePtr} (hd : (s.nodes n).data ≠ 0) :
    ∃ b ∈ live, b.start = (s.nodes n).data := by
  obtain ⟨b, hb, hs, -⟩ := hi.files.owns n hd
  exact ⟨b, hb, hs⟩

/-- A node loses its block. -/
def dropped (s : St) (n : NodePtr) : St :=
  { s with kernel := if (s.nodes n).data ≠ 0 then kfree s.kernel (s.nodes n).data else s.kernel }.set n
    { s.nodes n with data := 0, size := 0, name := [] }

theorem drop_eq (s : St) (n : NodePtr) :
    (if (s.nodes n).data ≠ 0 then { s with kernel := kfree s.kernel (s.nodes n).data }.set n { s.nodes n with data := 0 }
      else s).set n { (if (s.nodes n).data ≠ 0
        then { s with kernel := kfree s.kernel (s.nodes n).data }.set n { s.nodes n with data := 0 } else s).nodes n with
        size := 0, name := [] } = dropped s n := by
  unfold dropped St.set
  by_cases hd : (s.nodes n).data = 0
  · simp [hd]
  · simp [hd]

theorem Inv.dropped (hi : Inv s others held live) {n : NodePtr}
    (hfine : (s.nodes n).data ≠ 0 → Heap.ReleaseOk s.kernel.heap (s.nodes n).data) :
    (dropped s n).view = s.view.set n { s.view.nodes n with data := none, size := 0, name := [] } ∧
      Leads s others held live (dropped s n) (release (s.nodes n).data live) := by
  obtain ⟨hk, hsame⟩ := give_back hi.kernel fun hd => ⟨hi.data_start hd, hfine hd⟩
  let h : Raw.HeapCall := ⟨fun _ => none, id, overlay (release (s.nodes n).data live) (Machine.dropped s n).kernel.heap.mem⟩
  have hdropped : Raw.dropped (s.files live) n h = (Machine.dropped s n).files (release (s.nodes n).data live) := by
    have hmem : (if (s.nodes n).data ≠ 0 then h.drop s.kernel.heap.mem else s.kernel.heap.mem) =
        (Machine.dropped s n).kernel.heap.mem := by
      by_cases hd : (s.nodes n).data = 0
      · simp [Machine.dropped, St.set, hd]
      · rw [if_pos hd]
        exact overlay_eq fun c hc => hsame c (List.mem_of_mem_eraseP hc)
    unfold Raw.dropped
    exact congrArg (fun m => (⟨_, _, _, m, _⟩ : Raw.St)) hmem
  obtain ⟨hinv, hview⟩ := hi.files.dropped (n := n) (h := h) (spares_overlay _ _)
  rw [hdropped] at hinv hview
  refine ⟨hview, ⟨hinv, hk, fun p hp => ?_⟩, fun c hc ho => ⟨?_, hsame c hc⟩⟩
  · obtain ⟨c, hc, rfl, hown⟩ := hi.others p hp
    refine ⟨c, hi.kernel.inUse.mem_release.2 ⟨hc, (hown n).symm⟩, rfl, fun m => ?_⟩
    by_cases hm : m = n
    · subst hm
      show (Function.update s.nodes m _ m).data ≠ _
      rw [Function.update_self]
      exact (hi.kernel.inUse.real c hc).start.ne
    · show (Function.update s.nodes n _ m).data ≠ _
      rw [Function.update_of_ne hm]
      exact hown m
  · obtain ⟨d, -, hd, hown⟩ := hi.others _ ho
    exact hi.kernel.inUse.mem_release.2 ⟨hc, (hown n).symm⟩

theorem Inv.vfs_unlink (hi : Inv s others held live) {path : List UInt8} (hfine : UnlinkFine s path) :
    ∃ live', Vfs.vfs_unlink s.view path = ((vfs_unlink s path).1, (vfs_unlink s path).2.view) ∧
      Leads s others held live (vfs_unlink s path).2 live' := by
  unfold Machine.vfs_unlink Vfs.vfs_unlink
  cases hn : vfs_resolve s.view path with
  | none => exact ⟨live, rfl, hi.leads⟩
  | some n =>
    dsimp only
    by_cases hroot : n = root
    · rw [if_pos hroot, if_pos hroot]
      exact ⟨live, rfl, hi.leads⟩
    · rw [if_neg hroot, if_neg hroot]
      have hparent : (s.view.nodes n).parent = (s.nodes n).parent := rfl
      rw [hparent]
      cases (s.nodes n).parent with
      | none => exact ⟨live, rfl, hi.leads⟩
      | some parent =>
        dsimp only
        obtain ⟨hview, hleads, hsame⟩ := hi.unlink_child parent n
        obtain ⟨hdropped, hleads'⟩ := hleads.inv.dropped fun hd => by
          have heq : ((s.withTree (Raw.unlink_child (s.files []) parent n)).nodes n).data = (s.nodes n).data := hsame.data n
          rw [heq] at hd ⊢
          exact hfine n hn hd
        rw [drop_eq, hdropped, hview]
        exact ⟨_, rfl, hleads.trans hleads'⟩

/-! ## Writing -/

theorem room_of_null {k k' : Backed.St} {size : Nat} (h : Backed.kmalloc k (add64 size 1) = some (0, k')) :
    room k size = false := by
  simp [room, h]

theorem room_of_block {k k' : Backed.St} {size r : Nat} (h : Backed.kmalloc k (add64 size 1) = some (r, k')) (h0 : r ≠ 0) :
    room k size = true := by
  simp [room, h, h0]

/-- `vfs_write` on the kernel's heap writes the contents. -/
theorem Inv.vfs_write (hi : Inv s others held live) (node : Option NodePtr) {buf size : Nat} (hsize : size < 2 ^ 63)
    (hbuf : ∀ x, (Block.mk buf size).Has x → Backed.Steady s.kernel (live.map Block.start) x)
    (hfine : WriteFine s node buf size) :
    ∃ r s' live', vfs_write s node buf size = some (r, s') ∧
      Vfs.vfs_write s.view node (bytesAt s.kernel.heap.mem buf size) (room s.kernel size) = (r, s'.view) ∧
      Leads s others held live s' live' := by
  cases node with
  | none => exact ⟨-1, s, live, rfl, rfl, hi.leads⟩
  | some n =>
  by_cases hf : (s.nodes n).type = .VFS_FILE
  swap
  · exact ⟨-1, s, live, if_pos hf, if_pos hf, hi.leads⟩
  have hadd : add64 size 1 = size + 1 := add64_of_lt (by omega)
  unfold Machine.vfs_write Vfs.vfs_write
  dsimp only
  have htype : (s.view.nodes n).type = (s.nodes n).type := rfl
  rw [if_neg (not_not.2 hf), htype, if_neg (not_not.2 hf)]
  rcases hi.kernel.kmalloc (show add64 size 1 ≤ 2 ^ 63 by omega) with hnull | ⟨b, k, hcall, hk, hle, hfresh, hmem⟩
  · have hfill : fill_new s.kernel buf size = some (0, s.kernel) := by
      rw [fill_new, hnull]
      rfl
    rw [hfill, room_of_null hnull]
    exact ⟨-1, s, live, rfl, rfl, hi.leads⟩
  have hne : b.start ≠ 0 := (hk.inUse.real b List.mem_cons_self).start.ne'
  let m := Function.update (copy k.heap.mem b.start buf size) (b.start + size) 0
  have hfill : fill_new s.kernel buf size = some (b.start, k.withMem m) := by
    rw [fill_new, hcall]
    exact if_neg hne
  rw [hfill, room_of_block hcall hne]
  dsimp only
  rw [if_neg hne, if_neg (show ¬ true = false by simp), bytesAt_length]
  -- the new block is filled, the old one goes
  have hm : ∀ x, ¬ b.Has x → m x = k.heap.mem x := by
    intro x hx
    unfold Block.Has at hx
    show Function.update (copy k.heap.mem b.start buf size) (b.start + size) 0 x = k.heap.mem x
    rw [Function.update_of_ne (by omega), copy_out (by omega)]
  have hk₁ : Backed.Supplies (k.withMem m) (b :: live) held :=
    hk.scribble fun x hx => .inl ⟨b, List.mem_cons_self, by_contra fun hout => hx (hm x hout)⟩
  obtain ⟨hk₂, hsame⟩ := give_back (p := (s.nodes n).data) hk₁ fun hd => by
    obtain ⟨c, hc, hcs⟩ := hi.data_start hd
    exact ⟨⟨c, List.mem_cons_of_mem _ hc, hcs⟩, hfine n rfl _ _ hd hfill⟩
  generalize hk' : (if (s.nodes n).data ≠ 0 then kfree (k.withMem m) (s.nodes n).data else k.withMem m) = k' at hk₂ hsame ⊢
  let h : Raw.HeapCall := ⟨fun _ => some b, overlay (⟨buf, size⟩ :: live) k.heap.mem,
    overlay (release (s.nodes n).data (b :: live)) k'.heap.mem⟩
  have hsound : h.Sound (s.files live).live ⟨buf, size⟩ (add64 size 1) ((s.files live).nodes n).data := by
    refine ⟨fun c hc => ?_, fun c hc => ?_, spares_overlay _ _, fun c hc => ?_⟩ <;> cases hc
    · exact ⟨hk.inUse.real b List.mem_cons_self, hle⟩
    · refine ⟨fun x hx hxb => hfresh x hx (hbuf x hxb), fun c hc => ?_⟩
      exact (List.pairwise_cons.1 hk.inUse.apart).1 c hc
    · exact spares_overlay _ _
  have hgrow : h.grow s.kernel.heap.mem = k.heap.mem := by
    refine overlay_eq fun c hc x hx => hmem x ?_
    rcases List.mem_cons.1 hc with rfl | hc
    · exact hbuf x hx
    · exact .inl (hi.kernel.used.2 ⟨c, hc, hx⟩)
  have hwritten : Raw.written (s.files live) n b buf size h =
      (({ s with kernel := k' } : St).set n { s.nodes n with data := b.start, size := size }).files
        (release (s.nodes n).data (b :: live)) := by
    have hfilled : Raw.filled s.kernel.heap.mem b buf size h = m := by
      unfold Raw.filled
      rw [hgrow]
    have hend : (if (s.nodes n).data ≠ 0 then h.drop m else m) = k'.heap.mem := by
      split_ifs with hd
      · exact overlay_eq fun c hc => hsame c (List.mem_of_mem_eraseP hc)
      · rw [← hk', if_neg hd]
        rfl
    unfold Raw.written St.files St.set
    dsimp only
    rw [hfilled, hend]
  have hview := hi.files.view_written hsound rfl (by omega)
  have hinv := hi.files.written hsound rfl (by omega) hf
  rw [hwritten] at hview hinv
  have hapart : ∀ c ∈ live, b.Apart c := (List.pairwise_cons.1 hk.inUse.apart).1
  refine ⟨i32 size, _, _, rfl, congrArg (Prod.mk _) hview.symm, ⟨hinv, hk₂, fun p hp => ?_⟩, fun c hc ho => ⟨?_, ?_⟩⟩
  · obtain ⟨c, hc, rfl, hown⟩ := hi.others p hp
    refine ⟨c, hk.inUse.mem_release.2 ⟨List.mem_cons_of_mem _ hc, (hown n).symm⟩, rfl, fun n' => ?_⟩
    by_cases hn : n' = n
    · subst hn
      show (Function.update s.nodes n' _ n').data ≠ _
      rw [Function.update_self]
      exact (hapart c hc).start_ne (hk.inUse.real b List.mem_cons_self) (hi.kernel.inUse.real c hc)
    · show (Function.update s.nodes n _ n').data ≠ _
      rw [Function.update_of_ne hn]
      exact hown n'
  · obtain ⟨d, -, -, hown⟩ := hi.others _ ho
    exact hk.inUse.mem_release.2 ⟨List.mem_cons_of_mem _ hc, (hown n).symm⟩
  · intro x hx
    have hout : ¬ b.Has x := fun hb => hapart c hc x hb hx
    calc k'.heap.mem x = m x := hsame c (List.mem_cons_of_mem _ hc) x hx
      _ = k.heap.mem x := hm x hout
      _ = s.kernel.heap.mem x := hmem x (.inl (hi.kernel.used.2 ⟨c, hc, hx⟩))

/-- The bytes of a file may be passed on, and they are few. -/
theorem Inv.own_bytes (hi : Inv s others held live) {n : NodePtr} (hd : (s.nodes n).data ≠ 0) :
    (s.nodes n).size < 2 ^ 63 ∧
      ∀ x, (Block.mk (s.nodes n).data (s.nodes n).size).Has x → Backed.Steady s.kernel (live.map Block.start) x := by
  obtain ⟨b, hb, hs, hlt⟩ := hi.files.owns n hd
  have hlen := hi.kernel.len_le hb
  refine ⟨lt_of_lt_of_le hlt (hlen.trans (by norm_num)), fun x hx => .inl (hi.kernel.used.2 ⟨b, hb, ?_⟩)⟩
  have hs' : b.start = (s.nodes n).data := hs
  have hlt' : (s.nodes n).size < b.len := hlt
  rw [Block.has_mk] at hx
  unfold Block.Has
  omega

theorem Inv.vfs_copy (hi : Inv s others held live) {src dst : List UInt8} (hfine : CopyFine s src dst) :
    ∃ r s' live', vfs_copy s src dst = some (r, s') ∧ Vfs.vfs_copy s.view src dst (copy_room s src) = (r, s'.view) ∧
      Leads s others held live s' live' := by
  unfold Machine.vfs_copy Vfs.vfs_copy copy_room
  cases hn : vfs_resolve s.view src with
  | none => exact ⟨-1, s, live, rfl, rfl, hi.leads⟩
  | some n =>
    dsimp only [Option.any_some]
    have htype : (s.view.nodes n).type = (s.nodes n).type := rfl
    have hmode : (s.view.nodes n).mode = (s.nodes n).mode := rfl
    rw [htype, hmode]
    by_cases hf : (s.nodes n).type ≠ .VFS_FILE
    · rw [if_pos hf, if_pos hf]
      exact ⟨-1, s, live, rfl, rfl, hi.leads⟩
    · rw [if_neg hf, if_neg hf]
      have hfine := hfine n hn
      obtain ⟨hview, hleads, hsame⟩ :=
        hi.make_node .VFS_FILE dst (if (s.nodes n).mode ≠ 0 then (s.nodes n).mode else 0o644)
      unfold Machine.vfs_create Raw.vfs_create Vfs.vfs_create at *
      rw [hview]
      generalize Raw.make_node .VFS_FILE (s.files []) dst (if (s.nodes n).mode ≠ 0 then (s.nodes n).mode else 0o644) = q
        at hfine hleads hsame ⊢
      obtain ⟨d, p⟩ := q
      cases d with
      | none => exact ⟨-1, _, live, rfl, rfl, hleads⟩
      | some d =>
        dsimp only at hfine hleads hsame ⊢
        have hsize : ((s.withTree p).nodes n).size = (s.nodes n).size := hsame.size n
        have hsize' : ((s.withTree p).view.nodes n).size = ((s.withTree p).nodes n).size := rfl
        have hdata : ((s.withTree p).view.nodes n).data ≠ none ↔ ((s.withTree p).nodes n).data ≠ 0 :=
          Raw.view_data ((s.withTree p).files []) n
        have hroom : room s.kernel (s.nodes n).size = room (s.withTree p).kernel ((s.withTree p).nodes n).size := by
          rw [hsize]
          rfl
        simp only [hsize', hdata, hroom]
        by_cases hfull : ((s.withTree p).nodes n).size ≠ 0 ∧ ((s.withTree p).nodes n).data ≠ 0
        · rw [if_pos hfull, if_pos hfull]
          have hbytes : (s.withTree p).view.bytes n =
              bytesAt (s.withTree p).kernel.heap.mem ((s.withTree p).nodes n).data ((s.withTree p).nodes n).size :=
            Raw.view_bytes ((s.withTree p).files []) hfull.2
          obtain ⟨hlt, hbuf⟩ := hleads.inv.own_bytes hfull.2
          obtain ⟨r, s', live', hcall, hv, hl⟩ := hleads.inv.vfs_write (some d) hlt hbuf hfine
          rw [hbytes]
          exact ⟨r, s', live', hcall, hv, hleads.trans hl⟩
        · rw [if_neg hfull, if_neg hfull]
          exact ⟨0, _, live, rfl, rfl, hleads⟩

theorem Inv.vfs_rename (hi : Inv s others held live) {src dst : List UInt8} (hfine : CopyFine s src dst)
    (hfine' : ∀ r s', Machine.vfs_copy s src dst = some (r, s') → UnlinkFine s' src) :
    ∃ r s' live', vfs_rename s src dst = some (r, s') ∧ Vfs.vfs_rename s.view src dst (copy_room s src) = (r, s'.view) ∧
      Leads s others held live s' live' := by
  obtain ⟨r, s', live', hcall, hview, hleads⟩ := hi.vfs_copy hfine
  unfold Machine.vfs_rename Vfs.vfs_rename
  rw [hcall, hview]
  dsimp only
  by_cases hr : r ≠ 0
  · rw [if_pos hr, if_pos hr]
    exact ⟨-1, s', live', rfl, rfl, hleads⟩
  · rw [if_neg hr, if_neg hr]
    obtain ⟨live'', hview', hleads'⟩ := hleads.inv.vfs_unlink (hfine' r s' hcall)
    exact ⟨_, _, live'', rfl, hview', hleads.trans hleads'⟩

/-! ## What goes on around the files -/

/-- A heap that still has the blocks of the nodes, with the bytes in them. -/
theorem Inv.around (hi : Inv s others held live) {k : Backed.St} {others' : List Nat} {held' : List Pmm.Grant}
    (hk : Backed.Supplies k live' held')
    (hown : ∀ b, (s.files live).Owns b → b ∈ live' ∧ SameOn b s.kernel.heap.mem k.heap.mem)
    (hothers : ∀ p ∈ others', ∃ b ∈ live', b.start = p ∧ ∀ n, (s.nodes n).data ≠ p) :
    Inv { s with kernel := k } others' held' live' ∧ ({ s with kernel := k } : St).view = s.view := by
  obtain ⟨hfiles, hview⟩ := hi.files.around hk.inUse hown
  exact ⟨⟨hfiles, hk, hothers⟩, hview⟩

/-- What the rest of the kernel may write is in no node's block. -/
theorem Inv.writable_apart (hi : Inv s others held live) {x : Nat} (hx : Writable s others x) :
    ((∃ b ∈ live, b.Has x) ∨ Backed.Outside s.kernel x) ∧ ∀ b, (s.files live).Owns b → ¬ b.Has x := by
  rcases hx with ⟨p, hp, hx⟩ | hout
  · obtain ⟨c, hc, rfl, hne⟩ := hi.others p hp
    rw [hi.kernel.block_eq hc] at hx
    refine ⟨.inl ⟨c, hc, hx⟩, fun b ⟨hb, n, hn⟩ hbx => ?_⟩
    have hbc : b ≠ c := by
      rintro rfl
      exact hne n hn
    exact hi.kernel.inUse.apart.forall hb hc hbc x hbx hx
  · exact ⟨.inr hout, fun b hb hbx => hi.kernel.inside hb.1 hbx hout⟩

theorem Inv.scribble (hi : Inv s others held live) {m : Mem}
    (hm : ∀ x, m x ≠ s.kernel.heap.mem x → Writable s others x) :
    Inv { s with kernel := s.kernel.withMem m } others held live ∧
      ({ s with kernel := s.kernel.withMem m } : St).view = s.view := by
  refine hi.around (hi.kernel.scribble fun x hx => (hi.writable_apart (hm x hx)).1) (fun b hb => ⟨hb.1, fun x hx => ?_⟩)
    hi.others
  by_contra hne
  exact (hi.writable_apart (hm x hne)).2 b hb hx

/-- The bytes a read changes. -/
theorem readMem_writes {p : Raw.St} {n : NodePtr} {buf k out_size x : Nat}
    (h : Raw.readMem p n buf k out_size x ≠ p.mem x) :
    (Block.mk buf k).Has x ∨ out_size ≠ 0 ∧ (Block.mk out_size 8).Has x := by
  by_contra hout
  rw [not_or, not_and] at hout
  apply h
  by_cases h0 : out_size = 0
  · unfold Raw.readMem
    have hbuf := hout.1
    rw [Block.has_mk] at hbuf
    simp only [h0, ne_eq, not_true_eq_false, ↓reduceIte]
    split_ifs
    · exact copy_out (by omega)
    · rfl
  · exact Raw.readMem_out p n hout.1 (hout.2 h0)

theorem Inv.vfs_read (hi : Inv s others held live) {node : Option NodePtr} {buf max out_size : Nat}
    (hbuf : ∀ x, (Block.mk buf max).Has x ∨ out_size ≠ 0 ∧ (Block.mk out_size 8).Has x → Writable s others x) :
    Inv (vfs_read s node buf max out_size).2 others held live ∧ (vfs_read s node buf max out_size).2.view = s.view := by
  refine hi.scribble (m := (Raw.vfs_read (s.files []) node buf max out_size).2.mem) fun x hx => hbuf x ?_
  cases node with
  | none => exact absurd rfl hx
  | some n =>
    by_cases hf : (s.nodes n).type = .VFS_FILE
    · have hfile : ((s.files []).nodes n).type = .VFS_FILE := hf
      rw [Raw.vfs_read_eq hfile] at hx
      refine (readMem_writes hx).imp_left fun hin => ⟨hin.1, lt_of_lt_of_le hin.2 ?_⟩
      exact Nat.add_le_add_left (min_le_right _ _) _
    · rw [show Raw.vfs_read (s.files []) (some n) buf max out_size = (-1, s.files []) from if_pos hf] at hx
      exact absurd rfl hx

/-! ## Every call -/

/-- What a caller may pass on is in a block in use, or not the heap's. -/
theorem Inv.readable (hi : Inv s others held live) {x : Nat} (hx : Readable s others x) :
    Backed.Steady s.kernel (live.map Block.start) x := by
  rcases hx with ⟨p, hp | ⟨h0, n, rfl⟩, hx⟩ | hout
  · obtain ⟨b, hb, rfl, -⟩ := hi.others p hp
    exact .inl ⟨b.start, List.mem_map_of_mem hb, hx⟩
  · obtain ⟨b, hb, hs⟩ := hi.data_start h0
    exact .inl ⟨_, hs ▸ List.mem_map_of_mem hb, hx⟩
  · exact .inr hout

/-- Every call returns, with the call on contents as its effect on the tree. Only a read writes to the blocks of the
others. -/
theorem Inv.exec (hi : Inv s others held live) {op : Op} (hop : op.Allowed s others) (hf : op.Fine s) :
    ∃ s' live', exec s op = some s' ∧ s'.view = (op.view s).elim s.view (Vfs.exec s.view) ∧ Inv s' others held live' ∧
      (op.view s ≠ none → Leads s others held live s' live') := by
  have hmake : ∀ type path mode, ∃ live', (s.withTree (Raw.make_node type (s.files []) path mode).2).view =
      (Vfs.make_node type s.view path mode).2 ∧
      Leads s others held live (s.withTree (Raw.make_node type (s.files []) path mode).2) live' := by
    intro type path mode
    obtain ⟨hview, hl, -⟩ := hi.make_node type path mode
    exact ⟨live, (congrArg Prod.snd hview).symm, hl⟩
  cases op with
  | mkdir path mode =>
    obtain ⟨live', hview, hl⟩ := hmake .VFS_DIR path mode
    exact ⟨_, live', rfl, hview, hl.inv, fun _ => hl⟩
  | create path mode =>
    obtain ⟨live', hview, hl⟩ := hmake .VFS_FILE path mode
    exact ⟨_, live', rfl, hview, hl.inv, fun _ => hl⟩
  | write node buf size =>
    obtain ⟨r, s', live', hcall, hview, hl⟩ := hi.vfs_write node hop.1 (fun x hx => hi.readable (hop.2 x hx)) hf
    exact ⟨s', live', by rw [Machine.exec, hcall]; rfl, (congrArg Prod.snd hview).symm, hl.inv, fun _ => hl⟩
  | read node buf max out_size =>
    obtain ⟨hinv, hview⟩ := hi.vfs_read hop
    exact ⟨_, live, rfl, hview, hinv, fun h => absurd rfl h⟩
  | unlink path =>
    obtain ⟨live', hview, hl⟩ := hi.vfs_unlink hf
    exact ⟨_, live', rfl, (congrArg Prod.snd hview).symm, hl.inv, fun _ => hl⟩
  | copy src dst =>
    obtain ⟨r, s', live', hcall, hview, hl⟩ := hi.vfs_copy hf
    exact ⟨s', live', by rw [Machine.exec, hcall]; rfl, (congrArg Prod.snd hview).symm, hl.inv, fun _ => hl⟩
  | rename src dst =>
    obtain ⟨r, s', live', hcall, hview, hl⟩ := hi.vfs_rename hf.1 hf.2
    exact ⟨s', live', by rw [Machine.exec, hcall]; rfl, (congrArg Prod.snd hview).symm, hl.inv, fun _ => hl⟩
  | chdir path junk =>
    obtain ⟨hview, hl⟩ := hi.vfs_chdir path junk
    exact ⟨_, live, rfl, (congrArg Prod.snd hview).symm, hl.inv, fun _ => hl⟩

theorem Op.Allowed.view {op : Op} {op' : Vfs.Op} (hop : op.Allowed s others) (h : op.view s = some op') :
    op'.Allowed s.view := by
  cases op with
  | read node buf max out_size => cases h
  | mkdir path mode => cases h; exact hop
  | create path mode => cases h; exact hop
  | write node buf size => cases h; trivial
  | unlink path => cases h; exact hop
  | copy src dst => cases h; exact hop
  | rename src dst => cases h; exact hop
  | chdir path junk => cases h; exact hop

/-! ## Every run -/

/-- Another page allocator under the same heap. -/
theorem Inv.withPages (hi : Inv s others held live) {pmm : Pmm.St} {held' : List Pmm.Grant}
    (h : ∀ segs, Backed.Inv s.kernel (live.map Block.start) held segs →
      Backed.Inv { s.kernel with pmm := pmm } (live.map Block.start) held' segs) :
    Inv { s with kernel := { s.kernel with pmm := pmm } } others held' live ∧
      ({ s with kernel := { s.kernel with pmm := pmm } } : St).view = s.view := by
  obtain ⟨segs, hk⟩ := hi.kernel.inv
  exact hi.around ⟨hi.kernel.inUse, ⟨segs, h segs hk⟩, hi.kernel.sizes⟩ (fun b hb => ⟨hb.1, fun _ _ => rfl⟩) hi.others

theorem Inv.other_kmalloc (hi : Inv s others held live) {size r : Nat} {k : Backed.St} (hsize : size ≤ 2 ^ 63)
    (he : Backed.kmalloc s.kernel size = some (r, k)) :
    ∃ live', Inv { s with kernel := k } (if r = 0 then others else r :: others) held live' ∧
      ({ s with kernel := k } : St).view = s.view := by
  rcases hi.kernel.kmalloc hsize with hnull | ⟨b, k', hcall, hk, -, hfresh, hmem⟩
  · rw [hnull] at he
    cases he
    exact ⟨live, hi, rfl⟩
  · rw [hcall] at he
    cases he
    have hreal := hk.inUse.real b List.mem_cons_self
    rw [if_neg hreal.start.ne']
    refine ⟨b :: live, hi.around hk (fun c hc => ⟨List.mem_cons_of_mem _ hc.1, fun x hx => hmem x ?_⟩) fun p hp => ?_⟩
    · exact .inl (hi.kernel.used.2 ⟨c, hc.1, hx⟩)
    · rcases List.mem_cons.1 hp with rfl | hp
      · refine ⟨b, List.mem_cons_self, rfl, fun n hn => ?_⟩
        obtain ⟨c, hc, hs⟩ := hi.data_start (hn ▸ hreal.start.ne')
        exact ((List.pairwise_cons.1 hk.inUse.apart).1 c hc).start_ne hreal (hi.kernel.inUse.real c hc) (hn.symm.trans hs.symm)
      · obtain ⟨c, hc, hcs, hne⟩ := hi.others p hp
        exact ⟨c, List.mem_cons_of_mem _ hc, hcs, hne⟩

theorem Inv.other_kfree (hi : Inv s others held live) {ptr : Nat} (hptr : ptr ∈ others)
    (hok : Heap.ReleaseOk s.kernel.heap ptr) :
    Inv { s with kernel := kfree s.kernel ptr } (others.filter (· ≠ ptr)) held (release ptr live) ∧
      ({ s with kernel := kfree s.kernel ptr } : St).view = s.view := by
  obtain ⟨b, hb, rfl, hne⟩ := hi.others ptr hptr
  obtain ⟨hk, hsame⟩ := hi.kernel.kfree ⟨b, hb, rfl⟩ hok
  refine hi.around hk (fun c hc => ⟨?_, fun x hx => hsame x (.inl ⟨c, hc.1, hx⟩)⟩) fun p hp => ?_
  · obtain ⟨hc, n, hn⟩ := hc
    exact hi.kernel.inUse.mem_release.2 ⟨hc, fun heq => hne n (hn.trans heq)⟩
  · obtain ⟨hp, hpne⟩ := List.mem_filter.1 hp
    obtain ⟨c, hc, rfl, hcne⟩ := hi.others p hp
    exact ⟨c, hi.kernel.inUse.mem_release.2 ⟨hc, by simpa using hpne⟩, rfl, hcne⟩

theorem inv_boot {kernel_end arena : Nat} (m : Mem) (mmap : Option (List Pmm.mb2_mmap_entry_t))
    (hk : kernel_end + 4095 < 2 ^ 64) (ha : 0x100000 ≤ arena) (hak : arena + Heap.EARLY_HEAP ≤ kernel_end) :
    Inv (boot kernel_end arena mmap m) [] [] [] ∧ (boot kernel_end arena mmap m).view = Vfs.init_root :=
  ⟨⟨Raw.inv_init_root (Heap.heap_init m arena).mem .nil, ⟨.nil, ⟨_, Backed.inv_boot m mmap hk ha hak⟩, nofun⟩, nofun⟩,
    Raw.view_init_root (Heap.heap_init m arena).mem []⟩

variable {kernel_end arena : Nat} {mmap : Option (List Pmm.mb2_mmap_entry_t)}

/-- In every state of a run the nodes own their blocks, and the tree is one that calls on contents lead to. -/
theorem Runs.inv (h : Runs kernel_end arena mmap s others held) (hk : kernel_end + 4095 < 2 ^ 64) (ha : 0x100000 ≤ arena)
    (hak : arena + Heap.EARLY_HEAP ≤ kernel_end) :
    (∃ live, Inv s others held live) ∧
      Relation.ReflTransGen (fun t t' => ∃ op : Vfs.Op, op.Allowed t ∧ Vfs.exec t op = t') Vfs.init_root s.view := by
  induction h with
  | init m =>
    obtain ⟨hi, hview⟩ := inv_boot m mmap hk ha hak
    exact ⟨⟨[], hi⟩, hview ▸ .refl⟩
  | call op _ hop hf he ih =>
    obtain ⟨⟨live, hi⟩, hreach⟩ := ih
    obtain ⟨s', live', hcall, hview, hi', -⟩ := hi.exec hop hf
    rw [he] at hcall
    cases hcall
    refine ⟨⟨live', hi'⟩, hview ▸ ?_⟩
    cases hop' : op.view _ with
    | none => exact hreach
    | some op' => exact hreach.tail ⟨op', hop.view hop', rfl⟩
  | kmalloc size _ hsize he ih =>
    obtain ⟨⟨live, hi⟩, hreach⟩ := ih
    obtain ⟨live', hi', hview⟩ := hi.other_kmalloc hsize he
    exact ⟨⟨live', hi'⟩, hview ▸ hreach⟩
  | kfree ptr _ hptr hok ih =>
    obtain ⟨⟨live, hi⟩, hreach⟩ := ih
    obtain ⟨hi', hview⟩ := hi.other_kfree hptr hok
    exact ⟨⟨_, hi'⟩, hview ▸ hreach⟩
  | write m _ hm ih =>
    obtain ⟨⟨live, hi⟩, hreach⟩ := ih
    obtain ⟨hi', hview⟩ := hi.scribble hm
    exact ⟨⟨_, hi'⟩, hview ▸ hreach⟩
  | alloc_pages count _ hc ih =>
    obtain ⟨⟨live, hi⟩, hreach⟩ := ih
    obtain ⟨hi', hview⟩ := hi.withPages fun _ h => h.alloc hc
    exact ⟨⟨_, hi'⟩, hview ▸ hreach⟩
  | free_page addr _ hp ih =>
    obtain ⟨⟨live, hi⟩, hreach⟩ := ih
    obtain ⟨hi', hview⟩ := hi.withPages fun _ h => h.free_page hp
    exact ⟨⟨_, hi'⟩, hview ▸ hreach⟩
  | free_pages addr count _ hp ih =>
    obtain ⟨⟨live, hi⟩, hreach⟩ := ih
    obtain ⟨hi', hview⟩ := hi.withPages fun _ h => h.free_pages hp
    exact ⟨⟨_, hi'⟩, hview ▸ hreach⟩

theorem Inv.size_lt (hi : Inv s others held live) (n : NodePtr) : (s.nodes n).size < 2 ^ 31 := by
  by_cases hd : (s.nodes n).data = 0
  · have hzero : (s.nodes n).size = 0 := hi.files.empty n hd
    omega
  · obtain ⟨b, hb, -, hlt⟩ := hi.files.owns n hd
    exact lt_of_lt_of_le hlt (hi.kernel.len_le hb)

theorem Inv.bytes_eq (hi : Inv s others held live) (n : NodePtr) :
    s.view.bytes n = bytesAt s.kernel.heap.mem (s.nodes n).data (s.nodes n).size := by
  by_cases hd : (s.nodes n).data = 0
  · have hzero : (s.nodes n).size = 0 := hi.files.empty n hd
    have hview : (s.view.nodes n).size = 0 := hzero
    rw [Vfs.St.bytes, hview, List.take_zero, hzero, bytesAt_zero]
  · exact Raw.view_bytes (s.files []) hd

/-- The bytes that a read leaves with the caller, when the caller's memory is no file's. -/
theorem bytesAt_read (hi : Inv s others held live) {n : NodePtr} {buf k out_size : Nat} (hk : k ≤ (s.nodes n).size)
    (hbuf : ∀ x, (Block.mk buf k).Has x → Writable s others x) (hout : out_size ≠ 0 → (Block.mk out_size 8).Apart ⟨buf, k⟩) :
    bytesAt (Raw.readMem (s.files []) n buf k out_size) buf k = bytesAt s.kernel.heap.mem (s.nodes n).data k := by
  by_cases hk0 : k = 0
  · rw [hk0, bytesAt_zero, bytesAt_zero]
  have hd : (s.nodes n).data ≠ 0 := by
    intro hd
    have hzero : (s.nodes n).size = 0 := hi.files.empty n hd
    omega
  have hapart : (Block.mk buf k).Apart ⟨(s.nodes n).data, k⟩ := by
    intro x hx hxd
    obtain ⟨b, hb, hs, hlen⟩ := hi.files.owns n hd
    refine (hi.writable_apart (hbuf x hx)).2 b ⟨hb, n, hs.symm⟩ ?_
    have hs' : b.start = (s.nodes n).data := hs
    have hlen' : (s.nodes n).size < b.len := hlen
    rw [Block.has_mk] at hxd
    unfold Block.Has
    omega
  by_cases h0 : out_size = 0
  · refine bytesAt_congr fun i hlt => ?_
    have hmem : Raw.readMem (s.files []) n buf k out_size = copy s.kernel.heap.mem buf (s.nodes n).data k := by
      unfold Raw.readMem
      rw [if_neg (not_not.2 h0)]
      exact if_pos ⟨hk0, hd⟩
    rw [hmem]
    exact copy_in hapart hlt
  · have hfile : ((s.files []).nodes n).data ≠ 0 := hd
    exact Raw.bytesAt_readMem hfile h0 hapart (hout h0)

/-- What a read gives is what the file holds. -/
theorem Inv.read_back (hi : Inv s others held live) {node : Option NodePtr} {buf max out_size : Nat}
    (hbuf : ∀ x, (Block.mk buf max).Has x ∨ out_size ≠ 0 ∧ (Block.mk out_size 8).Has x → Writable s others x)
    (hout : out_size ≠ 0 → (Block.mk out_size 8).Apart ⟨buf, max⟩) :
    (Machine.vfs_read s node buf max out_size).1 = (Vfs.vfs_read s.view node max).1 ∧
      bytesAt (Machine.vfs_read s node buf max out_size).2.kernel.heap.mem buf (Vfs.vfs_read s.view node max).2.length =
        (Vfs.vfs_read s.view node max).2 ∧
      (0 ≤ (Vfs.vfs_read s.view node max).1 → out_size ≠ 0 →
        load (Machine.vfs_read s node buf max out_size).2.kernel.heap.mem out_size 8 =
          (Vfs.vfs_read s.view node max).2.length) := by
  have hneg : ¬ (0 : Int) ≤ -1 := by decide
  cases node with
  | none => exact ⟨rfl, rfl, fun h => absurd h hneg⟩
  | some n =>
  by_cases hf : (s.nodes n).type = .VFS_FILE
  swap
  · have hraw : Raw.vfs_read (s.files []) (some n) buf max out_size = (-1, s.files []) := if_pos hf
    have hview : Vfs.vfs_read s.view (some n) max = (-1, []) := if_pos hf
    unfold Machine.vfs_read
    rw [hraw, hview]
    exact ⟨rfl, rfl, fun h => absurd h hneg⟩
  have hfile : ((s.files []).nodes n).type = .VFS_FILE := hf
  have hle : min (s.nodes n).size max ≤ (s.nodes n).size := min_le_left _ _
  have hview : Vfs.vfs_read s.view (some n) max = (i32 (min (s.nodes n).size max),
      bytesAt s.kernel.heap.mem (s.nodes n).data (min (s.nodes n).size max)) := by
    have hcut : (s.view.bytes n).take (min (s.nodes n).size max) =
        bytesAt s.kernel.heap.mem (s.nodes n).data (min (s.nodes n).size max) := by
      rw [hi.bytes_eq, bytesAt_take, min_eq_left hle]
    rw [← hcut]
    exact if_neg (not_not.2 hf)
  have hsub : ∀ x, (Block.mk buf (min (s.nodes n).size max)).Has x → (Block.mk buf max).Has x := fun x hx =>
    ⟨hx.1, lt_of_lt_of_le hx.2 (Nat.add_le_add_left (min_le_right _ _) _)⟩
  unfold Machine.vfs_read
  rw [hview, Raw.vfs_read_eq hfile, bytesAt_length]
  refine ⟨rfl, ?_, fun _ h0 => Raw.load_readMem _ _ h0 (lt_of_le_of_lt hle (hi.size_lt n))⟩
  exact bytesAt_read hi hle (fun x hx => hbuf x (.inl (hsub x hx))) fun h0 x hx hb => hout h0 x hx (hsub x hb)

end

section
variable {s : St} {others : List Nat} {held : List Pmm.Grant} {kernel_end arena : Nat}
  {mmap : Option (List Pmm.mb2_mmap_entry_t)}

/-- Whatever the kernel does with heap and pages between the calls, the tree is one that calls on contents lead to. From
every state each call returns, and does to the tree what the call on contents does. No call but a read
changes a byte of the blocks that the rest of the kernel has. -/
theorem files_on_heap (hk : kernel_end + 4095 < 2 ^ 64) (ha : 0x100000 ≤ arena) (hak : arena + Heap.EARLY_HEAP ≤ kernel_end)
    (h : Runs kernel_end arena mmap s others held) :
    Relation.ReflTransGen (fun t t' => ∃ op : Vfs.Op, op.Allowed t ∧ Vfs.exec t op = t') Vfs.init_root s.view ∧
      ∀ op : Op, op.Allowed s others → op.Fine s → ∃ s', exec s op = some s' ∧
        s'.view = (op.view s).elim s.view (Vfs.exec s.view) ∧
        (op.view s ≠ none → ∀ p ∈ others, SameOn (Backed.blockAt s.kernel p) s.kernel.heap.mem s'.kernel.heap.mem) := by
  obtain ⟨⟨live, hi⟩, hreach⟩ := h.inv hk ha hak
  refine ⟨hreach, fun op hop hf => ?_⟩
  obtain ⟨s', live', hcall, hview, -, hkept⟩ := hi.exec hop hf
  refine ⟨s', hcall, hview, fun hne p hp => ?_⟩
  obtain ⟨b, hb, rfl, -⟩ := hi.others p hp
  rw [hi.kernel.block_eq hb]
  exact ((hkept hne).kept b hb hp).2

/-- A machine with 128 MiB, right after boot, with one empty file. -/
def oneFile : St := (vfs_create (boot 0x300000 0x200000 none UInt8.ofNat) (str "/a") 0o644).2

theorem theFile_lt : 1 < VFS_MAX_NODES := by decide

/-- The node of that file. -/
def theFile : NodePtr := ⟨1, theFile_lt⟩

theorem runs_oneFile : Runs 0x300000 0x200000 none oneFile [] [] := by
  refine .call (.create (str "/a") 0o644) (.init _) ?_ trivial rfl
  show LeafFits (boot 0x300000 0x200000 none UInt8.ofNat).view (str "/a")
  rw [(inv_boot UInt8.ofNat none (by norm_num : 0x300000 + 4095 < 2 ^ 64) (by norm_num : 0x100000 ≤ 0x200000) (by decide)).2]
  exact ⟨.inl rfl, by decide +kernel⟩

/-- Memory of the kernel below the heap. -/
theorem kernel_memory {s : St} {x : Nat} (hr : s.kernel.heap.regions = [(0x200000, Heap.EARLY_HEAP)])
    (hp : s.kernel.pmm = Pmm.pmm_init 0x300000 none) (h1 : 0x100000 ≤ x) (h2 : x < 0x200000) :
    Backed.Outside s.kernel x ∧ Pmm.bitmap_test s.kernel.pmm (x / PAGE_SIZE) = true := by
  refine ⟨fun r hrm => ?_, hp ▸ Backed.init_kernel none (by norm_num) h1 (h2.trans (by norm_num))⟩
  rw [hr] at hrm
  obtain rfl : r = (0x200000, Heap.EARLY_HEAP) := List.mem_singleton.1 hrm
  exact .inl h2

/-- A block of 32 bytes comes from the first block of the list that is free. -/
theorem fill_new_of_fit {k : Backed.St} {a buf size : Nat} (hr : Heap.request (add64 size 1) = 32) (h0 : add64 size 1 ≠ 0)
    (hf : Heap.find_fit k.heap.mem 32 Heap.FUEL k.heap.heap_head = some (a + 1)) (hd : add64 (a + 1) Heap.BLOCK ≠ 0) :
    fill_new k buf size = some (add64 (a + 1) Heap.BLOCK,
      let k' : Backed.St := { k with heap := (Heap.take_block k.heap (a + 1) 32).2 }
      k'.withMem (Function.update (copy k'.heap.mem (add64 (a + 1) Heap.BLOCK) buf size)
        (add64 (a + 1) Heap.BLOCK + size) 0)) := by
  have hcall : Backed.kmalloc k (add64 size 1) = some (add64 (a + 1) Heap.BLOCK,
      { k with heap := (Heap.take_block k.heap (a + 1) 32).2 }) := by
    unfold Backed.kmalloc
    rw [if_neg h0, hr, Backed.attempts, hf]
    rfl
  unfold fill_new
  rw [hcall]
  exact if_neg hd

/-- The kernel with the block of the file's first contents. -/
def filled : Backed.St :=
  let k : Backed.St := { oneFile.kernel with heap := (Heap.take_block oneFile.kernel.heap 0x200000 32).2 }
  k.withMem (Function.update (copy k.heap.mem 0x200028 0x100000 5) 0x20002D 0)

/-- The file holds five bytes. -/
def written : St :=
  St.set { oneFile with kernel := filled } theFile { oneFile.nodes theFile with data := 0x200028, size := 5 }

theorem fill_oneFile : fill_new oneFile.kernel 0x100000 5 = some (0x200028, filled) :=
  fill_new_of_fit (by decide +kernel) (by decide +kernel) (by decide +kernel : _ = some (0x1FFFFF + 1)) (by decide +kernel)

theorem runs_written : Runs 0x300000 0x200000 none written [] [] := by
  refine .call (.write (some theFile) 0x100000 5) runs_oneFile ⟨by norm_num, fun x hx => .inr ?_⟩ ?_ ?_
  · exact kernel_memory rfl rfl hx.1 (hx.2.trans (by norm_num))
  · intro n hn data k hd
    obtain rfl : theFile = n := Option.some.inj hn
    exact absurd (by decide +kernel) hd
  · have htype : (oneFile.nodes theFile).type = .VFS_FILE := by decide +kernel
    have hdata : (oneFile.nodes theFile).data = 0 := by decide +kernel
    unfold exec vfs_write
    dsimp only
    rw [if_neg (not_not.2 htype), fill_oneFile]
    dsimp only
    rw [if_neg (by decide), if_neg (not_not.2 hdata)]
    rfl

/-- The kernel with the block of the file's second contents besides that of the first. -/
def refilled : Backed.St :=
  let k : Backed.St := { filled with heap := (Heap.take_block filled.heap 0x200048 32).2 }
  k.withMem (Function.update (copy k.heap.mem 0x200070 0x100010 3) 0x200073 0)

theorem fill_written : fill_new written.kernel 0x100010 3 = some (0x200070, refilled) :=
  fill_new_of_fit (by decide +kernel) (by decide +kernel) (by decide +kernel : _ = some (0x200047 + 1)) (by decide +kernel)

/-- Behind the first block is the second, and both are in use. -/
theorem release_refilled : Heap.ReleaseOk refilled.heap 0x200028 := by
  have hb : sub64 0x200028 Heap.BLOCK = 0x200000 := by decide +kernel
  have hblock : (Heap.block refilled.heap.mem 0x200000).next = 0x200048 ∧ (Heap.block refilled.heap.mem 0x200000).prev = 0 ∧
      (Heap.block refilled.heap.mem 0x200048).free = false := by decide +kernel
  intro r _ _ c hc h0 hfree
  rw [hb, hblock.1, hblock.2.1] at hc
  obtain rfl | rfl := hc
  · rw [hblock.2.2] at hfree
    cases hfree
  · exact absurd rfl h0

/-- The five bytes of the file give way to three others. -/
theorem files_on_heap_rewrite : written.view.bytes theFile = [0, 1, 2, 3, 4] ∧
    ∃ s', exec written (.write (some theFile) 0x100010 3) = some s' ∧
      s'.view.bytes theFile = [0x10, 0x11, 0x12] := by
  have hop : (Op.write (some theFile) 0x100010 3).Allowed written [] :=
    ⟨by norm_num, fun x hx => .inr (kernel_memory rfl rfl ((by norm_num : 0x100000 ≤ 0x100010).trans hx.1)
      (hx.2.trans (by norm_num)))⟩
  have hfine : (Op.write (some theFile) 0x100010 3).Fine written := by
    intro n hn data k _ hfill
    obtain rfl : theFile = n := Option.some.inj hn
    rw [fill_written] at hfill
    cases hfill
    exact release_refilled
  obtain ⟨s', hcall, hview, -⟩ := (files_on_heap (by omega) (by omega) (by decide) runs_written).2 _ hop hfine
  refine ⟨by decide +kernel, s', hcall, ?_⟩
  rw [hview]
  decide +kernel

/-- In every run a read gives the caller the bytes that the tree has for the file. -/
theorem reads_on_heap (hk : kernel_end + 4095 < 2 ^ 64) (ha : 0x100000 ≤ arena) (hak : arena + Heap.EARLY_HEAP ≤ kernel_end)
    (h : Runs kernel_end arena mmap s others held) (node : Option NodePtr) (buf max out_size : Nat)
    (hop : (Op.read node buf max out_size).Allowed s others) (hout : out_size ≠ 0 → (Block.mk out_size 8).Apart ⟨buf, max⟩) :
    (vfs_read s node buf max out_size).1 = (Vfs.vfs_read s.view node max).1 ∧
      bytesAt (vfs_read s node buf max out_size).2.kernel.heap.mem buf (Vfs.vfs_read s.view node max).2.length =
        (Vfs.vfs_read s.view node max).2 ∧
      (0 ≤ (Vfs.vfs_read s.view node max).1 → out_size ≠ 0 →
        load (vfs_read s node buf max out_size).2.kernel.heap.mem out_size 8 = (Vfs.vfs_read s.view node max).2.length) := by
  obtain ⟨⟨live, hi⟩, -⟩ := h.inv hk ha hak
  exact hi.read_back hop hout

/-- The five bytes of the file and their number come back. -/
theorem reads_on_heap_written : (vfs_read written (some theFile) 0x100100 8 0x100200).1 = 5 ∧
    bytesAt (vfs_read written (some theFile) 0x100100 8 0x100200).2.kernel.heap.mem 0x100100 5 = [0, 1, 2, 3, 4] ∧
    load (vfs_read written (some theFile) 0x100100 8 0x100200).2.kernel.heap.mem 0x100200 8 = 5 := by
  have hout : (Block.mk 0x100200 8).Apart ⟨0x100100, 8⟩ := fun x h1 h2 => by
    rw [Block.has_mk] at h1 h2
    omega
  have hop : (Op.read (some theFile) 0x100100 8 0x100200).Allowed written [] := by
    intro x hx
    simp only [Block.has_mk] at hx
    exact .inr (kernel_memory rfl rfl (by omega) (by omega)).1
  have hread : Vfs.vfs_read written.view (some theFile) 8 = (5, [0, 1, 2, 3, 4]) := by decide +kernel
  have h := reads_on_heap (by omega) (by omega) (by decide) runs_written _ 0x100100 8 0x100200 hop fun _ => hout
  rw [hread] at h
  exact ⟨h.1, h.2.1, h.2.2 (by decide) (by decide)⟩

end

end H3OS.Vfs.Machine
