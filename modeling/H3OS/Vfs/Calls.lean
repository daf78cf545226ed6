import H3OS.Vfs.Paths
/-!
# What the calls do to the tree

Paths lead from the root to nodes of the tree only. Making a node links it
below a directory of the tree, unlinking takes one out, and the other calls
leave the tree alone, so `Inv` holds in every run.
-/
open SysLib

namespace H3OS.Vfs

/-- The nodes that links from the root lead to. -/
inductive Live (kids : Kids) : NodePtr → Prop
  | top : Live kids root
  | kid {d c : NodePtr} (hd : Live kids d) (hc : c ∈ kids d) : Live kids c

section
variable {s : St} {kids : Kids} {d c n cur : NodePtr}

theorem Live.used (hi : Inv s kids) (h : Live kids n) : n.val < s.node_count := by
  cases h with
  | top => exact hi.count.1
  | kid _ hc => exact hi.kid_used hc

/-- A node of the tree is the root or in its parent's list. -/
theorem Live.cases_parent (hi : Inv s kids) (h : Live kids n) :
    n = root ∨ ∃ p, (s.nodes n).parent = some p ∧ n ∈ kids p ∧ Live kids p := by
  cases h with
  | top => exact .inl rfl
  | kid hd hc => exact .inr ⟨_, hi.parent _ n hc, hc, hd⟩

theorem live_iff_mem (hi : Inv s kids) : Live kids n ↔ n ∈ nodesOf kids := by
  constructor
  · intro h
    induction h with
    | top => exact List.mem_cons_self
    | kid _ hc ih => exact preorder_kids hi.parent hi.up (fun _ c _ => c.isLt) (Nat.le_add_left _ _) ih hc
  · have hmem : ∀ fuel d, Live kids d → ∀ n ∈ preorder kids fuel d, Live kids n := by
      intro fuel
      induction fuel with
      | zero => simp [preorder]
      | succ fuel ih =>
        intro d hd n hn
        rcases List.mem_cons.1 hn with rfl | hn
        · exact hd
        · obtain ⟨c, hc, hn⟩ := List.mem_flatMap.1 hn
          exact ih c (.kid hd hc) n hn
    exact hmem _ root .top n

/-! ## Paths stay in the tree -/

theorem Live.step_into (hi : Inv s kids) (h : Live kids cur) {part : List UInt8} (hs : step_into s cur part = some n) :
    Live kids n := by
  unfold Vfs.step_into at hs
  split_ifs at hs
  · cases hs
    exact h
  · cases hs
    exact h
  · cases hs
    rcases h.cases_parent hi with rfl | ⟨p, hp, -, hlive⟩
    · rw [hi.root_node.1]
      exact h
    · rw [hp]
      exact hlive
  · exact .kid h (hi.find_child_some.1 hs).1

theorem Live.walk (hi : Inv s kids) (h : Live kids cur) {ps : List (List UInt8)} (hw : walk s cur ps = some n) :
    Live kids n := by
  induction ps generalizing cur with
  | nil =>
    cases hw
    exact h
  | cons part ps ih =>
    rw [walk_cons] at hw
    obtain ⟨c, hs, hw⟩ := Option.bind_eq_some_iff.1 hw
    exact ih (h.step_into hi hs) hw

theorem Inv.resolve_live (hi : Inv s kids) {path : List UInt8} (h : vfs_resolve s path = some n) : Live kids n := by
  rw [resolve_eq] at h
  exact Live.walk hi .top h

theorem Inv.parent_live (hi : Inv s kids) {path : List UInt8} (h : (ensure_parent s path).1 = some d) : Live kids d := by
  unfold ensure_parent at h
  dsimp only at h
  split_ifs at h
  · cases h
    exact .top
  · exact hi.resolve_live h

/-! ## Making a node -/

/-- What `vfs_mkdir` and `vfs_create` can do: nothing, find the node that is there, or link a new one. -/
theorem Inv.make_node_cases (hi : Inv s kids) (type : vfs_type_t) {path : List UInt8} (mode : Nat)
    (hfit : (ensure_parent s path).2.length < VFS_NAME_MAX) :
    (make_node type s path mode = (none, s) ∧ ∀ d, (ensure_parent s path).1 = some d → (s.nodes d).type = .VFS_DIR →
      (ensure_parent s path).2 ≠ [] → find_child s d (ensure_parent s path).2 = none → s.node_count = VFS_MAX_NODES) ∨
    ∃ d, (ensure_parent s path).1 = some d ∧ (s.nodes d).type = .VFS_DIR ∧ (ensure_parent s path).2 ≠ [] ∧
      ((∃ c, find_child s d (ensure_parent s path).2 = some c ∧ make_node type s path mode = (some c, s)) ∨
        find_child s d (ensure_parent s path).2 = none ∧ ∃ n : NodePtr, n.val = s.node_count ∧ d ≠ n ∧
          make_node type s path mode = (some n, linked s d n (ensure_parent s path).2 type mode)) := by
  have hlive : ∀ d, (ensure_parent s path).1 = some d → Live kids d := fun d hd => hi.parent_live hd
  unfold make_node
  generalize hp : ensure_parent s path = r at hfit hlive ⊢
  obtain ⟨od, leaf⟩ := r
  cases od with
  | none => exact .inl ⟨rfl, fun d hd => by cases hd⟩
  | some d =>
    dsimp only at hfit hlive ⊢
    by_cases hbad : (s.nodes d).type ≠ .VFS_DIR ∨ leaf = []
    · rw [if_pos hbad]
      refine .inl ⟨rfl, fun e he ht hl => ?_⟩
      cases he
      exact absurd hbad (by simp [ht, hl])
    · rw [if_neg hbad]
      push Not at hbad
      cases hf : find_child s d leaf with
      | some c => exact .inr ⟨d, rfl, hbad.1, hbad.2, .inl ⟨c, hf, rfl⟩⟩
      | none =>
        unfold alloc_node
        by_cases hroom : s.node_count < VFS_MAX_NODES
        · rw [dif_pos hroom]
          refine .inr ⟨d, rfl, hbad.1, hbad.2, .inr ⟨hf, ⟨s.node_count, hroom⟩, rfl, ?_, ?_⟩⟩
          · rintro rfl
            exact absurd ((hlive _ rfl).used hi) (lt_irrefl _)
          · have hdn : d ≠ ⟨s.node_count, hroom⟩ := by
              rintro rfl
              exact absurd ((hlive _ rfl).used hi) (lt_irrefl _)
            have hcut : leaf.take (VFS_NAME_MAX - 1) = leaf := List.take_of_length_le (by omega)
            simp only [link_child, linked, St.setChild, St.set, hcut, Function.update_self, Function.update_of_ne hdn,
              Function.update_idem]
        · rw [dif_neg hroom]
          refine .inl ⟨rfl, fun e _ _ _ _ => ?_⟩
          have := hi.count.2
          omega

theorem Inv.make_node (hi : Inv s kids) (type : vfs_type_t) {path : List UInt8} (mode : Nat)
    (hfit : (ensure_parent s path).2.length < VFS_NAME_MAX) : ∃ kids', Inv (make_node type s path mode).2 kids' := by
  rcases hi.make_node_cases type mode hfit with ⟨h, -⟩ | ⟨d, hd, hdir, hleaf, ⟨c, -, h⟩ | ⟨hf, n, hn, -, h⟩⟩
  · rw [h]
    exact ⟨kids, hi⟩
  · rw [h]
    exact ⟨kids, hi⟩
  · rw [h]
    have hlt : d.val < n.val := hn ▸ (hi.parent_live hd).used hi
    exact ⟨_, hi.link hn hlt hdir hleaf (hi.find_child_none.1 hf)⟩

/-! ## Writing, unlinking, copying -/

/-- A write replaces the contents of a file or does nothing. -/
theorem vfs_write_cases (s : St) (node : Option NodePtr) (buf : List UInt8) (mem : Bool) :
    vfs_write s node buf mem = (-1, s) ∨
    ∃ n, node = some n ∧ (s.nodes n).type = .VFS_FILE ∧ mem = true ∧
      vfs_write s node buf mem = (i32 buf.length, s.set n { s.nodes n with data := some buf, size := buf.length }) := by
  unfold vfs_write
  cases node with
  | none => exact .inl rfl
  | some n =>
    dsimp only
    split_ifs with ht hm
    · exact .inl rfl
    · exact .inl rfl
    · exact .inr ⟨n, rfl, not_not.1 ht, by simpa using hm, rfl⟩

theorem Inv.vfs_write (hi : Inv s kids) (node : Option NodePtr) (buf : List UInt8) (mem : Bool) :
    Inv (vfs_write s node buf mem).2 kids := by
  rcases vfs_write_cases s node buf mem with h | ⟨n, -, -, -, h⟩
  · rw [h]
    exact hi
  · rw [h]
    exact hi.write n buf

/-- Unlinking takes a node of the tree, other than the root, out of its parent's list. -/
theorem Inv.vfs_unlink_cases (hi : Inv s kids) (path : List UInt8) :
    (vfs_unlink s path = (-1, s) ∧ ∀ n, vfs_resolve s path = some n → n = root) ∨
    ∃ n p, vfs_resolve s path = some n ∧ n ∈ kids p ∧ vfs_unlink s path = (0, unlinked s p n) := by
  unfold vfs_unlink
  cases hr : vfs_resolve s path with
  | none => exact .inl ⟨rfl, fun n hn => by cases hn⟩
  | some n =>
    dsimp only
    split_ifs with hroot
    · exact .inl ⟨rfl, fun m hm => by cases hm; exact hroot⟩
    · rcases (hi.resolve_live hr).cases_parent hi with h | ⟨p, hp, hn, -⟩
      · exact absurd h hroot
      · refine .inr ⟨n, p, rfl, hn, ?_⟩
        rw [hp]
        rfl

theorem Inv.vfs_unlink (hi : Inv s kids) (path : List UInt8) : ∃ kids', Inv (vfs_unlink s path).2 kids' := by
  rcases hi.vfs_unlink_cases path with ⟨h, -⟩ | ⟨n, p, -, hn, h⟩
  · rw [h]
    exact ⟨kids, hi⟩
  · rw [h]
    exact ⟨_, hi.unlink hn⟩

/-- A copy does nothing, or makes its target and may write to it. -/
theorem vfs_copy_cases (s : St) (src dst : List UInt8) (mem : Bool) :
    vfs_copy s src dst mem = (-1, s) ∨
    ∃ n mode, vfs_resolve s src = some n ∧ (s.nodes n).type = .VFS_FILE ∧
      ((vfs_copy s src dst mem).2 = (Vfs.make_node .VFS_FILE s dst mode).2 ∨
        ∃ d buf, (vfs_copy s src dst mem).2 = (Vfs.vfs_write (Vfs.make_node .VFS_FILE s dst mode).2 d buf mem).2) := by
  unfold vfs_copy
  cases vfs_resolve s src with
  | none => exact .inl rfl
  | some n =>
    dsimp only
    by_cases ht : (s.nodes n).type ≠ .VFS_FILE
    · rw [if_pos ht]
      exact .inl rfl
    · rw [if_neg ht]
      refine .inr ⟨n, if (s.nodes n).mode ≠ 0 then (s.nodes n).mode else 0o644, rfl, not_not.1 ht, ?_⟩
      unfold vfs_create
      generalize Vfs.make_node .VFS_FILE s dst _ = r
      obtain ⟨od, s₁⟩ := r
      cases od with
      | none => exact .inl rfl
      | some d =>
        dsimp only
        split_ifs
        · exact .inr ⟨some d, s₁.bytes n, rfl⟩
        · exact .inl rfl

theorem Inv.vfs_copy (hi : Inv s kids) (src : List UInt8) {dst : List UInt8} (mem : Bool)
    (hfit : (ensure_parent s dst).2.length < VFS_NAME_MAX) : ∃ kids', Inv (vfs_copy s src dst mem).2 kids' := by
  rcases vfs_copy_cases s src dst mem with h | ⟨n, mode, -, -, h | ⟨d, buf, h⟩⟩
  · rw [h]
    exact ⟨kids, hi⟩
  · rw [h]
    exact hi.make_node .VFS_FILE mode hfit
  · rw [h]
    obtain ⟨kids₁, hi₁⟩ := hi.make_node .VFS_FILE mode hfit
    exact ⟨kids₁, hi₁.vfs_write d buf mem⟩

theorem Inv.vfs_rename (hi : Inv s kids) (src : List UInt8) {dst : List UInt8} (mem : Bool)
    (hfit : (ensure_parent s dst).2.length < VFS_NAME_MAX) : ∃ kids', Inv (vfs_rename s src dst mem).2 kids' := by
  obtain ⟨kids₁, hi₁⟩ := hi.vfs_copy src mem hfit
  unfold Vfs.vfs_rename
  dsimp only
  split_ifs
  · exact ⟨kids₁, hi₁⟩
  · exact hi₁.vfs_unlink src

/-- Changing directory writes `cwd` only. -/
theorem vfs_chdir_cases (s : St) (path : List UInt8) (junk : Nat → List UInt8) :
    ∃ cwd, (vfs_chdir s path junk).2 = { s with cwd := cwd } := by
  unfold vfs_chdir
  cases vfs_resolve s path with
  | none => exact ⟨s.cwd, rfl⟩
  | some n =>
    dsimp only
    split_ifs
    · exact ⟨s.cwd, rfl⟩
    · exact ⟨_, rfl⟩

theorem Inv.cwd (hi : Inv s kids) (cwd : List UInt8) : Inv { s with cwd := cwd } kids := by
  have h : SameTree s { s with cwd := cwd } := ⟨fun _ => rfl, rfl⟩
  exact h.inv hi hi.sizes

/-! ## Runs -/

theorem Inv.exec (hi : Inv s kids) (op : Op) (hop : op.Allowed s) : ∃ kids', Inv (exec s op) kids' := by
  cases op with
  | mkdir path mode => exact hi.make_node _ mode hop.2
  | create path mode => exact hi.make_node _ mode hop.2
  | write node buf mem => exact ⟨kids, hi.vfs_write node buf mem⟩
  | unlink path => exact hi.vfs_unlink path
  | copy src dst mem => exact hi.vfs_copy src mem hop.2.2
  | rename src dst mem => exact hi.vfs_rename src mem hop.2.2
  | chdir path junk =>
    obtain ⟨cwd, h⟩ := vfs_chdir_cases s path junk
    rw [Vfs.exec, h]
    exact ⟨kids, hi.cwd cwd⟩

theorem inv_init_root : Inv init_root (fun _ => []) := by
  have hnode : ∀ n : NodePtr, init_root.nodes n = if n = root then ⟨str "/", .VFS_DIR, 0o755, 0, none, none, none, none⟩
      else blank := by
    intro n
    by_cases hn : n = root
    · rw [if_pos hn, hn]
      rfl
    · rw [if_neg hn]
      exact set_other _ _ hn
  have hlinks : ∀ n, (init_root.nodes n).child = none ∧ (init_root.nodes n).parent = none ∧
      ((init_root.nodes n).data.getD []).length = (init_root.nodes n).size := by
    intro n
    rw [hnode]
    split_ifs <;> exact ⟨rfl, rfl, rfl⟩
  refine ⟨fun d => ?_, ?_, fun n p hp => ?_, ?_, fun d => List.nodup_nil, ?_, ⟨rfl, rfl, rfl⟩, fun n _ => ?_, ?_, fun n => ?_⟩
  · rw [(hlinks d).1]
    rfl
  · simp
  · rw [(hlinks n).2.1] at hp
    cases hp
  · simp
  · simp
  · exact ⟨(hlinks n).1, (hlinks n).2.1⟩
  · exact ⟨by decide, by decide⟩
  · exact (hlinks n).2.2

/-- The name of an absolute path does not depend on the state. -/
theorem leaf_absolute (s t : St) {path : List UInt8} (h : path.head? = some SLASH) :
    (ensure_parent s path).2 = (ensure_parent t path).2 := by
  have hn : normalize_path s path = normalize_path t path := by
    unfold normalize_path full_path
    rw [if_pos h, if_pos h]
  unfold ensure_parent
  rw [hn]
  dsimp only
  split_ifs <;> rfl

theorem seeds_fit : ∀ path ∈ seed_dirs.map (fun d => str d.1) ++ seed_files.map (fun f => str f.1),
    path.head? = some SLASH ∧ (ensure_parent init_root path).2.length < VFS_NAME_MAX := by
  decide +kernel

/-- What holds of the bare root and is kept by the calls that seed the tree holds behind `vfs_init`. -/
theorem vfs_init_rule {P : St → Prop} (h0 : P init_root)
    (hmake : ∀ s type path mode, path ∈ seed_dirs.map (fun d => str d.1) ++ seed_files.map (fun f => str f.1) → P s →
      P (Vfs.make_node type s path mode).2)
    (hwrite : ∀ s n buf mem, P s → P (Vfs.vfs_write s n buf mem).2) (mem : Nat → Bool) : P (vfs_init mem) := by
  unfold vfs_init
  refine List.foldlRecOn (motive := P) _ _ ?_ (fun s hs f hf => ?_)
  · refine List.foldlRecOn (motive := P) _ _ h0 (fun s hs d hd => ?_)
    exact hmake s _ _ _ (List.mem_append_left _ (List.mem_map_of_mem hd)) hs
  · have hmade := hmake s .VFS_FILE _ 0o644
      (List.mem_append_right _ (List.mem_map_of_mem (List.fst_mem_of_mem_zipIdx hf))) hs
    unfold seed_file vfs_create
    generalize Vfs.make_node .VFS_FILE s _ 0o644 = r at hmade ⊢
    obtain ⟨od, s₁⟩ := r
    cases od with
    | none => exact hmade
    | some n => exact hwrite _ _ _ _ hmade

theorem inv_vfs_init (mem : Nat → Bool) : ∃ kids, Inv (vfs_init mem) kids := by
  refine vfs_init_rule (P := fun s => ∃ kids, Inv s kids) ⟨_, inv_init_root⟩ ?_ ?_ mem
  · rintro s type path mode hpath ⟨kids, hi⟩
    obtain ⟨habs, hfit⟩ := seeds_fit path hpath
    exact hi.make_node type mode (leaf_absolute s init_root habs ▸ hfit)
  · rintro s n buf mem ⟨kids, hi⟩
    exact ⟨kids, hi.vfs_write n buf mem⟩

theorem Reach.inv (h : Reach s) : ∃ kids, Inv s kids := by
  induction h with
  | init mem => exact inv_vfs_init mem
  | step op _ hop ih =>
    obtain ⟨kids, hi⟩ := ih
    exact hi.exec op hop

/-! ## The current directory is absolute -/

theorem make_node_cwd (type : vfs_type_t) (s : St) (path : List UInt8) (mode : Nat) :
    (Vfs.make_node type s path mode).2.cwd = s.cwd := by
  unfold Vfs.make_node alloc_node
  generalize ensure_parent s path = r
  obtain ⟨od, leaf⟩ := r
  cases od with
  | none => rfl
  | some d =>
    dsimp only
    split_ifs
    · rfl
    · cases find_child s d leaf <;> rfl
    · cases find_child s d leaf <;> rfl

theorem vfs_write_cwd (s : St) (node : Option NodePtr) (buf : List UInt8) (mem : Bool) :
    (Vfs.vfs_write s node buf mem).2.cwd = s.cwd := by
  rcases vfs_write_cases s node buf mem with h | ⟨n, -, -, -, h⟩
  · rw [h]
  · rw [h]
    rfl

theorem vfs_unlink_cwd (s : St) (path : List UInt8) : (Vfs.vfs_unlink s path).2.cwd = s.cwd := by
  have hchild : ∀ p n, (unlink_child s p n).cwd = s.cwd := by
    intro p n
    unfold unlink_child
    split_ifs
    · rfl
    · cases find_prev s n (siblings s VFS_MAX_NODES (s.nodes p).child) <;> rfl
  unfold Vfs.vfs_unlink
  cases vfs_resolve s path with
  | none => rfl
  | some n =>
    dsimp only
    split_ifs
    · rfl
    · cases (s.nodes n).parent with
      | none => rfl
      | some p => exact hchild p n

theorem vfs_copy_cwd (s : St) (src dst : List UInt8) (mem : Bool) : (Vfs.vfs_copy s src dst mem).2.cwd = s.cwd := by
  rcases vfs_copy_cases s src dst mem with h | ⟨n, mode, -, -, h | ⟨d, buf, h⟩⟩
  · rw [h]
  · rw [h, make_node_cwd]
  · rw [h, vfs_write_cwd, make_node_cwd]

theorem vfs_rename_cwd (s : St) (src dst : List UInt8) (mem : Bool) : (Vfs.vfs_rename s src dst mem).2.cwd = s.cwd := by
  unfold Vfs.vfs_rename
  dsimp only
  split_ifs
  · exact vfs_copy_cwd s src dst mem
  · exact (vfs_unlink_cwd _ _).trans (vfs_copy_cwd s src dst mem)

theorem vfs_chdir_head {s : St} (h : s.cwd.head? = some SLASH) (path : List UInt8) (junk : Nat → List UInt8) :
    (vfs_chdir s path junk).2.cwd.head? = some SLASH := by
  unfold vfs_chdir
  cases vfs_resolve s path with
  | none => exact h
  | some n =>
    dsimp only
    split_ifs
    · exact h
    · refine List.foldrRecOn (motive := fun cwd : List UInt8 => cwd.head? = some SLASH) _ _ rfl (fun cwd hcwd part _ => ?_)
      unfold append_part
      split_ifs
      · rw [List.head?_append, List.head?_append, hcwd]
        rfl
      · rw [List.head?_append, hcwd]
        rfl

theorem vfs_init_cwd (mem : Nat → Bool) : (vfs_init mem).cwd = str "/" := by
  refine vfs_init_rule (P := fun s => s.cwd = str "/") rfl ?_ ?_ mem
  · intro s type path mode _ hs
    exact (make_node_cwd type s path mode).trans hs
  · intro s n buf mem hs
    exact (vfs_write_cwd s n buf mem).trans hs

theorem Reach.cwd_head (h : Reach s) : s.cwd.head? = some SLASH := by
  induction h with
  | init mem => rw [vfs_init_cwd]; rfl
  | step op _ _ ih =>
    cases op with
    | mkdir path mode => rw [Vfs.exec, vfs_mkdir, make_node_cwd]; exact ih
    | create path mode => rw [Vfs.exec, vfs_create, make_node_cwd]; exact ih
    | write node buf mem => rw [Vfs.exec, vfs_write_cwd]; exact ih
    | unlink path => rw [Vfs.exec, vfs_unlink_cwd]; exact ih
    | copy src dst mem => rw [Vfs.exec, vfs_copy_cwd]; exact ih
    | rename src dst mem => rw [Vfs.exec, vfs_rename_cwd]; exact ih
    | chdir path junk => exact vfs_chdir_head ih path junk

/-- Short components and a short text fit. -/
theorem PathOk.leafFits {path : List UInt8} (h : PathOk s path) : LeafFits s path := by
  obtain ⟨hlen, hruns⟩ := h
  have hnorm : normalize_path s path = full_path s path := List.take_of_length_le (by unfold VFS_PATH_MAX at *; omega)
  have hleaf : ((full_path s path).reverse.takeWhile (· ≠ SLASH)).reverse.length < VFS_NAME_MAX := by
    refine hruns _ ?_ ?_
    · have hpre : (full_path s path).reverse.takeWhile (· ≠ SLASH) <+: (full_path s path).reverse := List.takeWhile_prefix _
      exact (List.reverse_prefix.1 (by rwa [List.reverse_reverse])).isInfix
    · rw [List.mem_reverse]
      intro hmem
      have := List.mem_takeWhile_imp hmem
      simp at this
  refine ⟨.inr hlen, ?_⟩
  unfold ensure_parent split_last
  rw [hnorm]
  dsimp only
  split_ifs with hdir
  · -- the text is one slash and the name
    rw [List.take_eq_nil_iff] at hdir
    rw [List.length_tail]
    rcases hdir with hdir | hdir
    · omega
    · rw [hdir]
      exact Nat.zero_lt_succ _
  · exact hleaf

end

/-- In every run the links from the root form a tree. -/
theorem tree_of_reach {s : St} (h : Reach s) : ∃ l, Tree s l := by
  obtain ⟨kids, hi⟩ := h.inv
  exact ⟨nodesOf kids, hi.tree⟩

/-- A run that removes a populated directory. -/
theorem tree_of_reach_unlink_etc : ∃ l, Tree (exec (vfs_init fun _ => true) (.unlink (str "/etc"))) l :=
  tree_of_reach (.step (.unlink (str "/etc")) (.init _) (.inl rfl))

end H3OS.Vfs
