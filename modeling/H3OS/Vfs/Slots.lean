import H3OS.Vfs.Calls
/-!
# Slots of the node table

`alloc_node` counts up and `vfs_unlink` gives nothing back: a new name can be
made exactly while fewer than 256 nodes were ever made, however few of them
are still in the tree.
-/
open SysLib

namespace H3OS.Vfs

/-- A path that names nothing yet in an existing directory. -/
structure NewName (s : St) (path : List UInt8) (d : NodePtr) (leaf : List UInt8) : Prop where
  fits : Fits s path
  place : ensure_parent s path = (some d, leaf)
  dir : (s.nodes d).type = .VFS_DIR
  regular : leaf ≠ [] ∧ leaf ≠ str "." ∧ leaf ≠ str ".."
  short : leaf.length < VFS_NAME_MAX
  new : ∀ c ∈ vfs_list s d, (s.nodes c).name ≠ leaf

section
variable {s : St} {kids : Kids} {d n : NodePtr} {path leaf : List UInt8}

theorem NewName.find_child (hi : Inv s kids) (h : NewName s path d leaf) : find_child s d leaf = none := by
  refine hi.find_child_none.2 (fun c hc => h.new c ?_)
  unfold vfs_list
  rw [if_neg (not_not.2 h.dir), hi.siblings d]
  exact hc

/-- Making a new name needs a slot that was never used. -/
theorem NewName.make_node_iff (hi : Inv s kids) (h : NewName s path d leaf) (type : vfs_type_t) (mode : Nat) :
    (make_node type s path mode).1 ≠ none ↔ s.node_count < VFS_MAX_NODES := by
  have hfit : (ensure_parent s path).2.length < VFS_NAME_MAX := by
    rw [h.place]
    exact h.short
  rcases hi.make_node_cases type mode hfit with ⟨hm, hfull⟩ | ⟨e, he, -, -, ⟨c, hc, -⟩ | ⟨-, m, hm, -, hnew⟩⟩
  · rw [h.place] at hfull
    have := hfull d rfl h.dir h.regular.1 (h.find_child hi)
    rw [hm]
    exact ⟨fun hne => absurd rfl hne, fun hlt => by omega⟩
  · rw [h.place] at he hc
    cases he
    rw [h.find_child hi] at hc
    cases hc
  · rw [hnew]
    have := m.isLt
    exact ⟨fun _ => by omega, fun _ => by simp⟩

/-! ## Making and removing -/

/-- Make a file below the root and remove it. -/
def churn (s : St) : St := exec (exec s (.create (str "/x") 0)) (.unlink (str "/x"))

/-- That costs a slot and leaves the tree without it. -/
theorem churn_keeps (hi : Inv s kids) (hnew : find_child s root (str "x") = none) (hroom : s.node_count < VFS_MAX_NODES) :
    ∃ kids', Inv (churn s) kids' ∧ find_child (churn s) root (str "x") = none ∧
      (churn s).node_count = s.node_count + 1 ∧ ∀ n : NodePtr, n.val = s.node_count → ¬ Live kids' n := by
  have hplace : ensure_parent s (str "/x") = (some root, str "x") := rfl
  have hfit : (ensure_parent s (str "/x")).2.length < VFS_NAME_MAX := by
    rw [hplace]
    decide
  rcases hi.make_node_cases .VFS_FILE 0 hfit with ⟨-, hfull⟩ | ⟨d, hd, -, -, ⟨c, hc, -⟩ | ⟨-, n, hn, hdn, hmade⟩⟩
  · rw [hplace] at hfull
    have := hfull root rfl hi.root_node.2.2 (by decide) hnew
    omega
  · rw [hplace] at hd hc
    cases hd
    rw [hnew] at hc
    cases hc
  · -- the new node is the root's first kid, and unlinking takes it out again
    rw [hplace] at hd hmade
    cases hd
    have hi₁ : Inv (linked s root n (str "x") .VFS_FILE 0) (Function.update kids root (n :: kids root)) :=
      hi.link hn (hn ▸ hi.count.1) hi.root_node.2.2 (by decide) (hi.find_child_none.1 hnew)
    have hmem : n ∈ Function.update kids root (n :: kids root) root := by simp
    have hname : ((linked s root n (str "x") .VFS_FILE 0).nodes n).name = str "x" := by rw [linked_new hdn]
    have hres : vfs_resolve (linked s root n (str "x") .VFS_FILE 0) (str "/x") = some n := by
      rw [resolve_eq]
      exact (walk_single _ _ _).trans (hi₁.find_child_some.2 ⟨hmem, hname⟩)
    have hcreate : exec s (.create (str "/x") 0) = linked s root n (str "x") .VFS_FILE 0 := by
      rw [exec, vfs_create, hmade]
    have hunlink : churn s = unlinked (linked s root n (str "x") .VFS_FILE 0) root n := by
      rw [churn, hcreate, exec]
      rcases hi₁.vfs_unlink_cases (str "/x") with ⟨-, hroot⟩ | ⟨m, p, hm, hmp, h⟩
      · exact absurd (hroot n hres).symm hdn
      · rw [hres] at hm
        cases hm
        cases Option.some.inj ((hi₁.parent p n hmp).symm.trans (hi₁.parent root n hmem))
        rw [h]
    rw [hunlink]
    refine ⟨_, hi₁.unlink hmem, ?_, (hi₁.unthreaded hmem).count, fun m hm hlive => ?_⟩
    · refine (hi₁.unlink hmem).find_child_none.2 (fun c hc => ?_)
      obtain ⟨hc, hcn⟩ := (hi₁.mem_without hmem).1 hc
      rw [hi₁.unlinked_name hmem hcn]
      intro heq
      exact hcn (List.inj_on_of_nodup_map (hi₁.names root) hc hmem (heq.trans hname.symm))
    · cases Fin.ext (hm.trans hn.symm)
      cases hlive with
      | top => exact hdn rfl
      | kid _ hc => exact ((hi₁.mem_without hmem).1 hc).2 rfl

theorem reach_churn (h : Reach s) : Reach (churn s) := by
  refine .step (.unlink (str "/x")) (.step (.create (str "/x") 0) h ⟨.inl rfl, ?_⟩) (.inl rfl)
  have hplace : ensure_parent s (str "/x") = (some root, str "x") := rfl
  rw [hplace]
  decide

/-- Making and removing goes on until every slot is used, whatever is in the tree. -/
theorem churn_to_full (h : Reach s) (hnew : find_child s root (str "x") = none) (hroom : s.node_count < VFS_MAX_NODES) :
    ∃ s' kids', Reach s' ∧ Inv s' kids' ∧ find_child s' root (str "x") = none ∧ s'.node_count = VFS_MAX_NODES ∧
      ¬ Live kids' ⟨255, by decide⟩ := by
  -- each turn uses up one of the slots that are left
  induction hk : VFS_MAX_NODES - s.node_count generalizing s with
  | zero => omega
  | succ k ih =>
    obtain ⟨kids, hi⟩ := h.inv
    obtain ⟨kids', hi', hnew', hcount, hdead⟩ := churn_keeps hi hnew hroom
    by_cases hlast : s.node_count + 1 = VFS_MAX_NODES
    · refine ⟨churn s, kids', reach_churn h, hi', hnew', hcount.trans hlast, hdead _ ?_⟩
      unfold VFS_MAX_NODES at hlast
      dsimp only
      omega
    · exact ih (reach_churn h) hnew' (by omega) (by omega)

/-- A table whose last slot is not in the tree has fewer nodes than slots in it. -/
theorem Inv.few (hi : Inv s kids) (h : ¬ Live kids n) : (nodesOf kids).length < VFS_MAX_NODES := by
  rw [live_iff_mem hi] at h
  rw [← List.toFinset_card_of_nodup hi.tree.once]
  have hlt := Finset.card_lt_univ_of_notMem (s := (nodesOf kids).toFinset) (x := n) (by simpa using h)
  simpa using hlt

end

/-- While fewer nodes than slots are in the tree, the path can be made. -/
def Makeable (s : St) (path : List UInt8) (mode : Nat) : Prop :=
  (∃ l, Tree s l ∧ l.length < VFS_MAX_NODES) → (vfs_mkdir s path mode).1 ≠ none ∧ (vfs_create s path mode).1 ≠ none

/-- A new name can be made exactly while fewer nodes than slots were ever made; a tree of all slots asks for nothing. -/
theorem new_name_iff {s : St} (h : Reach s) {path leaf : List UInt8} {d : NodePtr} (hnew : NewName s path d leaf)
    (mode : Nat) :
    Makeable s path mode ↔ s.node_count < VFS_MAX_NODES ∨ ∀ l, Tree s l → VFS_MAX_NODES ≤ l.length := by
  obtain ⟨kids, hi⟩ := h.inv
  have hdir := hnew.make_node_iff hi .VFS_DIR mode
  have hfile := hnew.make_node_iff hi .VFS_FILE mode
  constructor
  · intro hm
    by_cases hfew : ∃ l, Tree s l ∧ l.length < VFS_MAX_NODES
    · exact .inl (hdir.1 (hm hfew).1)
    · push Not at hfew
      exact .inr hfew
  · rintro (hlt | hall) ⟨l, hl, hlen⟩
    · exact ⟨hdir.2 hlt, hfile.2 hlt⟩
    · exact absurd (hall l hl) (not_le.2 hlen)

theorem newName_tmp : NewName (vfs_init fun _ => true) (str "/tmp/x") ⟨5, by decide⟩ (str "x") :=
  ⟨.inl rfl, by decide +kernel, by decide +kernel, by decide, by decide, by decide +kernel⟩

theorem new_name_iff_tmp : Makeable (vfs_init fun _ => true) (str "/tmp/x") 0o644 :=
  (new_name_iff (.init _) newName_tmp 0o644).2 (.inl (by decide +kernel))

/-- After enough files were made and removed, the almost empty table is full. -/
theorem removed_slots_not_reused :
    ¬ ∀ s, Reach s → ∀ path d leaf, NewName s path d leaf → ∀ mode, Makeable s path mode := by
  intro h
  have hstart : find_child (vfs_init fun _ => true) root (str "x") = none := by decide +kernel
  obtain ⟨s, kids, hr, hi, hnew, hfull, hdead⟩ := churn_to_full (.init fun _ => true) hstart (by decide +kernel)
  have hname : NewName s (str "/x") root (str "x") := by
    refine ⟨.inl rfl, rfl, hi.root_node.2.2, by decide, by decide, fun c hc => hi.find_child_none.1 hnew c ?_⟩
    unfold vfs_list at hc
    rwa [if_neg (not_not.2 hi.root_node.2.2), hi.siblings root] at hc
  have hmake := (h s hr _ _ _ hname 0 ⟨nodesOf kids, hi.tree, hi.few hdead⟩).1
  have hlt := (hname.make_node_iff hi .VFS_DIR 0).1 hmake
  omega

end H3OS.Vfs
