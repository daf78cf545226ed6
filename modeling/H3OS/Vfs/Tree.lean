import H3OS.Vfs.Model
import H3OS.Lib.Forest
/-!
# The tree of nodes

`Inv s kids`: the sibling list of every node, in the tree or not, is finite
and `kids` names it; kids point back to their node and come later in the
table, so the links cannot go round. Linking a new node and unlinking one are
the only changes, and both keep it.
-/
open SysLib

namespace H3OS.Vfs

/-- The link along a sibling list. -/
abbrev St.sib (s : St) (c : NodePtr) : Option NodePtr := (s.nodes c).sibling

abbrev Kids := NodePtr → List NodePtr

structure Inv (s : St) (kids : Kids) : Prop where
  chain : ∀ d, Chain s.sib (s.nodes d).child (kids d)
  parent : ∀ d, ∀ c ∈ kids d, (s.nodes c).parent = some d
  up : ∀ n p, (s.nodes n).parent = some p → p.val < n.val
  named : ∀ d, ∀ c ∈ kids d, (s.nodes c).name ≠ []
  names : ∀ d, ((kids d).map (fun c => (s.nodes c).name)).Nodup
  dirs : ∀ d, kids d ≠ [] → (s.nodes d).type = .VFS_DIR
  root_node : (s.nodes root).parent = none ∧ (s.nodes root).sibling = none ∧ (s.nodes root).type = .VFS_DIR
  used : ∀ n, s.node_count ≤ n.val → (s.nodes n).child = none ∧ (s.nodes n).parent = none
  count : 0 < s.node_count ∧ s.node_count ≤ VFS_MAX_NODES
  sizes : ∀ n, ((s.nodes n).data.getD []).length = (s.nodes n).size

section
variable {s : St} {kids : Kids} {d c n : NodePtr}

theorem Inv.nodup (hi : Inv s kids) (d : NodePtr) : (kids d).Nodup := (hi.chain d).nodup

theorem Inv.kid_lt (hi : Inv s kids) (hc : c ∈ kids d) : d.val < c.val := hi.up c d (hi.parent d c hc)

theorem Inv.kid_ne_root (hi : Inv s kids) (hc : c ∈ kids d) : c ≠ root := by
  rintro rfl
  exact absurd (hi.kid_lt hc) (Nat.not_lt_zero _)

/-- A node that is not allocated yet is in no list. -/
theorem Inv.kid_used (hi : Inv s kids) (hc : c ∈ kids d) : c.val < s.node_count := by
  by_contra h
  have hp := hi.parent d c hc
  rw [(hi.used c (by omega)).2] at hp
  cases hp

theorem siblings_chain {p : Option NodePtr} {l : List NodePtr} {fuel : Nat} (h : Chain s.sib p l) (hf : l.length ≤ fuel) :
    siblings s fuel p = l := by
  induction l generalizing p fuel with
  | nil =>
    rw [chain_nil.1 h]
    cases fuel <;> rfl
  | cons c l ih =>
    obtain ⟨rfl, hl⟩ := chain_cons.1 h
    cases fuel with
    | zero => simp at hf
    | succ fuel => rw [siblings, ih hl (by simpa using hf)]

/-- The table is fuel enough for every sibling list. -/
theorem Inv.siblings (hi : Inv s kids) (d : NodePtr) : siblings s VFS_MAX_NODES (s.nodes d).child = kids d := by
  refine siblings_chain (hi.chain d) ?_
  have h := (hi.nodup d).length_le_card
  simpa using h

/-- Looking a name up finds the one kid that has it. -/
theorem Inv.find_child_some (hi : Inv s kids) {name : List UInt8} :
    find_child s d name = some c ↔ c ∈ kids d ∧ (s.nodes c).name = name := by
  unfold find_child
  rw [hi.siblings d]
  constructor
  · intro h
    exact ⟨List.mem_of_find?_eq_some h, by simpa using List.find?_some h⟩
  · rintro ⟨hc, hn⟩
    cases hf : (kids d).find? (fun c => (s.nodes c).name = name) with
    | none => exact absurd hn (by simpa using List.find?_eq_none.1 hf c hc)
    | some b =>
      have hb : (s.nodes b).name = name := by simpa using List.find?_some hf
      have heq := List.inj_on_of_nodup_map (hi.names d) (List.mem_of_find?_eq_some hf) hc (hb.trans hn.symm)
      rw [heq]

theorem Inv.find_child_none (hi : Inv s kids) {name : List UInt8} :
    find_child s d name = none ↔ ∀ c ∈ kids d, (s.nodes c).name ≠ name := by
  constructor
  · intro h c hc hn
    rw [hi.find_child_some.2 ⟨hc, hn⟩] at h
    cases h
  · intro h
    cases hf : find_child s d name with
    | none => rfl
    | some c =>
      obtain ⟨hc, hn⟩ := hi.find_child_some.1 hf
      exact absurd hn (h c hc)

/-! ## What the links from the root visit -/

theorem visits_kids {fuel : Nat} {p : Option NodePtr} {l : List NodePtr} (h : Chain s.sib p l)
    (hv : ∀ c ∈ l, Visits s (s.nodes c).child ((kids c).flatMap (preorder kids fuel))) :
    Visits s p (l.flatMap (preorder kids (fuel + 1))) := by
  induction l generalizing p with
  | nil =>
    rw [chain_nil.1 h]
    exact .none
  | cons c l ih =>
    obtain ⟨rfl, hl⟩ := chain_cons.1 h
    rw [List.flatMap_cons]
    exact .node (hv c (by simp)) (ih hl (fun b hb => hv b (by simp [hb])))

theorem Inv.visits (hi : Inv s kids) (fuel : Nat) (d : NodePtr) (hf : VFS_MAX_NODES ≤ d.val + 1 + fuel) :
    Visits s (s.nodes d).child ((kids d).flatMap (preorder kids fuel)) := by
  induction fuel generalizing d with
  | zero =>
    -- the last node of the table has no kids
    have hnil : kids d = [] := by
      refine List.eq_nil_iff_forall_not_mem.2 (fun c hc => ?_)
      have := hi.kid_lt hc
      have := c.isLt
      omega
    have hc := hi.chain d
    rw [hnil, chain_nil] at hc
    rw [hnil, hc]
    exact .none
  | succ fuel ih =>
    refine visits_kids (hi.chain d) (fun c hc => ih c ?_)
    have := hi.kid_lt hc
    omega

/-- The nodes of the tree, in preorder. -/
def nodesOf (kids : Kids) : List NodePtr := preorder kids VFS_MAX_NODES root

theorem Inv.tree (hi : Inv s kids) : Tree s (nodesOf kids) where
  visits := by
    have h := Visits.node (hi.visits 255 root (by decide)) (hi.root_node.2.1 ▸ Visits.none)
    rw [List.append_nil] at h
    exact h
  once := preorder_nodup hi.parent hi.up VFS_MAX_NODES root hi.nodup
  root_parent := hi.root_node.1
  dirs d hd := by
    refine ⟨kids d, hi.chain d, fun c hc => ⟨?_, hi.parent d c hc, hi.named d c hc⟩, hi.names d, fun hf => ?_⟩
    · exact preorder_kids hi.parent hi.up (fun _ c _ => c.isLt) (Nat.le_add_left _ _) hd hc
    · by_contra hne
      rw [hi.dirs d hne] at hf
      cases hf

/-! ## Changing contents -/

/-- What the tree is made of: everything but mode and contents. -/
def shape (v : vfs_node_t) : vfs_node_t := { v with mode := 0, size := 0, data := none }

/-- The same nodes with the same links, names and types. -/
structure SameTree (s s' : St) : Prop where
  shapes : ∀ n, shape (s'.nodes n) = shape (s.nodes n)
  count : s'.node_count = s.node_count

section
variable {s' : St} (h : SameTree s s') (n : NodePtr)
include h

theorem SameTree.name : (s'.nodes n).name = (s.nodes n).name := by
  have e := congrArg vfs_node_t.name (h.shapes n)
  exact e

theorem SameTree.type : (s'.nodes n).type = (s.nodes n).type := by
  have e := congrArg vfs_node_t.type (h.shapes n)
  exact e

theorem SameTree.parent : (s'.nodes n).parent = (s.nodes n).parent := by
  have e := congrArg vfs_node_t.parent (h.shapes n)
  exact e

theorem SameTree.child : (s'.nodes n).child = (s.nodes n).child := by
  have e := congrArg vfs_node_t.child (h.shapes n)
  exact e

theorem SameTree.sibling : (s'.nodes n).sibling = (s.nodes n).sibling := by
  have e := congrArg vfs_node_t.sibling (h.shapes n)
  exact e

end

theorem SameTree.inv {s' : St} (h : SameTree s s') (hi : Inv s kids)
    (hs : ∀ n, ((s'.nodes n).data.getD []).length = (s'.nodes n).size) : Inv s' kids where
  chain d := by
    rw [h.child]
    exact (hi.chain d).congr (fun c _ => h.sibling c)
  parent d c hc := by rw [h.parent]; exact hi.parent d c hc
  up n p hp := hi.up n p (h.parent n ▸ hp)
  named d c hc := by rw [h.name]; exact hi.named d c hc
  names d := by
    simp only [h.name]
    exact hi.names d
  dirs d hd := by rw [h.type]; exact hi.dirs d hd
  root_node := by rw [h.parent, h.sibling, h.type]; exact hi.root_node
  used n hn := by
    rw [h.child, h.parent]
    exact hi.used n (h.count ▸ hn)
  count := by rw [h.count]; exact hi.count
  sizes := hs

theorem set_same (s : St) (n : NodePtr) (v : vfs_node_t) : (s.set n v).nodes n = v := by
  simp [St.set]

theorem set_other (s : St) {m n : NodePtr} (v : vfs_node_t) (h : m ≠ n) : (s.set n v).nodes m = s.nodes m := by
  simp [St.set, h]

/-- Writing a file's bytes. -/
theorem sameTree_write (s : St) (n : NodePtr) (buf : List UInt8) :
    SameTree s (s.set n { s.nodes n with data := some buf, size := buf.length }) := by
  refine ⟨fun m => ?_, rfl⟩
  by_cases hm : m = n
  · rw [hm, set_same]
    rfl
  · rw [set_other s _ hm]

theorem Inv.write (hi : Inv s kids) (n : NodePtr) (buf : List UInt8) :
    Inv (s.set n { s.nodes n with data := some buf, size := buf.length }) kids := by
  refine (sameTree_write s n buf).inv hi (fun m => ?_)
  by_cases hm : m = n
  · rw [hm, set_same]
    rfl
  · rw [set_other s _ hm]
    exact hi.sizes m

/-! ## Linking a new node -/

/-- `alloc_node` and `link_child` together. -/
def linked (s : St) (d n : NodePtr) (leaf : List UInt8) (type : vfs_type_t) (mode : Nat) : St :=
  { (s.set n ⟨leaf, type, mode, 0, none, some d, none, (s.nodes d).child⟩).setChild d (some n) with
    node_count := s.node_count + 1 }

section
variable {leaf : List UInt8} {type : vfs_type_t} {mode : Nat}

theorem linked_new (hdn : d ≠ n) :
    (linked s d n leaf type mode).nodes n = ⟨leaf, type, mode, 0, none, some d, none, (s.nodes d).child⟩ := by
  refine (set_other _ _ (Ne.symm hdn)).trans ?_
  exact set_same _ _ _

theorem linked_dir (hdn : d ≠ n) : (linked s d n leaf type mode).nodes d = { s.nodes d with child := some n } := by
  refine (set_same _ _ _).trans ?_
  rw [set_other s _ hdn]

theorem linked_other {m : NodePtr} (hn : m ≠ n) (hd : m ≠ d) : (linked s d n leaf type mode).nodes m = s.nodes m := by
  refine (set_other _ _ hd).trans ?_
  exact set_other _ _ hn

/-- Every node but the new one keeps all but its child. -/
theorem linked_old {m : NodePtr} (hdn : d ≠ n) (hm : m ≠ n) :
    (linked s d n leaf type mode).nodes m = { s.nodes m with child := if m = d then some n else (s.nodes m).child } := by
  by_cases hd : m = d
  · rw [hd, linked_dir hdn, if_pos rfl]
  · rw [linked_other hm hd, if_neg hd]

/-- A kid is the new node, or was one before. -/
theorem mem_put {e : NodePtr} (hc : c ∈ Function.update kids d (n :: kids d) e) : (c = n ∧ e = d) ∨ c ∈ kids e := by
  by_cases he : e = d
  · rw [he, Function.update_self, List.mem_cons] at hc
    rcases hc with hc | hc
    · exact .inl ⟨hc, he⟩
    · exact .inr (he ▸ hc)
  · rw [Function.update_of_ne he] at hc
    exact .inr hc

section
variable {e : NodePtr} (hi : Inv s kids) (hn : n.val = s.node_count)
include hi hn

/-- The next slot of the table is nobody's kid. -/
theorem Inv.kid_ne_next (hc : c ∈ kids e) : c ≠ n := by
  rintro rfl
  have := hi.kid_used hc
  omega

theorem Inv.next_kids : kids n = [] := by
  have hc := hi.chain n
  rw [(hi.used n hn.ge).1] at hc
  exact Chain.unique hc rfl

theorem Inv.linked_kid (hne : d ≠ n) (hc : c ∈ kids e) : (linked s d n leaf type mode).nodes c =
    { s.nodes c with child := if c = d then some n else (s.nodes c).child } := linked_old hne (hi.kid_ne_next hn hc)

/-- The new node stands in front of the kids of `d`; the other lists are as they were. -/
theorem Inv.linked_chain (hne : d ≠ n) (e : NodePtr) : Chain (linked s d n leaf type mode).sib
    ((linked s d n leaf type mode).nodes e).child (Function.update kids d (n :: kids d) e) := by
  have hsib : ∀ e, ∀ c ∈ kids e, (linked s d n leaf type mode).sib c = s.sib c := by
    intro e c hc
    unfold St.sib
    rw [hi.linked_kid hn hne hc]
  by_cases he : e = d
  · rw [he, Function.update_self, linked_dir hne]
    refine ⟨rfl, ?_⟩
    unfold St.sib
    rw [linked_new hne]
    exact (hi.chain d).congr (hsib d)
  · rw [Function.update_of_ne he]
    by_cases hen : e = n
    · rw [hen, hi.next_kids hn, linked_new hne]
      rfl
    · rw [linked_other hen he]
      exact (hi.chain e).congr (hsib e)

theorem Inv.linked_names (hne : d ≠ n) (hfresh : ∀ c ∈ kids d, (s.nodes c).name ≠ leaf) (e : NodePtr) :
    ((Function.update kids d (n :: kids d) e).map (fun c => ((linked s d n leaf type mode).nodes c).name)).Nodup := by
  have hmap : ∀ e, (kids e).map (fun c => ((linked s d n leaf type mode).nodes c).name) =
      (kids e).map (fun c => (s.nodes c).name) := by
    intro e
    refine List.map_congr_left (fun c hc => ?_)
    rw [hi.linked_kid hn hne hc]
  by_cases he : e = d
  · rw [he, Function.update_self, List.map_cons, linked_new hne, hmap]
    refine List.nodup_cons.2 ⟨fun h => ?_, hi.names d⟩
    obtain ⟨c, hc, hcn⟩ := List.mem_map.1 h
    exact hfresh c hc hcn
  · rw [Function.update_of_ne he, hmap]
    exact hi.names e

theorem Inv.link (hdn : d.val < n.val) (hd : (s.nodes d).type = .VFS_DIR) (hleaf : leaf ≠ [])
    (hfresh : ∀ c ∈ kids d, (s.nodes c).name ≠ leaf) :
    Inv (linked s d n leaf type mode) (Function.update kids d (n :: kids d)) := by
  have hne : d ≠ n := by
    rintro rfl
    omega
  exact {
    chain := hi.linked_chain hn hne
    parent := by
      intro e c hc
      rcases mem_put hc with ⟨rfl, rfl⟩ | hc
      · rw [linked_new hne]
      · rw [hi.linked_kid hn hne hc]
        exact hi.parent e c hc
    up := by
      -- the new node comes after every other, `d` among them
      intro m p hp
      by_cases hm : m = n
      · rw [hm, linked_new hne] at hp
        cases hp
        rw [hm]
        exact hdn
      · rw [linked_old hne hm] at hp
        exact hi.up m p hp
    named := by
      intro e c hc
      rcases mem_put hc with ⟨rfl, rfl⟩ | hc
      · rw [linked_new hne]
        exact hleaf
      · rw [hi.linked_kid hn hne hc]
        exact hi.named e c hc
    names := hi.linked_names hn hne hfresh
    dirs := by
      intro e he
      by_cases hed : e = d
      · rw [hed, linked_dir hne]
        exact hd
      · rw [Function.update_of_ne hed] at he
        have hen : e ≠ n := by
          rintro rfl
          exact he (hi.next_kids hn)
        rw [linked_other hen hed]
        exact hi.dirs e he
    root_node := by
      have hroot : root ≠ n := by
        rintro rfl
        exact absurd hdn (Nat.not_lt_zero _)
      rw [linked_old hne hroot]
      exact hi.root_node
    used := by
      intro m hm
      have hm' : s.node_count + 1 ≤ m.val := hm
      have hmn : m ≠ n := by
        rintro rfl
        omega
      have hmd : m ≠ d := by
        rintro rfl
        omega
      rw [linked_other hmn hmd]
      exact hi.used m (by omega)
    count := by
      have hlt := n.isLt
      exact ⟨Nat.succ_pos _, by simp only [linked]; omega⟩
    sizes := by
      intro m
      by_cases hm : m = n
      · rw [hm, linked_new hne]
        rfl
      · rw [linked_old hne hm]
        exact hi.sizes m }

end

end

/-! ## Unlinking a node -/

/-- A node without its links to child and sibling. -/
def unthread (v : vfs_node_t) : vfs_node_t := { v with child := none, sibling := none }

theorem unthread_setChild (s : St) (n m : NodePtr) (v : Option NodePtr) :
    unthread ((s.setChild n v).nodes m) = unthread (s.nodes m) := by
  unfold St.setChild
  by_cases h : m = n
  · rw [h, set_same]
    rfl
  · rw [set_other s _ h]

theorem unthread_setSibling (s : St) (n m : NodePtr) (v : Option NodePtr) :
    unthread ((s.setSibling n v).nodes m) = unthread (s.nodes m) := by
  unfold St.setSibling
  by_cases h : m = n
  · rw [h, set_same]
    rfl
  · rw [set_other s _ h]

theorem unthread_data {v w : vfs_node_t} (h : unthread v = unthread w) : v.data = w.data ∧ v.size = w.size := by
  have hdata := congrArg vfs_node_t.data h
  have hsize := congrArg vfs_node_t.size h
  exact ⟨hdata, hsize⟩

theorem bytes_of_unthread {s s' : St} {m : NodePtr} (h : unthread (s'.nodes m) = unthread (s.nodes m)) :
    s'.bytes m = s.bytes m := by
  obtain ⟨hdata, hsize⟩ := unthread_data h
  unfold St.bytes
  rw [hdata, hsize]

/-- The kids of `p` without `n`. -/
def without (kids : Kids) (p n : NodePtr) : Kids := Function.update kids p ((kids p).filter (· ≠ n))

theorem without_sublist (kids : Kids) (p n e : NodePtr) : (without kids p n e).Sublist (kids e) := by
  unfold without
  by_cases he : e = p
  · rw [he, Function.update_self]
    exact List.filter_sublist
  · rw [Function.update_of_ne he]

theorem filter_ne_of_not_mem {l : List NodePtr} (h : n ∉ l) : l.filter (· ≠ n) = l := by
  refine List.filter_eq_self.2 (fun c hc => ?_)
  simp only [ne_eq, decide_not, Bool.not_eq_eq_eq_not, Bool.not_true, decide_eq_false_iff_not]
  rintro rfl
  exact h hc

/-- Only the link to `n` is changed, and to what is behind it. -/
structure Unthreaded (s : St) (kids : Kids) (p n : NodePtr) (s' : St) : Prop where
  kept : ∀ m, unthread (s'.nodes m) = unthread (s.nodes m)
  child : ∀ e, e ≠ p → (s'.nodes e).child = (s.nodes e).child
  sib : ∀ m, m ∉ kids p → s'.sib m = s.sib m
  chain : Chain s'.sib (s'.nodes p).child ((kids p).filter (· ≠ n))
  count : s'.node_count = s.node_count
  cwd : s'.cwd = s.cwd

theorem sib_setChild (s : St) (p m : NodePtr) (v : Option NodePtr) : (s.setChild p v).sib m = s.sib m := by
  unfold St.sib St.setChild
  by_cases hm : m = p
  · rw [hm, set_same]
  · rw [set_other s _ hm]

theorem child_setSibling (s : St) (c m : NodePtr) (v : Option NodePtr) :
    ((s.setSibling c v).nodes m).child = (s.nodes m).child := by
  unfold St.setSibling
  by_cases hm : m = c
  · rw [hm, set_same]
  · rw [set_other s _ hm]

theorem sib_setSibling_same (s : St) (c : NodePtr) (v : Option NodePtr) : (s.setSibling c v).sib c = v := by
  unfold St.sib St.setSibling
  rw [set_same]

theorem sib_setSibling_other (s : St) {c m : NodePtr} (v : Option NodePtr) (h : m ≠ c) :
    (s.setSibling c v).sib m = s.sib m := by
  unfold St.sib St.setSibling
  rw [set_other s _ h]

/-- The walk to the node before `n` finds it. -/
theorem find_prev_eq {q : Option NodePtr} {l₁ l₂ : List NodePtr} (h : Chain s.sib q (l₁ ++ c :: n :: l₂)) :
    find_prev s n (l₁ ++ c :: n :: l₂) = some c := by
  have hnd := h.nodup
  obtain ⟨r, hseg, rfl, hc⟩ := seg_append.1 h
  refine List.find?_eq_some_iff_append.2 ⟨?_, l₁, n :: l₂, rfl, fun x hx => ?_⟩
  · simpa using hc.1
  · -- an earlier node is followed by one that is not `n`
    obtain ⟨a, b, rfl⟩ := List.append_of_mem hx
    obtain ⟨r, -, rfl, hb⟩ := seg_append.1 hseg
    have hne : s.sib x ≠ some n := by
      intro hxn
      have hmem : n ∈ b ++ [c] := by
        cases b with
        | nil =>
          rw [hxn, seg_nil] at hb
          simp [Option.some.inj hb]
        | cons y b =>
          rw [hxn] at hb
          simp [Option.some.inj hb.1]
      rw [show a ++ x :: b ++ c :: n :: l₂ = (a ++ [x]) ++ ((b ++ [c]) ++ n :: l₂) by simp] at hnd
      exact (List.nodup_append.1 (List.nodup_append.1 hnd).2.1).2.2 n hmem n (by simp) rfl
    simpa using hne

theorem Inv.unthreaded {p : NodePtr} (hi : Inv s kids) (hn : n ∈ kids p) :
    Unthreaded s kids p n (unlink_child s p n) := by
  unfold Vfs.unlink_child
  have hnd := hi.nodup p
  have hchain := hi.chain p
  by_cases hfirst : (s.nodes p).child = some n
  · rw [if_pos hfirst]
    refine ⟨fun m => unthread_setChild s p m _, fun e he => ?_, fun m _ => sib_setChild s p m _, ?_, rfl, rfl⟩
    · unfold St.setChild
      rw [set_other s _ he]
    · rw [hfirst] at hchain
      rcases hk : kids p with _ | ⟨c, l⟩
      · rw [hk] at hn
        cases hn
      · rw [hk] at hchain hnd
        obtain ⟨hc, hl⟩ := chain_cons.1 hchain
        cases hc
        rw [List.filter_cons_of_neg (by simp), filter_ne_of_not_mem (List.nodup_cons.1 hnd).1]
        unfold St.setChild
        rw [set_same]
        exact hl.congr (fun m _ => sib_setChild s p m _)
  · obtain ⟨l, l₂, hk⟩ := List.append_of_mem hn
    rcases List.eq_nil_or_concat l with rfl | ⟨l₁, c, rfl⟩
    · rw [hk] at hchain
      exact absurd hchain.1 hfirst
    rw [List.concat_eq_append, List.append_assoc, List.singleton_append] at hk
    rw [if_neg hfirst, hi.siblings p]
    rw [hk] at hchain hnd
    rw [hk, find_prev_eq hchain]
    have hcn : c ≠ n := by
      rintro rfl
      simp [List.nodup_append] at hnd
    have hc1 : ∀ m ∈ l₁, m ≠ c := by
      rintro m hm rfl
      exact (List.nodup_append.1 hnd).2.2 m hm m (by simp) rfl
    have hc2 : ∀ m ∈ l₂, m ≠ c := by
      rintro m hm rfl
      exact (List.nodup_cons.1 (List.nodup_append.1 hnd).2.1).1 (by simp [hm])
    have hn1 : n ∉ l₁ := fun hm => (List.nodup_append.1 hnd).2.2 n hm n (by simp) rfl
    have hn2 : n ∉ l₂ := (List.nodup_cons.1 (List.nodup_cons.1 (List.nodup_append.1 hnd).2.1).2).1
    obtain ⟨r, hseg, rfl, hcn', hrest⟩ := seg_append.1 hchain
    refine ⟨fun m => unthread_setSibling s c m _, fun e _ => child_setSibling s c e _, fun m hm => ?_, ?_, rfl, rfl⟩
    · refine sib_setSibling_other s _ ?_
      rintro rfl
      exact hm (by simp [hk])
    · rw [hk, List.filter_append, List.filter_cons_of_pos (by simpa using hcn), List.filter_cons_of_neg (by simp),
        filter_ne_of_not_mem hn1, filter_ne_of_not_mem hn2, child_setSibling]
      refine seg_append.2 ⟨some c, hseg.congr (fun m hm => sib_setSibling_other s _ (hc1 m hm)), rfl, ?_⟩
      rw [sib_setSibling_same]
      exact hrest.congr (fun m hm => sib_setSibling_other s _ (hc2 m hm))

/-- `vfs_unlink` behind its checks. -/
def unlinked (s : St) (p n : NodePtr) : St :=
  (unlink_child s p n).set n { (unlink_child s p n).nodes n with data := none, size := 0, name := [] }

theorem unlinked_self (s : St) (p n : NodePtr) :
    (unlinked s p n).nodes n = { (unlink_child s p n).nodes n with data := none, size := 0, name := [] } := set_same _ _ _

theorem unlinked_sib (s : St) (p n m : NodePtr) : (unlinked s p n).sib m = (unlink_child s p n).sib m := by
  unfold unlinked St.sib
  by_cases hm : m = n
  · rw [hm, set_same]
  · rw [set_other _ _ hm]

theorem unlinked_child (s : St) (p n m : NodePtr) :
    ((unlinked s p n).nodes m).child = ((unlink_child s p n).nodes m).child := by
  unfold unlinked
  by_cases hm : m = n
  · rw [hm, set_same]
  · rw [set_other _ _ hm]

section
variable {p m : NodePtr} (hi : Inv s kids) (hn : n ∈ kids p)
include hi hn

/-- Every other node keeps all but its links to child and sibling. -/
theorem Inv.unlinked_kept (hm : m ≠ n) : unthread ((unlinked s p n).nodes m) = unthread (s.nodes m) := by
  unfold unlinked
  rw [set_other _ _ hm]
  exact (hi.unthreaded hn).kept m

theorem Inv.unlinked_parent : ((unlinked s p n).nodes m).parent = (s.nodes m).parent := by
  have hk := congrArg vfs_node_t.parent ((hi.unthreaded hn).kept m)
  unfold unlinked
  by_cases hm : m = n
  · rw [hm, set_same]
    exact hm ▸ hk
  · rw [set_other _ _ hm]
    exact hk

theorem Inv.unlinked_type : ((unlinked s p n).nodes m).type = (s.nodes m).type := by
  have hk := congrArg vfs_node_t.type ((hi.unthreaded hn).kept m)
  unfold unlinked
  by_cases hm : m = n
  · rw [hm, set_same]
    exact hm ▸ hk
  · rw [set_other _ _ hm]
    exact hk

theorem Inv.unlinked_name (hm : m ≠ n) : ((unlinked s p n).nodes m).name = (s.nodes m).name := by
  have e := congrArg vfs_node_t.name (hi.unlinked_kept hn hm)
  exact e

theorem Inv.mem_without {e c : NodePtr} : c ∈ without kids p n e ↔ c ∈ kids e ∧ c ≠ n := by
  unfold without
  by_cases he : e = p
  · rw [he, Function.update_self, List.mem_filter]
    simp
  · rw [Function.update_of_ne he]
    refine ⟨fun hc => ⟨hc, ?_⟩, fun hc => hc.1⟩
    -- `n` is in the list of one parent only
    rintro rfl
    exact he (Option.some.inj ((hi.parent e c hc).symm.trans (hi.parent p c hn)))

theorem Inv.unlinked_chain (e : NodePtr) :
    Chain (unlinked s p n).sib ((unlinked s p n).nodes e).child (without kids p n e) := by
  have hu := hi.unthreaded hn
  rw [unlinked_child]
  by_cases he : e = p
  · rw [he, without, Function.update_self]
    exact hu.chain.congr (fun m _ => unlinked_sib s p n m)
  · rw [without, Function.update_of_ne he, hu.child e he]
    refine (hi.chain e).congr (fun m hm => ?_)
    rw [unlinked_sib]
    -- the kids of another node are not those of `p`
    refine hu.sib m (fun hp => he ?_)
    exact Option.some.inj ((hi.parent e m hm).symm.trans (hi.parent p m hp))

theorem Inv.unlink : Inv (unlinked s p n) (without kids p n) := by
  have hu := hi.unthreaded hn
  have hmem : ∀ e, ∀ c ∈ without kids p n e, c ∈ kids e ∧ c ≠ n := fun e c hc => (hi.mem_without hn).1 hc
  exact {
    chain := hi.unlinked_chain hn
    parent := by
      intro e c hc
      rw [hi.unlinked_parent hn]
      exact hi.parent e c (hmem e c hc).1
    up := by
      intro m q hq
      rw [hi.unlinked_parent hn] at hq
      exact hi.up m q hq
    named := by
      intro e c hc
      rw [hi.unlinked_name hn (hmem e c hc).2]
      exact hi.named e c (hmem e c hc).1
    names := by
      intro e
      rw [List.map_congr_left (fun c hc => hi.unlinked_name hn (hmem e c hc).2)]
      exact (hi.names e).sublist ((without_sublist kids p n e).map _)
    dirs := by
      intro e he
      rw [hi.unlinked_type hn]
      obtain ⟨c, hc⟩ := List.exists_mem_of_ne_nil _ he
      exact hi.dirs e (List.ne_nil_of_mem (hmem e c hc).1)
    root_node := by
      rw [hi.unlinked_parent hn, hi.unlinked_type hn]
      refine ⟨hi.root_node.1, ?_, hi.root_node.2.2⟩
      have hsib := unlinked_sib s p n root
      rw [hu.sib root (fun h => hi.kid_ne_root h rfl)] at hsib
      exact hsib.trans hi.root_node.2.1
    used := by
      intro m hm
      have hm' : s.node_count ≤ m.val := hu.count ▸ hm
      have hold := hi.used m hm'
      rw [hi.unlinked_parent hn, unlinked_child]
      refine ⟨?_, hold.2⟩
      rw [hu.child m ?_]
      · exact hold.1
      · rintro rfl
        have := hi.kid_lt hn
        have := hi.kid_used hn
        omega
    count := by
      have hc : (unlinked s p n).node_count = s.node_count := hu.count
      rw [hc]
      exact hi.count
    sizes := by
      intro m
      by_cases hm : m = n
      · rw [hm, unlinked_self]
        rfl
      · obtain ⟨hdata, hsize⟩ := unthread_data (hi.unlinked_kept hn hm)
        rw [hdata, hsize]
        exact hi.sizes m }

end

end

end H3OS.Vfs
