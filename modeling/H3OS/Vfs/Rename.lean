import H3OS.Vfs.Unlink
/-!
# Renaming a file

`vfs_rename` is a copy and, when the copy returns 0, an unlink of the source.
The copy returns the number of bytes it wrote, so only an empty file (or one
of a multiple of 4 GiB) is ever unlinked. What each outcome leaves behind is
worked out from two facts: linking a node keeps every walk that succeeds, and
unlinking a file stops exactly the walks that pass it.
-/
open SysLib

namespace H3OS.Vfs

/-! ## Walks while the tree changes -/

/-- Every step that a walk in `s` can take from a node of the tree leads to the same node in `s'`. -/
def Extends (s : St) (kids : Kids) (s' : St) : Prop :=
  ∀ cur, Live kids cur → ∀ part c, step_into s cur part = some c → step_into s' cur part = some c

section
variable {s s' : St} {kids : Kids} {cur d n m p : NodePtr} {ps : List (List UInt8)}

theorem Extends.walk (h : Extends s kids s') (hi : Inv s kids) (hc : Live kids cur) (hw : walk s cur ps = some m) :
    walk s' cur ps = some m := by
  induction ps generalizing cur with
  | nil => exact hw
  | cons part ps ih =>
    rw [walk_cons] at hw ⊢
    obtain ⟨c, hs, hw⟩ := Option.bind_eq_some_iff.1 hw
    rw [h cur hc part c hs]
    exact ih (hc.step_into hi hs) hw

theorem Extends.trail_sub (h : Extends s kids s') (hi : Inv s kids) (hc : Live kids cur) (hm : m ∈ trail s cur ps) :
    m ∈ trail s' cur ps := by
  induction ps generalizing cur with
  | nil => exact hm
  | cons part ps ih =>
    rw [trail_cons] at hm ⊢
    cases hs : step_into s cur part with
    | none =>
      rw [hs] at hm
      cases List.mem_singleton.1 hm
      exact List.mem_cons_self
    | some c =>
      rw [hs] at hm
      rw [h cur hc part c hs]
      rcases List.mem_cons.1 hm with rfl | hm
      · exact List.mem_cons_self
      · exact List.mem_cons_of_mem _ (ih (hc.step_into hi hs) hm)

/-- A walk that succeeds passes the same nodes. -/
theorem Extends.trail_eq (h : Extends s kids s') (hi : Inv s kids) (hc : Live kids cur) (hw : Vfs.walk s cur ps = some m) :
    trail s' cur ps = trail s cur ps := by
  induction ps generalizing cur with
  | nil => rfl
  | cons part ps ih =>
    rw [walk_cons] at hw
    obtain ⟨c, hs, hw⟩ := Option.bind_eq_some_iff.1 hw
    rw [trail_cons, trail_cons, hs, h cur hc part c hs, Option.elim_some, Option.elim_some, ih (hc.step_into hi hs) hw]

/-- Linking a node only adds steps. -/
theorem Inv.extends_linked (hi : Inv s kids) {leaf : List UInt8} {type : vfs_type_t} {mode : Nat} {kids' : Kids}
    (hi' : Inv (linked s d n leaf type mode) kids') (hk : kids' = Function.update kids d (n :: kids d))
    (hdn : d ≠ n) (hn : n.val = s.node_count) : Extends s kids (linked s d n leaf type mode) := by
  have hold : ∀ m, Live kids m → m ≠ n := by
    rintro m hm rfl
    have := hm.used hi
    omega
  intro cur hc part c hs
  unfold Vfs.step_into at hs ⊢
  split_ifs at hs ⊢ with h1 h2 h3
  · exact hs
  · exact hs
  · rw [linked_old hdn (hold cur hc)]
    exact hs
  · obtain ⟨hmem, hname⟩ := hi.find_child_some.1 hs
    refine hi'.find_child_some.2 ⟨?_, ?_⟩
    · rw [hk]
      by_cases hcd : cur = d
      · rw [hcd, Function.update_self]
        exact List.mem_cons_of_mem _ (hcd ▸ hmem)
      · rwa [Function.update_of_ne hcd]
    · rw [linked_old hdn (hold c (.kid hc hmem))]
      exact hname

section
variable (hi : Inv s kids) (hn : n ∈ kids p)
include hi hn

/-- Every other node stays in the tree when a file is unlinked. -/
theorem Inv.live_unlinked (hleaf : kids n = []) (hm : Live kids m) (hmn : m ≠ n) : Live (without kids p n) m := by
  induction hm with
  | top => exact .top
  | @kid d c hd hc ih =>
    have hdn : d ≠ n := by
      rintro rfl
      rw [hleaf] at hc
      cases hc
    exact .kid (ih hdn) ((hi.mem_without hn).2 ⟨hc, hmn⟩)

end

end

/-! ## All or nothing -/

/-- A node that following the links from the root passes. -/
def OnTree (s : St) (m : NodePtr) : Prop := ∃ l, Tree s l ∧ m ∈ l

/-- The source has moved: `n` was its node. -/
def Renamed (s : St) (src dst : List UInt8) (n : NodePtr) (s' : St) : Prop :=
  ∃ d, vfs_resolve s' dst = some d ∧ (s'.nodes d).type = .VFS_FILE ∧ s'.bytes d = s.bytes n ∧
    (vfs_resolve s dst = some n → vfs_resolve s' src = some n ∧ s'.bytes n = s.bytes n) ∧
    (vfs_resolve s dst ≠ some n → vfs_resolve s' src = none) ∧
    ∀ m, OnTree s m → m ≠ n → m ≠ d → OnTree s' m ∧ unthread (s'.nodes m) = unthread (s.nodes m)

/-- Every path leads where it did and every file has the bytes it had. -/
def Untouched (s s' : St) : Prop :=
  (∀ path, vfs_resolve s' path = vfs_resolve s path) ∧
  ∀ m, OnTree s m → (s.nodes m).type = .VFS_FILE → s'.bytes m = s.bytes m

/-- A rename of the file `n` moves it or changes nothing, as its result says. -/
def RenameAtomic (s : St) (src dst : List UInt8) (mem : Bool) (n : NodePtr) : Prop :=
  ((vfs_rename s src dst mem).1 = 0 → Renamed s src dst n (vfs_rename s src dst mem).2) ∧
  ((vfs_rename s src dst mem).1 ≠ 0 → Untouched s (vfs_rename s src dst mem).2)

/-- The copy of `n` returns 0: it has nothing to write, or the length it returns is 0 in 32 bits. -/
def CopiesZero (s : St) (n : NodePtr) (mem : Bool) : Prop :=
  s.bytes n = [] ∨ mem = true ∧ (s.bytes n).length % 2 ^ 32 = 0

/-- The directory of the path is there, and the name is in it or there is a slot left. -/
def Makes (s : St) (path : List UInt8) : Prop :=
  ∃ d, (ensure_parent s path).1 = some d ∧ (s.nodes d).type = .VFS_DIR ∧
    (find_child s d (ensure_parent s path).2 ≠ none ∨ s.node_count < VFS_MAX_NODES)

/-- When a rename is all or nothing. -/
def RenameSafe (s : St) (dst : List UInt8) (mem : Bool) (n : NodePtr) : Prop :=
  -- the target can be neither found nor made
  ((ensure_parent s dst).2 = [] ∨ ¬ Makes s dst) ∨
  -- the source is unlinked: the path of the target keeps clear of it, and an empty source meets no old contents
  (CopiesZero s n mem ∧ n ∉ trail s root (parts (normalize_path s dst).tail) ∧
    (s.bytes n = [] → ∀ d, vfs_resolve s dst = some d → s.bytes d = [])) ∨
  -- the source stays: the target is there already, with the same bytes if they can be written
  (¬ CopiesZero s n mem ∧ ∃ d, vfs_resolve s dst = some d ∧ (mem = true → s.bytes d = s.bytes n))

theorem Visits.unique {s : St} {p : Option NodePtr} {l l' : List NodePtr} (h : Visits s p l) (h' : Visits s p l') :
    l = l' := by
  induction h generalizing l' with
  | none =>
    cases h'
    rfl
  | node _ _ ihb ihs =>
    cases h' with
    | node hb hs => rw [ihb hb, ihs hs]

section
variable {s s₁ : St} {kids kids₁ : Kids} {n d m : NodePtr}

theorem Inv.onTree (hi : Inv s kids) : OnTree s m ↔ Live kids m := by
  rw [live_iff_mem hi]
  constructor
  · rintro ⟨l, hl, hm⟩
    rwa [hl.visits.unique hi.tree.visits] at hm
  · exact fun h => ⟨_, hi.tree, h⟩

/-- The state behind the copy of `n` to the file `d` below the end of `ps`, whichever way it was made. -/
structure Copied (s : St) (kids : Kids) (n : NodePtr) (ps : List (List UInt8)) (leaf : List UInt8) (s₁ : St) (kids₁ : Kids)
    (d : NodePtr) : Prop where
  inv : Inv s₁ kids₁
  cwd : s₁.cwd = s.cwd
  file : (s₁.nodes d).type = .VFS_FILE
  src_file : (s₁.nodes n).type = .VFS_FILE
  ext : Extends s kids s₁
  dst : walk s₁ root (ps ++ [leaf]) = some d
  trail : n ∉ trail s root (ps ++ [leaf]) → n ∉ trail s₁ root (ps ++ [leaf])
  others : ∀ m, m ≠ d → OnTree s m → unthread (s₁.nodes m) = unthread (s.nodes m)
  live : ∀ m, Live kids m → Live kids₁ m

theorem Inv.file_kids (hi : Inv s kids) (h : (s.nodes n).type = .VFS_FILE) : kids n = [] := by
  by_contra hne
  rw [hi.dirs n hne] at h
  cases h

/-- What is left when the source is unlinked behind a copy. -/
theorem Copied.renamed_iff {ps : List (List UInt8)} {leaf src dst : List UInt8} {p : NodePtr} (hi : Inv s kids)
    (hc : Copied s kids n ps leaf s₁ kids₁ d) (hsrc : vfs_resolve s src = some n)
    (hps : parts (normalize_path s dst).tail = ps ++ [leaf]) (hp : n ∈ kids₁ p) :
    Renamed s src dst n (unlinked s₁ p n) ↔ n ∉ Vfs.trail s root (ps ++ [leaf]) ∧ s₁.bytes d = s.bytes n := by
  have hi₁ := hc.inv
  have hleaf := hi₁.file_kids hc.src_file
  have hcwd : (unlinked s₁ p n).cwd = s.cwd := (hi₁.unthreaded hp).cwd.trans hc.cwd
  have hres : ∀ path, vfs_resolve (unlinked s₁ p n) path =
      walk (unlinked s₁ p n) root (parts (normalize_path s path).tail) := by
    intro path
    rw [resolve_eq, normalize_congr hcwd]
  have hbytes : d ≠ n → (unlinked s₁ p n).bytes d = s₁.bytes d := by
    intro hdn
    exact bytes_of_unthread (hi₁.unlinked_kept hp hdn)
  have hend : n ∉ Vfs.trail s₁ root (ps ++ [leaf]) → d ≠ n := by
    rintro ht rfl
    exact ht (mem_trail_last hc.dst)
  constructor
  · rintro ⟨d', hd', -, hb, -⟩
    rw [hres, hps] at hd'
    -- a target path that leads through the source ends with it
    have ht : n ∉ Vfs.trail s root (ps ++ [leaf]) := by
      intro ht
      rw [hi₁.walk_through_unlinked hp .top (hi₁.root_not_below hp) (hc.ext.trail_sub hi .top ht)] at hd'
      cases hd'
    rw [hi₁.walk_unlinked hp (hc.trail ht), hc.dst] at hd'
    cases hd'
    exact ⟨ht, (hbytes (hend (hc.trail ht))).symm.trans hb⟩
  · rintro ⟨ht, hb⟩
    have hdn := hend (hc.trail ht)
    refine ⟨d, ?_, ?_, (hbytes hdn).trans hb, fun hsame => ?_, fun _ => ?_, fun m hm hmn hmd => ⟨?_, ?_⟩⟩
    · rw [hres, hps, hi₁.walk_unlinked hp (hc.trail ht)]
      exact hc.dst
    · rw [hi₁.unlinked_type hp]
      exact hc.file
    · -- the target was not the source
      rw [resolve_eq, hps] at hsame
      exact absurd (mem_trail_last hsame) ht
    · rw [hres]
      rw [resolve_eq] at hsrc
      exact hi₁.walk_through_unlinked hp .top (hi₁.root_not_below hp) (mem_trail_last (hc.ext.walk hi .top hsrc))
    · rw [(hi₁.unlink hp).onTree]
      exact hi₁.live_unlinked hp hleaf (hc.live m (hi.onTree.1 hm)) hmn
    · rw [hi₁.unlinked_kept hp hmn]
      exact hc.others m hmd hm

/-- Writing the target keeps all that. -/
theorem Copied.write {ps : List (List UInt8)} {leaf : List UInt8} (hc : Copied s kids n ps leaf s₁ kids₁ d)
    (buf : List UInt8) :
    Copied s kids n ps leaf (s₁.set d { s₁.nodes d with data := some buf, size := buf.length }) kids₁ d := by
  have hsame := sameTree_write s₁ d buf
  refine ⟨hc.inv.write d buf, hc.cwd, ?_, ?_, fun cur hl part c hs => ?_, ?_, fun ht => ?_, fun m hmd hm => ?_, hc.live⟩
  · rw [hsame.type]
    exact hc.file
  · rw [hsame.type]
    exact hc.src_file
  · rw [hsame.step_into]
    exact hc.ext cur hl part c hs
  · rw [hsame.walk]
    exact hc.dst
  · rw [hsame.trail]
    exact hc.trail ht
  · rw [set_other _ _ hmd]
    exact hc.others m hmd hm

theorem copied_existing {ps : List (List UInt8)} {leaf : List UInt8} (hi : Inv s kids)
    (hn : (s.nodes n).type = .VFS_FILE) (hd : (s.nodes d).type = .VFS_FILE) (hw : walk s root (ps ++ [leaf]) = some d) :
    Copied s kids n ps leaf s kids d :=
  ⟨hi, rfl, hd, hn, fun _ _ _ _ hs => hs, hw, fun ht => ht, fun _ _ _ => rfl, fun _ hm => hm⟩

theorem copied_new {ps : List (List UInt8)} {leaf : List UInt8} {e : NodePtr} {mode : Nat} (hi : Inv s kids)
    (hn : (s.nodes n).type = .VFS_FILE) (hnl : Live kids n) (he : (s.nodes e).type = .VFS_DIR)
    (hw : walk s root ps = some e) (hreg : leaf ≠ [] ∧ leaf ≠ str "." ∧ leaf ≠ str "..") (hf : find_child s e leaf = none)
    (hd : d.val = s.node_count) (hed : e ≠ d) :
    Copied s kids n ps leaf (linked s e d leaf .VFS_FILE mode) (Function.update kids e (d :: kids e)) d := by
  have hlive : ∀ m, Live kids m → m ≠ d := by
    rintro m hm rfl
    have := hm.used hi
    omega
  have hi₁ : Inv (linked s e d leaf .VFS_FILE mode) (Function.update kids e (d :: kids e)) :=
    hi.link hd (hd ▸ (Live.walk hi .top hw).used hi) he hreg.1 (hi.find_child_none.1 hf)
  have hext := hi.extends_linked hi₁ rfl hed hd
  have hstep : step_into (linked s e d leaf .VFS_FILE mode) e leaf = some d := by
    unfold step_into
    rw [if_neg hreg.1, if_neg hreg.2.1, if_neg hreg.2.2]
    exact hi₁.find_child_some.2 ⟨by simp, by rw [linked_new hed]⟩
  have hw₁ := hext.walk hi .top hw
  refine ⟨hi₁, rfl, ?_, ?_, hext, ?_, fun ht => ?_, fun m hmd hm => ?_, fun m hm => ?_⟩
  · rw [linked_new hed]
  · rw [linked_old hed (hlive n hnl)]
    exact hn
  · rw [walk_append, hw₁, Option.bind_some, walk_single]
    exact hstep
  · rw [mem_trail_concat hw, not_or] at ht
    rw [mem_trail_concat hw₁, hext.trail_eq hi .top hw, hstep]
    rintro (h | h)
    · exact ht.1 h
    · exact hlive n hnl (Option.some.inj h).symm
  · rw [linked_old hed hmd]
    rfl
  · induction hm with
    | top => exact .top
    | @kid b c _ hc ih =>
      refine .kid ih ?_
      by_cases hbe : b = e
      · rw [hbe, Function.update_self]
        exact List.mem_cons_of_mem _ (hbe ▸ hc)
      · rwa [Function.update_of_ne hbe]

end

/-! ## The outcomes of the copy -/

section
variable {s : St} {kids : Kids} {n : NodePtr} {src dst : List UInt8} {mem : Bool}

theorem i32_eq_zero (k : Nat) : i32 k = 0 ↔ k % 2 ^ 32 = 0 := by
  unfold i32
  omega

theorem Inv.bytes_ne_nil (hi : Inv s kids) (n : NodePtr) :
    ((s.nodes n).size ≠ 0 ∧ (s.nodes n).data ≠ none) ↔ s.bytes n ≠ [] := by
  have hs := hi.sizes n
  unfold St.bytes
  rw [List.take_of_length_le hs.le]
  cases hd : (s.nodes n).data with
  | none => simp
  | some l =>
    rw [hd, Option.getD_some] at hs
    rw [← hs]
    simp [List.length_eq_zero_iff]

/-- Whether a node is found or made does not depend on its mode. -/
theorem make_node_fst (type : vfs_type_t) (s : St) (path : List UInt8) (mode mode' : Nat) :
    (make_node type s path mode).1 = (make_node type s path mode').1 := by
  unfold make_node alloc_node
  generalize ensure_parent s path = r
  obtain ⟨od, leaf⟩ := r
  cases od with
  | none => rfl
  | some d =>
    dsimp only
    split_ifs
    · rfl
    · cases find_child s d leaf <;> rfl
    · cases find_child s d leaf <;> rfl

/-- A name behind which a directory was found does not lead back into directories, unless the path names one. -/
theorem Inv.regular_leaf (hi : Inv s kids) {e : NodePtr} {leaf : List UInt8} (he : Live kids e)
    (hdir : (s.nodes e).type = .VFS_DIR) (hne : leaf ≠ [])
    (hfile : ∀ d, step_into s e leaf = some d → (s.nodes d).type = .VFS_FILE) : leaf ≠ str "." ∧ leaf ≠ str ".." := by
  constructor
  · rintro rfl
    have h := hfile e rfl
    rw [hdir] at h
    cases h
  · rintro rfl
    have h := hfile ((s.nodes e).parent.getD e) rfl
    have hup : (s.nodes ((s.nodes e).parent.getD e)).type = .VFS_DIR := by
      rcases he.cases_parent hi with rfl | ⟨q, hq, hmem, -⟩
      · rw [hi.root_node.1]
        exact hdir
      · rw [hq]
        exact hi.dirs q (List.ne_nil_of_mem hmem)
    rw [hup] at h
    cases h

/-- The state behind a copy that found or made its target `d`. -/
structure CopyOutcome (s : St) (kids : Kids) (n : NodePtr) (dst : List UInt8) (mem : Bool) (r : Int) (s₂ : St)
    (d : NodePtr) : Prop where
  copied : ∃ ps leaf kids₂, parts (normalize_path s dst).tail = ps ++ [leaf] ∧ Copied s kids n ps leaf s₂ kids₂ d
  zero : r = 0 ↔ CopiesZero s n mem
  contents : (vfs_resolve s dst = some d ∧ SameTree s s₂ ∧ (∀ m, m ≠ d → s₂.bytes m = s.bytes m) ∧
      s₂.bytes d = if mem = true ∧ s.bytes n ≠ [] then s.bytes n else s.bytes d) ∨
    (vfs_resolve s dst = none ∧ s₂.bytes d = if mem = true ∧ s.bytes n ≠ [] then s.bytes n else [])

theorem bytes_write (s : St) (d : NodePtr) (buf : List UInt8) :
    (s.set d { s.nodes d with data := some buf, size := buf.length }).bytes d = buf := by
  unfold St.bytes
  rw [set_same]
  exact List.take_length

theorem bytes_set_other (s : St) {d m : NodePtr} (v : vfs_node_t) (h : m ≠ d) : (s.set d v).bytes m = s.bytes m := by
  unfold St.bytes
  rw [set_other s v h]

/-- The write of a copy, from the state where its target is there. -/
theorem Copied.outcome {s₁ : St} {kids₁ : Kids} {d : NodePtr} {ps : List (List UInt8)} {leaf : List UInt8}
    (hc : Copied s kids n ps leaf s₁ kids₁ d) (mem : Bool) (hps : parts (normalize_path s dst).tail = ps ++ [leaf])
    (hn : s₁.bytes n = s.bytes n)
    (hd : vfs_resolve s dst = some d ∧ s₁ = s ∨ vfs_resolve s dst = none ∧ s₁.bytes d = []) :
    ∃ r s₂, (if (s₁.nodes n).size ≠ 0 ∧ (s₁.nodes n).data ≠ none then vfs_write s₁ (some d) (s₁.bytes n) mem else (0, s₁)) =
      (r, s₂) ∧ CopyOutcome s kids n dst mem r s₂ d := by
  simp only [hc.inv.bytes_ne_nil n]
  rw [hn]
  have hkeep : ∀ r, (r = (0 : Int) ↔ CopiesZero s n mem) → ¬ (mem = true ∧ s.bytes n ≠ []) →
      CopyOutcome s kids n dst mem r s₁ d := by
    intro r hr hno
    refine ⟨⟨ps, leaf, kids₁, hps, hc⟩, hr, ?_⟩
    rw [if_neg hno, if_neg hno]
    rcases hd with ⟨hd, hs⟩ | ⟨hd, hb⟩
    · rw [hs]
      exact .inl ⟨hd, ⟨fun _ => rfl, rfl⟩, fun _ _ => rfl, rfl⟩
    · exact .inr ⟨hd, hb⟩
  by_cases hnil : s.bytes n = []
  · rw [if_neg (not_not.2 hnil)]
    exact ⟨0, s₁, rfl, hkeep 0 (by simp [CopiesZero, hnil]) (by simp [hnil])⟩
  · rw [if_pos hnil]
    unfold Vfs.vfs_write
    dsimp only
    rw [if_neg (not_not.2 hc.file)]
    cases hm : mem with
    | false =>
      rw [if_pos rfl]
      exact ⟨-1, s₁, rfl, hm ▸ hkeep (-1) (by simp [CopiesZero, hnil, hm]) (by simp [hm])⟩
    | true =>
      rw [if_neg (by simp)]
      refine ⟨_, _, rfl, ⟨ps, leaf, kids₁, hps, hc.write _⟩, ?_, ?_⟩
      · rw [i32_eq_zero]
        simp [CopiesZero, hnil]
      · rw [if_pos ⟨rfl, hnil⟩, if_pos ⟨rfl, hnil⟩, bytes_write]
        rcases hd with ⟨hd, rfl⟩ | ⟨hd, -⟩
        · exact .inl ⟨hd, sameTree_write _ _ _, fun m hm => bytes_set_other _ _ hm, rfl⟩
        · exact .inr ⟨hd, rfl⟩

/-- When no node is found or made. -/
theorem Inv.not_makes_iff (hi : Inv s kids) (type : vfs_type_t) {path : List UInt8} (mode : Nat)
    (hfit : (ensure_parent s path).2.length < VFS_NAME_MAX) :
    (Vfs.make_node type s path mode).1 = none ↔ (ensure_parent s path).2 = [] ∨ ¬ Makes s path := by
  rcases hi.make_node_cases type mode hfit with ⟨h, hfull⟩ | ⟨d, hd, hdir, hne, ⟨c, hf, h⟩ | ⟨-, e, he, -, h⟩⟩
  · rw [h]
    refine iff_of_true rfl (or_iff_not_imp_left.2 fun hleaf => ?_)
    rintro ⟨d, hd, hdir, hthere⟩
    cases hf : find_child s d (ensure_parent s path).2 with
    | none =>
      have hcount := hfull d hd hdir hleaf hf
      rw [hf, hcount] at hthere
      exact hthere.elim (fun h => h rfl) (lt_irrefl _)
    | some c =>
      unfold Vfs.make_node at h
      generalize hp : ensure_parent s path = r at h hd hleaf hf
      obtain ⟨od, leaf⟩ := r
      cases hd
      dsimp only at h
      rw [if_neg (by simp [hdir, hleaf]), hf] at h
      cases h
  · rw [h]
    refine iff_of_false (Option.some_ne_none c) (not_or.2 ⟨hne, not_not.2 ⟨d, hd, hdir, .inl ?_⟩⟩)
    rw [hf]
    exact Option.some_ne_none c
  · rw [h]
    exact iff_of_false (Option.some_ne_none e) (not_or.2 ⟨hne, not_not.2 ⟨d, hd, hdir, .inr (he ▸ e.isLt)⟩⟩)

/-- A copy finds or makes no target and does nothing, or it has one. -/
theorem Inv.copy_cases (hi : Inv s kids) (hcwd : s.cwd.head? = some SLASH) (hsrc : vfs_resolve s src = some n)
    (hn : (s.nodes n).type = .VFS_FILE) (hfile : ∀ d, vfs_resolve s dst = some d → (s.nodes d).type = .VFS_FILE)
    (hfit : (ensure_parent s dst).2.length < VFS_NAME_MAX) :
    ((vfs_create s dst 0).1 = none ∧ Vfs.vfs_copy s src dst mem = (-1, s)) ∨
    ((vfs_create s dst 0).1 ≠ none ∧ ∃ r s₂ d, Vfs.vfs_copy s src dst mem = (r, s₂) ∧
      CopyOutcome s kids n dst mem r s₂ d) := by
  unfold Vfs.vfs_copy
  rw [hsrc]
  dsimp only
  rw [if_neg (not_not.2 hn)]
  generalize (if (s.nodes n).mode ≠ 0 then (s.nodes n).mode else 0o644) = mode
  have hfst : (vfs_create s dst 0).1 = (vfs_create s dst mode).1 := make_node_fst _ _ _ _ _
  rw [hfst]
  unfold vfs_create
  rcases hi.make_node_cases .VFS_FILE mode hfit with ⟨h, -⟩ | ⟨e, he, hdir, hne, hcase⟩
  · rw [h]
    exact .inl ⟨rfl, rfl⟩
  · have hlive := hi.parent_live he
    obtain ⟨ps, hps, hparent⟩ := ensure_parent_parts hcwd hne hfit
    have hw : walk s root ps = some e := by
      rw [hparent s rfl] at he
      exact he
    generalize (ensure_parent s dst).2 = leaf at hne hcase hps
    have hres : vfs_resolve s dst = step_into s e leaf := by
      rw [resolve_eq, hps, walk_append, hw, Option.bind_some, walk_single]
    rw [hres] at hfile
    have hreg := hi.regular_leaf hlive hdir hne hfile
    have hstep : step_into s e leaf = find_child s e leaf := by
      unfold step_into
      rw [if_neg hne, if_neg hreg.1, if_neg hreg.2]
    rw [hstep] at hres hfile
    have hnl := hi.resolve_live hsrc
    rcases hcase with ⟨d, hf, h⟩ | ⟨hf, d, hd, hed, h⟩
    · -- the target is there and is written over
      rw [h]
      refine .inr ⟨by simp, ?_⟩
      have hwd : walk s root (ps ++ [leaf]) = some d := by
        rw [walk_append, hw, Option.bind_some, walk_single, hstep]
        exact hf
      obtain ⟨r, s₂, heq, hout⟩ := (copied_existing hi hn (hfile d hf) hwd).outcome mem hps rfl
        (.inl ⟨hres.trans hf, rfl⟩)
      exact ⟨r, s₂, d, heq, hout⟩
    · -- the target is made, empty, in the next slot
      rw [h]
      refine .inr ⟨by simp, ?_⟩
      have hnd : n ≠ d := by
        rintro rfl
        have := hnl.used hi
        omega
      have hbytes : (linked s e d leaf .VFS_FILE mode).bytes n = s.bytes n := by
        unfold St.bytes
        rw [linked_old hed hnd]
      have hempty : (linked s e d leaf .VFS_FILE mode).bytes d = [] := by
        unfold St.bytes
        rw [linked_new hed]
        rfl
      obtain ⟨r, s₂, heq, hout⟩ := (copied_new hi hn hnl hdir hw ⟨hne, hreg⟩ hf hd hed).outcome mem hps hbytes
        (.inr ⟨hres.trans hf, hempty⟩)
      exact ⟨r, s₂, d, heq, hout⟩

/-- After a copy that returned 0 the source is unlinked: what is left is the target, with the bytes that it got. -/
theorem CopyOutcome.moves {s₂ : St} (hi : Inv s kids) (hsrc : vfs_resolve s src = some n)
    (hcopy : Vfs.vfs_copy s src dst mem = (0, s₂)) (hout : CopyOutcome s kids n dst mem 0 s₂ d) :
    ∃ t, Vfs.vfs_rename s src dst mem = (0, t) ∧ (Renamed s src dst n t ↔
      n ∉ Vfs.trail s root (parts (normalize_path s dst).tail) ∧
        (s.bytes n = [] → ∀ d, vfs_resolve s dst = some d → s.bytes d = [])) := by
  obtain ⟨⟨ps, leaf, kids₂, hps, hc⟩, hzero, hcontents⟩ := hout
  have hsrc₂ : vfs_resolve s₂ src = some n := by
    rw [resolve_eq, normalize_congr hc.cwd]
    rw [resolve_eq] at hsrc
    exact hc.ext.walk hi .top hsrc
  obtain ⟨p, hp, hren⟩ : ∃ p, n ∈ kids₂ p ∧ Vfs.vfs_rename s src dst mem = (0, unlinked s₂ p n) := by
    unfold Vfs.vfs_rename
    rw [hcopy]
    dsimp only
    rw [if_neg (not_not.2 rfl)]
    rcases hc.inv.vfs_unlink_cases src with ⟨-, hroot⟩ | ⟨m, p, hm, hp, hu⟩
    · have ht := hc.inv.root_node.2.2
      rw [← hroot n hsrc₂, hc.src_file] at ht
      cases ht
    · rw [hsrc₂] at hm
      cases hm
      exact ⟨p, hp, hu⟩
  refine ⟨_, hren, ?_⟩
  rw [hc.renamed_iff hi hsrc hps hp, hps]
  refine and_congr_right (fun _ => ?_)
  have hwritten : s.bytes n ≠ [] → mem = true := fun hnil => ((hzero.1 rfl).resolve_left hnil).1
  rcases hcontents with ⟨hd, -, -, hb⟩ | ⟨hd, hb⟩
  · rw [hb, hd]
    by_cases hnil : s.bytes n = []
    · simp [hnil]
    · simp [hnil, hwritten hnil]
  · rw [hb, hd]
    by_cases hnil : s.bytes n = []
    · simp [hnil]
    · simp [hnil, hwritten hnil]

/-- After a copy that returned something else the source stays, and the target has to be as it was. -/
theorem CopyOutcome.stays {s₂ : St} {r : Int} (hi : Inv s kids) (hr : r ≠ 0)
    (hfile : ∀ d, vfs_resolve s dst = some d → (s.nodes d).type = .VFS_FILE)
    (hcopy : Vfs.vfs_copy s src dst mem = (r, s₂)) (hout : CopyOutcome s kids n dst mem r s₂ d) :
    Vfs.vfs_rename s src dst mem = (-1, s₂) ∧ (Untouched s s₂ ↔
      ∃ d, vfs_resolve s dst = some d ∧ (mem = true → s.bytes d = s.bytes n)) := by
  obtain ⟨⟨ps, leaf, kids₂, hps, hc⟩, hzero, hcontents⟩ := hout
  have hnil : s.bytes n ≠ [] := fun hnil => hr (hzero.2 (.inl hnil))
  refine ⟨?_, ?_⟩
  · unfold Vfs.vfs_rename
    rw [hcopy]
    exact if_pos hr
  rcases hcontents with ⟨hd, hsame, hothers, hb⟩ | ⟨hd, hb⟩
  · have hon : OnTree s d := hi.onTree.2 (hi.resolve_live hd)
    constructor
    · rintro ⟨-, hbytes⟩
      refine ⟨d, hd, fun hm => ?_⟩
      rw [← hbytes d hon (hfile d hd), hb, if_pos ⟨hm, hnil⟩]
    · rintro ⟨d', hd', hkeep⟩
      rw [hd] at hd'
      cases hd'
      refine ⟨fun path => hsame.resolve hc.cwd path, fun m _ _ => ?_⟩
      by_cases hmd : m = d
      · rw [hmd, hb]
        split_ifs with hw
        · exact (hkeep hw.1).symm
        · rfl
      · exact hothers m hmd
  · -- the target is new, so its path did not resolve before
    constructor
    · rintro ⟨hpaths, -⟩
      have hmade : vfs_resolve s₂ dst = some d := by
        rw [resolve_eq, normalize_congr hc.cwd, hps]
        exact hc.dst
      rw [hpaths dst, hd] at hmade
      cases hmade
    · rintro ⟨d', hd', -⟩
      rw [hd] at hd'
      cases hd'

end

/-- A rename of a file to nothing or to a file moves it or changes nothing exactly when `RenameSafe` says so. -/
theorem rename_atomic_iff {s : St} (h : Reach s) {src dst : List UInt8} {mem : Bool} {n : NodePtr}
    (hsrc : vfs_resolve s src = some n) (hn : (s.nodes n).type = .VFS_FILE)
    (hdst : ∀ d, vfs_resolve s dst = some d → (s.nodes d).type = .VFS_FILE) (hop : (Op.rename src dst mem).Allowed s) :
    RenameAtomic s src dst mem n ↔ RenameSafe s dst mem n := by
  obtain ⟨kids, hi⟩ := h.inv
  obtain ⟨-, hfit⟩ := hop
  have hmakes : (vfs_create s dst 0).1 = none ↔ (ensure_parent s dst).2 = [] ∨ ¬ Makes s dst :=
    hi.not_makes_iff .VFS_FILE 0 hfit.2
  unfold RenameAtomic RenameSafe
  rw [← hmakes]
  rcases hi.copy_cases h.cwd_head hsrc hn hdst hfit.2 with ⟨hnone, hcopy⟩ | ⟨hsome, r, s₂, d, hcopy, hout⟩
  · have hren : vfs_rename s src dst mem = (-1, s) := by
      unfold vfs_rename
      rw [hcopy]
      rfl
    rw [hren]
    exact ⟨fun _ => .inl hnone, fun _ => ⟨by simp, fun _ => ⟨fun _ => rfl, fun _ _ _ => rfl⟩⟩⟩
  · by_cases hr : r = 0
    · subst hr
      have hz := hout.zero.1 rfl
      obtain ⟨t, hren, hmoves⟩ := hout.moves hi hsrc hcopy
      rw [hren]
      simp only [ne_eq, not_true_eq_false, false_implies, and_true, true_implies, hsome, hz, false_or, true_and,
        false_and, or_false]
      exact hmoves
    · have hz : ¬ CopiesZero s n mem := fun hz => hr (hout.zero.2 hz)
      obtain ⟨hren, hstays⟩ := hout.stays hi hr hdst hcopy
      have hne : (-1 : Int) ≠ 0 := by decide
      rw [hren]
      simp only [hne, false_implies, true_and, ne_eq, not_false_eq_true, true_implies, hsome, hz, false_or,
        false_and]
      exact hstays

/-- An empty file moves. -/
theorem rename_atomic_iff_empty :
    RenameAtomic (exec (vfs_init fun _ => true) (.create (str "/tmp/e") 0o644)) (str "/tmp/e") (str "/home/f") true
      ⟨17, by decide⟩ := by
  have hreach : Reach (exec (vfs_init fun _ => true) (.create (str "/tmp/e") 0o644)) :=
    .step _ (.init _) ⟨.inl rfl, by decide +kernel⟩
  have hnone : vfs_resolve (exec (vfs_init fun _ => true) (.create (str "/tmp/e") 0o644)) (str "/home/f") = none := by
    decide +kernel
  refine (rename_atomic_iff hreach (by decide +kernel) (by decide +kernel) (fun d hd => ?_)
    ⟨.inl rfl, .inl rfl, by decide +kernel⟩).2 (.inr (.inl ⟨.inl (by decide +kernel), by decide +kernel, fun _ d hd => ?_⟩))
  · rw [hnone] at hd
    cases hd
  · rw [hnone] at hd
    cases hd

/-- A file with contents is copied and stays: the call fails and the target is there. -/
theorem rename_leaves_copy :
    ¬ ∀ s, Reach s → ∀ src dst mem n, vfs_resolve s src = some n → (s.nodes n).type = .VFS_FILE →
      (∀ d, vfs_resolve s dst = some d → (s.nodes d).type = .VFS_FILE) → (Op.rename src dst mem).Allowed s →
        RenameAtomic s src dst mem n := by
  intro h
  have hnone : vfs_resolve (vfs_init fun _ => true) (str "/tmp/motd") = none := by decide +kernel
  have hfail : (vfs_rename (vfs_init fun _ => true) (str "/etc/motd") (str "/tmp/motd") true).1 ≠ 0 := by decide +kernel
  have hthere : vfs_resolve (vfs_rename (vfs_init fun _ => true) (str "/etc/motd") (str "/tmp/motd") true).2
      (str "/tmp/motd") ≠ none := by decide +kernel
  have hatomic := h _ (.init fun _ => true) (str "/etc/motd") (str "/tmp/motd") true ⟨14, by decide⟩ (by decide +kernel)
    (by decide +kernel) (fun d hd => by rw [hnone] at hd; cases hd) ⟨.inl rfl, .inl rfl, by decide +kernel⟩
  exact hthere (((hatomic.2 hfail).1 _).trans hnone)

end H3OS.Vfs
