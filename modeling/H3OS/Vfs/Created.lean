import H3OS.Vfs.Rename
/-!
# What is created can be found

`vfs_mkdir` and `vfs_create` take the text behind the last slash for a name,
whatever it is; `vfs_resolve` gives `.` and `..` a meaning of their own. The
two agree on every other name, and never on these.
-/
open SysLib

namespace H3OS.Vfs

/-- The result of making a node at `path`: the path leads to it, and every path leads where it did. -/
def Found (s : St) (path : List UInt8) (r : Option NodePtr × St) : Prop :=
  ∀ n, r.1 = some n → vfs_resolve r.2 path = some n ∧ ∀ q m, vfs_resolve s q = some m → vfs_resolve r.2 q = some m

/-- A name that resolution does not look up. -/
def Dots (leaf : List UInt8) : Prop := leaf = str "." ∨ leaf = str ".."

/-- `n` is in the directory `d` at the end of `ps` under the name `leaf`, by now or from before. -/
structure Made (type : vfs_type_t) (s : St) (kids : Kids) (path : List UInt8) (mode : Nat) (n : NodePtr) (s' : St)
    (ps : List (List UInt8)) (leaf : List UInt8) (d : NodePtr) (kids' : Kids) : Prop where
  splits : parts (normalize_path s path).tail = ps ++ [leaf]
  place : ensure_parent s path = (some d, leaf)
  named : leaf ≠ []
  parent : walk s root ps = some d
  dir : (s.nodes d).type = .VFS_DIR
  inv : Inv s' kids'
  ext : Extends s kids s'
  kid : n ∈ kids' d
  name : (s'.nodes n).name = leaf
  made : (find_child s d leaf = some n ∧ s' = s) ∨
    (find_child s d leaf = none ∧ n.val = s.node_count ∧ d ≠ n ∧ s' = linked s d n leaf type mode)

section
variable {s s' : St} {kids kids' : Kids} {n d : NodePtr} {type : vfs_type_t} {mode : Nat} {path leaf : List UInt8}
  {ps : List (List UInt8)}

/-- Making a node leaves everything, or makes it where its path says. -/
theorem Inv.make_node_made (hi : Inv s kids) (hcwd : s.cwd.head? = some SLASH) (type : vfs_type_t) (mode : Nat)
    (hfit : (ensure_parent s path).2.length < VFS_NAME_MAX) :
    (Vfs.make_node type s path mode = (none, s) ∧ ((ensure_parent s path).2 = [] ∨ ¬ Makes s path)) ∨
    (Makes s path ∧ ∃ n s' ps leaf d kids', Vfs.make_node type s path mode = (some n, s') ∧
      Made type s kids path mode n s' ps leaf d kids') := by
  rcases hi.make_node_cases type mode hfit with ⟨h, -⟩ | ⟨d, hd, hdir, hne, hcase⟩
  · exact .inl ⟨h, (hi.not_makes_iff type mode hfit).1 (by rw [h])⟩
  · obtain ⟨ps, hps, hparent⟩ := ensure_parent_parts hcwd hne hfit
    have hw : walk s root ps = some d := by
      rw [hparent s rfl] at hd
      exact hd
    have hplace : ensure_parent s path = (some d, (ensure_parent s path).2) := by rw [← hd]
    rcases hcase with ⟨c, hf, h⟩ | ⟨hf, n, hn, hdn, h⟩
    · refine .inr ⟨⟨d, hd, hdir, .inl (by rw [hf]; exact nofun)⟩, c, s, ps, (ensure_parent s path).2, d, kids, h, ?_⟩
      obtain ⟨hc, hname⟩ := hi.find_child_some.1 hf
      exact ⟨hps, hplace, hne, hw, hdir, hi, fun _ _ _ _ hs => hs, hc, hname, .inl ⟨hf, rfl⟩⟩
    · have hlt : d.val < n.val := hn ▸ (hi.parent_live hd).used hi
      have hi' : Inv (linked s d n (ensure_parent s path).2 type mode) (Function.update kids d (n :: kids d)) :=
        hi.link hn hlt hdir hne (hi.find_child_none.1 hf)
      refine .inr ⟨⟨d, hd, hdir, .inr (hn ▸ n.isLt)⟩, n, _, ps, (ensure_parent s path).2, d,
        Function.update kids d (n :: kids d), h, ?_⟩
      refine ⟨hps, hplace, hne, hw, hdir, hi', hi.extends_linked hi' rfl hdn hn, ?_, ?_, .inr ⟨hf, hn, hdn, rfl⟩⟩
      · rw [Function.update_self]
        exact List.mem_cons_self
      · rw [linked_new hdn]

theorem Made.cwd (h : Made type s kids path mode n s' ps leaf d kids') : s'.cwd = s.cwd := by
  rcases h.made with ⟨-, rfl⟩ | ⟨-, -, -, rfl⟩
  · rfl
  · rfl

theorem Made.keeps (h : Made type s kids path mode n s' ps leaf d kids') (hi : Inv s kids) {q : List UInt8} {m : NodePtr}
    (hq : vfs_resolve s q = some m) : vfs_resolve s' q = some m := by
  rw [resolve_eq, normalize_congr h.cwd]
  rw [resolve_eq] at hq
  exact h.ext.walk hi .top hq

/-- The path of a node that was made leads to its directory and then to the name. -/
theorem Made.resolve (h : Made type s kids path mode n s' ps leaf d kids') (hi : Inv s kids) :
    vfs_resolve s' path = step_into s' d leaf := by
  rw [resolve_eq, normalize_congr h.cwd, h.splits, walk_append, h.ext.walk hi .top h.parent, Option.bind_some, walk_single]

theorem step_into_regular (s : St) (d : NodePtr) (hne : leaf ≠ []) (hreg : ¬ Dots leaf) :
    step_into s d leaf = find_child s d leaf := by
  unfold step_into
  rw [if_neg hne, if_neg fun h => hreg (.inl h), if_neg fun h => hreg (.inr h)]

theorem Made.found_iff (h : Made type s kids path mode n s' ps leaf d kids') (hi : Inv s kids) :
    vfs_resolve s' path = some n ↔ ¬ Dots leaf := by
  rw [h.resolve hi]
  have hlt := h.inv.kid_lt h.kid
  constructor
  · -- a name of dots leads to the directory itself or up from it, and the node is below
    rintro hstep (rfl | rfl)
    · have hdn : d = n := Option.some.inj hstep
      rw [hdn] at hlt
      exact lt_irrefl _ hlt
    · have hup : (s'.nodes d).parent.getD d = n := Option.some.inj hstep
      cases hp : (s'.nodes d).parent with
      | none =>
        rw [hp, Option.getD_none] at hup
        rw [hup] at hlt
        exact lt_irrefl _ hlt
      | some q =>
        have hq := h.inv.up d q hp
        rw [hp, Option.getD_some] at hup
        rw [hup] at hq
        exact lt_asymm hlt hq
  · intro hreg
    rw [step_into_regular s' d h.named hreg]
    exact h.inv.find_child_some.2 ⟨h.kid, h.name⟩

/-- Making a node and then resolving its path. -/
theorem Inv.found_iff (hi : Inv s kids) (hcwd : s.cwd.head? = some SLASH) (type : vfs_type_t) (mode : Nat)
    (hfit : (ensure_parent s path).2.length < VFS_NAME_MAX) :
    Found s path (Vfs.make_node type s path mode) ↔ ¬ (Dots (ensure_parent s path).2 ∧ Makes s path) := by
  rcases hi.make_node_made hcwd type mode hfit with ⟨h, hnot⟩ | ⟨hmakes, n, s', ps, leaf, d, kids', h, hmade⟩
  · rw [h]
    refine ⟨fun _ => ?_, fun _ n hn => by cases hn⟩
    rintro ⟨hdots, hmakes⟩
    refine hnot.elim (fun hnil => ?_) fun hno => hno hmakes
    rw [hnil] at hdots
    rcases hdots with hdots | hdots
    · exact absurd hdots (by decide +kernel)
    · exact absurd hdots (by decide +kernel)
  · rw [h, show (ensure_parent s path).2 = leaf by rw [hmade.place]]
    constructor
    · intro hfound
      rintro ⟨hdots, -⟩
      exact (hmade.found_iff hi).1 (hfound n rfl).1 hdots
    · intro hno m hm
      cases hm
      exact ⟨(hmade.found_iff hi).2 fun hdots => hno ⟨hdots, hmakes⟩, fun q m hq => hmade.keeps hi hq⟩

end

/-- What a call makes can be found, and everything that could be found still can, exactly when the name at the end of the
path is neither `.` nor `..`, or nothing can be made there. -/
theorem created_found_iff {s : St} (h : Reach s) {path : List UInt8} (hfit : LeafFits s path) (mode : Nat) :
    (Found s path (vfs_mkdir s path mode) ↔ ¬ (Dots (ensure_parent s path).2 ∧ Makes s path)) ∧
    (Found s path (vfs_create s path mode) ↔ ¬ (Dots (ensure_parent s path).2 ∧ Makes s path)) := by
  obtain ⟨kids, hi⟩ := h.inv
  exact ⟨hi.found_iff h.cwd_head _ mode hfit.2, hi.found_iff h.cwd_head _ mode hfit.2⟩

theorem created_found_iff_tmp :
    Found (vfs_init fun _ => true) (str "/tmp//new") (vfs_mkdir (vfs_init fun _ => true) (str "/tmp//new") 0o755) := by
  refine (created_found_iff (.init _) ⟨.inl rfl, by decide +kernel⟩ 0o755).1.2 ?_
  rintro ⟨hdots, -⟩
  revert hdots
  unfold Dots
  decide +kernel

/-- The directory made at `/tmp/.` is not what that path leads to. -/
theorem made_dot_not_found :
    PathOk (vfs_init fun _ => true) (str "/tmp/.") ∧
    (vfs_mkdir (vfs_init fun _ => true) (str "/tmp/.") 0o755).1 = some ⟨17, by decide⟩ ∧
    vfs_resolve (vfs_mkdir (vfs_init fun _ => true) (str "/tmp/.") 0o755).2 (str "/tmp/.") = some ⟨5, by decide⟩ := by
  refine ⟨⟨by decide +kernel, fun x hx _ => ?_⟩, by decide +kernel, by decide +kernel⟩
  exact lt_of_le_of_lt hx.length_le (by decide +kernel)

end H3OS.Vfs
