import H3OS.Vfs.Calls
/-!
# Resolving a path is splitting it and walking

`vfs_resolve` reads the path with a loop of its own that skips runs of slashes
and cuts long components. Here the meaning of a path is given without it: the
pieces between slashes, each of which leads from one node to the next.
-/
open SysLib

namespace H3OS.Vfs

/-- `c` is in the list of the children of `d`. -/
def IsChild (s : St) (d c : NodePtr) : Prop :=
  ∃ l, Chain (fun c => (s.nodes c).sibling) (s.nodes d).child l ∧ c ∈ l

open Classical in
/-- The one child of that name. -/
noncomputable def childNamed (s : St) (d : NodePtr) (name : List UInt8) : Option NodePtr :=
  if h : ∃! c, IsChild s d c ∧ (s.nodes c).name = name then some h.choose else none

/-- Where a component leads. -/
noncomputable def follow (s : St) (cur : NodePtr) (part : List UInt8) : Option NodePtr :=
  if part = [] ∨ part = str "." then some cur
  else if part = str ".." then (if cur = root then some root else (s.nodes cur).parent)
  else childNamed s cur part

section
variable {s : St} {kids : Kids} {d c cur : NodePtr}

/-! ## The loop reads the pieces between slashes -/

/-- Pieces that are not cut are what the loop sees, but for empty ones. -/
theorem walk_parts_eq (s : St) {p : List UInt8} (hshort : ∀ x ∈ p.splitOn SLASH, x.length < VFS_NAME_MAX)
    (cur : NodePtr) : walk s cur (parts p) = (p.splitOn SLASH).foldlM (step_into s) cur := by
  induction hk : p.length using Nat.strong_induction_on generalizing p cur with
  | _ k ih =>
    by_cases hslash : SLASH ∈ p
    · obtain ⟨a, q, rfl, ha⟩ := List.eq_append_cons_of_mem hslash
      rw [List.splitOn_append_cons_self, List.splitOn_eq_singleton ha] at hshort ⊢
      rw [List.length_append, List.length_cons] at hk
      have hq := ih q.length (by omega) (p := q) (fun x hx => hshort x (List.mem_append_right _ hx))
      rw [walk_join, List.foldlM_append, List.foldlM_cons]
      have hfirst : walk s cur (parts a) = step_into s cur a := by
        by_cases hne : a = []
        · subst hne
          rfl
        · rw [parts_single ha hne (hshort a (List.mem_append_left _ (List.mem_singleton_self a))), walk_single]
      rw [hfirst]
      cases step_into s cur a with
      | none => rfl
      | some c => exact hq c rfl
    · rw [List.splitOn_eq_singleton hslash] at hshort ⊢
      by_cases hne : p = []
      · subst hne
        rfl
      · rw [parts_single hslash hne (hshort p (List.mem_singleton_self p)), walk_single, List.foldlM_cons]
        cases step_into s cur p <;> rfl

/-! ## The steps -/

theorem Inv.isChild (hi : Inv s kids) : IsChild s d c ↔ c ∈ kids d := by
  constructor
  · rintro ⟨l, hl, hc⟩
    rwa [hl.unique (hi.chain d)] at hc
  · exact fun hc => ⟨kids d, hi.chain d, hc⟩

theorem Inv.find_child_eq (hi : Inv s kids) (d : NodePtr) (name : List UInt8) :
    find_child s d name = childNamed s d name := by
  unfold childNamed
  cases hf : find_child s d name with
  | none =>
    rw [dif_neg]
    rintro ⟨c, ⟨hc, hname⟩, -⟩
    exact hi.find_child_none.1 hf c (hi.isChild.1 hc) hname
  | some c =>
    obtain ⟨hc, hname⟩ := hi.find_child_some.1 hf
    have huniq : ∀ b, IsChild s d b ∧ (s.nodes b).name = name → b = c := by
      rintro b ⟨hb, hbname⟩
      exact List.inj_on_of_nodup_map (hi.names d) (hi.isChild.1 hb) hc (hbname.trans hname.symm)
    have hone : ∃! c, IsChild s d c ∧ (s.nodes c).name = name := ⟨c, ⟨hi.isChild.2 hc, hname⟩, huniq⟩
    rw [dif_pos hone]
    exact congrArg some (huniq _ hone.choose_spec.1).symm

theorem Live.step_into_eq (hi : Inv s kids) (h : Live kids cur) (part : List UInt8) :
    Vfs.step_into s cur part = follow s cur part := by
  unfold Vfs.step_into follow
  by_cases hempty : part = []
  · rw [if_pos hempty, if_pos (.inl hempty)]
  rw [if_neg hempty]
  by_cases hdot : part = str "."
  · rw [if_pos hdot, if_pos (.inr hdot)]
  rw [if_neg hdot, if_neg (not_or.2 ⟨hempty, hdot⟩)]
  split_ifs with hup hroot
  · rw [hroot, hi.root_node.1]
    rfl
  · obtain ⟨p, hp, -⟩ := (h.cases_parent hi).resolve_left hroot
    rw [hp]
    rfl
  · exact hi.find_child_eq cur part

theorem Live.fold_eq (hi : Inv s kids) (h : Live kids cur) (ps : List (List UInt8)) :
    ps.foldlM (Vfs.step_into s) cur = ps.foldlM (follow s) cur := by
  induction ps generalizing cur with
  | nil => rfl
  | cons part ps ih =>
    rw [List.foldlM_cons, List.foldlM_cons, ← h.step_into_eq hi]
    cases hs : Vfs.step_into s cur part with
    | none => rfl
    | some c => exact ih (h.step_into hi hs)

end

/-- In every run, resolving a path of short components is splitting its normal form at the slashes and following the
pieces from the root. -/
theorem resolve_splits {s : St} (h : Reach s) {path : List UInt8} (hlen : (full_path s path).length < VFS_PATH_MAX)
    (hshort : ∀ x ∈ (full_path s path).splitOn SLASH, x.length < VFS_NAME_MAX) :
    vfs_resolve s path = ((full_path s path).splitOn SLASH).foldlM (follow s) root := by
  obtain ⟨kids, hi⟩ := h.inv
  have hnorm : normalize_path s path = full_path s path := List.take_of_length_le (Nat.le_pred_of_lt hlen)
  have hhead := normalize_head h.cwd_head path
  rw [hnorm] at hhead
  rw [resolve_eq, hnorm]
  obtain ⟨t, ht⟩ : ∃ t, full_path s path = SLASH :: t := by
    cases hf : full_path s path with
    | nil => rw [hf] at hhead; cases hhead
    | cons b t => rw [hf] at hhead; exact ⟨t, by rw [Option.some.inj hhead]⟩
  -- the piece before the first slash is empty and leads nowhere
  have hsplit : (SLASH :: t).splitOn SLASH = [] :: t.splitOn SLASH := List.splitOn_append_cons_self [] t
  rw [ht, hsplit] at hshort ⊢
  rw [List.tail_cons, walk_parts_eq s (fun x hx => hshort x (List.mem_cons_of_mem _ hx)),
    Live.top.fold_eq hi, List.foldlM_cons]
  rfl

theorem resolve_splits_motd :
    vfs_resolve (vfs_init fun _ => true) (str "//etc/../etc/./motd") =
      ((str "//etc/../etc/./motd").splitOn SLASH).foldlM (follow (vfs_init fun _ => true)) root :=
  resolve_splits (.init _) (by decide +kernel) (by decide +kernel)

end H3OS.Vfs
