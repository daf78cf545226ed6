import H3OS.Vfs.Calls
/-!
# Unlinking takes out one subtree

A walk from the root comes to a node for the first time by a step down from
its parent, and that step is what `vfs_unlink` removes. Every other step from
a node that is not below the removed one leads where it did.
-/
open SysLib

namespace H3OS.Vfs

/-- `m` is `n` or below it. -/
def Below (s : St) (n m : NodePtr) : Prop := Anc (fun c => (s.nodes c).parent) m n

section
variable {s : St} {kids : Kids} {cur n m p c : NodePtr} {ps : List (List UInt8)} {part : List UInt8}

/-- Steps out of what is below a node pass the node itself. -/
theorem Inv.step_below (hi : Inv s kids) (hs : step_into s cur part = some c) (hcur : ¬ Below s n cur) (hcn : c ≠ n) :
    ¬ Below s n c := by
  intro hc
  unfold Vfs.step_into at hs
  split_ifs at hs with h1 h2 h3
  · cases hs
    exact hcur hc
  · cases hs
    exact hcur hc
  · have hup : (s.nodes cur).parent.getD cur = c := Option.some.inj hs
    cases hp : (s.nodes cur).parent with
    | none =>
      rw [hp, Option.getD_none] at hup
      exact hcur (hup ▸ hc)
    | some q =>
      rw [hp, Option.getD_some] at hup
      exact hcur (.up hp (hup ▸ hc))
  · obtain ⟨hmem, -⟩ := hi.find_child_some.1 hs
    cases hc with
    | refl => exact hcn rfl
    | up hq hc =>
      cases Option.some.inj ((hi.parent cur c hmem).symm.trans hq)
      exact hcur hc

section
variable (hi : Inv s kids) (hn : n ∈ kids p)
include hi hn

theorem Inv.root_not_below : ¬ Below s n root := by
  intro h
  cases h with
  | refl => exact hi.kid_ne_root hn rfl
  | up hq _ =>
    rw [hi.root_node.1] at hq
    cases hq

theorem Inv.step_unlinked (hs : step_into s cur part = some c) (hcn : c ≠ n) :
    step_into (unlinked s p n) cur part = some c := by
  unfold Vfs.step_into at hs ⊢
  split_ifs at hs ⊢ with h1 h2 h3
  · exact hs
  · exact hs
  · rw [hi.unlinked_parent hn]
    exact hs
  · obtain ⟨hmem, hname⟩ := hi.find_child_some.1 hs
    exact (hi.unlink hn).find_child_some.2 ⟨(hi.mem_without hn).2 ⟨hmem, hcn⟩, (hi.unlinked_name hn hcn).trans hname⟩

/-- A step down that failed still fails: no name is new. -/
theorem Inv.step_unlinked_none (hs : step_into s cur part = none) : step_into (unlinked s p n) cur part = none := by
  unfold Vfs.step_into at hs ⊢
  split_ifs at hs ⊢ with h1 h2 h3
  refine (hi.unlink hn).find_child_none.2 (fun c hc hname => ?_)
  obtain ⟨hmem, hcn⟩ := (hi.mem_without hn).1 hc
  rw [hi.unlinked_name hn hcn] at hname
  exact hi.find_child_none.1 hs c hmem hname

/-- A walk that does not pass the unlinked node ends where it did, or fails where it did. -/
theorem Inv.walk_unlinked (ht : n ∉ trail s cur ps) : walk (unlinked s p n) cur ps = walk s cur ps := by
  induction ps generalizing cur with
  | nil => rfl
  | cons part ps ih =>
    rw [walk_cons, walk_cons]
    cases hs : step_into s cur part with
    | none =>
      rw [hi.step_unlinked_none hn hs]
      rfl
    | some c =>
      rw [trail_cons, hs, Option.elim_some, List.mem_cons, not_or] at ht
      have hcn : c ≠ n := by
        rintro rfl
        exact ht.2 (mem_trail_self s c ps)
      rw [hi.step_unlinked hn hs hcn]
      exact ih ht.2

/-- The step that would reach the unlinked node fails: it is one down, since a step up to it comes from below it. -/
theorem Inv.step_to_unlinked (hc : Live kids cur) (hcur : ¬ Below s n cur) (hs : step_into s cur part = some n) :
    step_into (unlinked s p n) cur part = none := by
  unfold Vfs.step_into at hs ⊢
  split_ifs at hs ⊢ with h1 h2 h3
  · cases hs
    exact absurd (.refl _) hcur
  · cases hs
    exact absurd (.refl _) hcur
  · have hup : (s.nodes cur).parent.getD cur = n := Option.some.inj hs
    rcases hc.cases_parent hi with rfl | ⟨q, hq, -, -⟩
    · rw [hi.root_node.1, Option.getD_none] at hup
      exact absurd (hup ▸ .refl _) hcur
    · rw [hq, Option.getD_some] at hup
      exact absurd (.up hq (hup ▸ .refl _)) hcur
  · obtain ⟨hmem, hname⟩ := hi.find_child_some.1 hs
    refine (hi.unlink hn).find_child_none.2 (fun c hcmem hcname => ?_)
    obtain ⟨hcmem, hcn⟩ := (hi.mem_without hn).1 hcmem
    rw [hi.unlinked_name hn hcn] at hcname
    exact hcn (List.inj_on_of_nodup_map (hi.names cur) hcmem hmem (hcname.trans hname.symm))

theorem Inv.walk_through_unlinked (hc : Live kids cur) (hcur : ¬ Below s n cur) (ht : n ∈ trail s cur ps) :
    walk (unlinked s p n) cur ps = none := by
  have hne : cur ≠ n := by
    rintro rfl
    exact hcur (.refl _)
  induction ps generalizing cur with
  | nil => exact absurd (List.mem_singleton.1 ht).symm hne
  | cons part ps ih =>
    rw [walk_cons]
    cases hs : step_into s cur part with
    | none =>
      rw [trail_cons, hs] at ht
      exact absurd (List.mem_singleton.1 ht).symm hne
    | some c =>
      rw [trail_cons, hs, Option.elim_some, List.mem_cons] at ht
      by_cases hcn : c = n
      · rw [hi.step_to_unlinked hn hc hcur (hcn ▸ hs)]
        rfl
      · rw [hi.step_unlinked hn hs hcn]
        exact ih (hc.step_into hi hs) (hi.step_below hs hcur hcn) (ht.resolve_left (fun h => hne h.symm)) hcn

end

end

/-- The nodes that resolving a path passes. -/
def visited (s : St) (path : List UInt8) : List NodePtr := trail s root (parts (normalize_path s path).tail)

/-- What is left of the tree without the node `n` and all below it. -/
structure Removed (s : St) (n : NodePtr) (s' : St) : Prop where
  gone : ∀ q, n ∈ visited s q → vfs_resolve s' q = none
  same : ∀ q, n ∉ visited s q → vfs_resolve s' q = vfs_resolve s q
  kept : ∀ q m, n ∉ visited s q → vfs_resolve s q = some m → (s'.nodes m).type = (s.nodes m).type ∧
    (s'.nodes m).size = (s.nodes m).size ∧ (s'.nodes m).data = (s.nodes m).data

theorem Inv.removed {s : St} {kids : Kids} {n p : NodePtr} (hi : Inv s kids) (hn : n ∈ kids p) :
    Removed s n (unlinked s p n) := by
  have hcwd : (unlinked s p n).cwd = s.cwd := (hi.unthreaded hn).cwd
  have hres : ∀ q, vfs_resolve (unlinked s p n) q = walk (unlinked s p n) root (parts (normalize_path s q).tail) := by
    intro q
    rw [resolve_eq, normalize_congr hcwd]
  refine ⟨fun q hq => ?_, fun q hq => ?_, fun q m hq hm => ?_⟩
  · rw [hres]
    exact hi.walk_through_unlinked hn .top (hi.root_not_below hn) hq
  · rw [hres, resolve_eq]
    exact hi.walk_unlinked hn hq
  · have hmn : m ≠ n := by
      rintro rfl
      rw [resolve_eq] at hm
      exact hq (mem_trail_last hm)
    have htype := congrArg vfs_node_t.type (hi.unlinked_kept hn hmn)
    have hsize := congrArg vfs_node_t.size (hi.unlinked_kept hn hmn)
    have hdata := congrArg vfs_node_t.data (hi.unlinked_kept hn hmn)
    exact ⟨htype, hsize, hdata⟩

/-- An unlink that succeeds removes the node of its path with all below it and nothing else; one that fails changes
nothing, and it fails exactly for a path that leads nowhere or to the root. -/
theorem unlink_removes_subtree {s : St} (h : Reach s) (path : List UInt8) :
    ((vfs_unlink s path).1 = 0 → vfs_resolve (vfs_unlink s path).2 path = none ∧
      ∃ n, vfs_resolve s path = some n ∧ Removed s n (vfs_unlink s path).2) ∧
    ((vfs_unlink s path).1 = -1 → (vfs_unlink s path).2 = s) ∧
    ((vfs_unlink s path).1 = -1 ↔ vfs_resolve s path = none ∨ vfs_resolve s path = some root) ∧
    ((vfs_unlink s path).1 = 0 ∨ (vfs_unlink s path).1 = -1) := by
  obtain ⟨kids, hi⟩ := h.inv
  rcases hi.vfs_unlink_cases path with ⟨hu, hroot⟩ | ⟨n, p, hr, hn, hu⟩
  · rw [hu]
    refine ⟨nofun, fun _ => rfl, ⟨fun _ => ?_, fun _ => rfl⟩, .inr rfl⟩
    cases hr : vfs_resolve s path with
    | none => exact .inl rfl
    | some n => exact .inr (congrArg some (hroot n hr))
  · rw [hu, hr]
    have hrem := hi.removed hn
    refine ⟨fun _ => ⟨hrem.gone path ?_, n, rfl, hrem⟩, nofun, ⟨nofun, fun hbad => ?_⟩, .inl rfl⟩
    · rw [resolve_eq] at hr
      exact mem_trail_last hr
    · rcases hbad with hbad | hbad
      · cases hbad
      · exact absurd (Option.some.inj hbad) (hi.kid_ne_root hn)

/-- Removing `/var` with what is in it leaves `/etc/motd`, also by way of a path that asks for `..` in `/`. -/
theorem unlink_removes_subtree_var :
    (vfs_unlink (vfs_init fun _ => true) (str "/var")).1 = 0 ∧
    vfs_resolve (vfs_unlink (vfs_init fun _ => true) (str "/var")).2 (str "/var/lib/h3pkg/../../../etc/motd") = none ∧
    vfs_resolve (vfs_unlink (vfs_init fun _ => true) (str "/var")).2 (str "/../etc/motd") = some ⟨14, by decide⟩ := by
  have hzero : (vfs_unlink (vfs_init fun _ => true) (str "/var")).1 = 0 := by decide +kernel
  have hvar : vfs_resolve (vfs_init fun _ => true) (str "/var") = some ⟨6, by decide⟩ := by decide +kernel
  have hmotd : vfs_resolve (vfs_init fun _ => true) (str "/../etc/motd") = some ⟨14, by decide⟩ := by decide +kernel
  obtain ⟨-, n, hn, hrem⟩ := (unlink_removes_subtree (.init fun _ => true) (str "/var")).1 hzero
  rw [hvar] at hn
  cases hn
  refine ⟨hzero, hrem.gone _ (by decide +kernel), ?_⟩
  rw [hrem.same _ (by decide +kernel), hmotd]

end H3OS.Vfs
