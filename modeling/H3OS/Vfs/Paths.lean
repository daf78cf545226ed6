import H3OS.Vfs.Tree
/-!
# Walking a path

The components of a path do not depend on the fuel of the loop that reads
them, and a slash between two texts splits the walk in two. Walks see links,
names and parents only, and stay on the nodes of the tree.
-/
open SysLib

namespace H3OS.Vfs

/-! ## Components -/

/-- The components of a path behind its first slash. -/
def parts (p : List UInt8) : List (List UInt8) := path_parts p.length p

theorem next_part_lt {p : List UInt8} (hp : p ≠ []) : (next_part p).2.length < p.length := by
  obtain ⟨b, p, rfl⟩ := List.exists_cons_of_ne_nil hp
  unfold next_part
  dsimp only
  by_cases hb : b = SLASH
  · have htake : (b :: p).takeWhile (· ≠ SLASH) = [] := by simp [hb]
    rw [htake, List.take_nil, List.length_nil, List.drop_zero, List.dropWhile_cons_of_pos (by simpa using hb)]
    exact Nat.lt_succ_of_le (List.length_dropWhile_le _ _)
  · have htake : (b :: p).takeWhile (· ≠ SLASH) = b :: p.takeWhile (· ≠ SLASH) := by simp [hb]
    rw [htake]
    refine (List.length_dropWhile_le _ _).trans_lt ?_
    rw [List.length_drop, List.length_take, List.length_cons, List.length_cons]
    unfold VFS_NAME_MAX
    omega

theorem path_parts_fuel {fuel : Nat} {p : List UInt8} (h : p.length ≤ fuel) : path_parts fuel p = parts p := by
  unfold parts
  induction hk : p.length using Nat.strong_induction_on generalizing p fuel with
  | _ k ih =>
    cases p with
    | nil => cases fuel <;> cases k <;> rfl
    | cons b p =>
      have hlt := next_part_lt (List.cons_ne_nil b p)
      rw [← hk]
      rw [List.length_cons] at h hlt ⊢
      cases fuel with
      | zero => omega
      | succ fuel =>
        rw [path_parts.eq_def, path_parts.eq_def (p.length + 1)]
        dsimp only
        have hsmall : (next_part (b :: p)).2.length < k := by simpa [← hk] using hlt
        have h1 : path_parts fuel _ = _ := ih _ hsmall (p := (next_part (b :: p)).2) (by omega) rfl
        have h2 : path_parts p.length _ = _ := ih _ hsmall (p := (next_part (b :: p)).2) (by omega) rfl
        rw [h1, h2]

theorem parts_nil : parts [] = [] := rfl

theorem parts_cons {p : List UInt8} (hp : p ≠ []) : parts p = (next_part p).1 :: parts (next_part p).2 := by
  have hlt := next_part_lt hp
  obtain ⟨b, p, rfl⟩ := List.exists_cons_of_ne_nil hp
  rw [parts, List.length_cons, path_parts]
  · rw [path_parts_fuel (by simpa using Nat.le_of_lt_succ hlt)]
  · simp

theorem parts_slash (p : List UInt8) : parts (SLASH :: p) = [] :: parts (p.dropWhile (· = SLASH)) := by
  rw [parts_cons (List.cons_ne_nil _ _)]
  simp [next_part]

/-- A single component. -/
theorem parts_single {x : List UInt8} (hx : SLASH ∉ x) (hne : x ≠ []) (hlen : x.length < VFS_NAME_MAX) : parts x = [x] := by
  have htake : x.takeWhile (· ≠ SLASH) = x := by
    refine List.takeWhile_eq_self_iff.2 (fun b hb => ?_)
    simp only [ne_eq, decide_not, Bool.not_eq_eq_eq_not, Bool.not_true, decide_eq_false_iff_not]
    rintro rfl
    exact hx hb
  have hcut : x.take (VFS_NAME_MAX - 1) = x := List.take_of_length_le (by omega)
  rw [parts_cons hne]
  simp only [next_part, htake, hcut, List.drop_length, List.dropWhile_nil, parts_nil]

/-- What a slash and more behind a path change for its first component. -/
theorem next_part_join (l q : List UInt8) : next_part (l ++ SLASH :: q) =
    ((next_part l).1, if (next_part l).2 = [] then q.dropWhile (· = SLASH) else (next_part l).2 ++ SLASH :: q) := by
  have hpart : (l ++ SLASH :: q).takeWhile (· ≠ SLASH) = l.takeWhile (· ≠ SLASH) := by
    rw [List.takeWhile_append]
    split_ifs with hall
    · rw [List.takeWhile_cons_of_neg (by simp), List.append_nil, (List.takeWhile_prefix _).eq_of_length hall]
    · rfl
  have hcut : ((l.takeWhile (· ≠ SLASH)).take (VFS_NAME_MAX - 1)).length ≤ l.length :=
    (List.length_take_le' _ _).trans (List.takeWhile_prefix _).length_le
  unfold next_part
  dsimp only
  rw [hpart, List.drop_append_of_le_length hcut, List.dropWhile_append, List.dropWhile_cons_of_pos (by simp)]
  simp only [List.isEmpty_iff]

/-- Behind a slash the loop starts afresh; a slash at the front is an empty component. -/
theorem parts_join (a q : List UInt8) : ∃ e, (e = [] ∨ e = [[]]) ∧
    parts (a ++ SLASH :: q) = parts a ++ e ++ parts (q.dropWhile (· = SLASH)) := by
  induction hk : a.length using Nat.strong_induction_on generalizing a with
  | _ k ih =>
    by_cases hne : a = []
    · rw [hne]
      exact ⟨[[]], .inr rfl, parts_slash q⟩
    · have hsplit := next_part_join a q
      rw [parts_cons (List.append_ne_nil_of_left_ne_nil hne _), parts_cons hne, hsplit]
      dsimp only
      by_cases hrest : (next_part a).2 = []
      · rw [if_pos hrest, hrest]
        exact ⟨[], .inl rfl, rfl⟩
      · rw [if_neg hrest]
        obtain ⟨e, he, heq⟩ := ih _ (hk ▸ next_part_lt hne) _ rfl
        exact ⟨e, he, congrArg _ heq⟩

/-! ## Walks -/

section
variable (s : St) (cur : NodePtr)

theorem step_into_empty : step_into s cur [] = some cur := rfl

theorem walk_cons (part : List UInt8) (ps : List (List UInt8)) :
    walk s cur (part :: ps) = (step_into s cur part).bind (fun c => walk s c ps) := by
  rw [walk]
  cases step_into s cur part <;> rfl

theorem walk_append (a b : List (List UInt8)) : walk s cur (a ++ b) = (walk s cur a).bind (fun c => walk s c b) := by
  induction a generalizing cur with
  | nil => rfl
  | cons part a ih =>
    rw [List.cons_append, walk_cons, walk_cons, Option.bind_assoc]
    simp only [ih]

theorem walk_single (part : List UInt8) : walk s cur [part] = step_into s cur part := by
  rw [walk_cons]
  cases step_into s cur part <;> rfl

theorem walk_dropWhile (p : List UInt8) : walk s cur (parts (p.dropWhile (· = SLASH))) = walk s cur (parts p) := by
  cases p with
  | nil => rfl
  | cons b p =>
    by_cases hb : b = SLASH
    · rw [hb, List.dropWhile_cons_of_pos (by simp), parts_slash, walk_cons, step_into_empty, Option.bind_some]
    · rw [List.dropWhile_cons_of_neg (by simpa using hb)]

/-- Behind a slash the walk starts afresh. -/
theorem walk_join (a q : List UInt8) :
    walk s cur (parts (a ++ SLASH :: q)) = (walk s cur (parts a)).bind (fun c => walk s c (parts q)) := by
  obtain ⟨e, he, heq⟩ := parts_join a q
  rw [heq, walk_append, walk_append]
  rcases he with rfl | rfl
  · rw [Option.bind_assoc]
    simp only [walk_dropWhile]
    rfl
  · rw [Option.bind_assoc]
    simp only [walk_dropWhile]
    rfl

theorem resolve_eq (path : List UInt8) : vfs_resolve s path = walk s root (parts (normalize_path s path).tail) := by
  unfold vfs_resolve
  dsimp only
  split_ifs with h
  · rw [h]
    rfl
  · rw [path_parts_fuel (by simp)]

end

/-- A path that starts with a slash is its own normal form, if it is short. -/
theorem normalize_absolute (s : St) {p : List UInt8} (h : p.head? = some SLASH) (hl : p.length < VFS_PATH_MAX) :
    normalize_path s p = p := by
  unfold normalize_path full_path
  rw [if_pos h]
  exact List.take_of_length_le (by omega)

/-! ## The directory and the name of a path -/

theorem split_last_eq {full : List UInt8} (h : SLASH ∈ full) :
    full = (split_last full).1 ++ SLASH :: (split_last full).2 ∧ SLASH ∉ (split_last full).2 := by
  unfold split_last
  dsimp only
  have hsplit : full.reverse.takeWhile (· ≠ SLASH) ++ full.reverse.dropWhile (· ≠ SLASH) = full.reverse :=
    List.takeWhile_append_dropWhile
  have hclean : SLASH ∉ full.reverse.takeWhile (· ≠ SLASH) := fun hmem => by
    have := List.mem_takeWhile_imp hmem
    simp at this
  generalize full.reverse.takeWhile (· ≠ SLASH) = w at hsplit hclean ⊢
  cases hd : full.reverse.dropWhile (· ≠ SLASH) with
  | nil =>
    rw [hd, List.append_nil] at hsplit
    exact absurd (List.mem_reverse.2 h) (hsplit ▸ hclean)
  | cons b rest =>
    have hb := List.head?_dropWhile_not (· ≠ SLASH) full.reverse
    rw [hd] at hb
    have hslash : b = SLASH := by simpa using hb
    rw [hd, hslash] at hsplit
    have hfull : full = rest.reverse ++ SLASH :: w.reverse := by
      have := congrArg List.reverse hsplit
      rw [List.reverse_reverse] at this
      rw [← this]
      simp
    refine ⟨?_, by simpa using hclean⟩
    have hlen : full.length - w.reverse.length - 1 = rest.reverse.length := by
      rw [hfull, List.length_append, List.length_cons]
      omega
    rw [hlen]
    nth_rewrite 2 [hfull]
    rw [List.take_left]
    exact hfull

theorem normalize_head {s : St} (hcwd : s.cwd.head? = some SLASH) (path : List UInt8) :
    (normalize_path s path).head? = some SLASH := by
  unfold normalize_path full_path
  rw [List.head?_take, if_neg (by decide)]
  by_cases h : path.head? = some SLASH
  · rw [if_pos h]
    exact h
  · rw [if_neg h, List.append_assoc, List.head?_append, hcwd]
    rfl

theorem normalize_congr {s s' : St} (h : s'.cwd = s.cwd) (path : List UInt8) :
    normalize_path s' path = normalize_path s path := by
  unfold normalize_path full_path
  rw [h]

/-- A path with a name at its end leads to the directory that `ensure_parent` finds, and then to the name. -/
theorem ensure_parent_parts {s : St} (hcwd : s.cwd.head? = some SLASH) {path : List UInt8}
    (hne : (ensure_parent s path).2 ≠ []) (hfit : (ensure_parent s path).2.length < VFS_NAME_MAX) :
    ∃ ps, parts (normalize_path s path).tail = ps ++ [(ensure_parent s path).2] ∧
      ∀ s', s'.cwd = s.cwd → ensure_parent s' path = (walk s' root ps, (ensure_parent s path).2) := by
  have hhead := normalize_head hcwd path
  have hshort : (normalize_path s path).length ≤ VFS_PATH_MAX - 1 := List.length_take_le _ _
  obtain ⟨hsplit, hclean⟩ := split_last_eq (List.mem_of_mem_head? hhead)
  have heq : ∀ s', s'.cwd = s.cwd → ensure_parent s' path =
      if (split_last (normalize_path s path)).1 = [] then (some root, (normalize_path s path).tail)
      else (vfs_resolve s' (split_last (normalize_path s path)).1, (split_last (normalize_path s path)).2) := by
    intro s' hs'
    unfold ensure_parent
    rw [normalize_congr hs']
  rw [heq s rfl] at hne hfit ⊢
  generalize normalize_path s path = full at hhead hshort hsplit hclean hne hfit heq ⊢
  generalize (split_last full).1 = dir at hsplit hne hfit heq ⊢
  generalize (split_last full).2 = leaf at hsplit hclean hne hfit heq ⊢
  rw [hsplit] at hhead hshort hne hfit heq ⊢
  by_cases hdir : dir = []
  · rw [hdir, if_pos rfl, List.nil_append, List.tail_cons] at hne hfit ⊢
    refine ⟨[], parts_single hclean hne hfit, fun s' hs' => ?_⟩
    rw [heq s' hs', if_pos hdir, hdir, List.nil_append, List.tail_cons]
    rfl
  · rw [if_neg hdir] at hne hfit ⊢
    obtain ⟨b, dir, rfl⟩ := List.exists_cons_of_ne_nil hdir
    obtain ⟨e, he, hparts⟩ := parts_join dir leaf
    have hdrop : leaf.dropWhile (· = SLASH) = leaf := by
      refine List.dropWhile_eq_self_iff.2 (fun hlen => ?_)
      simp only [decide_eq_true_eq]
      intro h0
      exact hclean (h0 ▸ List.getElem_mem hlen)
    rw [List.cons_append, List.tail_cons, hparts, hdrop, parts_single hclean hne hfit]
    refine ⟨_, rfl, fun s' hs' => ?_⟩
    have habs : (b :: dir).head? = some SLASH := hhead
    have hlen : (b :: dir).length < VFS_PATH_MAX := by
      rw [List.length_append] at hshort
      unfold VFS_PATH_MAX at *
      omega
    rw [heq s' hs', if_neg hdir, resolve_eq, normalize_absolute _ habs hlen, List.tail_cons, walk_append]
    rcases he with rfl | rfl <;> cases walk s' root (parts dir) <;> rfl

/-! ## The nodes a walk passes -/

def trail (s : St) : NodePtr → List (List UInt8) → List NodePtr
  | cur, [] => [cur]
  | cur, part :: ps =>
    match step_into s cur part with
    | none => [cur]
    | some c => cur :: trail s c ps

section
variable {s : St} {cur m : NodePtr} {ps : List (List UInt8)}

theorem trail_cons (part : List UInt8) (ps : List (List UInt8)) :
    trail s cur (part :: ps) = cur :: (step_into s cur part).elim [] (fun c => trail s c ps) := by
  rw [trail]
  cases step_into s cur part <;> rfl

theorem mem_trail_self (s : St) (cur : NodePtr) (ps : List (List UInt8)) : cur ∈ trail s cur ps := by
  cases ps with
  | nil => exact List.mem_cons_self
  | cons part ps =>
    rw [trail_cons]
    exact List.mem_cons_self

theorem mem_trail_last (h : walk s cur ps = some m) : m ∈ trail s cur ps := by
  induction ps generalizing cur with
  | nil =>
    cases h
    exact List.mem_cons_self
  | cons part ps ih =>
    rw [walk_cons] at h
    obtain ⟨c, hs, hw⟩ := Option.bind_eq_some_iff.1 h
    rw [trail_cons, hs]
    exact List.mem_cons_of_mem _ (ih hw)

theorem mem_trail_concat {c : NodePtr} {part : List UInt8} (h : walk s cur ps = some c) :
    m ∈ trail s cur (ps ++ [part]) ↔ m ∈ trail s cur ps ∨ step_into s c part = some m := by
  induction ps generalizing cur with
  | nil =>
    cases h
    rw [List.nil_append, trail_cons]
    cases step_into s c part <;> simp [trail, eq_comm]
  | cons first ps ih =>
    rw [walk_cons] at h
    obtain ⟨d, hs, hw⟩ := Option.bind_eq_some_iff.1 h
    rw [List.cons_append, trail_cons, trail_cons, hs, Option.elim_some, Option.elim_some, List.mem_cons, List.mem_cons,
      ih hw, or_assoc]

end

/-! ## Walks in the same tree -/

section
variable {s s' : St} (h : SameTree s s')
include h

theorem SameTree.siblings (fuel : Nat) (p : Option NodePtr) : siblings s' fuel p = siblings s fuel p := by
  induction fuel generalizing p with
  | zero => rfl
  | succ fuel ih =>
    cases p with
    | none => rfl
    | some c => rw [Vfs.siblings, Vfs.siblings, ih, h.sibling]

theorem SameTree.step_into (cur : NodePtr) (part : List UInt8) : step_into s' cur part = step_into s cur part := by
  unfold Vfs.step_into find_child
  simp only [h.parent, h.siblings, h.child, h.name]

theorem SameTree.walk (cur : NodePtr) (ps : List (List UInt8)) : walk s' cur ps = walk s cur ps := by
  induction ps generalizing cur with
  | nil => rfl
  | cons part ps ih =>
    rw [walk_cons, walk_cons, h.step_into]
    simp only [ih]

theorem SameTree.trail (cur : NodePtr) (ps : List (List UInt8)) : trail s' cur ps = trail s cur ps := by
  induction ps generalizing cur with
  | nil => rfl
  | cons part ps ih =>
    rw [trail_cons, trail_cons, h.step_into]
    simp only [ih]

theorem SameTree.resolve (hc : s'.cwd = s.cwd) (path : List UInt8) : vfs_resolve s' path = vfs_resolve s path := by
  rw [resolve_eq, resolve_eq, normalize_congr hc, h.walk]

end

end H3OS.Vfs
