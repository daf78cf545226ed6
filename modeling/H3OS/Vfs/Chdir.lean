import H3OS.Vfs.Calls
/-!
# Changing directory

`vfs_chdir` writes the names on the way up from its target into a table of 32
and joins them again. A target's names weigh no more than the path that led
to it, so the joined text fits `cwd`, and reading it leads back to the target
as long as the table holds all the names and `strncpy` ended each of them.
-/
open SysLib

namespace H3OS.Vfs

/-- The names on the way down from the root to a node. -/
inductive Spells (s : St) : NodePtr → List (List UInt8) → Prop
  | top : Spells s root []
  | down {n p : NodePtr} {xs : List (List UInt8)} (hp : (s.nodes n).parent = some p) (h : Spells s p xs) :
    Spells s n (xs ++ [(s.nodes n).name])

/-- What a component of a path can be. -/
structure Plain (x : List UInt8) : Prop where
  slash : SLASH ∉ x
  short : x.length < VFS_NAME_MAX

/-- A name that a walk looks up. -/
structure Regular (x : List UInt8) : Prop extends Plain x where
  ne_nil : x ≠ []
  ne_dot : x ≠ str "."
  ne_dots : x ≠ str ".."

/-- The bytes a component takes of a path: a slash ends it unless the loop cut it. -/
def weight (x : List UInt8) : Nat := if x.length < VFS_NAME_MAX - 1 then x.length + 1 else x.length

section
variable {s : St} {kids : Kids} {n cur : NodePtr} {xs ys : List (List UInt8)}

theorem Spells.unique (hi : Inv s kids) (hx : Spells s n xs) (hy : Spells s n ys) : xs = ys := by
  induction hx generalizing ys with
  | top =>
    cases hy with
    | top => rfl
    | down hp _ =>
      rw [hi.root_node.1] at hp
      cases hp
  | down hp _ ih =>
    cases hy with
    | top =>
      rw [hi.root_node.1] at hp
      cases hp
    | down hq hy =>
      cases Option.some.inj (hp.symm.trans hq)
      rw [ih hy]

/-- A node comes later in the table than all above it. -/
theorem Spells.depth_le (hi : Inv s kids) (h : Spells s n xs) : xs.length ≤ n.val := by
  induction h with
  | top => exact Nat.zero_le _
  | down hp _ ih =>
    have := hi.up _ _ hp
    rw [List.length_append, List.length_singleton]
    omega

theorem Spells.names_up (hi : Inv s kids) (h : Spells s n xs) {fuel : Nat} (hf : xs.length ≤ fuel) :
    names_up s fuel (some n) = xs.reverse := by
  induction h generalizing fuel with
  | top => cases fuel <;> rfl
  | @down n p xs hp h ih =>
    rw [List.length_append, List.length_singleton] at hf
    have hroot : n ≠ root := by
      rintro rfl
      rw [hi.root_node.1] at hp
      cases hp
    cases fuel with
    | zero => omega
    | succ fuel =>
      rw [Vfs.names_up, if_neg hroot, hp, ih (by omega), List.reverse_append, List.reverse_singleton, List.singleton_append]

/-! ## What a path spells -/

theorem next_part_plain (p : List UInt8) : Plain (next_part p).1 := by
  refine ⟨fun h => ?_, ?_⟩
  · have := List.mem_takeWhile_imp (List.mem_of_mem_take h)
    simp at this
  · unfold next_part VFS_NAME_MAX
    dsimp only
    rw [List.length_take]
    omega

/-- A component with more behind it takes its weight of the path. -/
theorem next_part_weight {p : List UInt8} (h : (next_part p).2 ≠ []) :
    weight (next_part p).1 + (next_part p).2.length ≤ p.length := by
  unfold next_part at h ⊢
  dsimp only at h ⊢
  generalize hw : p.takeWhile (· ≠ SLASH) = w at h ⊢
  have hle := List.length_dropWhile_le (· = SLASH) (p.drop (w.take (VFS_NAME_MAX - 1)).length)
  rw [List.length_drop] at hle
  unfold weight
  split_ifs with hshort
  · -- the component ends at a slash, which the loop skips
    have hcut : w.take (VFS_NAME_MAX - 1) = w := by
      rw [List.length_take] at hshort
      exact List.take_of_length_le (by omega)
    rw [hcut] at h ⊢
    have hdrop : p.drop w.length = p.dropWhile (· ≠ SLASH) := by
      nth_rewrite 1 [← List.takeWhile_append_dropWhile (p := (· ≠ SLASH)) (l := p)]
      rw [hw, List.drop_left]
    rw [hdrop] at h ⊢
    cases hd : p.dropWhile (· ≠ SLASH) with
    | nil =>
      rw [hd] at h
      exact absurd rfl h
    | cons b q =>
      have hb : b = SLASH := by
        have hhead := List.head?_dropWhile_not (· ≠ SLASH) p
        rw [hd] at hhead
        simpa using hhead
      have hq := List.length_dropWhile_le (· = SLASH) q
      rw [List.dropWhile_cons_of_pos (by simpa using hb)]
      have hlen := congrArg List.length hdrop
      rw [List.length_drop, hd, List.length_cons] at hlen
      omega
  · have hpos : (w.take (VFS_NAME_MAX - 1)).length ≤ p.length := by
      rw [← hw]
      exact (List.length_take_le' _ _).trans (List.takeWhile_prefix _).length_le
    omega

/-- One component spells a regular name more, one less, or the same. -/
theorem Spells.step_into (hi : Inv s kids) (hx : Spells s cur xs) (hreg : ∀ x ∈ xs, Regular x) {part : List UInt8}
    (hp : Plain part) (h : step_into s cur part = some n) :
    ∃ ys, Spells s n ys ∧ (∀ y ∈ ys, Regular y) ∧ ys.length ≤ xs.length + 1 ∧
      (ys.map weight).sum ≤ (xs.map weight).sum + weight part := by
  unfold Vfs.step_into at h
  split_ifs at h with h1 h2 h3
  · cases h
    exact ⟨xs, hx, hreg, by omega, by omega⟩
  · cases h
    exact ⟨xs, hx, hreg, by omega, by omega⟩
  · cases h
    cases hx with
    | top =>
      rw [hi.root_node.1]
      exact ⟨[], .top, by simp, by simp, by simp⟩
    | @down _ q zs hq hz =>
      rw [hq]
      refine ⟨zs, hz, fun y hy => hreg y (List.mem_append_left _ hy), by simp; omega, ?_⟩
      rw [List.map_append, List.sum_append]
      omega
  · obtain ⟨hc, hn⟩ := hi.find_child_some.1 h
    have hd := Spells.down (hi.parent cur n hc) hx
    rw [hn] at hd
    refine ⟨_, hd, fun y hy => ?_, by simp, by simp⟩
    rcases List.mem_append.1 hy with hy | hy
    · exact hreg y hy
    · cases List.mem_singleton.1 hy
      exact ⟨hp, h1, h2, h3⟩

/-- A walk by components never spells more names than it has components. -/
theorem Spells.walk_length (hi : Inv s kids) (hx : Spells s cur xs) (hreg : ∀ x ∈ xs, Regular x)
    {ps : List (List UInt8)} (hps : ∀ x ∈ ps, Plain x) (h : walk s cur ps = some n) :
    ∃ ys, Spells s n ys ∧ ys.length ≤ xs.length + ps.length := by
  induction ps generalizing cur xs with
  | nil =>
    cases h
    exact ⟨xs, hx, le_refl _⟩
  | cons part ps ih =>
    rw [walk_cons] at h
    obtain ⟨c, hs, hw⟩ := Option.bind_eq_some_iff.1 h
    obtain ⟨zs, hz, hzreg, hzlen, -⟩ := hx.step_into hi hreg (hps part List.mem_cons_self) hs
    obtain ⟨ys, hy, hylen⟩ := ih hz hzreg (fun x hx => hps x (List.mem_cons_of_mem _ hx)) hw
    refine ⟨ys, hy, ?_⟩
    rw [List.length_cons]
    omega

/-- The names a path leads to are regular, and weigh no more than the path with its first slash. -/
theorem Spells.walk_weight (hi : Inv s kids) (hx : Spells s cur xs) (hreg : ∀ x ∈ xs, Regular x) {p : List UInt8}
    (h : walk s cur (parts p) = some n) :
    ∃ ys, Spells s n ys ∧ (∀ y ∈ ys, Regular y) ∧
      (ys.map weight).sum ≤ (xs.map weight).sum + if p = [] then 0 else p.length + 1 := by
  induction hk : p.length using Nat.strong_induction_on generalizing p cur xs with
  | _ k ih =>
    by_cases hp : p = []
    · rw [hp] at h
      cases h
      exact ⟨xs, hx, hreg, by omega⟩
    · rw [parts_cons hp, walk_cons] at h
      obtain ⟨c, hs, hw⟩ := Option.bind_eq_some_iff.1 h
      obtain ⟨zs, hz, hzreg, -, hzw⟩ := hx.step_into hi hreg (next_part_plain p) hs
      obtain ⟨ys, hy, hyreg, hyw⟩ := ih _ (hk ▸ next_part_lt hp) hz hzreg hw rfl
      refine ⟨ys, hy, hyreg, ?_⟩
      rw [if_neg hp, ← hk]
      by_cases hrest : (next_part p).2 = []
      · rw [if_pos hrest] at hyw
        have hlen : (next_part p).1.length ≤ p.length :=
          (List.length_take_le' _ _).trans (List.takeWhile_prefix _).length_le
        have hwt : weight (next_part p).1 ≤ (next_part p).1.length + 1 := by
          unfold weight
          split_ifs <;> omega
        omega
      · rw [if_neg hrest] at hyw
        have := next_part_weight hrest
        omega

/-- What is known of the target of a path. -/
theorem Inv.resolve_spells (hi : Inv s kids) {path : List UInt8} (h : vfs_resolve s path = some n) :
    ∃ xs, Spells s n xs ∧ (∀ x ∈ xs, Regular x) ∧ (xs.map weight).sum < VFS_PATH_MAX := by
  rw [resolve_eq] at h
  obtain ⟨xs, hx, hreg, hw⟩ := Spells.walk_weight hi .top (by simp) h
  refine ⟨xs, hx, hreg, ?_⟩
  have hlen : (normalize_path s path).length ≤ VFS_PATH_MAX - 1 := List.length_take_le _ _
  have htail : (normalize_path s path).tail.length = (normalize_path s path).length - 1 := List.length_tail
  rw [List.map_nil, List.sum_nil] at hw
  unfold VFS_PATH_MAX at *
  split_ifs at hw with hnil
  · omega
  · have := List.length_pos_of_ne_nil hnil
    omega

/-- The names of a target lead to it. -/
theorem Spells.walk (hi : Inv s kids) (h : Spells s n xs) (hn : Live kids n) (hreg : ∀ x ∈ xs, Regular x) :
    walk s root xs = some n := by
  induction h with
  | top => rfl
  | @down n p xs hp h ih =>
    rcases hn.cases_parent hi with rfl | ⟨q, hq, hmem, hlive⟩
    · rw [hi.root_node.1] at hp
      cases hp
    · cases Option.some.inj (hp.symm.trans hq)
      have hx := hreg _ (List.mem_append_right _ (List.mem_singleton_self _))
      rw [walk_append, ih hlive (fun x hx => hreg x (List.mem_append_left _ hx)), Option.bind_some, walk_single]
      unfold Vfs.step_into
      rw [if_neg hx.ne_nil, if_neg hx.ne_dot, if_neg hx.ne_dots]
      exact hi.find_child_some.2 ⟨hmem, rfl⟩

/-! ## The text joined from names -/

/-- What `strcat` makes of a list of names. -/
def joined (xs : List (List UInt8)) : List UInt8 := xs.foldl append_part (str "/")

theorem joined_concat (xs : List (List UInt8)) (x : List UInt8) : joined (xs ++ [x]) = append_part (joined xs) x := by
  unfold joined
  rw [List.foldl_append]
  rfl

theorem joined_cons (xs : List (List UInt8)) : ∃ t, joined xs = SLASH :: t := by
  induction xs using List.reverseRecOn with
  | nil => exact ⟨[], rfl⟩
  | append_singleton xs x ih =>
    obtain ⟨t, ht⟩ := ih
    rw [joined_concat, ht]
    unfold append_part
    split_ifs
    · exact ⟨_, rfl⟩
    · exact ⟨_, rfl⟩

theorem walk_joined (s : St) (cur : NodePtr) (h : ∀ x ∈ xs, Plain x ∧ x ≠ []) :
    Vfs.walk s cur (parts (joined xs).tail) = Vfs.walk s cur xs := by
  induction xs using List.reverseRecOn with
  | nil => rfl
  | append_singleton xs x ih =>
    obtain ⟨hx, hne⟩ := h x (List.mem_append_right _ (List.mem_singleton_self _))
    have ih := ih (fun y hy => h y (List.mem_append_left _ hy))
    obtain ⟨t, ht⟩ := joined_cons xs
    rw [ht, List.tail_cons] at ih
    rw [joined_concat, ht, walk_append, ← ih]
    unfold append_part
    split_ifs with hlen
    · rw [List.cons_append, List.cons_append, List.tail_cons, List.append_assoc, List.singleton_append, walk_join,
        parts_single hx.slash hne hx.short]
    · -- nothing stands before the first name
      have hnil : t = [] := by
        rw [List.length_cons] at hlen
        exact List.eq_nil_of_length_eq_zero (by omega)
      rw [hnil, List.singleton_append, List.tail_cons, parts_single hx.slash hne hx.short, parts_nil]
      rfl

/-- The text is as long as its names with a slash each. -/
theorem joined_length (h : ∀ x ∈ xs, x ≠ []) :
    (joined xs).length = if xs = [] then 1 else (xs.map (fun x => x.length + 1)).sum := by
  induction xs using List.reverseRecOn with
  | nil => rfl
  | append_singleton xs x ih =>
    have ih := ih (fun y hy => h y (List.mem_append_left _ hy))
    rw [joined_concat, if_neg (by simp), List.map_append, List.sum_append, List.map_singleton, List.sum_singleton]
    unfold append_part
    rw [List.length_append]
    by_cases hxs : xs = []
    · rw [if_pos hxs] at ih
      rw [if_neg (by omega), ih, hxs, List.map_nil, List.sum_nil]
      omega
    · rw [if_neg hxs] at ih
      obtain ⟨y, ys, rfl⟩ := List.exists_cons_of_ne_nil hxs
      have hy := List.length_pos_of_ne_nil (h y (by simp))
      rw [List.map_cons, List.sum_cons] at ih
      rw [if_pos (by omega), List.length_append, List.length_singleton, ih, List.map_cons, List.sum_cons]
      omega

theorem length_le_joined {x : List UInt8} (h : x ∈ xs) : x.length ≤ (joined xs).length := by
  induction xs using List.reverseRecOn with
  | nil => cases h
  | append_singleton xs y ih =>
    rw [joined_concat]
    unfold append_part
    rw [List.length_append]
    rcases List.mem_append.1 h with h | h
    · have := ih h
      split_ifs
      · rw [List.length_append]
        omega
      · omega
    · rw [List.mem_singleton.1 h]
      exact Nat.le_add_left _ _

/-- The text ends in a slash only when there is no name. -/
theorem joined_last (hne : xs ≠ []) (h : ∀ x ∈ xs, Plain x ∧ x ≠ []) : (joined xs).getLast? ≠ some SLASH := by
  rcases List.eq_nil_or_concat xs with rfl | ⟨ys, x, rfl⟩
  · exact absurd rfl hne
  · rw [List.concat_eq_append] at h ⊢
    obtain ⟨hx, hxne⟩ := h x (List.mem_append_right _ (List.mem_singleton_self _))
    rw [joined_concat]
    unfold append_part
    rw [List.getLast?_append_of_ne_nil _ hxne]
    intro hlast
    exact hx.slash (List.mem_of_getLast? hlast)

/-! ## Where `vfs_chdir` leads -/

/-- The call behind its checks, for a target with the names `xs`. -/
theorem Spells.chdir_eq (hi : Inv s kids) (hx : Spells s n xs) {path : List UInt8} (hr : vfs_resolve s path = some n)
    (hd : (s.nodes n).type = .VFS_DIR) (junk : Nat → List UInt8) :
    vfs_chdir s path junk = (0, { s with
      cwd := joined (((xs.reverse.take 32).zipIdx.map (fun x => read_part (junk x.2) x.1)).reverse) }) := by
  have hup : Vfs.names_up s VFS_MAX_NODES (some n) = xs.reverse :=
    hx.names_up hi ((hx.depth_le hi).trans n.isLt.le)
  unfold vfs_chdir joined
  rw [hr]
  dsimp only
  rw [if_neg (not_not.2 hd), hup, List.foldl_reverse]

/-- Names that `strncpy` ended are read back as they are. -/
theorem read_parts {names : List (List UInt8)} {junk : Nat → List UInt8}
    (h : ∀ x ∈ names, x.length < VFS_NAME_MAX - 1 ∨ ∀ i, junk i = []) :
    names.zipIdx.map (fun x => read_part (junk x.2) x.1) = names := by
  have hcongr : names.zipIdx.map (fun x => read_part (junk x.2) x.1) = names.zipIdx.map Prod.fst := by
    refine List.map_congr_left (fun x hx => ?_)
    unfold read_part
    split_ifs with hlt
    · rfl
    · rcases h x.1 (List.fst_mem_of_mem_zipIdx hx) with h | h
      · exact absurd h hlt
      · rw [h, List.append_nil]
  rw [hcongr, List.zipIdx_map_fst]

end

/-- Behind a change to the directory `n`: `cwd` holds a path to it, and relative paths start from it. -/
structure Lands (n : NodePtr) (s : St) : Prop where
  fits : (vfs_cwd s).length < VFS_PATH_MAX
  cwd : vfs_resolve s (vfs_cwd s) = some n
  relative : ∀ p, p.head? ≠ some SLASH → Fits s p → vfs_resolve s p = walk s n (parts p)

/-- The promise of `vfs_chdir`, whatever the stack held. -/
def ChdirLands (s : St) (path : List UInt8) : Prop :=
  ∀ junk n, vfs_resolve s path = some n → (vfs_chdir s path junk).1 = 0 → Lands n (vfs_chdir s path junk).2

section
variable {s : St} {kids : Kids} {n : NodePtr} {xs : List (List UInt8)}

/-- A text joined from the names of a target leads to it, and so do relative paths behind it. -/
theorem Spells.lands (hi : Inv s kids) (hx : Spells s n xs) (hn : Live kids n) (hreg : ∀ x ∈ xs, Regular x)
    (hlen : (joined xs).length < VFS_PATH_MAX) : Lands n { s with cwd := joined xs } := by
  have hsame : SameTree s { s with cwd := joined xs } := ⟨fun _ => rfl, rfl⟩
  have hplain : ∀ x ∈ xs, Plain x ∧ x ≠ [] := fun x hx => ⟨(hreg x hx).toPlain, (hreg x hx).ne_nil⟩
  have hwalk : Vfs.walk s root (parts (joined xs).tail) = some n := by
    rw [walk_joined s root hplain]
    exact hx.walk hi hn hreg
  obtain ⟨t, ht⟩ := joined_cons xs
  refine ⟨hlen, ?_, fun p hp hfit => ?_⟩
  · unfold vfs_cwd
    dsimp only
    rw [resolve_eq, normalize_absolute _ (by rw [ht]; rfl) hlen, hsame.walk]
    exact hwalk
  · have hshort : (full_path { s with cwd := joined xs } p).length < VFS_PATH_MAX := hfit.resolve_left hp
    have hnorm : normalize_path { s with cwd := joined xs } p = full_path { s with cwd := joined xs } p :=
      List.take_of_length_le (by omega)
    rw [resolve_eq, hnorm, hsame.walk, hsame.walk]
    unfold full_path
    dsimp only
    rw [if_neg hp]
    by_cases hxs : xs = []
    · rw [hxs] at hwalk ⊢
      cases hwalk
      rfl
    · rw [if_neg (joined_last hxs hplain), ht, List.append_assoc, List.cons_append, List.tail_cons, List.singleton_append,
        walk_join]
      rw [ht, List.tail_cons] at hwalk
      rw [hwalk, Option.bind_some]

theorem joined_lt (hreg : ∀ x ∈ xs, Regular x) (hw : (xs.map weight).sum < VFS_PATH_MAX)
    (hshort : ∀ x ∈ xs, x.length < VFS_NAME_MAX - 1) : (joined xs).length < VFS_PATH_MAX := by
  rw [joined_length (fun x hx => (hreg x hx).ne_nil)]
  split_ifs
  · decide
  · have hsum : xs.map weight = xs.map (fun x => x.length + 1) := List.map_congr_left (fun x hx => if_pos (hshort x hx))
    rwa [← hsum]

/-- A text of names that leads to a target has all of the target's names. -/
theorem Lands.depth_le (hi : Inv s kids) (hx : Spells s n xs) {names : List (List UInt8)}
    (hnames : ∀ x ∈ names, Regular x) (hl : Lands n { s with cwd := joined names }) : xs.length ≤ names.length := by
  have hsame : SameTree s { s with cwd := joined names } := ⟨fun _ => rfl, rfl⟩
  obtain ⟨t, ht⟩ := joined_cons names
  have hcwd : vfs_resolve { s with cwd := joined names } (joined names) = some n := hl.cwd
  have hfits : (joined names).length < VFS_PATH_MAX := hl.fits
  rw [resolve_eq, normalize_absolute _ (by rw [ht]; rfl) hfits, hsame.walk,
    walk_joined s root (fun x hx => ⟨(hnames x hx).toPlain, (hnames x hx).ne_nil⟩)] at hcwd
  obtain ⟨zs, hz, hlen⟩ := Spells.walk_length hi .top (by simp) (fun x hx => (hnames x hx).toPlain) hcwd
  cases hx.unique hi hz
  rwa [List.length_nil, Nat.zero_add] at hlen

/-- Behind a name that is not ended, the stack can hold more than `cwd` has room for. -/
theorem long_name_overruns {names : List (List UInt8)} {x : List UInt8} (hx : x ∈ names)
    (hlong : ¬ x.length < VFS_NAME_MAX - 1) : VFS_PATH_MAX ≤ (joined ((names.zipIdx.map
      (fun y => read_part (List.replicate VFS_PATH_MAX 97) y.1)).reverse)).length := by
  have hread : read_part (List.replicate VFS_PATH_MAX 97) x ∈
      (names.zipIdx.map (fun y => read_part (List.replicate VFS_PATH_MAX 97) y.1)).reverse := by
    rw [List.mem_reverse]
    rw [← List.zipIdx_map_fst 0 names, List.mem_map] at hx
    obtain ⟨y, hy, rfl⟩ := hx
    exact List.mem_map_of_mem hy
  refine le_trans ?_ (length_le_joined hread)
  unfold read_part
  rw [if_neg hlong, List.length_append, List.length_replicate]
  exact Nat.le_add_left _ _

end

/-- A change of directory overruns no path buffer and lands exactly when the path fits, the table of 32 holds all the names
of the target and each of them is short enough for `strncpy` to end it. -/
theorem chdir_lands_iff {s : St} (h : Reach s) (path : List UInt8) :
    Fits s path ∧ ChdirLands s path ↔
      Fits s path ∧ ∀ n xs, vfs_resolve s path = some n → (s.nodes n).type = .VFS_DIR → Spells s n xs →
        xs.length ≤ 32 ∧ ∀ x ∈ xs, x.length < VFS_NAME_MAX - 1 := by
  obtain ⟨kids, hi⟩ := h.inv
  refine and_congr_right fun _ => ?_
  constructor
  · intro hl n xs hr hd hx
    have hdepth : xs.length ≤ 32 := by
      -- with no junk behind the names, the text has at most 32 of them
      have heq := hx.chdir_eq hi hr hd (fun _ => [])
      rw [read_parts (fun x _ => .inr (fun _ => rfl))] at heq
      have hland := hl (fun _ => []) n hr (by rw [heq])
      rw [heq] at hland
      obtain ⟨ys, hy, hreg, -⟩ := hi.resolve_spells hr
      cases hx.unique hi hy
      have hlen := Lands.depth_le hi hx
        (fun x hx => hreg x (List.mem_reverse.1 (List.mem_of_mem_take (List.mem_reverse.1 hx)))) hland
      rw [List.length_reverse, List.length_take] at hlen
      omega
    refine ⟨hdepth, fun x hmem => ?_⟩
    by_contra hlong
    -- what lies behind the name on the stack may be longer than `cwd`
    have heq := hx.chdir_eq hi hr hd (fun _ => List.replicate VFS_PATH_MAX 97)
    have hland := hl (fun _ => List.replicate VFS_PATH_MAX 97) n hr (by rw [heq])
    rw [heq, List.take_of_length_le (by rwa [List.length_reverse])] at hland
    exact absurd hland.fits (not_lt.2 (long_name_overruns (List.mem_reverse.2 hmem) hlong))
  · intro hc junk n hr hzero
    have hd : (s.nodes n).type = .VFS_DIR := by
      by_contra hd
      unfold vfs_chdir at hzero
      rw [hr] at hzero
      dsimp only at hzero
      rw [if_pos hd] at hzero
      cases hzero
    obtain ⟨xs, hx, hreg, hw⟩ := hi.resolve_spells hr
    obtain ⟨hdepth, hshort⟩ := hc n xs hr hd hx
    have hnames : xs.reverse.take 32 = xs.reverse := List.take_of_length_le (by rwa [List.length_reverse])
    rw [hx.chdir_eq hi hr hd junk, hnames, read_parts (fun x hx => .inl (hshort x (List.mem_reverse.1 hx))),
      List.reverse_reverse]
    exact hx.lands hi (hi.resolve_live hr) hreg (joined_lt hreg hw hshort)

theorem chdir_lands_iff_share : ChdirLands (vfs_init fun _ => true) (str "/usr/share") := by
  refine ((chdir_lands_iff (.init _) _).2 ⟨.inl rfl, fun n xs hr _ hx => ?_⟩).2
  have hn : vfs_resolve (vfs_init fun _ => true) (str "/usr/share") = some ⟨8, by decide⟩ := by decide +kernel
  rw [hn] at hr
  cases hr
  obtain ⟨kids, hi⟩ := inv_vfs_init fun _ => true
  have h7 : ((vfs_init fun _ => true).nodes ⟨7, by decide⟩).parent = some root := by decide +kernel
  have h8 : ((vfs_init fun _ => true).nodes ⟨8, by decide⟩).parent = some ⟨7, by decide⟩ := by decide +kernel
  rw [hx.unique hi (.down h8 (.down h7 .top))]
  decide +kernel

/-- The path of `k` directories below one another. -/
def deep (k : Nat) : List UInt8 := (List.replicate k (str "/a")).flatten

/-- The mounted tree with `k` such directories. -/
def nested : Nat → St
  | 0 => vfs_init fun _ => true
  | k + 1 => exec (nested k) (.mkdir (deep (k + 1)) 0o755)

theorem reach_nested {k : Nat} (hk : k ≤ 33) : Reach (nested k) := by
  have hfit : ∀ k ≤ 33, (ensure_parent init_root (deep k)).2.length < VFS_NAME_MAX := by decide +kernel
  induction k with
  | zero => exact .init _
  | succ k ih =>
    refine .step _ (ih (by omega)) ⟨.inl rfl, ?_⟩
    rw [leaf_absolute _ init_root rfl]
    exact hfit (k + 1) hk

/-- 33 levels deep, `cwd` loses the first name. -/
theorem chdir_misses_depth_33 : ¬ ∀ s, Reach s → ∀ path, Fits s path → ChdirLands s path := by
  intro h
  have hn : vfs_resolve (nested 33) (deep 33) = some ⟨49, by decide⟩ := by decide +kernel
  have hzero : (vfs_chdir (nested 33) (deep 33) (fun _ => [])).1 = 0 := by decide +kernel
  have hmiss : vfs_resolve (vfs_chdir (nested 33) (deep 33) (fun _ => [])).2
      (vfs_cwd (vfs_chdir (nested 33) (deep 33) (fun _ => [])).2) ≠ some ⟨49, by decide⟩ := by decide +kernel
  exact hmiss (h _ (reach_nested (le_refl _)) (deep 33) (.inl rfl) (fun _ => []) _ hn hzero).cwd

end H3OS.Vfs
