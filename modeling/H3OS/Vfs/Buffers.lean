import H3OS.Vfs.Chdir
/-!
# The buffers of a path

The calls of `vfs.c` build their texts in buffers of fixed size, and of the
functions that fill them only some look at the size. Here each call is taken
with the texts it builds. While every name in the tree is short enough for
`strncpy` to end it, the one text that can be too long is a relative path
behind the current directory.
-/
open SysLib

namespace H3OS.Vfs

inductive Buffer where
  | full
  | cwd
  | part
  | leaf
  | parts
deriving DecidableEq

def Buffer.size : Buffer → Nat
  | full | cwd => VFS_PATH_MAX
  | part | leaf | parts => VFS_NAME_MAX

/-- A text that is built in a buffer, and whether a terminator is written behind it. -/
structure Text where
  buf : Buffer
  bytes : List UInt8
  ended : Bool
deriving DecidableEq

/-- The text and its terminator have room. -/
def Text.Fits (t : Text) : Prop := t.ended = true ∧ t.bytes.length < t.buf.size

instance (t : Text) : Decidable t.Fits := inferInstanceAs (Decidable (_ ∧ _))

/-! ## The texts of the calls -/

/-- The texts of `normalize_path`: `strncpy` cuts an absolute path and the last line ends it; a relative one is put
together by `strcpy` and `strcat`. -/
def normalize_texts (s : St) (path : List UInt8) : List Text :=
  if path.head? = some SLASH then [⟨.full, path.take (VFS_PATH_MAX - 1), true⟩]
  else
    ⟨.full, s.cwd, true⟩ :: (if s.cwd.getLast? = some SLASH then [] else [⟨.full, s.cwd ++ [SLASH], true⟩]) ++
      [⟨.full, full_path s path, true⟩]

/-- The components that a walk reads; it stops behind one that leads nowhere. -/
def parts_read (s : St) : NodePtr → List (List UInt8) → List (List UInt8)
  | _, [] => []
  | cur, part :: ps =>
    match step_into s cur part with
    | none => [part]
    | some c => part :: parts_read s c ps

def resolve_texts (s : St) (path : List UInt8) : List Text :=
  let full := normalize_path s path
  normalize_texts s path ++
    if full = str "/" then []
    else (parts_read s root (path_parts full.length full.tail)).map (fun part => ⟨.part, part, true⟩)

def ensure_parent_texts (s : St) (path : List UInt8) : List Text :=
  let full := normalize_path s path
  let (dir, leaf) := split_last full
  normalize_texts s path ++
    if dir = [] then [⟨.leaf, full.tail, true⟩] else ⟨.leaf, leaf, true⟩ :: resolve_texts s dir

/-- A name in `parts`; `strncpy` ends it only when it is shorter than its bound. -/
def part_text (name : List UInt8) : Text :=
  ⟨.parts, name.take (VFS_NAME_MAX - 1), decide (name.length < VFS_NAME_MAX - 1)⟩

/-- What `cwd` holds while the parts are put together, the last one first. -/
def cwd_texts : List (List UInt8) → List Text
  | [] => [⟨.cwd, str "/", true⟩]
  | part :: parts =>
    let cwd := parts.foldr (fun part cwd => append_part cwd part) (str "/")
    cwd_texts parts ++ (if 1 < cwd.length then [⟨.cwd, cwd ++ [SLASH], true⟩] else []) ++
      [⟨.cwd, append_part cwd part, true⟩]

def chdir_texts (s : St) (path : List UInt8) (junk : Nat → List UInt8) : List Text :=
  resolve_texts s path ++
    match vfs_resolve s path with
    | none => []
    | some n =>
      if (s.nodes n).type ≠ .VFS_DIR then [] else
      let names := (names_up s VFS_MAX_NODES (some n)).take 32
      names.map part_text ++ cwd_texts (names.zipIdx.map (fun x => read_part (junk x.2) x.1))

def copy_texts (s : St) (src dst : List UInt8) : List Text :=
  resolve_texts s src ++
    match vfs_resolve s src with
    | none => []
    | some n => if (s.nodes n).type ≠ .VFS_FILE then [] else ensure_parent_texts s dst

def rename_texts (s : St) (src dst : List UInt8) (mem : Bool) : List Text :=
  copy_texts s src dst ++
    match vfs_copy s src dst mem with
    | (r, s) => if r ≠ 0 then [] else resolve_texts s src

/-! ## Which texts fit -/

/-- There is room for a path: an absolute one is cut to its buffer, a relative one stands behind `cwd` and a slash. -/
def Room (s : St) (path : List UInt8) : Prop :=
  path.head? = some SLASH ∨
    s.cwd.length + (if s.cwd.getLast? = some SLASH then 0 else 1) + path.length < VFS_PATH_MAX

instance (s : St) (path : List UInt8) : Decidable (Room s path) := inferInstanceAs (Decidable (_ ∨ _))

/-- The path leads to a file. -/
def IsFile (s : St) (path : List UInt8) : Prop := ∃ n, vfs_resolve s path = some n ∧ (s.nodes n).type = .VFS_FILE

section
variable {s s' : St} {kids : Kids} {path : List UInt8}

theorem room_iff_fits : Room s path ↔ Fits s path := by
  unfold Room Fits
  by_cases h : path.head? = some SLASH
  · simp [h]
  · have hlen : (full_path s path).length =
        s.cwd.length + (if s.cwd.getLast? = some SLASH then 0 else 1) + path.length := by
      unfold full_path
      rw [if_neg h, List.length_append, List.length_append]
      split_ifs <;> rfl
    rw [hlen]

theorem room_congr (h : s'.cwd = s.cwd) : Room s' path ↔ Room s path := by
  unfold Room
  rw [h]

/-- Of the texts of `normalize_path` the last is the longest. -/
theorem normalize_texts_fit : (∀ t ∈ normalize_texts s path, t.Fits) ↔ Room s path := by
  rw [room_iff_fits]
  unfold normalize_texts Fits
  by_cases h : path.head? = some SLASH
  · simp only [h, ↓reduceIte, List.mem_singleton, forall_eq, true_or, iff_true]
    exact ⟨rfl, by simp [Buffer.size, VFS_PATH_MAX]⟩
  · rw [if_neg h]
    simp only [h, false_or]
    constructor
    · intro hall
      exact (hall _ (List.mem_append_right _ (List.mem_singleton_self _))).2
    · intro hlen t ht
      have hfull : full_path s path =
          s.cwd ++ (if s.cwd.getLast? = some SLASH then [] else [SLASH]) ++ path := if_neg h
      have hle : t.ended = true ∧ t.buf = .full ∧ t.bytes.length ≤ (full_path s path).length := by
        rw [List.mem_append, List.mem_cons, List.mem_singleton] at ht
        rcases ht with (rfl | ht) | rfl
        · exact ⟨rfl, rfl, by simp [hfull]⟩
        · split_ifs at ht with hlast
          · cases ht
          · rw [List.mem_singleton.1 ht]
            exact ⟨rfl, rfl, by simp [hfull, hlast]⟩
        · exact ⟨rfl, rfl, le_refl _⟩
      obtain ⟨hend, hbuf, hle⟩ := hle
      refine ⟨hend, ?_⟩
      rw [hbuf]
      exact lt_of_le_of_lt hle hlen

theorem mem_parts_read {cur : NodePtr} {ps : List (List UInt8)} {x : List UInt8} (h : x ∈ parts_read s cur ps) : x ∈ ps := by
  induction ps generalizing cur with
  | nil => exact h
  | cons part ps ih =>
    rw [parts_read] at h
    cases hs : step_into s cur part with
    | none =>
      rw [hs, List.mem_singleton] at h
      exact h ▸ List.mem_cons_self
    | some c =>
      rw [hs, List.mem_cons] at h
      rcases h with rfl | h
      · exact List.mem_cons_self
      · exact List.mem_cons_of_mem _ (ih h)

theorem path_parts_plain {fuel : Nat} {p x : List UInt8} (h : x ∈ path_parts fuel p) : Plain x := by
  induction fuel generalizing p with
  | zero => cases h
  | succ fuel ih =>
    cases p with
    | nil => cases h
    | cons b p =>
      rw [path_parts, List.mem_cons] at h
      rcases h with rfl | h
      · exact next_part_plain _
      · exact ih h
      · exact fun h => by cases h

/-- The loop of `vfs_resolve` looks at the size of `part`. -/
theorem resolve_texts_fit : (∀ t ∈ resolve_texts s path, t.Fits) ↔ Room s path := by
  unfold resolve_texts
  dsimp only
  rw [List.forall_mem_append, normalize_texts_fit]
  refine and_iff_left (fun t ht => ?_)
  split_ifs at ht
  · cases ht
  · obtain ⟨part, hpart, rfl⟩ := List.mem_map.1 ht
    exact ⟨rfl, (path_parts_plain (mem_parts_read hpart)).short⟩

/-! ## The name of a path -/

/-- Behind a slash the name at the end of a text is no longer than what is left. -/
theorem leaf_length_le {full pre q : List UInt8} (h : full = pre ++ SLASH :: q) : (split_last full).2.length ≤ q.length := by
  obtain ⟨hsplit, hclean⟩ := split_last_eq (show SLASH ∈ full by simp [h])
  generalize (split_last full).1 = dir at hsplit
  generalize (split_last full).2 = leaf at hsplit hclean ⊢
  rw [h] at hsplit
  rcases List.append_eq_append_iff.1 hsplit with ⟨a, ha, hb⟩ | ⟨a, ha, hb⟩
  · cases a with
    | nil =>
      have hq : q = leaf := by simpa using hb
      rw [hq]
    | cons b a =>
      have hq : q = a ++ SLASH :: leaf := by
        rw [List.cons_append] at hb
        exact (List.cons.inj hb).2
      rw [hq, List.length_append, List.length_cons]
      omega
  · cases a with
    | nil =>
      have hq : leaf = q := by simpa using hb
      rw [hq]
    | cons b a =>
      -- the slash would stand in the name
      have hq : leaf = a ++ SLASH :: q := by
        rw [List.cons_append] at hb
        exact (List.cons.inj hb).2
      exact absurd (hq ▸ List.mem_append_right a List.mem_cons_self) hclean

theorem ensure_parent_leaf (hcwd : s.cwd.head? = some SLASH) :
    (ensure_parent s path).2 = (split_last (normalize_path s path)).2 := by
  have hhead := normalize_head hcwd path
  obtain ⟨hsplit, -⟩ := split_last_eq (List.mem_of_mem_head? hhead)
  unfold ensure_parent
  dsimp only
  split_ifs with hdir
  · rw [hdir, List.nil_append] at hsplit
    nth_rewrite 1 [hsplit]
    rfl
  · rfl

/-- With room for the path, its name is part of what was typed. -/
theorem Room.leaf_le (h : Room s path) (hcwd : s.cwd.head? = some SLASH) :
    (ensure_parent s path).2.length ≤ path.length := by
  rw [ensure_parent_leaf hcwd]
  by_cases habs : path.head? = some SLASH
  · obtain ⟨q, rfl⟩ : ∃ q, path = SLASH :: q := by
      cases path with
      | nil => cases habs
      | cons b q => exact ⟨q, by rw [Option.some.inj habs]⟩
    have hnorm : normalize_path s (SLASH :: q) = [] ++ SLASH :: q.take (VFS_PATH_MAX - 2) := by
      unfold normalize_path full_path
      rw [if_pos habs]
      rfl
    refine (leaf_length_le hnorm).trans ?_
    rw [List.length_take, List.length_cons]
    omega
  · have hlen : (full_path s path).length < VFS_PATH_MAX := (room_iff_fits.1 h).resolve_left habs
    have hnorm : normalize_path s path = full_path s path := List.take_of_length_le (by omega)
    rw [hnorm]
    -- a slash stands before the path: the one that ends `cwd`, or the one put in
    have hslash : ∃ pre, full_path s path = pre ++ SLASH :: path := by
      unfold full_path
      rw [if_neg habs]
      split_ifs with hlast
      · obtain ⟨pre, hpre⟩ := List.getLast?_eq_some_iff.1 hlast
        exact ⟨pre, by simp [hpre]⟩
      · exact ⟨s.cwd, by simp⟩
    obtain ⟨pre, hpre⟩ := hslash
    exact leaf_length_le hpre

/-- The directory of a path starts with a slash, so there is room for it. -/
theorem room_dir (hcwd : s.cwd.head? = some SLASH) (hdir : (split_last (normalize_path s path)).1 ≠ []) :
    Room s (split_last (normalize_path s path)).1 := by
  have hhead := normalize_head hcwd path
  obtain ⟨hsplit, -⟩ := split_last_eq (List.mem_of_mem_head? hhead)
  rw [hsplit, List.head?_append_of_ne_nil _ hdir] at hhead
  exact .inl hhead

theorem ensure_parent_texts_fit (hcwd : s.cwd.head? = some SLASH) (hshort : path.length < VFS_NAME_MAX) :
    (∀ t ∈ ensure_parent_texts s path, t.Fits) ↔ Room s path := by
  have hleaf : Room s path → (ensure_parent s path).2.length < VFS_NAME_MAX := fun h =>
    lt_of_le_of_lt (h.leaf_le hcwd) hshort
  unfold ensure_parent_texts
  unfold ensure_parent at hleaf
  dsimp only at hleaf ⊢
  rw [List.forall_mem_append, normalize_texts_fit]
  refine and_iff_left_of_imp (fun h => ?_)
  have hleaf := hleaf h
  split_ifs at hleaf ⊢ with hdir
  · intro t ht
    rw [List.mem_singleton.1 ht]
    exact ⟨rfl, hleaf⟩
  · intro t ht
    rcases List.mem_cons.1 ht with rfl | ht
    · exact ⟨rfl, hleaf⟩
    · exact resolve_texts_fit.2 (room_dir hcwd hdir) t ht

/-! ## Changing directory -/

/-- `cwd` only grows while it is put together. -/
theorem cwd_texts_fit {ps : List (List UInt8)}
    (h : (ps.foldr (fun part cwd => append_part cwd part) (str "/")).length < VFS_PATH_MAX) :
    ∀ t ∈ cwd_texts ps, t.Fits := by
  induction ps with
  | nil =>
    intro t ht
    rw [List.mem_singleton.1 ht]
    decide
  | cons part ps ih =>
    rw [List.foldr_cons] at h
    rw [cwd_texts]
    generalize ps.foldr (fun part cwd => append_part cwd part) (str "/") = cwd at h ih ⊢
    have hle : (if 1 < cwd.length then cwd ++ [SLASH] else cwd).length ≤ (append_part cwd part).length := by
      unfold append_part
      rw [List.length_append]
      exact Nat.le_add_right _ _
    have hcwd : cwd.length ≤ (if 1 < cwd.length then cwd ++ [SLASH] else cwd).length := by
      split_ifs <;> simp
    simp only [List.forall_mem_append]
    refine ⟨⟨ih (by omega), ?_⟩, ?_⟩
    · intro t ht
      split_ifs at ht hle with hlen
      · rw [List.mem_singleton.1 ht]
        exact ⟨rfl, lt_of_le_of_lt hle h⟩
      · cases ht
    · intro t ht
      rw [List.mem_singleton.1 ht]
      exact ⟨rfl, h⟩

/-- The text of some of a target's names fits as the text of all of them does. -/
theorem joined_sublist_lt {xs ys : List (List UInt8)} (hsub : ys.Sublist xs) (hreg : ∀ x ∈ xs, Regular x)
    (hw : (xs.map weight).sum < VFS_PATH_MAX) (hshort : ∀ x ∈ xs, x.length < VFS_NAME_MAX - 1) :
    (joined ys).length < VFS_PATH_MAX := by
  have hle : (ys.map weight).sum ≤ (xs.map weight).sum := (hsub.map weight).sum_le_sum (fun _ _ => Nat.zero_le _)
  exact joined_lt (fun x hx => hreg x (hsub.subset hx)) (by omega) (fun x hx => hshort x (hsub.subset hx))

/-- Every name in the table is one that `strncpy` ends. -/
def ShortNames (s : St) : Prop := ∀ n, (s.nodes n).name.length < VFS_NAME_MAX - 1

theorem Spells.name_short (hs : ShortNames s) {n : NodePtr} {xs : List (List UInt8)} (h : Spells s n xs) :
    ∀ x ∈ xs, x.length < VFS_NAME_MAX - 1 := by
  induction h with
  | top => simp
  | @down n p xs hp h ih =>
    intro x hx
    rcases List.mem_append.1 hx with hx | hx
    · exact ih x hx
    · rw [List.mem_singleton.1 hx]
      exact hs n

theorem part_text_fit {x : List UInt8} (h : x.length < VFS_NAME_MAX - 1) : (part_text x).Fits := by
  have hle : (x.take (VFS_NAME_MAX - 1)).length ≤ VFS_NAME_MAX - 1 := List.length_take_le _ _
  exact ⟨decide_eq_true h, lt_of_le_of_lt hle (show VFS_NAME_MAX - 1 < VFS_NAME_MAX by decide)⟩

theorem chdir_texts_fit (hi : Inv s kids) (hs : ShortNames s) (junk : Nat → List UInt8) :
    (∀ t ∈ chdir_texts s path junk, t.Fits) ↔ Room s path := by
  unfold chdir_texts
  rw [List.forall_mem_append, resolve_texts_fit]
  refine and_iff_left ?_
  cases hr : vfs_resolve s path with
  | none => simp
  | some n =>
    dsimp only
    split_ifs with hd
    · simp
    · obtain ⟨xs, hx, hreg, hw⟩ := hi.resolve_spells hr
      have hshort := hx.name_short hs
      have hup : names_up s VFS_MAX_NODES (some n) = xs.reverse := hx.names_up hi ((hx.depth_le hi).trans n.isLt.le)
      have hkept : ∀ x ∈ xs.reverse.take 32, x.length < VFS_NAME_MAX - 1 := fun x hx =>
        hshort x (List.mem_reverse.1 (List.mem_of_mem_take hx))
      rw [hup, read_parts (fun x hx => .inl (hkept x hx)), List.forall_mem_append]
      constructor
      · intro t ht
        obtain ⟨x, hx, rfl⟩ := List.mem_map.1 ht
        exact part_text_fit (hkept x hx)
      · apply cwd_texts_fit
        have hsub : (xs.reverse.take 32).reverse.Sublist xs := List.sublist_reverse_iff.1 (List.take_sublist 32 _)
        have hlt := joined_sublist_lt hsub hreg hw hshort
        unfold joined at hlt
        rwa [List.foldl_reverse] at hlt

/-! ## Copying and renaming -/

theorem copy_texts_fit {src dst : List UInt8} (hcwd : s.cwd.head? = some SLASH) (hshort : dst.length < VFS_NAME_MAX) :
    (∀ t ∈ copy_texts s src dst, t.Fits) ↔ Room s src ∧ (IsFile s src → Room s dst) := by
  unfold copy_texts IsFile
  rw [List.forall_mem_append, resolve_texts_fit]
  refine and_congr_right (fun _ => ?_)
  cases vfs_resolve s src with
  | none => simp
  | some n =>
    dsimp only
    split_ifs with ht
    · simp [ht]
    · rw [ensure_parent_texts_fit hcwd hshort]
      simp [not_not.1 ht]

/-- The second look at the source builds the texts of the first. -/
theorem rename_texts_fit {src dst : List UInt8} (mem : Bool) (hcwd : s.cwd.head? = some SLASH)
    (hshort : dst.length < VFS_NAME_MAX) :
    (∀ t ∈ rename_texts s src dst mem, t.Fits) ↔ Room s src ∧ (IsFile s src → Room s dst) := by
  unfold rename_texts
  rw [List.forall_mem_append, copy_texts_fit hcwd hshort]
  refine and_iff_left_of_imp (fun h => ?_)
  dsimp only
  split_ifs
  · simp
  · exact resolve_texts_fit.2 ((room_congr (vfs_copy_cwd s src dst mem)).2 h.1)

/-! ## The names stay short -/

theorem ShortNames.make_node (hs : ShortNames s) (hi : Inv s kids) (type : vfs_type_t) (mode : Nat)
    (hleaf : (ensure_parent s path).2.length < VFS_NAME_MAX - 1) : ShortNames (make_node type s path mode).2 := by
  rcases hi.make_node_cases type mode (by omega : (ensure_parent s path).2.length < VFS_NAME_MAX) with
    ⟨h, -⟩ | ⟨d, -, -, -, ⟨c, -, h⟩ | ⟨-, n, -, hdn, h⟩⟩
  · rw [h]
    exact hs
  · rw [h]
    exact hs
  · rw [h]
    intro m
    by_cases hm : m = n
    · rw [hm, linked_new hdn]
      exact hleaf
    · rw [linked_old hdn hm]
      exact hs m

theorem ShortNames.vfs_write (hs : ShortNames s) (node : Option NodePtr) (buf : List UInt8) (mem : Bool) :
    ShortNames (vfs_write s node buf mem).2 := by
  rcases vfs_write_cases s node buf mem with h | ⟨n, -, -, -, h⟩
  · rw [h]
    exact hs
  · rw [h]
    intro m
    rw [(sameTree_write s n buf).name]
    exact hs m

theorem ShortNames.vfs_unlink (hs : ShortNames s) (hi : Inv s kids) (path : List UInt8) :
    ShortNames (vfs_unlink s path).2 := by
  rcases hi.vfs_unlink_cases path with ⟨h, -⟩ | ⟨n, p, -, hn, h⟩
  · rw [h]
    exact hs
  · rw [h]
    intro m
    by_cases hm : m = n
    · rw [hm, unlinked_self]
      exact (show 0 < VFS_NAME_MAX - 1 by decide)
    · rw [hi.unlinked_name hn hm]
      exact hs m

theorem shortNames_init (mem : Nat → Bool) : ShortNames (vfs_init mem) := by
  have hseeds : ∀ path ∈ seed_dirs.map (fun d => str d.1) ++ seed_files.map (fun f => str f.1),
      path.head? = some SLASH ∧ (ensure_parent init_root path).2.length < VFS_NAME_MAX - 1 := by
    decide +kernel
  refine (vfs_init_rule (P := fun s => (∃ kids, Inv s kids) ∧ ShortNames s) ⟨⟨_, inv_init_root⟩, ?_⟩ ?_ ?_ mem).2
  · unfold ShortNames
    decide +kernel
  · rintro s type path mode hpath ⟨⟨kids, hi⟩, hs⟩
    obtain ⟨habs, hleaf⟩ := hseeds path hpath
    rw [leaf_absolute init_root s habs] at hleaf
    exact ⟨hi.make_node type mode (by omega), hs.make_node hi type mode hleaf⟩
  · rintro s n buf mem ⟨⟨kids, hi⟩, hs⟩
    exact ⟨⟨kids, hi.vfs_write n buf mem⟩, hs.vfs_write n buf mem⟩

end

/-! ## The names are cut to their field -/

/-- Every name ends within its field. -/
def Named (s : St) : Prop := ∀ n, (s.nodes n).name.length < VFS_NAME_MAX

section
variable {s : St} {v : vfs_node_t}

theorem Named.set (h : Named s) (n : NodePtr) (hv : v.name.length < VFS_NAME_MAX) : Named (s.set n v) := by
  intro m
  unfold St.set
  by_cases hm : m = n
  · simpa [hm] using hv
  · simpa [hm] using h m

theorem Named.linked (h : Named s) {name : List UInt8} {type : vfs_type_t} {mode : Nat} {n : NodePtr} {s' : St}
    (ha : alloc_node s name type mode = some (n, s')) (parent : NodePtr) : Named (link_child s' parent n) := by
  have hnew : Named s' := by
    unfold alloc_node at ha
    split_ifs at ha
    cases ha
    refine h.set _ ?_
    dsimp only
    rw [List.length_take]
    unfold VFS_NAME_MAX
    omega
  have hchild := hnew.set (v := { s'.nodes n with parent := some parent, sibling := (s'.nodes parent).child }) n (hnew n)
  unfold link_child St.setChild
  exact hchild.set parent (hchild parent)

theorem Named.make_node (h : Named s) (type : vfs_type_t) (path : List UInt8) (mode : Nat) :
    Named (make_node type s path mode).2 := by
  unfold Vfs.make_node
  generalize ensure_parent s path = r
  obtain ⟨parent, leaf⟩ := r
  cases parent with
  | none => exact h
  | some parent =>
    dsimp only
    split_ifs
    · exact h
    cases find_child s parent leaf with
    | some c => exact h
    | none =>
      cases ha : alloc_node s leaf type mode with
      | none => exact h
      | some r => exact h.linked ha parent

theorem Named.vfs_write (h : Named s) (node : Option NodePtr) (buf : List UInt8) (mem : Bool) :
    Named (vfs_write s node buf mem).2 := by
  rcases vfs_write_cases s node buf mem with he | ⟨n, -, -, -, he⟩
  · rw [he]
    exact h
  · rw [he]
    exact h.set n (h n)

theorem Named.vfs_unlink (h : Named s) (path : List UInt8) : Named (vfs_unlink s path).2 := by
  have hchild : ∀ parent n, Named (unlink_child s parent n) := by
    intro parent n
    unfold unlink_child
    split_ifs
    · exact h.set _ (h _)
    · cases find_prev s n (siblings s VFS_MAX_NODES (s.nodes parent).child) with
      | none => exact h
      | some c => exact h.set _ (h _)
  unfold Vfs.vfs_unlink
  cases vfs_resolve s path with
  | none => exact h
  | some n =>
    dsimp only
    split_ifs
    · exact h
    cases (s.nodes n).parent with
    | none => exact h
    | some parent => exact (hchild parent n).set n (show 0 < VFS_NAME_MAX by decide)

theorem Named.vfs_copy (h : Named s) (src dst : List UInt8) (mem : Bool) : Named (vfs_copy s src dst mem).2 := by
  rcases vfs_copy_cases s src dst mem with he | ⟨n, mode, -, -, he | ⟨d, buf, he⟩⟩
  · rw [he]
    exact h
  · rw [he]
    exact h.make_node _ dst mode
  · rw [he]
    exact (h.make_node _ dst mode).vfs_write d buf mem

theorem Named.exec (h : Named s) (op : Op) : Named (Vfs.exec s op) := by
  cases op with
  | mkdir path mode => exact h.make_node _ path mode
  | create path mode => exact h.make_node _ path mode
  | write node buf mem => exact h.vfs_write node buf mem
  | unlink path => exact h.vfs_unlink path
  | copy src dst mem => exact h.vfs_copy src dst mem
  | rename src dst mem =>
    rw [Vfs.exec, vfs_rename]
    dsimp only
    split_ifs
    · exact h.vfs_copy src dst mem
    · exact (h.vfs_copy src dst mem).vfs_unlink src
  | chdir path junk =>
    obtain ⟨cwd, he⟩ := vfs_chdir_cases s path junk
    rw [Vfs.exec, he]
    exact h

theorem named_init (mem : Nat → Bool) : Named (vfs_init mem) := by
  refine vfs_init_rule ?_ (fun s type path mode _ hs => hs.make_node type path mode)
    (fun s n buf mem hs => hs.vfs_write n buf mem) mem
  unfold Named
  decide +kernel

end

/-! ## Calls with room for their paths -/

/-- A tree that calls with room lead to, all of its names short. -/
structure Tidy (s : St) : Prop where
  reach : Reach s
  names : ShortNames s

theorem tidy_init (mem : Nat → Bool) : Tidy (vfs_init mem) := ⟨.init mem, shortNames_init mem⟩

namespace Tidy
variable {s : St} {path src dst : List UInt8}

theorem inv (h : Tidy s) : ∃ kids, Inv s kids := h.reach.inv

theorem cwd_head (h : Tidy s) : s.cwd.head? = some SLASH := h.reach.cwd_head

/-- The name at the end of a short path is short. -/
theorem leaf_lt (h : Tidy s) (hroom : Room s path) (hshort : path.length < VFS_NAME_MAX - 1) :
    (ensure_parent s path).2.length < VFS_NAME_MAX - 1 := lt_of_le_of_lt (hroom.leaf_le h.cwd_head) hshort

theorem leafFits (h : Tidy s) (hroom : Room s path) (hshort : path.length < VFS_NAME_MAX - 1) : LeafFits s path := by
  have := h.leaf_lt hroom hshort
  exact ⟨room_iff_fits.1 hroom, by omega⟩

theorem mkdir (h : Tidy s) (hroom : Room s path) (hshort : path.length < VFS_NAME_MAX - 1) (mode : Nat) :
    Tidy (vfs_mkdir s path mode).2 := by
  obtain ⟨kids, hi⟩ := h.inv
  exact ⟨.step (.mkdir path mode) h.reach (h.leafFits hroom hshort),
    h.names.make_node hi .VFS_DIR mode (h.leaf_lt hroom hshort)⟩

theorem unlink (h : Tidy s) (hroom : Room s path) : Tidy (vfs_unlink s path).2 := by
  obtain ⟨kids, hi⟩ := h.inv
  exact ⟨.step (.unlink path) h.reach (room_iff_fits.1 hroom), h.names.vfs_unlink hi path⟩

theorem chdir (h : Tidy s) (hroom : Room s path) (junk : Nat → List UInt8) : Tidy (vfs_chdir s path junk).2 := by
  refine ⟨.step (.chdir path junk) h.reach (room_iff_fits.1 hroom), ?_⟩
  obtain ⟨cwd, heq⟩ := vfs_chdir_cases s path junk
  rw [heq]
  exact h.names

/-- A copy makes its target only when the source is a file. -/
theorem copy (h : Tidy s) (hsrc : Room s src) (hdst : IsFile s src → Room s dst)
    (hshort : dst.length < VFS_NAME_MAX - 1) (mem : Bool) : Tidy (vfs_copy s src dst mem).2 := by
  obtain ⟨kids, hi⟩ := h.inv
  rcases vfs_copy_cases s src dst mem with heq | ⟨n, mode, hn, ht, heq⟩
  · rw [heq]
    exact h
  · have hroom := hdst ⟨n, hn, ht⟩
    refine ⟨.step (.copy src dst mem) h.reach ⟨room_iff_fits.1 hsrc, h.leafFits hroom hshort⟩, ?_⟩
    have hmade := h.names.make_node hi .VFS_FILE mode (h.leaf_lt hroom hshort)
    rcases heq with heq | ⟨d, buf, heq⟩
    · rw [heq]
      exact hmade
    · rw [heq]
      exact hmade.vfs_write d buf mem

theorem rename (h : Tidy s) (hsrc : Room s src) (hdst : IsFile s src → Room s dst)
    (hshort : dst.length < VFS_NAME_MAX - 1) (mem : Bool) : Tidy (vfs_rename s src dst mem).2 := by
  have hcopy := h.copy hsrc hdst hshort mem
  unfold vfs_rename
  dsimp only
  split_ifs
  · exact hcopy
  · exact hcopy.unlink ((room_congr (vfs_copy_cwd s src dst mem)).2 hsrc)

end Tidy

end H3OS.Vfs
