import H3OS.Kernel.Numbers
import H3OS.Terminal.Files
/-!
# The buffers of the terminal

`term_draw` and `run_command` put texts together in buffers of fixed size, by
`strcpy` and `strcat`. Names and numbers always fit. The prompt holds
the current directory and the typed line, which together can be too long for it,
and a package's name can be too long for its line of the database and its path.
-/
open SysLib H3OS.Vfs

namespace H3OS.Terminal

inductive Scratch where
  | prompt
  | line
  | num
  | full
  | entry
  | path
  | tmp
  | buf

def Scratch.size : Scratch → Nat
  | prompt => TERM_IN + 32
  | line => 160
  | num => 32
  | full => VFS_PATH_MAX
  | entry => 96
  | path => 128
  | tmp => 96
  | buf => BUF_SIZE

/-- A text put together from its pieces, one behind the other. -/
structure Assembled where
  buf : Scratch
  pieces : List (List UInt8)

/-- After each piece, the text so far and its terminator have room. -/
def Assembled.Fits (t : Assembled) : Prop := ∀ pre, pre <+: t.pieces → pre.flatten.length < t.buf.size

/-! ## The texts -/

/-- What a key leaves in `input`; from 128 on a `char` is negative. -/
def term_on_key (input : List UInt8) (c : UInt8) : List UInt8 :=
  if c = NEWLINE ∨ c = 13 then []
  else if c = 8 then input.dropLast
  else if input.length + 1 < TERM_IN ∧ 32 ≤ c ∧ c < 128 then input ++ [c]
  else input

def term_draw_texts (s : St) (input : List UInt8) : List Assembled :=
  [⟨.prompt, [str "h3os:", vfs_cwd s, str "> ", input]⟩]

def list_cb_texts (v : vfs_node_t) : List Assembled :=
  let kind := if v.type = .VFS_DIR then str "dir  " else str "file "
  if v.type = .VFS_FILE then
    let num := cstr (utoa (UInt64.ofNat v.size) 10)
    [⟨.num, [num]⟩, ⟨.line, [kind, v.name, str "  ", num, str "B"]⟩]
  else [⟨.line, [kind, v.name]⟩]

def ls_texts (s : St) (dir : NodePtr) : List Assembled := (vfs_list s dir).flatMap fun n => list_cb_texts (s.nodes n)

def ends_with_exe (s : List UInt8) : Bool :=
  match s.drop (s.length - 4) with
  | [a, b, c, d] => a = 46 && (b = 101 || b = 69) && (c = 120 || c = 88) && (d = 101 || d = 69)
  | _ => false

def cmd_run_texts (s : St) (path : Option (List UInt8)) : List Assembled :=
  match path with
  | none => []
  | some path =>
    if path = [] then []
    else if vfs_resolve s path = none ∧ path.head? ≠ some SLASH then [⟨.full, [str "/bin/", path]⟩]
    else []

/-- The lines of `text` as a search looks at them, each cut to `tmp`. -/
def cut_lines : Nat → List UInt8 → List (List UInt8)
  | 0, _ => []
  | _, [] => []
  | fuel + 1, s => (s.takeWhile (· ≠ NEWLINE)).take 95 :: cut_lines fuel (s.dropWhile (· ≠ NEWLINE)).tail

def pkg_list_texts (s : St) (pkg : Option (List UInt8)) : List Assembled :=
  match vfs_resolve s DB_PATH with
  | none => []
  | some db =>
    let buf := read_db s db
    ⟨.buf, [buf]⟩ :: pkg.elim [] fun _ => (cut_lines buf.length (cstr buf)).map fun tmp => ⟨.tmp, [tmp]⟩

def marker_text (pkg : List UInt8) : Assembled := ⟨.path, [str "/usr/share/packages/", pkg]⟩

def add_entry_texts (s : St) (pkg : List UInt8) : List Assembled :=
  match vfs_resolve s DB_PATH with
  | none => []
  | some db =>
    let buf := read_db s db
    ⟨.buf, [buf]⟩ :: if buf.length + (entry pkg).length < BUF_SIZE then [⟨.buf, [cstr buf, entry pkg]⟩] else []

def install_texts (s : St) (pkg : List UInt8) : List Assembled :=
  ⟨.entry, [pkg, str " 0.1.0 installed\n"]⟩ :: (add_entry_texts s pkg ++ [marker_text pkg])

def h3pkg_texts (s : St) (p : List UInt8) : List Assembled :=
  let (sub, p) := next_arg p
  let (pkg, _) := next_arg p
  match sub with
  | none => []
  | some sub =>
    if sub = str "list" ∨ sub = str "search" then pkg_list_texts s pkg
    else if sub = str "install" then pkg.elim [] (install_texts s)
    else if sub = str "remove" then pkg.elim [] fun pkg => [marker_text pkg]
    else []

/-- The commands that are not here put nothing together. -/
def run_command_texts (s : St) (line : List UInt8) : List Assembled :=
  let (cmd, p) := next_arg line
  match cmd with
  | none => []
  | some cmd =>
    if cmd = str "ls" then (vfs_resolve s ((next_arg p).1.getD (str "."))).elim [] (ls_texts s)
    else if cmd = str "run" ∨ cmd = str "exec" ∨ cmd = str "./" then cmd_run_texts s (next_arg p).1
    else if ends_with_exe cmd then cmd_run_texts s (some cmd)
    else if cmd = str "find" then (next_arg p).1.elim [] fun _ => ls_texts s root
    else if cmd = str "h3pkg" then h3pkg_texts s p
    else []

/-- The subcommand and the package of a line for `h3pkg`. -/
def h3pkg_call (line : List UInt8) : Option (List UInt8 × List UInt8) :=
  let (cmd, p) := next_arg line
  let (sub, p) := next_arg p
  let (pkg, _) := next_arg p
  if cmd = some (str "h3pkg") then sub.bind fun sub => pkg.map fun pkg => (sub, pkg) else none

/-- Neither the current directory with the line nor a package's name is too long. -/
structure Short (s : St) (input : List UInt8) : Prop where
  prompt : (vfs_cwd s).length + input.length ≤ 152
  install : ∀ pkg, h3pkg_call input = some (str "install", pkg) → pkg.length ≤ 78
  remove : ∀ pkg, h3pkg_call input = some (str "remove", pkg) → pkg.length ≤ 107

/-! ## Which of them fit -/

section
variable {s : St} {v : vfs_node_t} {input path pkg p : List UInt8}

/-- The whole text is the longest. -/
theorem fits_iff {t : Assembled} : t.Fits ↔ t.pieces.flatten.length < t.buf.size := by
  constructor
  · intro h
    exact h _ List.prefix_rfl
  · rintro h pre ⟨rest, hpre⟩
    rw [← hpre, List.flatten_append, List.length_append] at h
    omega

theorem cstr_length_le (text : List UInt8) : (cstr text).length ≤ text.length := (List.takeWhile_prefix _).length_le

theorem utoa_length (value : UInt64) : (utoa value 10).length ≤ 21 := by
  have hv : value.toNat < 10 ^ 20 := lt_of_lt_of_le value.toNat_lt (by norm_num)
  have hlen := (numeral_length (b := 10) (by omega) (by omega : 0 < 20) hv).2
  rw [utoa_eq value (by omega) (by omega), List.length_append, List.length_singleton]
  exact Nat.add_le_add_right hlen 1

theorem list_cb_texts_fit (h : v.name.length < VFS_NAME_MAX) : ∀ t ∈ list_cb_texts v, t.Fits := by
  have hname : v.name.length < 128 := h
  have hkind : (if v.type = .VFS_DIR then str "dir  " else str "file ").length = 5 := by
    split_ifs <;> decide +kernel
  have hnum := (cstr_length_le _).trans (utoa_length (UInt64.ofNat v.size))
  have hgap : (str "  ").length = 2 := by decide +kernel
  have hunit : (str "B").length = 1 := by decide +kernel
  unfold list_cb_texts
  dsimp only
  generalize (if v.type = .VFS_DIR then str "dir  " else str "file ") = kind at hkind ⊢
  split_ifs
  · rw [List.forall_mem_cons, List.forall_mem_singleton, fits_iff, fits_iff]
    constructor
    · simp only [List.flatten_cons, List.flatten_nil, List.append_nil, Scratch.size]
      omega
    · simp only [List.flatten_cons, List.flatten_nil, List.length_append, List.length_nil, Scratch.size]
      omega
  · rw [List.forall_mem_singleton, fits_iff]
    simp only [List.flatten_cons, List.flatten_nil, List.length_append, List.length_nil, Scratch.size]
    omega

theorem ls_texts_fit (h : Named s) (dir : NodePtr) : ∀ t ∈ ls_texts s dir, t.Fits := by
  intro t ht
  obtain ⟨n, -, hn⟩ := List.mem_flatMap.1 ht
  exact list_cb_texts_fit (h n) t hn

theorem cmd_run_texts_fit {path : Option (List UInt8)} (h : (path.getD []).length ≤ TERM_IN - 1) :
    ∀ t ∈ cmd_run_texts s path, t.Fits := by
  unfold cmd_run_texts
  cases path with
  | none => simp
  | some path =>
    dsimp only
    split_ifs
    · simp
    · have hbin : (str "/bin/").length = 5 := by decide +kernel
      have hpath : path.length ≤ 127 := h
      rw [List.forall_mem_singleton, fits_iff]
      simp only [List.flatten_cons, List.flatten_nil, List.length_append, List.length_nil, Scratch.size, VFS_PATH_MAX]
      omega
    · simp

theorem cut_lines_length {tmp text : List UInt8} {fuel : Nat} (h : tmp ∈ cut_lines fuel text) : tmp.length < 96 := by
  induction fuel generalizing text with
  | zero => cases h
  | succ fuel ih =>
    cases text with
    | nil => cases h
    | cons b text =>
      simp only [cut_lines, List.mem_cons] at h
      rcases h with rfl | h
      · rw [List.length_take]
        omega
      · exact ih h

theorem read_db_length (s : St) (db : NodePtr) : (read_db s db).length < BUF_SIZE := by
  unfold read_db vfs_read
  dsimp only
  split_ifs
  · exact (show 0 < BUF_SIZE by decide)
  · rw [List.length_take, BUF_SIZE]
    omega

theorem pkg_list_texts_fit (s : St) (pkg : Option (List UInt8)) : ∀ t ∈ pkg_list_texts s pkg, t.Fits := by
  unfold pkg_list_texts
  cases vfs_resolve s DB_PATH with
  | none => simp
  | some db =>
    dsimp only
    rw [List.forall_mem_cons]
    constructor
    · rw [fits_iff]
      simpa [Scratch.size] using read_db_length s db
    · cases pkg with
      | none => simp
      | some pkg =>
        intro t ht
        obtain ⟨tmp, htmp, rfl⟩ := List.mem_map.1 ht
        rw [fits_iff]
        simpa [Scratch.size] using cut_lines_length htmp

theorem marker_text_fits : (marker_text pkg).Fits ↔ pkg.length ≤ 107 := by
  have hdir : (str "/usr/share/packages/").length = 20 := by decide +kernel
  rw [fits_iff, marker_text]
  simp only [List.flatten_cons, List.flatten_nil, List.length_append, List.length_nil, Scratch.size]
  omega

theorem add_entry_texts_fit (s : St) (pkg : List UInt8) : ∀ t ∈ add_entry_texts s pkg, t.Fits := by
  unfold add_entry_texts
  cases vfs_resolve s DB_PATH with
  | none => simp
  | some db =>
    have hread := read_db_length s db
    have hcut := cstr_length_le (read_db s db)
    dsimp only
    rw [List.forall_mem_cons, fits_iff]
    constructor
    · simpa [Scratch.size] using hread
    · split_ifs with hroom
      · rw [List.forall_mem_singleton, fits_iff]
        simp only [List.flatten_cons, List.flatten_nil, List.length_append, List.length_nil, Scratch.size]
        omega
      · simp

/-- The line for the database is the text with the least room. -/
theorem install_texts_fit : (∀ t ∈ install_texts s pkg, t.Fits) ↔ pkg.length ≤ 78 := by
  have htail : (str " 0.1.0 installed\n").length = 17 := by decide +kernel
  have hentry : Assembled.Fits ⟨.entry, [pkg, str " 0.1.0 installed\n"]⟩ ↔ pkg.length ≤ 78 := by
    rw [fits_iff]
    simp only [List.flatten_cons, List.flatten_nil, List.length_append, List.length_nil, Scratch.size]
    omega
  unfold install_texts
  rw [List.forall_mem_cons, List.forall_mem_append, List.forall_mem_singleton, hentry, marker_text_fits]
  constructor
  · exact fun h => h.1
  · intro h
    exact ⟨h, add_entry_texts_fit s pkg, by omega⟩

theorem term_draw_texts_fit (s : St) (input : List UInt8) :
    (∀ t ∈ term_draw_texts s input, t.Fits) ↔ (vfs_cwd s).length + input.length ≤ 152 := by
  have hname : (str "h3os:").length = 5 := by decide +kernel
  have hend : (str "> ").length = 2 := by decide +kernel
  rw [term_draw_texts, List.forall_mem_singleton, fits_iff]
  simp only [List.flatten_cons, List.flatten_nil, List.length_append, List.length_nil, Scratch.size, TERM_IN]
  omega

theorem h3pkg_call_eq {sub : List UInt8} : h3pkg_call input = some (sub, pkg) ↔
    (next_arg input).1 = some (str "h3pkg") ∧ (next_arg (next_arg input).2).1 = some sub ∧
      (next_arg (next_arg (next_arg input).2).2).1 = some pkg := by
  unfold h3pkg_call
  dsimp only
  split_ifs with h
  · cases (next_arg (next_arg input).2).1 with
    | none => simp
    | some word => simp [h, and_comm]
  · simp [h]

/-- Of the subcommands, only a package's name decides. -/
theorem h3pkg_texts_fit (s : St) (p : List UInt8) : (∀ t ∈ h3pkg_texts s p, t.Fits) ↔
    (∀ pkg, (next_arg p).1 = some (str "install") ∧ (next_arg (next_arg p).2).1 = some pkg → pkg.length ≤ 78) ∧
    ∀ pkg, (next_arg p).1 = some (str "remove") ∧ (next_arg (next_arg p).2).1 = some pkg → pkg.length ≤ 107 := by
  have hother : str "list" ≠ str "install" ∧ str "search" ≠ str "install" ∧ str "list" ≠ str "remove" ∧
      str "search" ≠ str "remove" ∧ str "remove" ≠ str "install" := by decide +kernel
  obtain ⟨hli, hsi, hlr, hsr, hri⟩ := hother
  unfold h3pkg_texts
  generalize next_arg p = r
  obtain ⟨sub, p⟩ := r
  dsimp only
  generalize next_arg p = r
  obtain ⟨pkg, rest⟩ := r
  dsimp only
  cases sub with
  | none => simp
  | some sub =>
    dsimp only
    simp only [Option.some.injEq]
    split_ifs with hl hi hr
    · refine iff_of_true (pkg_list_texts_fit s pkg) ?_
      rcases hl with rfl | rfl
      · exact ⟨fun _ h => absurd h.1 hli, fun _ h => absurd h.1 hlr⟩
      · exact ⟨fun _ h => absurd h.1 hsi, fun _ h => absurd h.1 hsr⟩
    · subst hi
      cases pkg with
      | none => simp
      | some pkg => simp [install_texts_fit, hri.symm]
    · subst hr
      cases pkg with
      | none => simp
      | some pkg => simp [marker_text_fits, hri]
    · simp [hi, hr]

/-- Of the commands, only those of `h3pkg` can make a text too long. -/
theorem run_command_texts_fit (h : Named s) (hin : input.length ≤ TERM_IN - 1) :
    (∀ t ∈ run_command_texts s input, t.Fits) ↔
      (∀ pkg, h3pkg_call input = some (str "install", pkg) → pkg.length ≤ 78) ∧
      ∀ pkg, h3pkg_call input = some (str "remove", pkg) → pkg.length ≤ 107 := by
  have hnames : str "ls" ≠ str "h3pkg" ∧ str "run" ≠ str "h3pkg" ∧ str "exec" ≠ str "h3pkg" ∧
      str "./" ≠ str "h3pkg" ∧ str "find" ≠ str "h3pkg" ∧ ends_with_exe (str "h3pkg") = false := by decide +kernel
  obtain ⟨hls, hrun, hexec, hdot, hfind, hexe⟩ := hnames
  have hwords := next_arg_length input
  have harg := next_arg_length (next_arg input).2
  simp only [h3pkg_call_eq]
  unfold run_command_texts
  generalize next_arg input = r at hwords harg ⊢
  obtain ⟨cmd, p⟩ := r
  dsimp only at hwords harg ⊢
  cases cmd with
  | none => simp
  | some cmd =>
    -- a command of another name
    have hother : cmd ≠ str "h3pkg" → ∀ {P P' Q Q' : List UInt8 → Prop},
        (∀ pkg, some cmd = some (str "h3pkg") ∧ P pkg → Q pkg) ∧ ∀ pkg, some cmd = some (str "h3pkg") ∧ P' pkg → Q' pkg := by
      intro hne P P' Q Q'
      have hno : some cmd ≠ some (str "h3pkg") := fun heq => hne (Option.some.inj heq)
      exact ⟨fun pkg hp => absurd hp.1 hno, fun pkg hp => absurd hp.1 hno⟩
    simp only [Option.getD_some] at hwords
    dsimp only
    split_ifs with h1 h2 h3 h4 h5
    · refine iff_of_true ?_ (hother (h1 ▸ hls))
      cases vfs_resolve s ((next_arg p).1.getD (str ".")) with
      | none => simp
      | some dir => exact ls_texts_fit h dir
    · refine iff_of_true (cmd_run_texts_fit (by omega)) (hother ?_)
      rcases h2 with rfl | rfl | rfl
      · exact hrun
      · exact hexec
      · exact hdot
    · refine iff_of_true (cmd_run_texts_fit (by rw [Option.getD_some]; omega)) (hother ?_)
      rintro rfl
      rw [hexe] at h3
      cases h3
    · refine iff_of_true ?_ (hother (h4 ▸ hfind))
      cases (next_arg p).1 with
      | none => simp
      | some pattern => exact ls_texts_fit h root
    · rw [h3pkg_texts_fit]
      simp [h5]
    · exact iff_of_true nofun (hother h5)

end

/-- The tree behind the calls made since `vfs_init`. -/
def tree (mem : Nat → Bool) (ops : List Op) : St := ops.foldl Vfs.exec (vfs_init mem)

theorem tree_named (mem : Nat → Bool) (ops : List Op) : Named (tree mem ops) := by
  unfold tree
  exact List.foldlRecOn (motive := Named) ops _ (named_init mem) fun s hs op _ => hs.exec op

/-- What has been typed with these keys. -/
def typed_input (keys : List UInt8) : List UInt8 := keys.foldl term_on_key []

theorem typed_input_length (keys : List UInt8) : (typed_input keys).length ≤ TERM_IN - 1 := by
  unfold typed_input
  refine List.foldlRecOn (motive := fun input : List UInt8 => input.length ≤ TERM_IN - 1) keys _ (Nat.zero_le _) ?_
  intro input hin c _
  unfold term_on_key
  split_ifs with _ _ hroom
  · exact Nat.zero_le _
  · rw [List.length_dropLast]
    omega
  · rw [List.length_append, List.length_singleton]
    omega
  · exact hin

/-- What the terminal puts together fits its buffers, in any tree and after any keys, exactly if neither the current
directory with the typed line nor a package's name on that line is too long. -/
theorem command_texts_fit_iff (mem : Nat → Bool) (ops : List Op) (keys : List UInt8) :
    (∀ t ∈ term_draw_texts (tree mem ops) (typed_input keys) ++ run_command_texts (tree mem ops) (typed_input keys),
      t.Fits) ↔ Short (tree mem ops) (typed_input keys) := by
  rw [List.forall_mem_append, term_draw_texts_fit, run_command_texts_fit (tree_named mem ops) (typed_input_length keys)]
  constructor
  · rintro ⟨hprompt, hinstall, hremove⟩
    exact ⟨hprompt, hinstall, hremove⟩
  · intro h
    exact ⟨h.prompt, h.install, h.remove⟩

/-- A name of 79 letters is too long for its line of the database. -/
theorem package_line_overruns : ¬ ∀ mem ops keys, (vfs_cwd (tree mem ops)).length < VFS_PATH_MAX →
    ∀ t ∈ term_draw_texts (tree mem ops) (typed_input keys) ++ run_command_texts (tree mem ops) (typed_input keys),
      t.Fits := by
  intro h
  have hcall : h3pkg_call (typed_input (padded "h3pkg install " 79)) = some (str "install", List.replicate 79 97) := by
    decide +kernel
  have hcwd : (vfs_cwd (tree (fun _ => true) [])).length < VFS_PATH_MAX := by decide +kernel
  have hall := h (fun _ => true) [] (padded "h3pkg install " 79) hcwd
  rw [List.forall_mem_append, run_command_texts_fit (tree_named _ _) (typed_input_length _)] at hall
  have hlen := hall.2.1 _ hcall
  rw [List.length_replicate] at hlen
  omega

end H3OS.Terminal
