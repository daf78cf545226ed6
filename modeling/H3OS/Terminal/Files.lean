import H3OS.Lib.Loop
import H3OS.Terminal.Words
import H3OS.Vfs.Buffers
/-!
# The file commands

The branches of `run_command` for `cd`, `ls`, `mkdir`, `rm`, `cp`, `mv` and
`cat`: the calls of the file system that each makes, and the texts these
calls build. A typed line is short, and so is every name made from it; what
grows over the commands is the current directory.
-/
open SysLib H3OS.Vfs

namespace H3OS.Terminal

def TERM_IN : Nat := 128

/-- A command and its operands; `usage` is one whose operands are missing. -/
inductive FileCmd where
  | cd (path : List UInt8)
  | ls (path : List UInt8)
  | mkdir (path : List UInt8)
  | rm (path : List UInt8)
  | cp (src dst : List UInt8)
  | mv (src dst : List UInt8)
  | cat (path : List UInt8)
  | usage

/-- The command on a line, if it is one of these. -/
def file_cmd (line : List UInt8) : Option FileCmd :=
  let (cmd, p) := next_arg line
  let (arg, p) := next_arg p
  let (dst, _) := next_arg p
  match cmd with
  | none => none
  | some cmd =>
    if cmd = str "cd" then some (.cd (arg.getD (str "/home/user")))
    else if cmd = str "ls" then some (.ls (arg.getD (str ".")))
    else if cmd = str "mkdir" then some (arg.elim .usage .mkdir)
    else if cmd = str "rm" then some (arg.elim .usage .rm)
    else if cmd = str "cp" then some (arg.elim .usage fun src => dst.elim .usage (.cp src))
    else if cmd = str "mv" then some (arg.elim .usage fun src => dst.elim .usage (.mv src))
    else if cmd = str "cat" then some (arg.elim .usage .cat)
    else none

/-- The tree behind a command. -/
def FileCmd.exec (s : St) (mem : Bool) (junk : Nat → List UInt8) : FileCmd → St
  | cd path => (vfs_chdir s path junk).2
  | mkdir path => (vfs_mkdir s path 0o755).2
  | rm path => (vfs_unlink s path).2
  | cp src dst => (vfs_copy s src dst mem).2
  | mv src dst => (vfs_rename s src dst mem).2
  | ls _ | cat _ | usage => s

/-- The texts that a command's calls build. -/
def FileCmd.texts (s : St) (mem : Bool) (junk : Nat → List UInt8) : FileCmd → List Text
  | cd path => chdir_texts s path junk
  | mkdir path => ensure_parent_texts s path
  | ls path | rm path | cat path => resolve_texts s path
  | cp src dst => copy_texts s src dst
  | mv src dst => rename_texts s src dst mem
  | usage => []

/-- There is room for each path the command looks at. -/
def FileCmd.HasRoom (s : St) : FileCmd → Prop
  | cd path | mkdir path | ls path | rm path | cat path => Room s path
  | cp src dst | mv src dst => Room s src ∧ (IsFile s src → Room s dst)
  | usage => True

/-- The path that a command may make a node for. -/
def FileCmd.made : FileCmd → List UInt8
  | mkdir path => path
  | cp _ dst | mv _ dst => dst
  | cd _ | ls _ | rm _ | cat _ | usage => []

/-- A line typed at the prompt; `mem` is what `kmalloc` answers, `junk` what the stack holds. -/
structure Typed where
  line : List UInt8
  mem : Bool
  junk : Nat → List UInt8
  short : line.length ≤ TERM_IN - 1
  known : (file_cmd line).isSome

def Typed.cmd (i : Typed) : FileCmd := (file_cmd i.line).get i.known

/-- The tree behind the lines typed so far, and all the texts built for them. -/
def typed (mem : Nat → Bool) (l : List Typed) : St × List Text :=
  l.foldl (fun x i => (i.cmd.exec x.1 i.mem i.junk, x.2 ++ i.cmd.texts x.1 i.mem i.junk)) (vfs_init mem, [])

/-! ## Words of a line -/

section
variable {p w q : List UInt8}

theorem next_arg_some (h : next_arg p = (some w, q)) : w ≠ [] ∧ w.length + q.length ≤ p.length := by
  rcases first_word SPACE p with hblank | ⟨gap, x, sep, rest, hx⟩
  · rw [next_arg_blank hblank] at h
    cases h
  · rw [next_arg_first hx] at h
    cases h
    have hlen := congrArg List.length hx.split
    simp only [List.length_append] at hlen
    exact ⟨hx.ne_nil, by omega⟩

/-- The words of a line and what is left behind them are no longer than it. -/
theorem next_arg_length (p : List UInt8) : ((next_arg p).1.getD []).length + (next_arg p).2.length ≤ p.length := by
  rcases first_word SPACE p with hblank | ⟨gap, x, sep, rest, hx⟩
  · simp [next_arg_blank hblank]
  · have h := next_arg_first hx
    rw [h]
    exact (next_arg_some h).2

end

/-- A command with a source and a target makes its target. -/
theorem made_target_length (arg dst : Option (List UInt8)) {mk : List UInt8 → List UInt8 → FileCmd}
    (hmk : ∀ src dst, (mk src dst).made = dst) :
    (arg.elim .usage fun src => dst.elim .usage (mk src)).made.length ≤ (dst.getD []).length := by
  cases arg with
  | none => exact Nat.zero_le _
  | some src =>
    cases dst with
    | none => exact Nat.zero_le _
    | some dst => simp [hmk]

/-- The name of a command is not empty, so what it makes is shorter than the line. -/
theorem made_length {line : List UInt8} {c : FileCmd} (h : file_cmd line = some c) : c.made.length ≤ line.length - 1 := by
  unfold file_cmd at h
  generalize hcmd : next_arg line = r at h
  obtain ⟨cmd, p⟩ := r
  dsimp only at h
  have harg := next_arg_length p
  generalize next_arg p = r at h harg
  obtain ⟨arg, q⟩ := r
  dsimp only at h
  have hdst := next_arg_length q
  generalize next_arg q = r at h hdst
  obtain ⟨dst, rest⟩ := r
  dsimp only at h harg hdst
  cases cmd with
  | none => cases h
  | some cmd =>
    obtain ⟨hne, hlen⟩ := next_arg_some hcmd
    have hpos := List.length_pos_of_ne_nil hne
    dsimp only at h
    split_ifs at h <;> cases h
    · exact Nat.zero_le _
    · exact Nat.zero_le _
    · cases arg with
      | none => exact Nat.zero_le _
      | some path =>
        simp only [Option.elim_some, FileCmd.made, Option.getD_some] at harg ⊢
        omega
    · cases arg <;> exact Nat.zero_le _
    · have := made_target_length arg dst (show ∀ a b, (FileCmd.cp a b).made = b from fun _ _ => rfl)
      omega
    · have := made_target_length arg dst (show ∀ a b, (FileCmd.mv a b).made = b from fun _ _ => rfl)
      omega
    · cases arg <;> exact Nat.zero_le _

theorem Typed.made_short (i : Typed) : i.cmd.made.length < VFS_NAME_MAX - 1 := by
  have hlen : i.cmd.made.length ≤ i.line.length - 1 := made_length (Option.some_get i.known).symm
  have hline : i.line.length ≤ 127 := i.short
  unfold VFS_NAME_MAX
  omega

/-! ## One command -/

section
variable {s : St} {c : FileCmd} {mem : Bool} {junk : Nat → List UInt8}

theorem FileCmd.texts_fit (h : Tidy s) (hmade : c.made.length < VFS_NAME_MAX - 1) :
    (∀ t ∈ c.texts s mem junk, t.Fits) ↔ c.HasRoom s := by
  obtain ⟨kids, hi⟩ := h.inv
  cases c with
  | cd path => exact chdir_texts_fit hi h.names junk
  | mkdir path => exact ensure_parent_texts_fit h.cwd_head (Nat.lt_of_lt_pred hmade)
  | ls path => exact resolve_texts_fit
  | rm path => exact resolve_texts_fit
  | cat path => exact resolve_texts_fit
  | cp src dst => exact copy_texts_fit h.cwd_head (Nat.lt_of_lt_pred hmade)
  | mv src dst => exact rename_texts_fit mem h.cwd_head (Nat.lt_of_lt_pred hmade)
  | usage => simp [FileCmd.texts, FileCmd.HasRoom]

theorem FileCmd.exec_tidy (h : Tidy s) (hmade : c.made.length < VFS_NAME_MAX - 1) (hroom : c.HasRoom s) :
    Tidy (c.exec s mem junk) := by
  cases c with
  | cd path => exact h.chdir hroom junk
  | mkdir path => exact h.mkdir hroom hmade 0o755
  | ls path => exact h
  | rm path => exact h.unlink hroom
  | cat path => exact h
  | cp src dst => exact h.copy hroom.1 hroom.2 hmade mem
  | mv src dst => exact h.rename hroom.1 hroom.2 hmade mem
  | usage => exact h

end

/-! ## Runs of commands -/

/-- There was room for every command when it was typed. -/
def HadRoom (mem : Nat → Bool) (l : List Typed) : Prop :=
  ∀ pre i, pre ++ [i] <+: l → i.cmd.HasRoom (typed mem pre).1

section
variable {mem : Nat → Bool} {l : List Typed} {i : Typed}

theorem typed_nil (mem : Nat → Bool) : typed mem [] = (vfs_init mem, []) := by
  unfold typed
  rw [List.foldl_nil]

theorem typed_concat : typed mem (l ++ [i]) = (i.cmd.exec (typed mem l).1 i.mem i.junk,
    (typed mem l).2 ++ i.cmd.texts (typed mem l).1 i.mem i.junk) := by
  unfold typed
  rw [List.foldl_append]
  rfl

theorem hadRoom_concat : HadRoom mem (l ++ [i]) ↔ HadRoom mem l ∧ i.cmd.HasRoom (typed mem l).1 := by
  unfold HadRoom
  simp only [step_prefix_concat]
  constructor
  · intro h
    exact ⟨fun pre j hpre => h pre j (.inl hpre), h l i (.inr ⟨rfl, rfl⟩)⟩
  · rintro ⟨h, hlast⟩ pre j (hpre | ⟨rfl, rfl⟩)
    · exact h pre j hpre
    · exact hlast

theorem typed_tidy (h : HadRoom mem l) : Tidy (typed mem l).1 := by
  induction l using List.reverseRecOn with
  | nil =>
    rw [typed_nil]
    dsimp only
    exact tidy_init mem
  | append_singleton l i ih =>
    obtain ⟨h, hroom⟩ := hadRoom_concat.1 h
    rw [typed_concat]
    exact FileCmd.exec_tidy (ih h) i.made_short hroom

end

/-- The texts built for the lines typed since `vfs_init` fit their buffers exactly when there was room for every
relative path behind the directory it was typed in. -/
theorem path_texts_fit_iff (mem : Nat → Bool) (l : List Typed) : (∀ t ∈ (typed mem l).2, t.Fits) ↔ HadRoom mem l := by
  induction l using List.reverseRecOn with
  | nil =>
    constructor
    · intro _ pre i hpre
      exact absurd (List.prefix_nil.1 hpre) (by simp)
    · rw [typed_nil]
      intro _ t ht
      cases ht
  | append_singleton l i ih =>
    rw [typed_concat, List.forall_mem_append, ih, hadRoom_concat]
    exact and_congr_right (fun h => FileCmd.texts_fit (typed_tidy h) i.made_short)

def padded (text : String) (k : Nat) : List UInt8 := str text ++ List.replicate k 97

/-- Two long names below each other leave no room for a third, short one. -/
def climb : List Typed :=
  [⟨padded "mkdir " 120, true, fun _ => [], by decide +kernel, by decide +kernel⟩,
    ⟨padded "cd " 120, true, fun _ => [], by decide +kernel, by decide +kernel⟩,
    ⟨padded "mkdir " 120, true, fun _ => [], by decide +kernel, by decide +kernel⟩,
    ⟨padded "cd " 120, true, fun _ => [], by decide +kernel, by decide +kernel⟩,
    ⟨padded "mkdir " 13, true, fun _ => [], by decide +kernel, by decide +kernel⟩]

theorem path_text_overruns : ¬ ∀ mem l, ∀ t ∈ (typed mem l).2, t.Fits := by
  intro h
  have hall : ¬ ∀ t ∈ (typed (fun _ => true) climb).2, t.Fits := by decide +kernel
  exact hall (h (fun _ => true) climb)

end H3OS.Terminal
