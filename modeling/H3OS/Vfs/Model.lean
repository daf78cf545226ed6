import H3OS.Types
import H3OS.Lib.Chain
/-!
# The virtual file system

`filesystem/vfs/vfs.c`: a table of 256 nodes threaded into a tree by parent,
child and sibling pointers, and the paths that name its nodes. Strings are
the bytes before their terminator. Every write allocates the block it fills,
so a node's `data` is that block's contents; whether `kmalloc` succeeds is an
argument of the calls that ask it.
-/
open SysLib

namespace H3OS.Vfs

def VFS_NAME_MAX : Nat := 128
def VFS_PATH_MAX : Nat := 256
def VFS_MAX_NODES : Nat := 256

/-- `none` is what `memset` leaves in a node that was never allocated. -/
inductive vfs_type_t where
  | none
  | VFS_FILE
  | VFS_DIR
deriving DecidableEq

abbrev NodePtr := Fin VFS_MAX_NODES

structure vfs_node_t where
  name : List UInt8
  type : vfs_type_t
  mode : Nat
  size : Nat
  data : Option (List UInt8)
  parent : Option NodePtr
  child : Option NodePtr
  sibling : Option NodePtr
deriving DecidableEq

/-- A node of zeroes. -/
def blank : vfs_node_t := ⟨[], .none, 0, 0, none, none, none, none⟩

structure St where
  nodes : NodePtr → vfs_node_t
  node_count : Nat
  cwd : List UInt8

/-- `root`: `vfs_init` allocates it first. -/
def root : NodePtr := ⟨0, by decide⟩

def St.set (s : St) (n : NodePtr) (v : vfs_node_t) : St := { s with nodes := Function.update s.nodes n v }
def St.setChild (s : St) (n : NodePtr) (v : Option NodePtr) : St := s.set n { s.nodes n with child := v }
def St.setSibling (s : St) (n : NodePtr) (v : Option NodePtr) : St := s.set n { s.nodes n with sibling := v }

def alloc_node (s : St) (name : List UInt8) (type : vfs_type_t) (mode : Nat) : Option (NodePtr × St) :=
  if h : s.node_count < VFS_MAX_NODES then
    let s' := s.set ⟨s.node_count, h⟩ ⟨name.take (VFS_NAME_MAX - 1), type, mode, 0, none, none, none, none⟩
    some (⟨s.node_count, h⟩, { s' with node_count := s.node_count + 1 })
  else none

def link_child (s : St) (parent child : NodePtr) : St :=
  let s := s.set child { s.nodes child with parent := some parent, sibling := (s.nodes parent).child }
  s.setChild parent (some child)

/-- The nodes a walk along `sibling` passes, from `c` on; a list longer than the table has no end. -/
def siblings (s : St) : Nat → Option NodePtr → List NodePtr
  | 0, _ => []
  | _, none => []
  | fuel + 1, some c => c :: siblings s fuel (s.nodes c).sibling

/-- The nodes `vfs_list` shows of a directory. -/
def vfs_list (s : St) (dir : NodePtr) : List NodePtr :=
  if (s.nodes dir).type ≠ .VFS_DIR then [] else siblings s VFS_MAX_NODES (s.nodes dir).child

def find_child (s : St) (dir : NodePtr) (name : List UInt8) : Option NodePtr :=
  (siblings s VFS_MAX_NODES (s.nodes dir).child).find? (fun c => (s.nodes c).name = name)

/-! ## Paths -/

def SLASH : UInt8 := 47

/-- The text that `normalize_path` writes, before it cuts it to its buffer. -/
def full_path (s : St) (path : List UInt8) : List UInt8 :=
  if path.head? = some SLASH then path
  else s.cwd ++ (if s.cwd.getLast? = some SLASH then [] else [SLASH]) ++ path

def normalize_path (s : St) (path : List UInt8) : List UInt8 := (full_path s path).take (VFS_PATH_MAX - 1)

/-- One turn of the loop of `vfs_resolve`: the next component, and the path behind it and its slashes. -/
def next_part (p : List UInt8) : List UInt8 × List UInt8 :=
  let part := (p.takeWhile (· ≠ SLASH)).take (VFS_NAME_MAX - 1)
  (part, (p.drop part.length).dropWhile (· = SLASH))

/-- The components the loop sees. Each turn takes at least one byte, so the length of the path is fuel enough. -/
def path_parts : Nat → List UInt8 → List (List UInt8)
  | 0, _ => []
  | _, [] => []
  | fuel + 1, p => (next_part p).1 :: path_parts fuel (next_part p).2

/-- Where one component leads from `cur`. -/
def step_into (s : St) (cur : NodePtr) (part : List UInt8) : Option NodePtr :=
  if part = [] then some cur else
  if part = str "." then some cur else
  if part = str ".." then some ((s.nodes cur).parent.getD cur) else
  find_child s cur part

def walk (s : St) : NodePtr → List (List UInt8) → Option NodePtr
  | cur, [] => some cur
  | cur, part :: parts =>
    match step_into s cur part with
    | none => none
    | some cur => walk s cur parts

def vfs_resolve (s : St) (path : List UInt8) : Option NodePtr :=
  let full := normalize_path s path
  if full = str "/" then some root
  else walk s root (path_parts full.length full.tail)

def vfs_cwd (s : St) : List UInt8 := s.cwd

/-- The part of a path before its last slash, and the part behind. -/
def split_last (full : List UInt8) : List UInt8 × List UInt8 :=
  let leaf := (full.reverse.takeWhile (· ≠ SLASH)).reverse
  (full.take (full.length - leaf.length - 1), leaf)

/-- The directory of a path and the name in it. -/
def ensure_parent (s : St) (path : List UInt8) : Option NodePtr × List UInt8 :=
  let full := normalize_path s path
  let (dir, leaf) := split_last full
  -- `last == full`: the only slash is the first byte
  if dir = [] then (some root, full.tail) else (vfs_resolve s dir, leaf)

/-! ## The calls -/

/-- The body that `vfs_mkdir` and `vfs_create` share. -/
def make_node (type : vfs_type_t) (s : St) (path : List UInt8) (mode : Nat) : Option NodePtr × St :=
  let (parent, leaf) := ensure_parent s path
  match parent with
  | none => (none, s)
  | some parent =>
    if (s.nodes parent).type ≠ .VFS_DIR ∨ leaf = [] then (none, s) else
    match find_child s parent leaf with
    | some c => (some c, s)
    | none =>
      match alloc_node s leaf type mode with
      | none => (none, s)
      | some (n, s) => (some n, link_child s parent n)

def vfs_mkdir (s : St) (path : List UInt8) (mode : Nat) : Option NodePtr × St := make_node .VFS_DIR s path mode

def vfs_create (s : St) (path : List UInt8) (mode : Nat) : Option NodePtr × St := make_node .VFS_FILE s path mode

/-- `vfs_write` of the bytes `buf`; `mem` says whether `kmalloc` finds room for them. -/
def vfs_write (s : St) (node : Option NodePtr) (buf : List UInt8) (mem : Bool) : Int × St :=
  match node with
  | none => (-1, s)
  | some n =>
    if (s.nodes n).type ≠ .VFS_FILE then (-1, s) else
    if mem = false then (-1, s) else
    (i32 buf.length, s.set n { s.nodes n with data := some buf, size := buf.length })

/-- The bytes of a file. -/
def St.bytes (s : St) (n : NodePtr) : List UInt8 := ((s.nodes n).data.getD []).take (s.nodes n).size

/-- `vfs_read`: the result, and the bytes copied to the caller. -/
def vfs_read (s : St) (node : Option NodePtr) (max : Nat) : Int × List UInt8 :=
  match node with
  | none => (-1, [])
  | some n =>
    if (s.nodes n).type ≠ .VFS_FILE then (-1, []) else
    let k := min (s.nodes n).size max
    (i32 k, (s.bytes n).take k)

/-- The first node from `c` on whose sibling is `n`. -/
def find_prev (s : St) (n : NodePtr) (l : List NodePtr) : Option NodePtr :=
  l.find? (fun c => (s.nodes c).sibling = some n)

/-- Take `n` out of the list of its parent's children. -/
def unlink_child (s : St) (parent n : NodePtr) : St :=
  if (s.nodes parent).child = some n then s.setChild parent (s.nodes n).sibling
  else match find_prev s n (siblings s VFS_MAX_NODES (s.nodes parent).child) with
    | some c => s.setSibling c (s.nodes n).sibling
    | none => s

def vfs_unlink (s : St) (path : List UInt8) : Int × St :=
  match vfs_resolve s path with
  | none => (-1, s)
  | some n =>
    if n = root then (-1, s) else
    match (s.nodes n).parent with
    | none => (-1, s)
    | some parent =>
      let s := unlink_child s parent n
      (0, s.set n { s.nodes n with data := none, size := 0, name := [] })

def vfs_copy (s : St) (src dst : List UInt8) (mem : Bool) : Int × St :=
  match vfs_resolve s src with
  | none => (-1, s)
  | some n =>
    if (s.nodes n).type ≠ .VFS_FILE then (-1, s) else
    match vfs_create s dst (if (s.nodes n).mode ≠ 0 then (s.nodes n).mode else 0o644) with
    | (none, s) => (-1, s)
    | (some d, s) =>
      if (s.nodes n).size ≠ 0 ∧ (s.nodes n).data ≠ none then vfs_write s (some d) (s.bytes n) mem else (0, s)

def vfs_rename (s : St) (src dst : List UInt8) (mem : Bool) : Int × St :=
  match vfs_copy s src dst mem with
  | (r, s) => if r ≠ 0 then (-1, s) else vfs_unlink s src

/-! ## Changing directory -/

/-- The names from `cur` up to below the root. -/
def names_up (s : St) : Nat → Option NodePtr → List (List UInt8)
  | 0, _ => []
  | _, none => []
  | fuel + 1, some cur => if cur = root then [] else (s.nodes cur).name :: names_up s fuel (s.nodes cur).parent

/-- A name read back from `parts`: `strncpy` ends it only when it is shorter than its bound. Behind a longer one
`strcat` reads `junk`, what the stack held there. -/
def read_part (junk name : List UInt8) : List UInt8 :=
  if name.length < VFS_NAME_MAX - 1 then name else name ++ junk

/-- `strcat` of one part onto `cwd`. -/
def append_part (cwd part : List UInt8) : List UInt8 := (if 1 < cwd.length then cwd ++ [SLASH] else cwd) ++ part

/-- `vfs_chdir`; `junk i` is what follows the `i`-th name on the stack when it is not terminated. Behind such a name, of 127
bytes, the source may write past the end of `cwd`; here `cwd` just becomes longer. -/
def vfs_chdir (s : St) (path : List UInt8) (junk : Nat → List UInt8) : Int × St :=
  match vfs_resolve s path with
  | none => (-1, s)
  | some n =>
    if (s.nodes n).type ≠ .VFS_DIR then (-1, s) else
    let names := (names_up s VFS_MAX_NODES (some n)).take 32
    let parts := names.zipIdx.map (fun x => read_part (junk x.2) x.1)
    (0, { s with cwd := parts.foldr (fun part cwd => append_part cwd part) (str "/") })

/-! ## Mounting the root -/

/-- The tree with nothing but the root. -/
def init_root : St :=
  match alloc_node ⟨fun _ => blank, 0, str "/"⟩ (str "/") .VFS_DIR 0o755 with
  | none => ⟨fun _ => blank, 0, str "/"⟩
  | some (_, s) => s

def seed_dirs : List (String × Nat) :=
  [("/bin", 0o755), ("/etc", 0o755), ("/home", 0o755), ("/home/user", 0o755), ("/tmp", 0o777), ("/var", 0o755),
    ("/usr", 0o755), ("/usr/share", 0o755), ("/dev", 0o755), ("/proc", 0o755), ("/var/lib", 0o755),
    ("/var/lib/h3pkg", 0o755), ("/usr/share/packages", 0o755)]

def seed_files : List (String × String) :=
  [("/etc/motd", "Welcome to H3OS — The Future Starts Here.\n"),
    ("/etc/h3os-release", "NAME=\"H3OS\"\nVERSION=\"0.1.0\"\nCODENAME=\"Horizon\"\n"),
    ("/var/lib/h3pkg/db", "base-system 0.1.0 installed\nhorizon-desktop 0.1.0 installed\n")]

/-- Create a file and write a text into it. -/
def seed_file (s : St) (path text : List UInt8) (mem : Bool) : St :=
  match vfs_create s path 0o644 with
  | (none, s) => s
  | (some n, s) => (vfs_write s (some n) text mem).2

/-- `vfs_init`; `mem i` says whether `kmalloc` has room for the `i`-th seeded file. -/
def vfs_init (mem : Nat → Bool) : St :=
  let s := seed_dirs.foldl (fun s d => (vfs_mkdir s (str d.1) d.2).2) init_root
  seed_files.zipIdx.foldl (fun s f => seed_file s (str f.1.1) (str f.1.2) (mem f.2)) s

/-! ## Runs -/

inductive Op where
  | mkdir (path : List UInt8) (mode : Nat)
  | create (path : List UInt8) (mode : Nat)
  | write (node : Option NodePtr) (buf : List UInt8) (mem : Bool)
  | unlink (path : List UInt8)
  | copy (src dst : List UInt8) (mem : Bool)
  | rename (src dst : List UInt8) (mem : Bool)
  | chdir (path : List UInt8) (junk : Nat → List UInt8)

def exec (s : St) : Op → St
  | .mkdir path mode => (vfs_mkdir s path mode).2
  | .create path mode => (vfs_create s path mode).2
  | .write node buf mem => (vfs_write s node buf mem).2
  | .unlink path => (vfs_unlink s path).2
  | .copy src dst mem => (vfs_copy s src dst mem).2
  | .rename src dst mem => (vfs_rename s src dst mem).2
  | .chdir path junk => (vfs_chdir s path junk).2

/-- The normalised text of a path fits its buffer. An absolute path is cut to it, a relative one is not. -/
def Fits (s : St) (path : List UInt8) : Prop :=
  path.head? = some SLASH ∨ (full_path s path).length < VFS_PATH_MAX

/-- The name that `ensure_parent` copies out fits its buffer too. -/
def LeafFits (s : St) (path : List UInt8) : Prop :=
  Fits s path ∧ (ensure_parent s path).2.length < VFS_NAME_MAX

/-- Paths of short components whose normalised text is short; they fit. -/
def PathOk (s : St) (path : List UInt8) : Prop :=
  (full_path s path).length < VFS_PATH_MAX ∧ ∀ x, x <:+: full_path s path → SLASH ∉ x → x.length < VFS_NAME_MAX

/-- The call overruns none of the buffers for its paths. -/
def Op.Allowed (s : St) : Op → Prop
  | .mkdir path _ | .create path _ => LeafFits s path
  | .unlink path | .chdir path _ => Fits s path
  | .copy src dst _ | .rename src dst _ => Fits s src ∧ LeafFits s dst
  | .write _ _ _ => True

/-- The trees that allowed calls lead to from `vfs_init`. -/
inductive Reach : St → Prop
  | init (mem : Nat → Bool) : Reach (vfs_init mem)
  | step {s : St} (op : Op) (h : Reach s) (hop : op.Allowed s) : Reach (exec s op)

/-- Following `child` and `sibling` from `p` passes the nodes `l`, each subtree before the next sibling. -/
inductive Visits (s : St) : Option NodePtr → List NodePtr → Prop
  | none : Visits s none []
  | node {n : NodePtr} {below behind : List NodePtr} (hb : Visits s (s.nodes n).child below)
      (hs : Visits s (s.nodes n).sibling behind) : Visits s (some n) (n :: below ++ behind)

/-- The links from the root form a tree that visits each of the nodes `l` once, with parents, names and files as they
should be. -/
structure Tree (s : St) (l : List NodePtr) : Prop where
  visits : Visits s (some root) l
  once : l.Nodup
  root_parent : (s.nodes root).parent = none
  dirs : ∀ d ∈ l, ∃ kids, Chain (fun c => (s.nodes c).sibling) (s.nodes d).child kids ∧
    (∀ c ∈ kids, c ∈ l ∧ (s.nodes c).parent = some d ∧ (s.nodes c).name ≠ []) ∧
    (kids.map (fun c => (s.nodes c).name)).Nodup ∧ ((s.nodes d).type = .VFS_FILE → kids = [])

end H3OS.Vfs
