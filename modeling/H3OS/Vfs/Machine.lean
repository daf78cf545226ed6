import H3OS.Heap.Frame
import H3OS.Vfs.Ownership
/-!
# The file system on the kernel's heap

`filesystem/vfs/vfs.c` with the `kmalloc` and `kfree` of `memory/heap.c` on
the pages of `memory/pmm.c`. One memory holds the heap's lists, the files and
all else; the rest of the kernel allocates, releases and writes between the calls.
What the calls do with paths and links is taken from `Vfs.Raw`.
-/
open SysLib

namespace H3OS.Vfs.Machine

structure St where
  nodes : NodePtr → Raw.vfs_node_t
  node_count : Nat
  cwd : List UInt8
  /-- The heap with its memory, and the page allocator. -/
  kernel : Backed.St

/-- The file system's part, with `live` as the blocks in use. -/
def St.files (s : St) (live : List Block) : Raw.St := ⟨s.nodes, s.node_count, s.cwd, s.kernel.heap.mem, live⟩

/-- The tree with contents for addresses. -/
def St.view (s : St) : Vfs.St := (s.files []).view

def St.set (s : St) (n : NodePtr) (v : Raw.vfs_node_t) : St := { s with nodes := Function.update s.nodes n v }

/-- The nodes and the directory of `p`. -/
def St.withTree (s : St) (p : Raw.St) : St := { s with nodes := p.nodes, node_count := p.node_count, cwd := p.cwd }

def kfree (k : Backed.St) (ptr : Nat) : Backed.St := { k with heap := Heap.kfree k.heap ptr }

/-! ## The calls -/

def vfs_mkdir (s : St) (path : List UInt8) (mode : Nat) : Option NodePtr × St :=
  let (n, p) := Raw.vfs_mkdir (s.files []) path mode
  (n, s.withTree p)

def vfs_create (s : St) (path : List UInt8) (mode : Nat) : Option NodePtr × St :=
  let (n, p) := Raw.vfs_create (s.files []) path mode
  (n, s.withTree p)

def vfs_chdir (s : St) (path : List UInt8) (junk : Nat → List UInt8) : Int × St :=
  let (r, p) := Raw.vfs_chdir (s.files []) path junk
  (r, s.withTree p)

def vfs_read (s : St) (node : Option NodePtr) (buf max out_size : Nat) : Int × St :=
  let (r, p) := Raw.vfs_read (s.files []) node buf max out_size
  (r, { s with kernel := s.kernel.withMem p.mem })

/-- The new block of a `vfs_write`, filled, while the old one is still there; 0 when `kmalloc` has none. -/
def fill_new (k : Backed.St) (buf size : Nat) : Option (Nat × Backed.St) :=
  match Backed.kmalloc k (add64 size 1) with
  | none => none
  | some (data, k) =>
    if data = 0 then some (0, k) else
    some (data, k.withMem (Function.update (copy k.heap.mem data buf size) (data + size) 0))

/-- `none` is a panic of the heap. -/
def vfs_write (s : St) (node : Option NodePtr) (buf size : Nat) : Option (Int × St) :=
  match node with
  | none => some (-1, s)
  | some n =>
    if (s.nodes n).type ≠ .VFS_FILE then some (-1, s) else
    match fill_new s.kernel buf size with
    | none => none
    | some (data, k) =>
      if data = 0 then some (-1, { s with kernel := k }) else
      let k := if (s.nodes n).data ≠ 0 then kfree k (s.nodes n).data else k
      some (i32 size, { s with kernel := k }.set n { s.nodes n with data := data, size := size })

def vfs_unlink (s : St) (path : List UInt8) : Int × St :=
  match vfs_resolve s.view path with
  | none => (-1, s)
  | some n =>
    if n = root then (-1, s) else
    match (s.nodes n).parent with
    | none => (-1, s)
    | some parent =>
      let s := s.withTree (Raw.unlink_child (s.files []) parent n)
      let s := if (s.nodes n).data ≠ 0
        then { s with kernel := kfree s.kernel (s.nodes n).data }.set n { s.nodes n with data := 0 } else s
      (0, s.set n { s.nodes n with size := 0, name := [] })

def vfs_copy (s : St) (src dst : List UInt8) : Option (Int × St) :=
  match vfs_resolve s.view src with
  | none => some (-1, s)
  | some n =>
    if (s.nodes n).type ≠ .VFS_FILE then some (-1, s) else
    match vfs_create s dst (if (s.nodes n).mode ≠ 0 then (s.nodes n).mode else 0o644) with
    | (none, s) => some (-1, s)
    | (some d, s) =>
      if (s.nodes n).size ≠ 0 ∧ (s.nodes n).data ≠ 0 then vfs_write s (some d) (s.nodes n).data (s.nodes n).size
      else some (0, s)

def vfs_rename (s : St) (src dst : List UInt8) : Option (Int × St) :=
  match vfs_copy s src dst with
  | none => none
  | some (r, s) => if r ≠ 0 then some (-1, s) else some (vfs_unlink s src)

/-! ## Runs -/

/-- `kmalloc` has a block for `size` bytes and a NUL. -/
def room (k : Backed.St) (size : Nat) : Bool := (Backed.kmalloc k (add64 size 1)).any fun r => r.1 ≠ 0

def copy_room (s : St) (src : List UInt8) : Bool := (vfs_resolve s.view src).any fun n => room s.kernel (s.nodes n).size

inductive Op where
  | mkdir (path : List UInt8) (mode : Nat)
  | create (path : List UInt8) (mode : Nat)
  | write (node : Option NodePtr) (buf size : Nat)
  | read (node : Option NodePtr) (buf max out_size : Nat)
  | unlink (path : List UInt8)
  | copy (src dst : List UInt8)
  | rename (src dst : List UInt8)
  | chdir (path : List UInt8) (junk : Nat → List UInt8)

def exec (s : St) : Op → Option St
  | .mkdir path mode => some (vfs_mkdir s path mode).2
  | .create path mode => some (vfs_create s path mode).2
  | .write node buf size => (vfs_write s node buf size).map Prod.snd
  | .read node buf max out_size => some (vfs_read s node buf max out_size).2
  | .unlink path => some (vfs_unlink s path).2
  | .copy src dst => (vfs_copy s src dst).map Prod.snd
  | .rename src dst => (vfs_rename s src dst).map Prod.snd
  | .chdir path junk => some (vfs_chdir s path junk).2

/-- The call on contents that a call amounts to. -/
def Op.view (s : St) : Op → Option Vfs.Op
  | .mkdir path mode => some (.mkdir path mode)
  | .create path mode => some (.create path mode)
  | .write node buf size => some (.write node (bytesAt s.kernel.heap.mem buf size) (room s.kernel size))
  | .read _ _ _ _ => none
  | .unlink path => some (.unlink path)
  | .copy src dst => some (.copy src dst (copy_room s src))
  | .rename src dst => some (.rename src dst (copy_room s src))
  | .chdir path junk => some (.chdir path junk)

/-- A pointer into the heap that somebody has: the rest of the kernel one of `others`, or a node its data. -/
def St.Has (s : St) (others : List Nat) (p : Nat) : Prop := p ∈ others ∨ p ≠ 0 ∧ ∃ n, (s.nodes n).data = p

/-- A byte that a caller may pass on: in a block that somebody has, or outside the heap in a page that is in use. -/
def Readable (s : St) (others : List Nat) (x : Nat) : Prop :=
  (∃ p, s.Has others p ∧ (Backed.blockAt s.kernel p).Has x) ∨
    Backed.Outside s.kernel x ∧ Pmm.bitmap_test s.kernel.pmm (x / PAGE_SIZE) = true

/-- A byte that the rest of the kernel may write: in a block of its own, or outside the heap. -/
def Writable (s : St) (others : List Nat) (x : Nat) : Prop :=
  (∃ p ∈ others, (Backed.blockAt s.kernel p).Has x) ∨ Backed.Outside s.kernel x

/-- The call overruns none of its path buffers, and its arguments are memory that the caller may give it. -/
def Op.Allowed (s : St) (others : List Nat) : Op → Prop
  | .mkdir path _ | .create path _ => LeafFits s.view path
  | .write _ buf size => size < 2 ^ 63 ∧ ∀ x, (Block.mk buf size).Has x → Readable s others x
  | .read _ buf max out_size =>
    ∀ x, (Block.mk buf max).Has x ∨ out_size ≠ 0 ∧ (Block.mk out_size 8).Has x → Writable s others x
  | .unlink path | .chdir path _ => Fits s.view path
  | .copy src dst | .rename src dst => Fits s.view src ∧ LeafFits s.view dst

/-- The old block of a written node is released with its free neighbours in its own region. -/
def WriteFine (s : St) (node : Option NodePtr) (buf size : Nat) : Prop :=
  ∀ n ∈ node, ∀ data k, (s.nodes n).data ≠ 0 → fill_new s.kernel buf size = some (data, k) →
    Heap.ReleaseOk k.heap (s.nodes n).data

def UnlinkFine (s : St) (path : List UInt8) : Prop :=
  ∀ n ∈ vfs_resolve s.view path, (s.nodes n).data ≠ 0 → Heap.ReleaseOk s.kernel.heap (s.nodes n).data

def CopyFine (s : St) (src dst : List UInt8) : Prop :=
  ∀ n ∈ vfs_resolve s.view src,
    let (d, s) := vfs_create s dst (if (s.nodes n).mode ≠ 0 then (s.nodes n).mode else 0o644)
    WriteFine s d (s.nodes n).data (s.nodes n).size

/-- Releasing never merges blocks of different regions. -/
def Op.Fine (s : St) : Op → Prop
  | .write node buf size => WriteFine s node buf size
  | .unlink path => UnlinkFine s path
  | .copy src dst => CopyFine s src dst
  | .rename src dst => CopyFine s src dst ∧ ∀ r s', vfs_copy s src dst = some (r, s') → UnlinkFine s' src
  | _ => True

/-- The root alone, on a heap and a page allocator right after boot. -/
def boot (kernel_end arena : Nat) (mmap : Option (List Pmm.mb2_mmap_entry_t)) (m : Mem) : St :=
  let p := Raw.init_root m []
  ⟨p.nodes, p.node_count, p.cwd, ⟨Pmm.pmm_init kernel_end mmap, Heap.heap_init m arena⟩⟩

/-- The states after boot, with the heap pointers that the rest of the kernel has and the pages that other users of the
page allocator hold. `kcalloc` and `krealloc` of the others are an allocation, a write and a release. -/
inductive Runs (kernel_end arena : Nat) (mmap : Option (List Pmm.mb2_mmap_entry_t)) :
    St → List Nat → List Pmm.Grant → Prop
  | init (m : Mem) : Runs kernel_end arena mmap (boot kernel_end arena mmap m) [] []
  | call {s s' others held} (op : Op) : Runs kernel_end arena mmap s others held → op.Allowed s others → op.Fine s →
      exec s op = some s' → Runs kernel_end arena mmap s' others held
  | kmalloc {s others held} {r : Nat} {k : Backed.St} (size : Nat) : Runs kernel_end arena mmap s others held →
      size ≤ 2 ^ 63 → Backed.kmalloc s.kernel size = some (r, k) →
      Runs kernel_end arena mmap { s with kernel := k } (if r = 0 then others else r :: others) held
  | kfree {s others held} (ptr : Nat) : Runs kernel_end arena mmap s others held → ptr ∈ others →
      Heap.ReleaseOk s.kernel.heap ptr →
      Runs kernel_end arena mmap { s with kernel := kfree s.kernel ptr } (others.filter (· ≠ ptr)) held
  | write {s others held} (m : Mem) : Runs kernel_end arena mmap s others held →
      (∀ x, m x ≠ s.kernel.heap.mem x → Writable s others x) →
      Runs kernel_end arena mmap { s with kernel := s.kernel.withMem m } others held
  | alloc_pages {s others held} (count : Nat) : Runs kernel_end arena mmap s others held → count < 2 ^ 64 →
      Runs kernel_end arena mmap
        { s with kernel := { s.kernel with pmm := (Pmm.pmm_alloc_pages s.kernel.pmm count).2 } } others
        (Pmm.grant (Pmm.pmm_alloc_pages s.kernel.pmm count).1 count held)
  | free_page {s others held} (addr : Nat) : Runs kernel_end arena mmap s others held →
      Pmm.Held held (addr / PAGE_SIZE) →
      Runs kernel_end arena mmap { s with kernel := { s.kernel with pmm := Pmm.pmm_free_page s.kernel.pmm addr } } others
        (Pmm.release [addr / PAGE_SIZE] held)
  | free_pages {s others held} (addr count : Nat) : Runs kernel_end arena mmap s others held →
      (∀ p ∈ Pmm.named addr count, Pmm.Held held p) →
      Runs kernel_end arena mmap
        { s with kernel := { s.kernel with pmm := Pmm.pmm_free_pages s.kernel.pmm addr count } } others
        (Pmm.release (Pmm.named addr count) held)

end H3OS.Vfs.Machine
