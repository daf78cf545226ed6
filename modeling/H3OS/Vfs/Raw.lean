import H3OS.Lib.Blocks
import H3OS.Vfs.Model
/-!
# The file system over the heap

`filesystem/vfs/vfs.c` once more, with `data` as the address it is (0 for
NULL), the memory behind it, and the blocks that `kmalloc` has handed out.
`view` forgets the addresses and leaves the contents; what the calls do with
paths and names does not touch `data`, so it is taken from the view.

The heap is a parameter: a call is given the blocks `kmalloc` finds and what
the heap's own bookkeeping does to memory. `HeapCall.Sound` is what it promises.
-/
open SysLib

namespace H3OS.Vfs.Raw

structure vfs_node_t where
  name : List UInt8
  type : vfs_type_t
  mode : Nat
  size : Nat
  data : Nat
  parent : Option NodePtr
  child : Option NodePtr
  sibling : Option NodePtr

def blank : vfs_node_t := ⟨[], .none, 0, 0, 0, none, none, none⟩

structure St where
  nodes : NodePtr → vfs_node_t
  node_count : Nat
  cwd : List UInt8
  mem : Mem
  /-- The blocks in use, those of the rest of the kernel included. -/
  live : List Block

def St.set (p : St) (n : NodePtr) (v : vfs_node_t) : St := { p with nodes := Function.update p.nodes n v }

/-- The bytes of a file, in memory. -/
def St.bytes (p : St) (n : NodePtr) : List UInt8 := bytesAt p.mem (p.nodes n).data (p.nodes n).size

def vfs_node_t.view (v : vfs_node_t) (m : Mem) : Vfs.vfs_node_t :=
  ⟨v.name, v.type, v.mode, v.size, if v.data = 0 then none else some (bytesAt m v.data v.size), v.parent, v.child,
    v.sibling⟩

/-- The tree with contents for addresses. -/
def St.view (p : St) : Vfs.St := ⟨fun n => (p.nodes n).view p.mem, p.node_count, p.cwd⟩

/-! ## The heap -/

/-- What the heap does during one call. -/
structure HeapCall where
  /-- The block found for a request. -/
  find : Nat → Option Block
  /-- What `kmalloc` does to memory. -/
  grow : Mem → Mem
  /-- What `kfree` does to it. -/
  drop : Mem → Mem

def kmalloc (p : St) (size : Nat) (h : HeapCall) : Nat × St :=
  match h.find size with
  | none => (0, { p with mem := h.grow p.mem })
  | some b => (b.start, { p with mem := h.grow p.mem, live := b :: p.live })

def kfree (p : St) (ptr : Nat) (h : HeapCall) : St := { p with mem := h.drop p.mem, live := release ptr p.live }

/-- What the heap promises a call that asks for `req` bytes while it holds the buffer `buf`, and may give back the
block at `old`: NULL or a block as large, apart from all blocks in use and from the buffer, and no byte of these
changed. -/
structure HeapCall.Sound (h : HeapCall) (live : List Block) (buf : Block) (req old : Nat) : Prop where
  real : ∀ b, h.find req = some b → b.Real ∧ req ≤ b.len
  fresh : ∀ b, h.find req = some b → b.Apart buf ∧ ∀ c ∈ live, b.Apart c
  grow : Spares h.grow (buf :: live)
  drop : ∀ b, h.find req = some b → Spares h.drop (release old (b :: live))

/-! ## The calls -/

def alloc_node (p : St) (name : List UInt8) (type : vfs_type_t) (mode : Nat) : Option (NodePtr × St) :=
  if h : p.node_count < VFS_MAX_NODES then
    let p' := p.set ⟨p.node_count, h⟩ ⟨name.take (VFS_NAME_MAX - 1), type, mode, 0, 0, none, none, none⟩
    some (⟨p.node_count, h⟩, { p' with node_count := p.node_count + 1 })
  else none

def link_child (p : St) (parent child : NodePtr) : St :=
  let p := p.set child { p.nodes child with parent := some parent, sibling := (p.nodes parent).child }
  p.set parent { p.nodes parent with child := some child }

def make_node (type : vfs_type_t) (p : St) (path : List UInt8) (mode : Nat) : Option NodePtr × St :=
  let (parent, leaf) := ensure_parent p.view path
  match parent with
  | none => (none, p)
  | some parent =>
    if (p.nodes parent).type ≠ .VFS_DIR ∨ leaf = [] then (none, p) else
    match find_child p.view parent leaf with
    | some c => (some c, p)
    | none =>
      match alloc_node p leaf type mode with
      | none => (none, p)
      | some (n, p) => (some n, link_child p parent n)

def vfs_mkdir (p : St) (path : List UInt8) (mode : Nat) : Option NodePtr × St := make_node .VFS_DIR p path mode

def vfs_create (p : St) (path : List UInt8) (mode : Nat) : Option NodePtr × St := make_node .VFS_FILE p path mode

/-- `vfs_write` of `size` bytes from `buf`. -/
def vfs_write (p : St) (node : Option NodePtr) (buf size : Nat) (h : HeapCall) : Int × St :=
  match node with
  | none => (-1, p)
  | some n =>
    if (p.nodes n).type ≠ .VFS_FILE then (-1, p) else
    let (data, p) := kmalloc p (add64 size 1) h
    if data = 0 then (-1, p) else
    let p := { p with mem := copy p.mem data buf size }
    let p := { p with mem := Function.update p.mem (data + size) 0 }
    -- the old block goes only now: `buf` may point into it
    let p := if (p.nodes n).data ≠ 0 then kfree p (p.nodes n).data h else p
    (i32 size, p.set n { p.nodes n with data := data, size := size })

/-- `vfs_read` of at most `max` bytes to `buf`, their number to `out_size`. -/
def vfs_read (p : St) (node : Option NodePtr) (buf max out_size : Nat) : Int × St :=
  match node with
  | none => (-1, p)
  | some n =>
    if (p.nodes n).type ≠ .VFS_FILE then (-1, p) else
    let k := if (p.nodes n).size < max then (p.nodes n).size else max
    let p := if k ≠ 0 ∧ (p.nodes n).data ≠ 0 then { p with mem := copy p.mem buf (p.nodes n).data k } else p
    let p := if out_size ≠ 0 then { p with mem := store p.mem out_size 8 k } else p
    (i32 k, p)

def unlink_child (p : St) (parent n : NodePtr) : St :=
  if (p.nodes parent).child = some n then p.set parent { p.nodes parent with child := (p.nodes n).sibling }
  else match find_prev p.view n (siblings p.view VFS_MAX_NODES (p.nodes parent).child) with
    | some c => p.set c { p.nodes c with sibling := (p.nodes n).sibling }
    | none => p

def vfs_unlink (p : St) (path : List UInt8) (h : HeapCall) : Int × St :=
  match vfs_resolve p.view path with
  | none => (-1, p)
  | some n =>
    if n = root then (-1, p) else
    match (p.nodes n).parent with
    | none => (-1, p)
    | some parent =>
      let p := unlink_child p parent n
      let p := if (p.nodes n).data ≠ 0 then (kfree p (p.nodes n).data h).set n { p.nodes n with data := 0 } else p
      (0, p.set n { p.nodes n with size := 0, name := [] })

def vfs_copy (p : St) (src dst : List UInt8) (h : HeapCall) : Int × St :=
  match vfs_resolve p.view src with
  | none => (-1, p)
  | some n =>
    if (p.nodes n).type ≠ .VFS_FILE then (-1, p) else
    match vfs_create p dst (if (p.nodes n).mode ≠ 0 then (p.nodes n).mode else 0o644) with
    | (none, p) => (-1, p)
    | (some d, p) =>
      if (p.nodes n).size ≠ 0 ∧ (p.nodes n).data ≠ 0 then vfs_write p (some d) (p.nodes n).data (p.nodes n).size h
      else (0, p)

/-- `vfs_rename`; the second heap is that of its `vfs_unlink`. -/
def vfs_rename (p : St) (src dst : List UInt8) (h h' : HeapCall) : Int × St :=
  match vfs_copy p src dst h with
  | (r, p) => if r ≠ 0 then (-1, p) else vfs_unlink p src h'

def vfs_chdir (p : St) (path : List UInt8) (junk : Nat → List UInt8) : Int × St :=
  ((Vfs.vfs_chdir p.view path junk).1, { p with cwd := (Vfs.vfs_chdir p.view path junk).2.cwd })

/-! ## Runs -/

/-- The tree with nothing but the root, from which `vfs_init` makes its calls. -/
def init_root (m : Mem) (live : List Block) : St :=
  match alloc_node ⟨fun _ => blank, 0, str "/", m, live⟩ (str "/") .VFS_DIR 0o755 with
  | none => ⟨fun _ => blank, 0, str "/", m, live⟩
  | some (_, p) => p

inductive Op where
  | mkdir (path : List UInt8) (mode : Nat)
  | create (path : List UInt8) (mode : Nat)
  | write (node : Option NodePtr) (buf size : Nat) (h : HeapCall)
  | read (node : Option NodePtr) (buf max out_size : Nat)
  | unlink (path : List UInt8) (h : HeapCall)
  | copy (src dst : List UInt8) (h : HeapCall)
  | rename (src dst : List UInt8) (h h' : HeapCall)
  | chdir (path : List UInt8) (junk : Nat → List UInt8)
  /-- What the rest of the kernel does: its own blocks come and go, and it writes to memory. -/
  | other (live : List Block) (f : Mem → Mem)

def exec (p : St) : Op → St
  | .mkdir path mode => (vfs_mkdir p path mode).2
  | .create path mode => (vfs_create p path mode).2
  | .write node buf size h => (vfs_write p node buf size h).2
  | .read node buf max out_size => (vfs_read p node buf max out_size).2
  | .unlink path h => (vfs_unlink p path h).2
  | .copy src dst h => (vfs_copy p src dst h).2
  | .rename src dst h h' => (vfs_rename p src dst h h').2
  | .chdir path junk => (vfs_chdir p path junk).2
  | .other live f => { p with live := live, mem := f p.mem }

/-- The block holds the data of a node. -/
def St.Owns (p : St) (b : Block) : Prop := b ∈ p.live ∧ ∃ n, (p.nodes n).data = b.start

/-- The heap keeps its promise to a `vfs_write`. -/
def Served (p : St) (node : Option NodePtr) (buf size : Nat) (h : HeapCall) : Prop :=
  ∀ n ∈ node, h.Sound p.live ⟨buf, size⟩ (add64 size 1) (p.nodes n).data

/-- And to a `vfs_unlink`. -/
def FreeServed (p : St) (path : List UInt8) (h : HeapCall) : Prop :=
  ∀ n ∈ vfs_resolve p.view path, Spares h.drop (release (p.nodes n).data p.live)

/-- And to the `vfs_write` of a `vfs_copy`, whose buffer is the data of the source. -/
def CopyServed (p : St) (src dst : List UInt8) (h : HeapCall) : Prop :=
  ∀ n ∈ vfs_resolve p.view src,
    let (d, p) := vfs_create p dst (if (p.nodes n).mode ≠ 0 then (p.nodes n).mode else 0o644)
    Served p d (p.nodes n).data (p.nodes n).size h

/-- The call overruns none of its buffers, and the heap keeps its promises to it. What is not the file system's own
call leaves the nodes' blocks alone. -/
def Op.Allowed (p : St) : Op → Prop
  | .mkdir path _ | .create path _ => LeafFits p.view path
  | .write node buf size h => size + 1 < 2 ^ 64 ∧ Served p node buf size h
  | .read _ buf max out_size => ∀ b, p.Owns b → (Block.mk buf max).Apart b ∧ (Block.mk out_size 8).Apart b
  | .unlink path h => Fits p.view path ∧ FreeServed p path h
  | .copy src dst h => Fits p.view src ∧ LeafFits p.view dst ∧ CopyServed p src dst h
  | .rename src dst h h' =>
    Fits p.view src ∧ LeafFits p.view dst ∧ CopyServed p src dst h ∧ FreeServed (vfs_copy p src dst h).2 src h'
  | .chdir path _ => Fits p.view path
  | .other live f => InUse live ∧ ∀ b, p.Owns b → b ∈ live ∧ Spares f [b]

/-- The states that such calls lead to. -/
inductive Reach : St → Prop
  | init (m : Mem) (live : List Block) (h : InUse live) : Reach (init_root m live)
  | step {p : St} (op : Op) (h : Reach p) (hop : op.Allowed p) : Reach (exec p op)

end H3OS.Vfs.Raw
