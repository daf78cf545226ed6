import H3OS.Types
import H3OS.Lib.Chain
import H3OS.Lib.Tiling
/-!
# The kernel heap

`memory/heap.c` over byte memory: a list of blocks threaded through headers
that lie in the memory they manage. What `pmm_alloc_pages` answers is an
argument of the calls that may ask it. A call that does not return, because
of `kpanic` or of a list without end, is `none`.
-/
open SysLib

namespace H3OS.Heap

def HEAP_MAGIC : Nat := 0x4833414C4C4F43
def HEAP_ALIGN : Nat := 16
def HEAP_MIN : Nat := 32
def EARLY_HEAP : Nat := 512 * 1024

/-- `sizeof(block_t)`. -/
def BLOCK : Nat := 40

structure block_t where
  magic : Nat
  /-- payload size -/
  size : Nat
  free : Bool
  next : Nat
  prev : Nat
deriving DecidableEq

/-- The header at `b`. -/
def block (m : Mem) (b : Nat) : block_t :=
  ⟨load m b 8, load m (b + 8) 8, load m (b + 16) 1 ≠ 0, load m (b + 24) 8, load m (b + 32) 8⟩

def setMagic (m : Mem) (b v : Nat) : Mem := store m b 8 v
def setSize (m : Mem) (b v : Nat) : Mem := store m (b + 8) 8 v
def setFree (m : Mem) (b : Nat) (v : Bool) : Mem := store m (b + 16) 1 v.toNat
def setNext (m : Mem) (b v : Nat) : Mem := store m (b + 24) 8 v
def setPrev (m : Mem) (b v : Nat) : Mem := store m (b + 32) 8 v

/-- `if (b) b->prev = p`. -/
def relink (m : Mem) (b p : Nat) : Mem := if b ≠ 0 then setPrev m b p else m

structure St where
  mem : Mem
  heap_head : Nat
  heap_used : Nat
  heap_total : Nat
  heap_allocs : Nat
  /-- The regions taken in by `heap_add_region`, newest first: a start and a length each. -/
  regions : List (Nat × Nat)

def heap_add_region (s : St) (addr size : Nat) : St :=
  if size < BLOCK + HEAP_MIN then s else
  let m := setMagic s.mem addr HEAP_MAGIC
  let m := setSize m addr (size - BLOCK)
  let m := setFree m addr true
  let m := setNext m addr s.heap_head
  let m := setPrev m addr 0
  let m := relink m s.heap_head addr
  { s with mem := m, heap_head := addr, heap_total := add64 s.heap_total size, regions := (addr, size) :: s.regions }

/-- `heap_init`, with `early_arena` at `arena`. -/
def heap_init (m : Mem) (arena : Nat) : St := heap_add_region ⟨m, 0, 0, 0, 0, []⟩ arena EARLY_HEAP

/-! ## Merging -/

/-- The first half of `coalesce`: take in the next block when it is free. -/
def merge_next (m : Mem) (b : Nat) : Mem :=
  if (block m b).next ≠ 0 ∧ (block m (block m b).next).free = true then
    let m := setSize m b (add64 (block m b).size (add64 BLOCK (block m (block m b).next).size))
    let m := setNext m b (block m (block m b).next).next
    relink m (block m b).next b
  else m

/-- The second half: give the block to the previous one when that is free. -/
def merge_prev (m : Mem) (b : Nat) : Mem :=
  if (block m b).prev ≠ 0 ∧ (block m (block m b).prev).free = true then
    let m := setSize m (block m b).prev (add64 (block m (block m b).prev).size (add64 BLOCK (block m b).size))
    let m := setNext m (block m b).prev (block m b).next
    relink m (block m b).next (block m b).prev
  else m

def coalesce (m : Mem) (b : Nat) : Mem := merge_prev (merge_next m b) b

/-! ## Allocating -/

/-- The pages `expand_heap` asks for. -/
def expand_pages (need : Nat) : Nat := H3OS_ALIGN_UP (add64 (add64 need BLOCK) PAGE_SIZE) PAGE_SIZE / PAGE_SIZE

/-- `expand_heap`, where `pmm_alloc_pages` answers `phys`. -/
def expand_heap (s : St) (need phys : Nat) : Bool × St :=
  if phys = 0 then (false, s) else (true, heap_add_region s phys (expand_pages need * PAGE_SIZE))

/-- The first free block of at least `size` bytes from `b` on; 0 when the list has none. -/
def find_fit (m : Mem) (size : Nat) : Nat → Nat → Option Nat
  | 0, _ => none
  | fuel + 1, b =>
    if b = 0 then some 0 else
    if (block m b).magic ≠ HEAP_MAGIC then none else
    if (block m b).free = true ∧ size ≤ (block m b).size then some b else
    find_fit m size fuel (block m b).next

/-- Make the part of `b` behind its first `size` bytes a free block of its own. -/
def split_block (m : Mem) (b size : Nat) : Mem :=
  let n := add64 (add64 b BLOCK) size
  let m := setMagic m n HEAP_MAGIC
  let m := setSize m n (sub64 (sub64 (block m b).size size) BLOCK)
  let m := setFree m n true
  let m := setNext m n (block m b).next
  let m := setPrev m n b
  let m := relink m (block m b).next n
  let m := setNext m b n
  setSize m b size

/-- Hand out `b`, split when the leftover is useful. -/
def take_block (s : St) (b size : Nat) : Nat × St :=
  let m := if add64 (add64 size BLOCK) HEAP_MIN ≤ (block s.mem b).size then split_block s.mem b size else s.mem
  let m := setFree m b false
  (add64 b BLOCK,
    { s with mem := m, heap_used := add64 s.heap_used (block m b).size, heap_allocs := add64 s.heap_allocs 1 })

/-- A list of distinct 64-bit addresses is shorter than this. -/
def FUEL : Nat := 2 ^ 64

/-- The loop of `kmalloc`; `pmm` holds what `pmm_alloc_pages` answers, 0 once it runs out. -/
def attempts (size : Nat) : Nat → St → List Nat → Option (Nat × St)
  | 0, s, _ => some (0, s)
  | k + 1, s, pmm =>
    match find_fit s.mem size FUEL s.heap_head with
    | none => none
    | some 0 =>
      match expand_heap s size (pmm.headD 0) with
      | (false, s) => some (0, s)
      | (true, s) => attempts size k s pmm.tail
    | some b => some (take_block s b size)

/-- The size `kmalloc` looks for. -/
def request (size : Nat) : Nat :=
  if H3OS_ALIGN_UP size HEAP_ALIGN < HEAP_MIN then HEAP_MIN else H3OS_ALIGN_UP size HEAP_ALIGN

def kmalloc (s : St) (size : Nat) (pmm : List Nat) : Option (Nat × St) :=
  if size = 0 then some (0, s) else attempts (request size) 2 s pmm

def kcalloc (s : St) (n size : Nat) (pmm : List Nat) : Option (Nat × St) :=
  let total := n * size % 2 ^ 64
  match kmalloc s total pmm with
  | none => none
  | some (p, s) => some (p, if p ≠ 0 then { s with mem := fill s.mem p total 0 } else s)

/-! ## Releasing -/

def kfree (s : St) (ptr : Nat) : St :=
  if ptr = 0 then s else
  let b := sub64 ptr BLOCK
  if (block s.mem b).magic ≠ HEAP_MAGIC ∨ (block s.mem b).free = true then s else
  let m := setFree s.mem b true
  { s with mem := coalesce m b, heap_used := sub64 s.heap_used (block m b).size }

def krealloc (s : St) (ptr size : Nat) (pmm : List Nat) : Option (Nat × St) :=
  if ptr = 0 then kmalloc s size pmm else
  if size = 0 then some (0, kfree s ptr) else
  let b := sub64 ptr BLOCK
  if size ≤ (block s.mem b).size then some (ptr, s) else
  match kmalloc s size pmm with
  | none => none
  | some (n, s) =>
    if n = 0 then some (0, s) else
    some (n, kfree { s with mem := copy s.mem n ptr (block s.mem b).size } ptr)

structure heap_stats_t where
  total_bytes : Nat
  used_bytes : Nat
  free_bytes : Nat
  allocations : Nat
deriving DecidableEq

def heap_get_stats (s : St) : heap_stats_t :=
  ⟨s.heap_total, s.heap_used, if s.heap_used < s.heap_total then s.heap_total - s.heap_used else 0, s.heap_allocs⟩

/-! ## Runs -/

inductive Op where
  | kmalloc (size : Nat) (pmm : List Nat)
  | kcalloc (n size : Nat) (pmm : List Nat)
  | krealloc (ptr size : Nat) (pmm : List Nat)
  | kfree (ptr : Nat)
  /-- A client sets byte `i` of its payload. -/
  | write (ptr i : Nat) (v : UInt8)

/-- One call: what it returns and the heap after it. -/
def exec (s : St) : Op → Option (Nat × St)
  | .kmalloc size pmm => kmalloc s size pmm
  | .kcalloc n size pmm => kcalloc s n size pmm
  | .krealloc ptr size pmm => krealloc s ptr size pmm
  | .kfree ptr => some (0, kfree s ptr)
  | .write ptr i v => some (0, { s with mem := Function.update s.mem (ptr + i) v })

/-- The pointers in clients' hands after a call that returned `r`. -/
def Op.live (r : Nat) (live : List Nat) : Op → List Nat
  | .kmalloc _ _ | .kcalloc _ _ _ => if r = 0 then live else r :: live
  | .krealloc ptr size _ =>
    if ptr ≠ 0 ∧ size = 0 then live.filter (· ≠ ptr)
    else if r = 0 then live
    else r :: live.filter (· ≠ ptr)
  | .kfree ptr => live.filter (· ≠ ptr)
  | .write _ _ _ => live

/-- What `pmm_alloc_pages` answers is 0 or memory that no region has. -/
def Grants (s : St) (size : Nat) (pmm : List Nat) : Prop :=
  ∀ a ∈ pmm, a ≠ 0 → a + expand_pages (request size) * PAGE_SIZE ≤ 2 ^ 64 ∧
    ∀ r ∈ s.regions, Apart a (expand_pages (request size) * PAGE_SIZE) r.1 r.2

/-- What callers keep to. -/
def Op.Allowed (s : St) (live : List Nat) : Op → Prop
  | .kmalloc size pmm => size ≤ 2 ^ 63 ∧ Grants s size pmm
  | .kcalloc n size pmm => n * size ≤ 2 ^ 63 ∧ Grants s (n * size) pmm
  | .krealloc ptr size pmm => size ≤ 2 ^ 63 ∧ (ptr = 0 ∨ ptr ∈ live) ∧ Grants s size pmm
  | .kfree ptr => ptr = 0 ∨ ptr ∈ live
  | .write ptr i _ => ptr ∈ live ∧ i < (block s.mem (sub64 ptr BLOCK)).size

/-- The heaps that allowed calls lead to from `heap_init`, each call meeting `P`, with the live pointers. -/
inductive Runs (arena : Nat) (P : St → Op → Prop) : St → List Nat → Prop
  | init (m : Mem) : Runs arena P (heap_init m arena) []
  | step {s s' : St} {live : List Nat} {r : Nat} (op : Op) (h : Runs arena P s live) (hop : op.Allowed s live)
      (hP : P s op) (he : exec s op = some (r, s')) : Runs arena P s' (op.live r live)

/-- The address a link holds. -/
def ptr (a : Nat) : Option Nat := if a = 0 then none else some a

/-- `l` are the blocks of the heap list, in order. -/
def Blocks (s : St) (l : List Nat) : Prop := Chain (fun b => ptr (block s.mem b).next) (ptr s.heap_head) l

/-- A block with its payload lies in the region `r`. -/
def InRegion (m : Mem) (r : Nat × Nat) (b : Nat) : Prop := r.1 ≤ b ∧ b + BLOCK + (block m b).size ≤ r.1 + r.2

/-- Every free neighbour in the list of the block that `ptr` points into lies in that block's region. -/
def ReleaseOk (s : St) (ptr : Nat) : Prop :=
  ∀ r ∈ s.regions, InRegion s.mem r (sub64 ptr BLOCK) →
    ∀ c, c = (block s.mem (sub64 ptr BLOCK)).next ∨ c = (block s.mem (sub64 ptr BLOCK)).prev →
      c ≠ 0 → (block s.mem c).free = true → InRegion s.mem r c

/-- The heap and the pointer with which a call enters `kfree`, when it does. -/
def Op.releases (s : St) : Op → Option (St × Nat)
  | .kfree ptr => if ptr = 0 then none else some (s, ptr)
  | .krealloc ptr size pmm =>
    if ptr = 0 then none else
    if size = 0 then some (s, ptr) else
    if size ≤ (block s.mem (sub64 ptr BLOCK)).size then none else
    match Heap.kmalloc s size pmm with
    | none => none
    | some (n, s) =>
      if n = 0 then none
      else some ({ s with mem := copy s.mem n ptr (block s.mem (sub64 ptr BLOCK)).size }, ptr)
  | _ => none

/-- The call merges no blocks of different regions. -/
def MergeOk (s : St) (op : Op) : Prop := ∀ t p, op.releases s = some (t, p) → ReleaseOk t p

/-- What `pmm_alloc_pages` answers during the call. -/
def Op.pmm : Op → List Nat
  | .kmalloc _ pmm | .kcalloc _ _ pmm | .krealloc _ _ pmm => pmm
  | _ => []

/-- `expand_heap` does not succeed during the call. -/
def NoGrowth (_ : St) (op : Op) : Prop := ∀ a ∈ op.pmm, a = 0

/-- The list ends, its blocks do not overlap, and each lies in one region. -/
def Safe (s : St) : Prop :=
  ∃ l, Blocks s l ∧
    l.Pairwise (fun b c => Apart b (BLOCK + (block s.mem b).size) c (BLOCK + (block s.mem c).size)) ∧
    ∀ b ∈ l, ∃ r ∈ s.regions, InRegion s.mem r b

/-- The blocks `l` tile the arena from its first byte to its last, linked both ways and fully merged, and the counters
say how much of it is in use. -/
structure Exact (arena : Nat) (s : St) (l : List Nat) : Prop where
  blocks : Blocks s l
  head : s.heap_head = arena
  tiles : Tiles id (fun b => b + BLOCK + (block s.mem b).size) arena l (arena + EARLY_HEAP)
  first_prev : (block s.mem s.heap_head).prev = 0
  prev : l.IsChain (fun b c => (block s.mem b).next = c ∧ (block s.mem c).prev = b)
  magic : ∀ b ∈ l, (block s.mem b).magic = HEAP_MAGIC
  merged : l.IsChain (fun b c => ¬((block s.mem b).free = true ∧ (block s.mem c).free = true))
  used : (heap_get_stats s).used_bytes =
    ((l.filter (fun b => !(block s.mem b).free)).map (fun b => (block s.mem b).size)).sum
  total : (heap_get_stats s).total_bytes = EARLY_HEAP

end H3OS.Heap
