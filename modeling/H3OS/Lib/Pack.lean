import H3OS.Lib.Memory
/-!
# Byte buffers and packed fields

A buffer is a length and the bytes below it. `packInto` writes a row of
little-endian fields, each a width and a value, as Python's
`struct.pack_into` does: it fails when a value is too wide for its field or
the row does not fit.
-/

namespace SysLib

structure Bytearray where
  len : Nat
  mem : Mem

/-- `bytearray(n)`. -/
def zeros (n : Nat) : Bytearray := ⟨n, fun _ => 0⟩

def ofList (l : List UInt8) : Bytearray := ⟨l.length, fun i => l.getD i 0⟩

/-- `b[off:off + len(src)] = src`, for a slice that starts inside `b`. -/
def setSlice (b : Bytearray) (off : Nat) (src : Bytearray) : Bytearray :=
  ⟨max b.len (off + src.len), blit b.mem off src.mem 0 src.len⟩

/-- `a + b`. -/
def join (a b : Bytearray) : Bytearray := ⟨a.len + b.len, blit a.mem a.len b.mem 0 b.len⟩

section
variable {a b s : Bytearray} {o k w x : Nat}

theorem join_left (h : x < a.len) : (join a b).mem x = a.mem x := blit_out (.inl h)

theorem join_right (h : k < b.len) : (join a b).mem (a.len + k) = b.mem k := by
  refine (blit_in (by omega) (by omega)).trans ?_
  congr 1
  omega

theorem setSlice_in (h : k < s.len) : (setSlice b o s).mem (o + k) = s.mem k := by
  refine (blit_in (by omega) (by omega)).trans ?_
  congr 1
  omega

theorem setSlice_out (h : x < o ∨ o + s.len ≤ x) : (setSlice b o s).mem x = b.mem x := blit_out h

end

/-- A row of fields: the width and the value of each. -/
abbrev Fields := List (Nat × Nat)

def Fields.width (fs : Fields) : Nat := (fs.map Prod.fst).sum

/-- `m` with the fields written one after another from `off` on. -/
def storeFields (m : Mem) (off : Nat) : Fields → Mem
  | [] => m
  | (w, v) :: fs => storeFields (store m off w v) (off + w) fs

/-- Every value fits into its field. -/
def Fields.Fit (fs : Fields) : Prop := ∀ f ∈ fs, f.2 < 256 ^ f.1

instance (fs : Fields) : Decidable fs.Fit := inferInstanceAs (Decidable (∀ f ∈ fs, _))

@[simp] theorem fit_nil : Fields.Fit [] := by
  intro f hf
  cases hf

@[simp] theorem fit_cons {w v : Nat} {fs : Fields} : Fields.Fit ((w, v) :: fs) ↔ v < 256 ^ w ∧ fs.Fit :=
  List.forall_mem_cons

@[simp] theorem width_nil : Fields.width [] = 0 := rfl

@[simp] theorem width_cons {w v : Nat} {fs : Fields} : Fields.width ((w, v) :: fs) = w + fs.width := List.sum_cons

def packInto (b : Bytearray) (off : Nat) (fs : Fields) : Option Bytearray :=
  if fs.Fit ∧ off + fs.width ≤ b.len then some ⟨b.len, storeFields b.mem off fs⟩ else none

def pack (fs : Fields) : Option Bytearray := packInto (zeros fs.width) 0 fs

/-- A sequence of `packInto` on one buffer. -/
def packAll (b : Bytearray) : List (Nat × Fields) → Option Bytearray
  | [] => some b
  | (off, fs) :: rest => (packInto b off fs).bind (fun b => packAll b rest)

/-- What the sequence leaves in the buffer. -/
def storeAll (m : Mem) : List (Nat × Fields) → Mem
  | [] => m
  | (off, fs) :: rest => storeAll (storeFields m off fs) rest

/-- Where the fields of a row lie. -/
def Fields.ranges (off : Nat) : Fields → List (Nat × Nat)
  | [] => []
  | (w, _) :: fs => (off, w) :: Fields.ranges (off + w) fs

/-! ## Reading back -/

theorem storeFields_out {m : Mem} {off x : Nat} {fs : Fields} (h : x < off ∨ off + fs.width ≤ x) :
    storeFields m off fs x = m x := by
  induction fs generalizing m off with
  | nil => rfl
  | cons f fs ih =>
    obtain ⟨w, v⟩ := f
    rw [width_cons] at h
    rw [storeFields, ih (by omega), store_out (by omega)]

/-- What is written at an address depends on nothing but what was there. -/
theorem storeFields_at {m m' : Mem} {off x : Nat} {fs : Fields} (h : m' x = m x) :
    storeFields m' off fs x = storeFields m off fs x := by
  induction fs generalizing m m' off with
  | nil => exact h
  | cons f fs ih =>
    obtain ⟨w, v⟩ := f
    refine ih ?_
    unfold store
    rw [h]

theorem storeAll_at {m m' : Mem} {x : Nat} {c : List (Nat × Fields)} (h : m' x = m x) :
    storeAll m' c x = storeAll m c x := by
  induction c generalizing m m' with
  | nil => exact h
  | cons f c ih => exact ih (storeFields_at h)

theorem storeFields_append {m : Mem} {off : Nat} (pre post : Fields) :
    storeFields m off (pre ++ post) = storeFields (storeFields m off pre) (off + pre.width) post := by
  induction pre generalizing m off with
  | nil => rfl
  | cons f pre ih =>
    obtain ⟨w, v⟩ := f
    rw [List.cons_append, storeFields, storeFields, ih, width_cons, Nat.add_assoc]

/-- A field of the row, behind the fields before it. -/
theorem load_storeFields {m : Mem} {off w v : Nat} (pre post : Fields) (hv : v < 256 ^ w) :
    load (storeFields m off (pre ++ (w, v) :: post)) (off + pre.width) w = v := by
  rw [storeFields_append, storeFields, load_congr (fun x h1 h2 => storeFields_out (.inl h2)), load_store_of_lt hv]

theorem storeAll_append {m : Mem} (pre post : List (Nat × Fields)) :
    storeAll m (pre ++ post) = storeAll (storeAll m pre) post := by
  induction pre generalizing m with
  | nil => rfl
  | cons c pre ih =>
    obtain ⟨off, fs⟩ := c
    exact ih

/-- Calls that write elsewhere leave a word as it is. -/
theorem load_storeAll_apart {m : Mem} {calls : List (Nat × Fields)} {a w : Nat}
    (h : ∀ c ∈ calls, Apart c.1 (Fields.width c.2) a w) : load (storeAll m calls) a w = load m a w := by
  induction calls generalizing m with
  | nil => rfl
  | cons c calls ih =>
    have hc := h c List.mem_cons_self
    unfold Apart at hc
    rw [storeAll, ih (fun d hd => h d (List.mem_cons_of_mem _ hd))]
    exact load_congr (fun x h1 h2 => storeFields_out (by omega))

/-- A field of one call, which no later call touches. -/
theorem load_storeAll {m : Mem} {off w v : Nat} (before after : List (Nat × Fields)) (pre post : Fields)
    (hv : v < 256 ^ w) (h : ∀ c ∈ after, Apart c.1 (Fields.width c.2) (off + pre.width) w) :
    load (storeAll m (before ++ (off, pre ++ (w, v) :: post) :: after)) (off + pre.width) w = v := by
  rw [storeAll_append, storeAll, load_storeAll_apart h, load_storeFields pre post hv]

/-! ## When packing succeeds -/

section
variable {b : Bytearray} {off : Nat} {fs : Fields}

theorem packInto_of_fits (h : fs.Fit) (hlen : off + fs.width ≤ b.len) :
    packInto b off fs = some ⟨b.len, storeFields b.mem off fs⟩ := if_pos ⟨h, hlen⟩

theorem packInto_none {f : Nat × Nat} (hf : f ∈ fs) (h : 256 ^ f.1 ≤ f.2) : packInto b off fs = none :=
  if_neg (fun hfit => absurd (hfit.1 f hf) (not_lt.2 h))

theorem packAll_of_fits {calls : List (Nat × Fields)}
    (h : ∀ c ∈ calls, Fields.Fit c.2 ∧ c.1 + Fields.width c.2 ≤ b.len) :
    packAll b calls = some ⟨b.len, storeAll b.mem calls⟩ := by
  induction calls generalizing b with
  | nil => rfl
  | cons c calls ih =>
    obtain ⟨hfit, hlen⟩ := h c List.mem_cons_self
    rw [packAll, packInto_of_fits hfit hlen, Option.bind_some]
    exact ih (fun d hd => h d (List.mem_cons_of_mem _ hd))

/-- One value too wide for its field fails the whole sequence. -/
theorem packAll_none {calls : List (Nat × Fields)} {c : Nat × Fields} {f : Nat × Nat} (hc : c ∈ calls) (hf : f ∈ c.2)
    (h : 256 ^ f.1 ≤ f.2) : packAll b calls = none := by
  induction calls generalizing b with
  | nil => cases hc
  | cons d calls ih =>
    rw [packAll]
    rcases List.mem_cons.1 hc with rfl | hc
    · rw [packInto_none hf h]
      rfl
    · cases packInto b d.1 d.2 with
      | none => rfl
      | some b => exact ih hc

end

end SysLib
