import H3OS.Pe.Reloc
/-!
# Relocation is exact

When the targets of a relocation directory overlap neither each other nor the
directory, the entries that `apply_relocations` reads are those the image
held before it changed anything. It then adds the difference of the two bases
to every target and changes no other byte, so that relocating twice is
relocating once.
-/
open SysLib

namespace H3OS.Pe

/-! ## What a directory says -/

/-- The bytes that an entry asks to be changed, if it does: 64 bits or 32 bits. -/
def entry_target (page_rva e : Nat) : Option Access :=
  if e / 2 ^ 12 = IMAGE_REL_BASED_DIR64 then some (page_rva + e % 2 ^ 12, 8)
  else if e / 2 ^ 12 = IMAGE_REL_BASED_HIGHLOW then some (page_rva + e % 2 ^ 12, 4)
  else none

/-- The targets of `n` entries from `a` on. -/
def block_targets (image : Mem) (page_rva : Nat) : Nat → Nat → List Access
  | 0, _ => []
  | n + 1, a => (entry_target page_rva (load image a 2)).toList ++ block_targets image page_rva n (a + 2)

/-- From `a` to `stop` the image holds whole blocks of even size, with the targets `ts`. -/
inductive Concat (image : Mem) (stop : Nat) : Nat → List Access → Prop
  | nil : Concat image stop stop []
  | block {a block_size : Nat} {ts : List Access} (hsize : load image (a + 4) 4 = block_size) (hlong : 8 ≤ block_size)
      (heven : block_size % 2 = 0) (hend : a + block_size ≤ stop) (hrest : Concat image stop (a + block_size) ts) :
      Concat image stop a (block_targets image (load image a 4) ((block_size - 8) / 2) (a + 8) ++ ts)

/-- A relocation directory in good order: `ts` are its targets. -/
structure Relocatable (data image : Mem) (size_of_image : Nat) (ts : List Access) : Prop where
  dirs : 6 ≤ (optional_header data (opt_at data)).number_of_rva_and_sizes
  address : (reloc_dir data).virtual_address ≠ 0
  inside : (reloc_dir data).virtual_address + (reloc_dir data).size ≤ size_of_image
  small : (reloc_dir data).size < 2 ^ 31
  blocks : Concat image ((reloc_dir data).virtual_address + (reloc_dir data).size) (reloc_dir data).virtual_address ts
  targets : ∀ t ∈ ts, t.1 + t.2 ≤ size_of_image
  disjoint : ts.Pairwise (fun t u => Apart t.1 t.2 u.1 u.2)
  clear : ∀ t ∈ ts, Apart t.1 t.2 (reloc_dir data).virtual_address (reloc_dir data).size

/-- `image'` is `image` with `d` added to every target, and nothing else changed. -/
structure Relocated (image image' : Mem) (ts : List Access) (d : Int) : Prop where
  dir64 : ∀ t, (t, 8) ∈ ts → (load image' t 8 : Int) = (load image t 8 + d) % 2 ^ 64
  highlow : ∀ t, (t, 4) ∈ ts → (load image' t 4 : Int) = (load image t 4 + d) % 2 ^ 32
  other : ∀ x, (∀ t ∈ ts, x < t.1 ∨ t.1 + t.2 ≤ x) → image' x = image x

/-! ## Adding at one target after another -/

/-- Add `delta` to the word at a target. -/
def add_delta (delta : Nat) (image : Mem) (t : Access) : Mem :=
  store image t.1 t.2 ((load image t.1 t.2 + delta) % 256 ^ t.2)

section
variable {delta : Nat} {image m : Mem} {ts : List Access}

theorem add_delta_out {t : Access} {x : Nat} (h : x < t.1 ∨ t.1 + t.2 ≤ x) : add_delta delta m t x = m x := store_out h

theorem fold_out {x : Nat} (h : ∀ t ∈ ts, x < t.1 ∨ t.1 + t.2 ≤ x) : ts.foldl (add_delta delta) m x = m x := by
  induction ts generalizing m with
  | nil => rfl
  | cons t ts ih =>
    rw [List.foldl_cons, ih (fun u hu => h u (by simp [hu]))]
    exact add_delta_out (h t (by simp))

/-- A range that is apart from every target stays as it was. -/
theorem fold_load_apart {b k : Nat} (h : ∀ t ∈ ts, Apart t.1 t.2 b k) :
    load (ts.foldl (add_delta delta) m) b k = load m b k := by
  apply load_congr
  intro x h1 h2
  apply fold_out
  intro t ht
  have := h t ht
  unfold Apart at this
  omega

/-- Targets that are apart from one another each get `delta` added once. -/
theorem fold_load_target (hd : ts.Pairwise (fun t u => Apart t.1 t.2 u.1 u.2)) {t : Access} (ht : t ∈ ts) :
    load (ts.foldl (add_delta delta) m) t.1 t.2 = (load m t.1 t.2 + delta) % 256 ^ t.2 := by
  induction ts generalizing m with
  | nil => cases ht
  | cons u ts ih =>
    obtain ⟨hu, hd⟩ := List.pairwise_cons.1 hd
    rw [List.foldl_cons]
    rcases List.mem_cons.1 ht with rfl | ht
    · rw [fold_load_apart (fun v hv => (hu v hv).symm)]
      exact load_store_of_lt (Nat.mod_lt _ (Nat.pow_pos (by omega)))
    · rw [ih hd ht]
      congr 2
      exact load_store_apart (hu t ht)

theorem relocate_eq (page_rva e : Nat) :
    (relocate delta page_rva e m).1 = (entry_target page_rva e).toList.foldl (add_delta delta) m := by
  unfold relocate entry_target
  dsimp only
  by_cases h64 : e / 2 ^ 12 = IMAGE_REL_BASED_DIR64
  · rw [if_pos h64, if_pos h64]
    rfl
  rw [if_neg h64, if_neg h64]
  by_cases h32 : e / 2 ^ 12 = IMAGE_REL_BASED_HIGHLOW
  · rw [if_pos h32, if_pos h32]
    simp only [Option.toList_some, List.foldl_cons, List.foldl_nil, add_delta, Nat.add_mod_mod]
    norm_num
  · rw [if_neg h32, if_neg h32]
    rfl

/-! ## The loops -/

/-- While the entries of a block are not changed, the loop over them adds at their targets in turn. -/
theorem entries_eq {page_rva n a : Nat} (hm : ∀ x, a ≤ x → x < a + 2 * n → m x = image x)
    (hclear : ∀ t ∈ block_targets image page_rva n a, Apart t.1 t.2 a (2 * n)) :
    (entries delta page_rva n a m).1 = (block_targets image page_rva n a).foldl (add_delta delta) m := by
  induction n generalizing a m with
  | zero => rfl
  | succ n ih =>
    have he : load m a 2 = load image a 2 := load_congr (fun x h1 h2 => hm x h1 (by omega))
    rw [entries, block_targets, List.foldl_append, ← relocate_eq, he]
    dsimp only
    rw [block_targets] at hclear
    apply ih
    · intro x h1 h2
      rw [relocate_eq, fold_out]
      · exact hm x (by omega) (by omega)
      · intro t ht
        have := hclear t (List.mem_append_left _ ht)
        unfold Apart at this
        omega
    · intro t ht
      have := hclear t (List.mem_append_right _ ht)
      unfold Apart at this ⊢
      omega

/-- Along whole blocks that are not changed, the loop ends and has added at all their targets. -/
theorem blocks_eq {dir : data_dir_t} {a pos fuel : Nat} (hsmall : dir.size < 2 ^ 31)
    (h : Concat image (dir.virtual_address + dir.size) a ts) (ha : a = dir.virtual_address + pos) (hle : pos ≤ dir.size)
    (hfuel : dir.size - pos < fuel) (hm : ∀ x, dir.virtual_address ≤ x → x < dir.virtual_address + dir.size → m x = image x)
    (hclear : ∀ t ∈ ts, Apart t.1 t.2 dir.virtual_address dir.size) :
    ∃ log, blocks delta dir fuel pos m = some (ts.foldl (add_delta delta) m, log) := by
  induction h generalizing pos fuel m with
  | nil =>
    obtain ⟨fuel, rfl⟩ := Nat.exists_eq_add_of_lt hfuel
    have hpos : pos = dir.size := by omega
    refine ⟨[], ?_⟩
    rw [blocks, if_pos]
    · rfl
    · rw [Nat.mod_eq_of_lt (by omega)]
      omega
  | @block a block_size ts hsize hlong heven hend _ ih =>
    obtain ⟨fuel, rfl⟩ : ∃ n, fuel = n + 1 := ⟨fuel - 1, by omega⟩
    subst ha
    have hsame : ∀ b k, dir.virtual_address ≤ b → b + k ≤ dir.virtual_address + dir.size → load m b k = load image b k :=
      fun b k h1 h2 => load_congr (fun x h3 h4 => hm x (by omega) (by omega))
    have hpage : load m (dir.virtual_address + pos) 4 = load image (dir.virtual_address + pos) 4 :=
      hsame _ 4 (by omega) (by omega)
    have hlen : load m (dir.virtual_address + pos + 4) 4 = block_size :=
      (hsame _ 4 (by omega) (by omega)).trans hsize
    set n := (block_size - 8) / 2 with hn
    set page_rva := load image (dir.virtual_address + pos) 4
    set bt := block_targets image page_rva n (dir.virtual_address + pos + 8)
    have hbt : ∀ t ∈ bt, Apart t.1 t.2 dir.virtual_address dir.size := fun t ht => hclear t (List.mem_append_left _ ht)
    have hentries : (entries delta page_rva n (dir.virtual_address + pos + 8) m).1 = bt.foldl (add_delta delta) m := by
      apply entries_eq
      · intro x h1 h2
        exact hm x (by omega) (by omega)
      · intro t ht
        have := hbt t ht
        unfold Apart at this ⊢
        omega
    -- the rest of the directory is as it was, because the targets of this block lie elsewhere
    have hrest : ∃ log, blocks delta dir fuel (pos + block_size) (bt.foldl (add_delta delta) m) =
        some (ts.foldl (add_delta delta) (bt.foldl (add_delta delta) m), log) := by
      apply ih
      · omega
      · omega
      · omega
      · intro x h1 h2
        rw [fold_out]
        · exact hm x h1 h2
        · intro t ht
          have := hbt t ht
          unfold Apart at this
          omega
      · exact fun t ht => hclear t (List.mem_append_right _ ht)
    obtain ⟨log, hlog⟩ := hrest
    rw [blocks, if_neg (by rw [Nat.mod_eq_of_lt (by omega)]; omega)]
    dsimp only
    rw [hpage, hlen, if_neg (not_lt.2 hlong), Nat.mod_eq_of_lt (by omega), hentries, hlog, List.foldl_append]
    exact ⟨_, rfl⟩

end

/-! ## The whole pass -/

/-- The image after `apply_relocations`. -/
def relocated (fuel : Nat) (image : Mem) (load_base preferred : Nat) (data : Mem) : Option Mem :=
  (apply_relocations fuel image load_base preferred data).map Prod.fst

section
variable {data image : Mem} {size_of_image L P : Nat} {ts : List Access}

/-- `(L - P) mod 2^64` added to a word, seen through the integers. -/
theorem add_sub64 (v : Nat) :
    (((v + sub64 L P) % 2 ^ 64 : Nat) : Int) = (v + ((L : Int) - P)) % 2 ^ 64 ∧
    (((v + sub64 L P) % 2 ^ 32 : Nat) : Int) = (v + ((L : Int) - P)) % 2 ^ 32 := by
  unfold sub64
  constructor
  · omega
  · omega

/-- Without a difference nothing has to change. -/
theorem relocated_refl : Relocated image image ts 0 := by
  refine ⟨fun t _ => ?_, fun t _ => ?_, fun x _ => rfl⟩
  · have := load_lt image t 8
    omega
  · have := load_lt image t 4
    omega

theorem fold_relocated (hd : ts.Pairwise (fun t u => Apart t.1 t.2 u.1 u.2)) :
    Relocated image (ts.foldl (add_delta (sub64 L P)) image) ts ((L : Int) - P) := by
  refine ⟨fun t ht => ?_, fun t ht => ?_, fun x hx => fold_out hx⟩
  · rw [fold_load_target hd ht]
    exact (add_sub64 _).1
  · rw [fold_load_target hd ht]
    exact (add_sub64 _).2

/-- An empty directory has no targets. -/
theorem Concat.empty {stop : Nat} (h : Concat image stop stop ts) : ts = [] := by
  cases h with
  | nil => rfl
  | block _ hlong _ hend _ => omega

theorem Relocatable.relocated (h : Relocatable data image size_of_image ts) (L P : Nat) :
    ∃ image', (∀ fuel > (reloc_dir data).size, Pe.relocated fuel image L P data = some image') ∧
      Relocated image image' ts ((L : Int) - P) := by
  by_cases hbase : L = P
  · refine ⟨image, fun fuel _ => ?_, ?_⟩
    · rw [Pe.relocated, apply_relocations_skips (.inl hbase)]
      rfl
    · rw [hbase, sub_self]
      exact relocated_refl
  by_cases hempty : (reloc_dir data).size = 0
  · have hts : ts = [] := by
      have hb := h.blocks
      rw [hempty] at hb
      exact hb.empty
    refine ⟨image, fun fuel _ => ?_, ?_⟩
    · rw [Pe.relocated, apply_relocations_skips (.inr (.inr (.inr hempty)))]
      rfl
    · subst hts
      exact ⟨by simp, by simp, fun x _ => rfl⟩
  have hdue : ¬ NotDue data L P := by
    rintro (h1 | h1 | h1 | h1)
    · exact hbase h1
    · exact absurd h.dirs (not_le.2 h1)
    · exact h.address h1
    · exact hempty h1
  refine ⟨ts.foldl (add_delta (sub64 L P)) image, fun fuel hf => ?_, fold_relocated h.disjoint⟩
  obtain ⟨log, hlog⟩ : ∃ log, Pe.blocks (sub64 L P) (reloc_dir data) fuel 0 image =
      some (ts.foldl (add_delta (sub64 L P)) image, log) :=
    blocks_eq h.small h.blocks (Nat.add_zero _).symm (Nat.zero_le _) (by rwa [Nat.sub_zero]) (fun x _ _ => rfl) h.clear
  rw [Pe.relocated, apply_relocations_walks hdue, hlog]
  rfl

/-! ## Relocating again -/

theorem entry_target_width {page_rva e : Nat} {t : Access} (h : t ∈ (entry_target page_rva e).toList) : t.2 = 8 ∨ t.2 = 4 := by
  unfold entry_target at h
  split_ifs at h
  · rw [Option.toList_some, List.mem_singleton] at h
    exact .inl (h ▸ rfl)
  · rw [Option.toList_some, List.mem_singleton] at h
    exact .inr (h ▸ rfl)
  · cases h

theorem block_targets_width {page_rva n a : Nat} {t : Access} (h : t ∈ block_targets image page_rva n a) :
    t.2 = 8 ∨ t.2 = 4 := by
  induction n generalizing a with
  | zero => cases h
  | succ n ih =>
    rw [block_targets] at h
    rcases List.mem_append.1 h with h | h
    · exact entry_target_width h
    · exact ih h

theorem Concat.width {stop a : Nat} (h : Concat image stop a ts) : ∀ t ∈ ts, t.2 = 8 ∨ t.2 = 4 := by
  induction h with
  | nil => simp
  | block _ _ _ _ _ ih =>
    intro t ht
    rcases List.mem_append.1 ht with ht | ht
    · exact block_targets_width ht
    · exact ih t ht

theorem block_targets_congr {image' : Mem} {page_rva n a : Nat} (h : ∀ x, a ≤ x → x < a + 2 * n → image' x = image x) :
    block_targets image' page_rva n a = block_targets image page_rva n a := by
  induction n generalizing a with
  | zero => rfl
  | succ n ih =>
    rw [block_targets, block_targets, ih (fun x h1 h2 => h x (by omega) (by omega)),
      load_congr (fun x h1 h2 => h x h1 (by omega))]

/-- The blocks depend only on the bytes they are made of. -/
theorem Concat.congr {image' : Mem} {stop a : Nat} (h : Concat image stop a ts)
    (hm : ∀ x, a ≤ x → x < stop → image' x = image x) : Concat image' stop a ts := by
  induction h with
  | nil => exact .nil
  | @block a block_size ts hsize hlong heven hend _ ih =>
    have hpage : load image' a 4 = load image a 4 := load_congr (fun x h1 h2 => hm x h1 (by omega))
    have hlen : load image' (a + 4) 4 = block_size :=
      (load_congr (fun x h1 h2 => hm x (by omega) (by omega))).trans hsize
    have hbt : block_targets image' (load image a 4) ((block_size - 8) / 2) (a + 8) =
        block_targets image (load image a 4) ((block_size - 8) / 2) (a + 8) :=
      block_targets_congr (fun x h1 h2 => hm x (by omega) (by omega))
    rw [← hbt, ← hpage]
    exact .block hlen hlong heven hend (ih (fun x h1 h2 => hm x (by omega) h2))

/-- Relocating leaves the directory in good order. -/
theorem Relocatable.again {image' : Mem} {d : Int} (h : Relocatable data image size_of_image ts)
    (hr : Relocated image image' ts d) : Relocatable data image' size_of_image ts := by
  refine { h with blocks := h.blocks.congr (fun x h1 h2 => hr.other x (fun t ht => ?_)) }
  have := h.clear t ht
  unfold Apart at this
  omega

theorem Relocated.trans {image₁ image₂ : Mem} {d₁ d₂ : Int} (h₁ : Relocated image image₁ ts d₁)
    (h₂ : Relocated image₁ image₂ ts d₂) : Relocated image image₂ ts (d₁ + d₂) := by
  refine ⟨fun t ht => ?_, fun t ht => ?_, fun x hx => (h₂.other x hx).trans (h₁.other x hx)⟩
  · rw [h₂.dir64 t ht, h₁.dir64 t ht]
    omega
  · rw [h₂.highlow t ht, h₁.highlow t ht]
    omega

/-- The difference that is added determines the image. -/
theorem Relocated.unique {image₁ image₂ : Mem} {d : Int} (hw : ∀ t ∈ ts, t.2 = 8 ∨ t.2 = 4)
    (h₁ : Relocated image image₁ ts d) (h₂ : Relocated image image₂ ts d) : image₁ = image₂ := by
  funext x
  by_cases hx : ∃ t ∈ ts, t.1 ≤ x ∧ x < t.1 + t.2
  · obtain ⟨⟨t, w⟩, ht, hlo, hhi⟩ := hx
    have heq : load image₁ t w = load image₂ t w := by
      rcases hw _ ht with hw | hw
      · dsimp only at hw
        subst hw
        exact Int.natCast_inj.1 ((h₁.dir64 t ht).trans (h₂.dir64 t ht).symm)
      · dsimp only at hw
        subst hw
        exact Int.natCast_inj.1 ((h₁.highlow t ht).trans (h₂.highlow t ht).symm)
    exact load_inj heq hlo hhi
  · have hout : ∀ t ∈ ts, x < t.1 ∨ t.1 + t.2 ≤ x := by
      intro t ht
      by_contra hin
      exact hx ⟨t, ht, by omega, by omega⟩
    rw [h₁.other x hout, h₂.other x hout]

end

/-- A directory in good order is applied exactly: the difference of the bases is added to every target and no other
byte changes; so going to one base and from there to another is going there directly. -/
theorem relocation_exact {data image : Mem} {size_of_image : Nat} {ts : List Access}
    (h : Relocatable data image size_of_image ts) {P : Nat} :
    (∀ L, ∃ image', (∀ fuel > (reloc_dir data).size, relocated fuel image L P data = some image') ∧
      Relocated image image' ts ((L : Int) - P)) ∧
    ∀ L₁ L₂, ∃ image₁ image₂, ∀ fuel > (reloc_dir data).size, relocated fuel image L₁ P data = some image₁ ∧
      relocated fuel image₁ L₂ L₁ data = some image₂ ∧ relocated fuel image L₂ P data = some image₂ := by
  refine ⟨fun L => h.relocated L P, fun L₁ L₂ => ?_⟩
  obtain ⟨image₁, he₁, hr₁⟩ := h.relocated L₁ P
  obtain ⟨image₂, he₂, hr₂⟩ := (h.again hr₁).relocated L₂ L₁
  obtain ⟨direct, hed, hrd⟩ := h.relocated L₂ P
  have hsame : direct = image₂ := by
    refine Relocated.unique h.blocks.width hrd ?_
    have htrans := hr₁.trans hr₂
    rwa [show ((L₁ : Int) - P) + ((L₂ : Int) - L₁) = (L₂ : Int) - P by omega] at htrans
  exact ⟨image₁, image₂, fun fuel hf => ⟨he₁ fuel hf, he₂ fuel hf, hsame ▸ hed fuel hf⟩⟩

/-- A file whose relocation directory is twelve bytes at 0x100. -/
def twoTargetsFile : Mem :=
  store (store (store (store (fun _ => 0) 0x3C 4 0x40) (0x58 + 108) 4 6) (0x58 + 152) 4 0x100) (0x58 + 156) 4 12

/-- Its image: one block with a 64-bit target at 0x10 and a 32-bit target at 0x20. -/
def twoTargets : Mem :=
  store (store (store (store (fun _ => 0) 0x104 4 12) 0x108 2 0xA010) 0x10A 2 0x3020) 0x10 8 0x140001000

theorem relocation_exact_twoTargets :
    Relocatable twoTargetsFile twoTargets 0x1000 [(0x10, 8), (0x20, 4)] ∧
    ∃ image', (∀ fuel > 12, relocated fuel twoTargets 0x200000 0x140000000 twoTargetsFile = some image') ∧
      Relocated twoTargets image' [(0x10, 8), (0x20, 4)] (((0x200000 : Nat) : Int) - (0x140000000 : Nat)) := by
  have hdir : reloc_dir twoTargetsFile = ⟨0x100, 12⟩ := by decide +kernel
  have h : Relocatable twoTargetsFile twoTargets 0x1000 [(0x10, 8), (0x20, 4)] := by
    refine ⟨by decide +kernel, ?_, ?_, ?_, ?_, by decide, by decide, ?_⟩
    · rw [hdir]; decide
    · rw [hdir]; decide
    · rw [hdir]; decide
    · rw [hdir]
      have hb : block_targets twoTargets (load twoTargets 0x100 4) ((12 - 8) / 2) (0x100 + 8) ++ [] =
          [(0x10, 8), (0x20, 4)] := by decide +kernel
      rw [← hb]
      exact .block (by decide +kernel) (by decide) (by decide) (by decide) .nil
    · rw [hdir]; decide
  have hall := (relocation_exact h (P := 0x140000000)).1 0x200000
  rw [hdir] at hall
  exact ⟨h, hall⟩

end H3OS.Pe
