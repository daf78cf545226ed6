import H3OS.Vfs.Created
/-!
# Copying a file

`vfs_copy` finds or makes its target and then, if there is something to copy,
writes to it. It does not undo the first step when the second fails, leaves an
existing target alone when the source is empty, and returns a length that can
turn negative. `CopySafe` says when nothing of this shows.
-/
open SysLib

namespace H3OS.Vfs

/-- The same nodes are in the tree, with the names, places, types and contents they had. -/
def Unchanged (s s' : St) : Prop :=
  (∀ m, OnTree s' m ↔ OnTree s m) ∧ ∀ m, OnTree s m → unthread (s'.nodes m) = unthread (s.nodes m)

/-- The target path leads to a file with the size and the bytes of `n`; the source path still leads to `n`, which is what
it was. -/
def CopiedTo (s : St) (src dst : List UInt8) (n : NodePtr) (s' : St) : Prop :=
  (∃ d, vfs_resolve s' dst = some d ∧ (s'.nodes d).type = .VFS_FILE ∧ (s'.nodes d).size = (s.nodes n).size ∧
    s'.bytes d = s.bytes n) ∧
  vfs_resolve s' src = some n ∧ unthread (s'.nodes n) = unthread (s.nodes n)

/-- A copy does what its result says. -/
def CopyExact (s : St) (src dst : List UInt8) (mem : Bool) : Prop :=
  (0 ≤ (vfs_copy s src dst mem).1 → ∃ n, vfs_resolve s src = some n ∧ CopiedTo s src dst n (vfs_copy s src dst mem).2) ∧
  ((vfs_copy s src dst mem).1 < 0 → Unchanged s (vfs_copy s src dst mem).2)

/-- When the copy of the file `n` under the name `leaf`, where `target` is the node of that name so far, does. -/
def CopyFits (s : St) (mem : Bool) (n : NodePtr) (leaf : List UInt8) (target : Option NodePtr) : Prop :=
  -- nothing to write: the target must be a file without contents
  (s.bytes n = [] ∧ ¬ Dots leaf ∧ ∀ d, target = some d → (s.nodes d).type = .VFS_FILE ∧ s.bytes d = []) ∨
  -- the write is refused: nothing may have been made before
  (s.bytes n ≠ [] ∧ ∃ d, target = some d ∧ ((s.nodes d).type ≠ .VFS_FILE ∨ mem = false)) ∨
  -- the write is made, and its length reads as success
  (s.bytes n ≠ [] ∧ mem = true ∧ 0 ≤ i32 (s.bytes n).length ∧ ¬ Dots leaf) ∨
  -- the length reads as failure: the target had these bytes before
  (s.bytes n ≠ [] ∧ mem = true ∧ i32 (s.bytes n).length < 0 ∧ ∃ d, target = some d ∧ s.bytes d = s.bytes n)

def CopySafe (s : St) (src dst : List UInt8) (mem : Bool) : Prop :=
  ∀ n e, vfs_resolve s src = some n → (s.nodes n).type = .VFS_FILE → (ensure_parent s dst).1 = some e →
    (ensure_parent s dst).2 ≠ [] → Makes s dst →
    CopyFits s mem n (ensure_parent s dst).2 (find_child s e (ensure_parent s dst).2)

section
variable {s s' : St} {kids kids' : Kids} {n d e m : NodePtr} {src dst leaf : List UInt8} {mode : Nat} {mem : Bool}
  {ps : List (List UInt8)} {buf : List UInt8}

theorem Unchanged.refl (s : St) : Unchanged s s := ⟨fun _ => Iff.rfl, fun _ _ => rfl⟩

theorem Inv.bytes_length (hi : Inv s kids) (n : NodePtr) : (s.bytes n).length = (s.nodes n).size := by
  have hs := hi.sizes n
  unfold St.bytes
  rw [List.take_of_length_le hs.le, hs]

/-- Writing what is there changes nothing. -/
theorem Inv.write_same (hi : Inv s kids) (hb : s.bytes d = buf) (hne : buf ≠ []) :
    s.set d { s.nodes d with data := some buf, size := buf.length } = s := by
  have hs := hi.sizes d
  have hdata : (s.nodes d).data = some buf := by
    unfold St.bytes at hb
    rw [List.take_of_length_le hs.le] at hb
    cases hd : (s.nodes d).data with
    | none =>
      rw [hd] at hb
      exact absurd hb.symm hne
    | some l =>
      rw [hd] at hb
      exact congrArg some hb
  have hsize : (s.nodes d).size = buf.length := by rw [← hb, hi.bytes_length]
  unfold St.set
  rw [← hdata, ← hsize]
  simp

namespace Made

variable (h : Made .VFS_FILE s kids dst mode d s' ps leaf e kids') (hi : Inv s kids)
include h hi

theorem live : Live kids e := Live.walk hi .top h.parent

theorem old_ne (hm : Live kids m) (hnew : find_child s e leaf = none) : m ≠ d := by
  rcases h.made with ⟨hf, -⟩ | ⟨-, hd, -⟩
  · rw [hnew] at hf
    cases hf
  · rintro rfl
    have hused := hm.used hi
    omega

/-- Making the target keeps every node of the tree but for its links. -/
theorem old (hm : Live kids m) : unthread (s'.nodes m) = unthread (s.nodes m) := by
  rcases h.made with ⟨-, rfl⟩ | ⟨hf, hd, hed, rfl⟩
  · rfl
  · rw [linked_old hed (h.old_ne hi hm hf)]
    rfl

theorem old_bytes (hm : Live kids m) : s'.bytes m = s.bytes m := bytes_of_unthread (h.old hi hm)

theorem old_type (hm : Live kids m) : (s'.nodes m).type = (s.nodes m).type := by
  have htype := congrArg vfs_node_t.type (h.old hi hm)
  exact htype

/-- A name of dots leads to a directory. -/
theorem dots_dir (hdots : Dots leaf) (hm : vfs_resolve s' dst = some m) : (s'.nodes m).type = .VFS_DIR := by
  have hdir : (s'.nodes e).type = .VFS_DIR := (h.old_type hi (h.live hi)).trans h.dir
  rw [h.resolve hi] at hm
  rcases hdots with rfl | rfl
  · cases hm
    exact hdir
  · have hup : (s'.nodes e).parent.getD e = m := Option.some.inj hm
    have hlive : Live kids' e := Live.walk h.inv .top (h.ext.walk hi .top h.parent)
    rcases hlive.cases_parent h.inv with rfl | ⟨q, hq, hmem, -⟩
    · rw [h.inv.root_node.1] at hup
      rwa [← hup]
    · rw [hq, Option.getD_some] at hup
      rw [← hup]
      exact h.inv.dirs q (List.ne_nil_of_mem hmem)

/-- A target that was made is seen in the tree. -/
theorem new_changed (hnew : find_child s e leaf = none) {t : St} (ht : Inv t kids') : ¬ Unchanged s t := by
  rintro ⟨hon, -⟩
  have hd : Live kids' d := .kid (Live.walk h.inv .top (h.ext.walk hi .top h.parent)) h.kid
  have hold := hi.onTree.1 ((hon d).1 (ht.onTree.2 hd))
  exact h.old_ne hi hold hnew rfl

omit hi in
theorem new_file (hnew : find_child s e leaf = none) : (s'.nodes d).type = .VFS_FILE ∧ s'.bytes d = [] := by
  rcases h.made with ⟨hf, -⟩ | ⟨-, -, hed, rfl⟩
  · rw [hnew] at hf
    cases hf
  · unfold St.bytes
    rw [linked_new hed]
    exact ⟨rfl, rfl⟩

/-- The copy's result is as it says it is when a state with the same tree has the bytes. -/
theorem copiedTo_iff {t : St} (ht : SameTree s' t) (hcwd : t.cwd = s'.cwd) (hinv : Inv t kids')
    (hsrc : vfs_resolve s src = some n) (hn : unthread (t.nodes n) = unthread (s.nodes n)) :
    CopiedTo s src dst n t ↔ ¬ Dots leaf ∧ (s'.nodes d).type = .VFS_FILE ∧ t.bytes d = s.bytes n := by
  have hsrc' : vfs_resolve t src = some n := (ht.resolve hcwd src).trans (h.keeps hi hsrc)
  have hdst : vfs_resolve t dst = vfs_resolve s' dst := ht.resolve hcwd dst
  constructor
  · rintro ⟨⟨x, hx, hfile, -, hb⟩, -⟩
    rw [hdst] at hx
    rw [ht.type] at hfile
    by_cases hdots : Dots leaf
    · rw [h.dots_dir hi hdots hx] at hfile
      cases hfile
    · rw [(h.found_iff hi).2 hdots] at hx
      cases hx
      exact ⟨hdots, hfile, hb⟩
  · rintro ⟨hreg, hfile, hb⟩
    refine ⟨⟨d, hdst.trans ((h.found_iff hi).2 hreg), (ht.type d).trans hfile, ?_, hb⟩, hsrc', hn⟩
    rw [← hinv.bytes_length, ← hi.bytes_length, hb]

/-! ### The write -/

/-- A source without contents. -/
theorem empty_iff (hsrc : vfs_resolve s src = some n) (hnil : s.bytes n = []) :
    CopiedTo s src dst n s' ↔ CopyFits s mem n leaf (find_child s e leaf) := by
  rw [h.copiedTo_iff hi ⟨fun _ => rfl, rfl⟩ rfl h.inv hsrc (h.old hi (hi.resolve_live hsrc)), hnil]
  simp only [CopyFits, hnil, ne_eq, not_true_eq_false, false_and, or_false, true_and]
  refine and_congr_right fun _ => ?_
  rcases h.made with ⟨hf, rfl⟩ | ⟨hf, -⟩
  · rw [hf]
    constructor
    · rintro hd x hx
      cases hx
      exact hd
    · exact fun hd => hd d rfl
  · rw [hf]
    exact ⟨fun _ => nofun, fun _ => h.new_file hf⟩

/-- A write that is refused. -/
theorem refused_iff (hne : s.bytes n ≠ []) (hno : (s'.nodes d).type ≠ .VFS_FILE ∨ mem = false) :
    Unchanged s s' ↔ CopyFits s mem n leaf (find_child s e leaf) := by
  rcases h.made with ⟨hf, rfl⟩ | ⟨hf, -⟩
  · rw [hf]
    exact ⟨fun _ => .inr (.inl ⟨hne, d, rfl, hno⟩), fun _ => .refl _⟩
  · have hmem : mem = false := hno.resolve_left (not_not.2 (h.new_file hf).1)
    rw [hf]
    refine ⟨fun hun => absurd hun (h.new_changed hi hf h.inv), fun hfits => ?_⟩
    simp [CopyFits, hne, hmem] at hfits

/-- What the source is after its own bytes were written to the target, which may be the source itself. -/
theorem src_kept (hn : Live kids n) (hne : s.bytes n ≠ []) :
    unthread ((s'.set d { s'.nodes d with data := some (s.bytes n), size := (s.bytes n).length }).nodes n) =
      unthread (s.nodes n) := by
  by_cases hnd : n = d
  · subst hnd
    rw [h.inv.write_same (h.old_bytes hi hn) hne]
    exact h.old hi hn
  · rw [set_other _ _ hnd]
    exact h.old hi hn

theorem written_iff (hsrc : vfs_resolve s src = some n) (hne : s.bytes n ≠ []) (hfile : (s'.nodes d).type = .VFS_FILE)
    (hpos : 0 ≤ i32 (s.bytes n).length) :
    CopiedTo s src dst n (s'.set d { s'.nodes d with data := some (s.bytes n), size := (s.bytes n).length }) ↔
      CopyFits s true n leaf (find_child s e leaf) := by
  rw [h.copiedTo_iff hi (sameTree_write s' d _) rfl (h.inv.write d _) hsrc (h.src_kept hi (hi.resolve_live hsrc) hne),
    bytes_write]
  have hneg : ¬ i32 (s.bytes n).length < 0 := not_lt.2 hpos
  simp only [CopyFits, hne, hpos, hneg, hfile, ne_eq, not_false_eq_true, false_and, true_and, false_or, and_true, or_false,
    Bool.true_eq_false]
  refine ⟨.inr, fun hfits => hfits.resolve_left ?_⟩
  rintro ⟨x, hx, htype⟩
  rcases h.made with ⟨hf, rfl⟩ | ⟨hf, -⟩
  · rw [hf] at hx
    cases hx
    exact htype hfile
  · rw [hf] at hx
    cases hx

theorem negative_iff (hne : s.bytes n ≠ []) (hfile : (s'.nodes d).type = .VFS_FILE)
    (hneg : i32 (s.bytes n).length < 0) :
    Unchanged s (s'.set d { s'.nodes d with data := some (s.bytes n), size := (s.bytes n).length }) ↔
      CopyFits s true n leaf (find_child s e leaf) := by
  have hpos : ¬ 0 ≤ i32 (s.bytes n).length := not_le.2 hneg
  simp only [CopyFits, hne, hpos, hneg, ne_eq, not_false_eq_true, false_and, true_and, false_or, or_false,
    Bool.true_eq_false]
  rcases h.made with ⟨hf, rfl⟩ | ⟨hf, -⟩
  · rw [hf]
    constructor
    · rintro ⟨-, hsame⟩
      refine .inr ⟨d, rfl, ?_⟩
      have hd := hsame d (hi.onTree.2 (.kid (h.live hi) (hi.find_child_some.1 hf).1))
      obtain ⟨hdata, hsize⟩ := unthread_data hd
      rw [set_same] at hdata hsize
      unfold St.bytes at hdata hsize ⊢
      rw [← hdata, ← hsize]
      exact List.take_length
    · rintro (⟨x, hx, htype⟩ | ⟨x, hx, hb⟩)
      · cases hx
        exact absurd hfile htype
      · cases hx
        rw [hi.write_same hb hne]
        exact .refl _
  · rw [hf]
    refine ⟨fun hun => absurd hun (h.new_changed hi hf (h.inv.write d _)), fun hfits => ?_⟩
    simp at hfits

/-- The write of a copy, all cases together. -/
theorem copy_iff (hsrc : vfs_resolve s src = some n) (mem : Bool) {r : Int × St}
    (hr : r = if (s'.nodes n).size ≠ 0 ∧ (s'.nodes n).data ≠ none then vfs_write s' (some d) (s'.bytes n) mem else (0, s')) :
    ((0 ≤ r.1 → CopiedTo s src dst n r.2) ∧ (r.1 < 0 → Unchanged s r.2)) ↔
      CopyFits s mem n leaf (find_child s e leaf) := by
  simp only [h.inv.bytes_ne_nil n] at hr
  rw [h.old_bytes hi (hi.resolve_live hsrc)] at hr
  by_cases hnil : s.bytes n = []
  · rw [if_neg (not_not.2 hnil)] at hr
    subst hr
    rw [← h.empty_iff hi hsrc hnil]
    simp
  rw [if_pos hnil] at hr
  by_cases hno : (s'.nodes d).type ≠ .VFS_FILE ∨ mem = false
  · have hrefused : vfs_write s' (some d) (s.bytes n) mem = (-1, s') := by
      unfold vfs_write
      dsimp only
      rcases hno with hno | hno
      · rw [if_pos hno]
      · rw [hno, if_pos rfl, ite_self]
    rw [hrefused] at hr
    subst hr
    rw [← h.refused_iff hi hnil hno]
    simp
  · obtain ⟨hfile, hmem⟩ := not_or.1 hno
    have hfile := not_not.1 hfile
    obtain rfl : mem = true := Bool.eq_true_of_not_eq_false hmem
    have hwrite : vfs_write s' (some d) (s.bytes n) true = (i32 (s.bytes n).length,
        s'.set d { s'.nodes d with data := some (s.bytes n), size := (s.bytes n).length }) := by
      unfold vfs_write
      dsimp only
      rw [if_neg (not_not.2 hfile), if_neg (by decide)]
    rw [hwrite] at hr
    subst hr
    by_cases hpos : 0 ≤ i32 (s.bytes n).length
    · rw [← h.written_iff hi hsrc hnil hfile hpos]
      simp [hpos, not_lt.2 hpos]
    · rw [← h.negative_iff hi hnil hfile (not_le.1 hpos)]
      simp [hpos, not_le.1 hpos]

end Made

end

/-- The call once the source is found to be a file. -/
theorem vfs_copy_file {s : St} {src : List UInt8} {n : NodePtr} (hsrc : vfs_resolve s src = some n)
    (hfile : (s.nodes n).type = .VFS_FILE) (dst : List UInt8) (mem : Bool) : vfs_copy s src dst mem =
      match vfs_create s dst (if (s.nodes n).mode ≠ 0 then (s.nodes n).mode else 0o644) with
      | (none, s) => (-1, s)
      | (some d, s) =>
        if (s.nodes n).size ≠ 0 ∧ (s.nodes n).data ≠ none then vfs_write s (some d) (s.bytes n) mem else (0, s) := by
  unfold vfs_copy
  rw [hsrc]
  exact if_neg (not_not.2 hfile)

/-- A copy makes the target equal to the source or changes nothing, as its result says, exactly when `CopySafe` holds. -/
theorem copy_exact_iff {s : St} (h : Reach s) {src dst : List UInt8} {mem : Bool} (hop : (Op.copy src dst mem).Allowed s) :
    CopyExact s src dst mem ↔ CopySafe s src dst mem := by
  obtain ⟨kids, hi⟩ := h.inv
  obtain ⟨-, hfit⟩ := hop
  have hnothing : vfs_copy s src dst mem = (-1, s) → CopyExact s src dst mem := by
    intro hcopy
    unfold CopyExact
    rw [hcopy]
    exact ⟨nofun, fun _ => .refl s⟩
  cases hsrc : vfs_resolve s src with
  | none =>
    have hcopy : vfs_copy s src dst mem = (-1, s) := by
      unfold vfs_copy
      rw [hsrc]
    exact ⟨fun _ n e hn => (nomatch hsrc.symm.trans hn), fun _ => hnothing hcopy⟩
  | some n =>
    by_cases hfile : (s.nodes n).type = .VFS_FILE
    · have hcopy := vfs_copy_file hsrc hfile dst mem
      generalize (if (s.nodes n).mode ≠ 0 then (s.nodes n).mode else 0o644) = mode at hcopy
      unfold vfs_create at hcopy
      rcases hi.make_node_made h.cwd_head .VFS_FILE mode hfit.2 with
        ⟨hnone, hnot⟩ | ⟨hmakes, d, s', ps, leaf, e, kids', hmake, hmade⟩
      · rw [hnone] at hcopy
        refine ⟨fun _ m e _ _ _ hne hmakes => ?_, fun _ => hnothing hcopy⟩
        exact hnot.elim (fun hnil => absurd hnil hne) fun hno => absurd hmakes hno
      · rw [hmake] at hcopy
        dsimp only at hcopy
        have hiff := hmade.copy_iff hi hsrc mem hcopy
        unfold CopyExact CopySafe
        rw [hmade.place, hsrc]
        constructor
        · rintro ⟨hok, hbad⟩ m e' hm _ he' _ _
          cases hm
          cases he'
          refine hiff.1 ⟨fun hpos => ?_, hbad⟩
          obtain ⟨m, hm, hto⟩ := hok hpos
          cases hm
          exact hto
        · intro hsafe
          obtain ⟨hok, hbad⟩ := hiff.2 (hsafe n e rfl hfile rfl hmade.named hmakes)
          exact ⟨fun hpos => ⟨n, rfl, hok hpos⟩, hbad⟩
    · have hcopy : vfs_copy s src dst mem = (-1, s) := by
        unfold vfs_copy
        rw [hsrc]
        exact if_pos hfile
      refine ⟨fun _ m e hm ht => ?_, fun _ => hnothing hcopy⟩
      cases hsrc.symm.trans hm
      exact absurd ht hfile

/-- A file copied onto itself. -/
theorem copy_exact_iff_self : CopyExact (vfs_init fun _ => true) (str "/etc/motd") (str "/etc/motd") true := by
  refine (copy_exact_iff (.init _) ⟨.inl rfl, .inl rfl, by decide +kernel⟩).2 fun n e hn _ _ _ _ => ?_
  have hmotd : vfs_resolve (vfs_init fun _ => true) (str "/etc/motd") = some ⟨14, by decide⟩ := by decide +kernel
  cases hmotd.symm.trans hn
  refine .inr (.inr (.inl ⟨by decide +kernel, rfl, by decide +kernel, ?_⟩))
  unfold Dots
  decide +kernel

/-- The tree after boot with an empty file in `/tmp`. -/
def withEmpty : St := exec (vfs_init fun _ => true) (.create (str "/tmp/e") 0o644)

/-- The copy of the empty file over the message of the day reports success, and the message is still there. -/
theorem empty_copy_keeps_contents :
    (vfs_copy withEmpty (str "/tmp/e") (str "/etc/motd") true).1 = 0 ∧
    ¬ CopyExact withEmpty (str "/tmp/e") (str "/etc/motd") true := by
  have hzero : (vfs_copy withEmpty (str "/tmp/e") (str "/etc/motd") true).1 = 0 := by decide +kernel
  have hsrc : vfs_resolve withEmpty (str "/tmp/e") = some ⟨17, by decide⟩ := by decide +kernel
  have hdst : vfs_resolve (vfs_copy withEmpty (str "/tmp/e") (str "/etc/motd") true).2 (str "/etc/motd") =
      some ⟨14, by decide⟩ := by decide +kernel
  have hempty : withEmpty.bytes ⟨17, by decide⟩ = [] := by decide +kernel
  have hmotd : (vfs_copy withEmpty (str "/tmp/e") (str "/etc/motd") true).2.bytes ⟨14, by decide⟩ ≠ [] := by
    decide +kernel
  refine ⟨hzero, fun hexact => ?_⟩
  obtain ⟨n, hn, ⟨d, hd, -, -, hb⟩, -⟩ := hexact.1 hzero.ge
  cases hsrc.symm.trans hn
  cases hdst.symm.trans hd
  exact hmotd (hb.trans hempty)

end H3OS.Vfs
