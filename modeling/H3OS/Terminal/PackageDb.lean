import H3OS.Lib.Loop
import H3OS.Terminal.Words
import H3OS.Vfs.Created
/-!
# What the package database tells

An install adds a line to the database without looking for one, and skips it
without a word when the buffer is full; a remove deletes the marker and leaves
the line. So the database and the markers agree with what was reported exactly
as long as no command runs into one of these.
-/
open SysLib H3OS.Vfs

namespace H3OS.Terminal

/-! ## Lines of the database -/

/-- The line begins with this word. -/
def firstWord (l : List UInt8) : List UInt8 := l.takeWhile (· ≠ SPACE)

/-- How many lines of a text are for the package. -/
def linesFor (pkg text : List UInt8) : Nat := (text.splitOn NEWLINE).countP fun l => firstWord l = pkg

/-- What the database holds. -/
def dbText (s : St) : List UInt8 := (vfs_resolve s DB_PATH).elim [] s.bytes

def HasMarker (s : St) (pkg : List UInt8) : Prop := vfs_resolve s (marker_path pkg) ≠ none

/-- Package names as they can be typed, but for those of the packages that are there at boot. -/
structure Name (x : List UInt8) : Prop where
  ne : x ≠ []
  short : x.length ≤ 40
  chars : ∀ b ∈ x, b ≠ 0 ∧ b ≠ SPACE ∧ b ≠ NEWLINE ∧ b ≠ SLASH
  regular : ¬ Dots x
  seeded : x ≠ str "base-system" ∧ x ≠ str "horizon-desktop"

/-- Texts that end with a newline and hold no NUL. -/
structure Whole (text : List UInt8) : Prop where
  ends : text = [] ∨ ∃ t, text = t ++ [NEWLINE]
  clean : 0 ∉ text

section
variable {x y text : List UInt8}

theorem entry_eq (x : List UInt8) : entry x = (x ++ str " 0.1.0 installed") ++ [NEWLINE] := by
  have htail : str " 0.1.0 installed\n" = str " 0.1.0 installed" ++ [NEWLINE] := by decide +kernel
  rw [entry, htail, List.append_assoc]

theorem Name.not_mem (hx : Name x) {b : UInt8} (hb : b = 0 ∨ b = SPACE ∨ b = NEWLINE ∨ b = SLASH) : b ∉ x := by
  intro hmem
  obtain ⟨h1, h2, h3, h4⟩ := hx.chars b hmem
  rcases hb with hb | hb | hb | hb
  · exact h1 hb
  · exact h2 hb
  · exact h3 hb
  · exact h4 hb

theorem takeWhile_word {b : UInt8} (hb : b ∉ x) (rest : List UInt8) :
    (x ++ b :: rest).takeWhile (· ≠ b) = x := by
  have hall : x.takeWhile (· ≠ b) = x := by
    refine List.takeWhile_eq_self_iff.2 fun c hc => ?_
    simp only [ne_eq, decide_not, Bool.not_eq_eq_eq_not, Bool.not_true, decide_eq_false_iff_not]
    rintro rfl
    exact hb hc
  rw [List.takeWhile_append, hall, if_pos rfl, List.takeWhile_cons_of_neg (by simp), List.append_nil]

theorem Name.firstWord_entry (hx : Name x) : firstWord (x ++ str " 0.1.0 installed") = x := by
  have htail : str " 0.1.0 installed" = SPACE :: str "0.1.0 installed" := by decide +kernel
  rw [firstWord, htail]
  exact takeWhile_word (hx.not_mem (.inr (.inl rfl))) _

/-- A text that ends with a newline, and one more line. -/
theorem splitOn_line {l : List UInt8} (hends : text = [] ∨ ∃ t, text = t ++ [NEWLINE]) (hl : NEWLINE ∉ l) :
    ∃ ls, text.splitOn NEWLINE = ls ++ [[]] ∧ (text ++ (l ++ [NEWLINE])).splitOn NEWLINE = ls ++ [l, []] := by
  have hlast : (l ++ NEWLINE :: []).splitOn NEWLINE = [l, []] := by
    rw [List.splitOn_append_cons_self, List.splitOn_eq_singleton hl]
    rfl
  rcases hends with rfl | ⟨t, rfl⟩
  · exact ⟨[], rfl, hlast⟩
  · refine ⟨t.splitOn NEWLINE, List.splitOn_append_cons_self t [], ?_⟩
    rw [List.append_assoc, List.singleton_append, List.splitOn_append_cons_self, hlast]

theorem linesFor_entry (hends : text = [] ∨ ∃ t, text = t ++ [NEWLINE]) (hx : Name x) :
    linesFor y (text ++ entry x) = linesFor y text + if x = y then 1 else 0 := by
  have hclean : NEWLINE ∉ x ++ str " 0.1.0 installed" := by
    rw [List.mem_append, not_or]
    exact ⟨hx.not_mem (.inr (.inr (.inl rfl))), by decide +kernel⟩
  obtain ⟨ls, h1, h2⟩ := splitOn_line hends hclean
  unfold linesFor
  rw [entry_eq, h1, h2, List.countP_append, List.countP_append, List.countP_cons, hx.firstWord_entry]
  simp only [decide_eq_true_eq]
  omega

theorem Whole.append_entry (h : Whole text) (hx : Name x) : Whole (text ++ entry x) := by
  refine ⟨.inr ⟨text ++ (x ++ str " 0.1.0 installed"), ?_⟩, ?_⟩
  · rw [entry_eq]
    exact (List.append_assoc _ _ _).symm
  · rw [entry, List.mem_append, List.mem_append, not_or, not_or]
    exact ⟨h.clean, hx.not_mem (.inl rfl), by decide +kernel⟩

theorem Whole.cstr_eq (h : Whole text) : cstr text = text := by
  refine List.takeWhile_eq_self_iff.2 fun b hb => ?_
  simp only [ne_eq, decide_not, Bool.not_eq_eq_eq_not, Bool.not_true, decide_eq_false_iff_not]
  rintro rfl
  exact h.clean hb

/-! ## Reading the command -/

theorem next_arg_word (hne : x ≠ []) (hsp : SPACE ∉ x) (rest : List UInt8) :
    next_arg (x ++ SPACE :: rest) = (some x, rest) := by
  have hfirst : First SPACE (x ++ SPACE :: rest) [] x [SPACE] rest := ⟨by simp, by simp, hne, hsp, .inl rfl⟩
  exact next_arg_first hfirst

theorem next_arg_last (hne : x ≠ []) (hsp : SPACE ∉ x) : next_arg x = (some x, []) := by
  have hfirst : First SPACE x [] x [] [] := ⟨by simp, by simp, hne, hsp, .inr ⟨rfl, rfl⟩⟩
  exact next_arg_first hfirst

/-- A line of the two words and a package is the branch of its second word. -/
theorem run_h3pkg (s : St) {sub : List UInt8} (hne : sub ≠ []) (hsp : SPACE ∉ sub) (hx : Name x) (mem : Bool × Bool)
    (hsub : ¬ (sub = str "list" ∨ sub = str "search")) :
    run_command s (str "h3pkg" ++ SPACE :: (sub ++ SPACE :: x)) mem = some (
      if sub = str "install" then
        (add_marker (add_entry s x mem.1) x mem.2, str "h3pkg: installed " ++ x ++ [NEWLINE])
      else if sub = str "remove" then ((vfs_unlink s (marker_path x)).2, str "h3pkg: removed " ++ x ++ [NEWLINE])
      else if sub = str "repair" ∨ sub = str "update" ∨ sub = str "upgrade" then
        (s, str "h3pkg: " ++ sub ++ str " — local RAMFS db OK\n")
      else (s, str "h3pkg: unknown subcommand\n")) := by
  have hname := next_arg_last hx.ne (hx.not_mem (.inr (.inl rfl)))
  unfold run_command
  rw [next_arg_word (by decide +kernel) (by decide +kernel)]
  simp only [h3pkg, next_arg_word hne hsp, hname, hsub, ↓reduceIte]

theorem run_install (s : St) (hx : Name x) (mem : Bool × Bool) :
    run_command s (Cmd.install x mem).line mem =
      some (add_marker (add_entry s x mem.1) x mem.2, (Cmd.install x mem).report) := by
  have hline : (Cmd.install x mem).line = str "h3pkg" ++ SPACE :: (str "install" ++ SPACE :: x) := by
    have hlit : str "h3pkg install " = str "h3pkg" ++ SPACE :: (str "install" ++ [SPACE]) := by decide +kernel
    rw [Cmd.line, hlit]
    simp
  rw [hline, run_h3pkg s (by decide +kernel) (by decide +kernel) hx mem (by decide +kernel), if_pos rfl]
  rfl

theorem run_remove (s : St) (hx : Name x) (mem : Bool × Bool) :
    run_command s (Cmd.remove x).line mem =
      some ((vfs_unlink s (marker_path x)).2, (Cmd.remove x).report) := by
  have hline : (Cmd.remove x).line = str "h3pkg" ++ SPACE :: (str "remove" ++ SPACE :: x) := by
    have hlit : str "h3pkg remove " = str "h3pkg" ++ SPACE :: (str "remove" ++ [SPACE]) := by decide +kernel
    rw [Cmd.line, hlit]
    simp
  rw [hline, run_h3pkg s (by decide +kernel) (by decide +kernel) hx mem (by decide +kernel),
    if_neg (by decide +kernel), if_pos rfl]
  rfl

/-- Both commands report success, whatever became of them. -/
theorem reports_success (s : St) {c : Cmd} (hc : Name c.pkg) :
    (run_command s c.line c.mem).map Prod.snd = some c.report := by
  cases c with
  | install x mem => exact congrArg (Option.map Prod.snd) (run_install s hc mem)
  | remove x => exact congrArg (Option.map Prod.snd) (run_remove s hc (true, true))

end

/-! ## The two places in the tree -/

def dbParts : List (List UInt8) := [str "var", str "lib", str "h3pkg", str "db"]
def pkgParts : List (List UInt8) := [str "usr", str "share", str "packages"]

/-- The database is a file, the markers' directory holds files only, and the database is not one of them. -/
structure Shop (s : St) (kids : Kids) (db dir : NodePtr) : Prop where
  inv : Inv s kids
  cwd : s.cwd.head? = some SLASH
  toDb : walk s root dbParts = some db
  toDir : walk s root pkgParts = some dir
  file : (s.nodes db).type = .VFS_FILE
  isDir : (s.nodes dir).type = .VFS_DIR
  markers : ∀ c ∈ kids dir, (s.nodes c).type = .VFS_FILE
  apart : db ∉ kids dir

section
variable {s : St} {kids : Kids} {db dir n c : NodePtr} {x y : List UInt8}

theorem db_parts : parts (normalize_path s DB_PATH).tail = dbParts := by
  rw [normalize_absolute s (by decide +kernel) (by decide +kernel)]
  decide +kernel

theorem Shop.resolve_db (h : Shop s kids db dir) : vfs_resolve s DB_PATH = some db := by
  rw [resolve_eq, db_parts]
  exact h.toDb

theorem Shop.dbText_eq (h : Shop s kids db dir) : dbText s = s.bytes db := by
  rw [dbText, h.resolve_db]
  rfl

/-- A path with a name behind its last slash. -/
theorem split_last_join {a x : List UInt8} (hx : SLASH ∉ x) : split_last (a ++ SLASH :: x) = (a, x) := by
  have hleaf : ((a ++ SLASH :: x).reverse.takeWhile (· ≠ SLASH)).reverse = x := by
    have hrev : (a ++ SLASH :: x).reverse = x.reverse ++ SLASH :: a.reverse := by simp
    rw [hrev, takeWhile_word (by simpa using hx), List.reverse_reverse]
  unfold split_last
  dsimp only
  rw [hleaf]
  congr 1
  rw [List.length_append, List.length_cons, show a.length + (x.length + 1) - x.length - 1 = a.length by omega]
  exact List.take_left

theorem ensure_parent_join (s : St) {a x : List UInt8} (habs : a.head? = some SLASH) (hx : SLASH ∉ x)
    (hlen : (a ++ SLASH :: x).length < VFS_PATH_MAX) : ensure_parent s (a ++ SLASH :: x) = (vfs_resolve s a, x) := by
  have hne : a ≠ [] := by
    rintro rfl
    cases habs
  have hhead : (a ++ SLASH :: x).head? = some SLASH := by rw [List.head?_append, habs]; rfl
  unfold ensure_parent
  rw [normalize_absolute s hhead hlen]
  dsimp only
  rw [split_last_join hx, if_neg hne]

theorem marker_path_eq (x : List UInt8) : marker_path x = PACKAGES ++ SLASH :: x := by
  have hlit : str "/usr/share/packages/" = PACKAGES ++ [SLASH] := by decide +kernel
  rw [marker_path, hlit, List.append_assoc]
  rfl

theorem packages_parts : parts (normalize_path s PACKAGES).tail = pkgParts := by
  rw [normalize_absolute s (by decide +kernel) (by decide +kernel)]
  decide +kernel

theorem Name.marker_short (hx : Name x) : (PACKAGES ++ SLASH :: x).length < VFS_PATH_MAX := by
  have hlen : PACKAGES.length = 19 := by decide +kernel
  have hshort := hx.short
  rw [List.length_append, List.length_cons, hlen]
  unfold VFS_PATH_MAX
  omega

theorem Shop.marker_parent (h : Shop s kids db dir) (hx : Name x) : ensure_parent s (marker_path x) = (some dir, x) := by
  rw [marker_path_eq, ensure_parent_join s (by decide +kernel) (hx.not_mem (.inr (.inr (.inr rfl)))) hx.marker_short,
    resolve_eq, packages_parts, h.toDir]

theorem Shop.resolve_marker (h : Shop s kids db dir) (hx : Name x) :
    vfs_resolve s (marker_path x) = find_child s dir x := by
  have hslash := hx.not_mem (b := SLASH) (.inr (.inr (.inr rfl)))
  have hfull : normalize_path s (PACKAGES ++ SLASH :: x) = PACKAGES ++ SLASH :: x :=
    normalize_absolute s (by rw [List.head?_append]; rfl) hx.marker_short
  obtain ⟨t, ht⟩ : ∃ t, PACKAGES = SLASH :: t := ⟨str "usr/share/packages", by decide +kernel⟩
  have hdir : walk s root (parts t) = some dir := by
    have hparts := packages_parts (s := s)
    rw [normalize_absolute s (by decide +kernel) (by decide +kernel), ht, List.tail_cons] at hparts
    rw [hparts]
    exact h.toDir
  have hshort : x.length < VFS_NAME_MAX := lt_of_le_of_lt hx.short (by decide)
  rw [marker_path_eq, resolve_eq, hfull, ht, List.cons_append, List.tail_cons, walk_join, hdir, Option.bind_some,
    parts_single hslash hx.ne hshort, walk_single]
  exact step_into_regular s dir hx.ne hx.regular

theorem Shop.hasMarker_iff (h : Shop s kids db dir) (hx : Name x) :
    HasMarker s x ↔ ∃ c ∈ kids dir, (s.nodes c).name = x := by
  rw [HasMarker, h.resolve_marker hx, ne_eq, h.inv.find_child_none]
  push Not
  rfl

/-! ## What the commands do to them -/

theorem Shop.sameTree {s' : St} (h : Shop s kids db dir) (hs : SameTree s s') (hinv : Inv s' kids)
    (hcwd : s'.cwd = s.cwd) : Shop s' kids db dir := by
  refine ⟨hinv, hcwd ▸ h.cwd, ?_, ?_, ?_, ?_, fun c hc => ?_, h.apart⟩
  · rw [hs.walk]
    exact h.toDb
  · rw [hs.walk]
    exact h.toDir
  · rw [hs.type]
    exact h.file
  · rw [hs.type]
    exact h.isDir
  · rw [hs.type]
    exact h.markers c hc

theorem Shop.db_live (h : Shop s kids db dir) : Live kids db := Live.walk h.inv .top h.toDb

theorem Shop.dir_live (h : Shop s kids db dir) : Live kids dir := Live.walk h.inv .top h.toDir

/-- A new marker. -/
theorem Shop.link (h : Shop s kids db dir) (hx : x ≠ []) (hnew : find_child s dir x = none) (hn : n.val = s.node_count)
    (mode : Nat) : Shop (linked s dir n x .VFS_FILE mode) (Function.update kids dir (n :: kids dir)) db dir := by
  have hi := h.inv
  have hlive : ∀ m, Live kids m → m ≠ n := by
    rintro m hm rfl
    have hused := hm.used hi
    omega
  have hdn := hlive dir h.dir_live
  have hi' : Inv (linked s dir n x .VFS_FILE mode) (Function.update kids dir (n :: kids dir)) :=
    hi.link hn (hn ▸ h.dir_live.used hi) h.isDir hx (hi.find_child_none.1 hnew)
  have hext := hi.extends_linked hi' rfl hdn hn
  refine ⟨hi', h.cwd, hext.walk hi .top h.toDb, hext.walk hi .top h.toDir, ?_, ?_, fun c hc => ?_, fun hmem => ?_⟩
  · rw [linked_old hdn (hlive db h.db_live)]
    exact h.file
  · rw [linked_old hdn hdn]
    exact h.isDir
  · rw [Function.update_self, List.mem_cons] at hc
    rcases hc with rfl | hc
    · rw [linked_new hdn]
    · rw [linked_old hdn (hlive c (.kid h.dir_live hc))]
      exact h.markers c hc
  · rw [Function.update_self, List.mem_cons] at hmem
    exact hmem.elim (hlive db h.db_live) h.apart

/-- A file can only be the last node of a walk down. -/
theorem file_last (hi : Inv s kids) {cur m : NodePtr} {ps : List (List UInt8)}
    (hreg : ∀ part ∈ ps, part ≠ [] ∧ ¬ Dots part) (hw : walk s cur ps = some m) (hf : (s.nodes c).type = .VFS_FILE)
    (hc : c ∈ trail s cur ps) : c = m := by
  induction ps generalizing cur with
  | nil =>
    cases hw
    exact List.mem_singleton.1 hc
  | cons part ps ih =>
    rw [walk_cons] at hw
    obtain ⟨d, hs, hw⟩ := Option.bind_eq_some_iff.1 hw
    obtain ⟨hne, hdots⟩ := hreg part List.mem_cons_self
    rw [trail_cons, hs, Option.elim_some, List.mem_cons] at hc
    refine ih (fun part hp => hreg part (List.mem_cons_of_mem _ hp)) hw (hc.resolve_left ?_)
    rintro rfl
    rw [step_into_regular s c hne hdots] at hs
    rw [hi.dirs c (List.ne_nil_of_mem (hi.find_child_some.1 hs).1)] at hf
    cases hf

theorem parts_regular : (∀ part ∈ dbParts, part ≠ [] ∧ ¬ Dots part) ∧ ∀ part ∈ pkgParts, part ≠ [] ∧ ¬ Dots part := by
  unfold Dots
  decide +kernel

/-- A marker taken away. -/
theorem Shop.unlink (h : Shop s kids db dir) (hc : c ∈ kids dir) :
    Shop (unlinked s dir c) (without kids dir c) db dir := by
  have hi := h.inv
  have hfile := h.markers c hc
  have hcwd : (unlinked s dir c).cwd = s.cwd := (hi.unthreaded hc).cwd
  refine ⟨hi.unlink hc, hcwd ▸ h.cwd, ?_, ?_, ?_, ?_, fun m hm => ?_, fun hm => ?_⟩
  · rw [hi.walk_unlinked hc]
    · exact h.toDb
    · intro ht
      exact h.apart (file_last hi parts_regular.1 h.toDb hfile ht ▸ hc)
  · rw [hi.walk_unlinked hc]
    · exact h.toDir
    · intro ht
      have hdir := h.isDir
      rw [← file_last hi parts_regular.2 h.toDir hfile ht, hfile] at hdir
      cases hdir
  · rw [hi.unlinked_type hc]
    exact h.file
  · rw [hi.unlinked_type hc]
    exact h.isDir
  · rw [hi.unlinked_type hc]
    exact h.markers m ((hi.mem_without hc).1 hm).1
  · exact h.apart ((hi.mem_without hc).1 hm).1

/-- A write to a node other than the database. -/
theorem Shop.write_other (h : Shop s kids db dir) (hn : n ≠ db) (buf : List UInt8) (mem : Bool) :
    Shop (vfs_write s (some n) buf mem).2 kids db dir ∧ (vfs_write s (some n) buf mem).2.bytes db = s.bytes db ∧
      ∀ m, ((vfs_write s (some n) buf mem).2.nodes m).name = (s.nodes m).name := by
  rcases vfs_write_cases s (some n) buf mem with hw | ⟨m, hm, -, -, hw⟩
  · rw [hw]
    exact ⟨h, rfl, fun _ => rfl⟩
  · cases hm
    rw [hw]
    have hsame := sameTree_write s n buf
    exact ⟨h.sameTree hsame (h.inv.write n buf) rfl, bytes_set_other s _ (Ne.symm hn), hsame.name⟩

/-- The line of `x` fits the buffer behind what the database holds. -/
def Room (s : St) (x : List UInt8) : Prop := (dbText s).length + (entry x).length < BUF_SIZE

instance (s : St) (x : List UInt8) : Decidable (Room s x) := inferInstanceAs (Decidable (_ < _))

/-- A database shorter than the buffer is read whole. -/
theorem Shop.read_db_eq (h : Shop s kids db dir) (hlen : (s.bytes db).length < BUF_SIZE) : read_db s db = s.bytes db := by
  have hsize := h.inv.sizes db
  have hbytes : (s.bytes db).length = (s.nodes db).size := by
    unfold St.bytes
    rw [List.take_of_length_le hsize.le, hsize]
  unfold read_db vfs_read
  dsimp only
  rw [if_neg (not_not.2 h.file)]
  refine List.take_of_length_le ?_
  rw [hbytes] at hlen ⊢
  exact le_min le_rfl (Nat.le_pred_of_lt hlen)

theorem Shop.add_entry (h : Shop s kids db dir) (hw : Whole (s.bytes db)) (hlen : (s.bytes db).length < BUF_SIZE)
    (x : List UInt8) (mem : Bool) :
    Shop (add_entry s x mem) kids db dir ∧
    (add_entry s x mem).bytes db = (if Room s x ∧ mem = true then s.bytes db ++ entry x else s.bytes db) ∧
    SameTree s (add_entry s x mem) := by
  have hiff : Room s x ↔ (s.bytes db).length + (entry x).length < BUF_SIZE := by rw [Room, h.dbText_eq]
  have heq : Terminal.add_entry s x mem = if (s.bytes db).length + (entry x).length < BUF_SIZE then
      (vfs_write s (some db) (s.bytes db ++ entry x) mem).2 else s := by
    unfold Terminal.add_entry
    rw [h.resolve_db]
    dsimp only
    rw [h.read_db_eq hlen, hw.cstr_eq]
  rw [heq]
  by_cases hroom : (s.bytes db).length + (entry x).length < BUF_SIZE
  · rw [if_pos hroom]
    cases mem with
    | true =>
      have hwrite : vfs_write s (some db) (s.bytes db ++ entry x) true = (i32 (s.bytes db ++ entry x).length,
          s.set db { s.nodes db with data := some (s.bytes db ++ entry x), size := (s.bytes db ++ entry x).length }) := by
        unfold vfs_write
        dsimp only
        rw [if_neg (not_not.2 h.file), if_neg (by decide)]
      have hsame := sameTree_write s db (s.bytes db ++ entry x)
      rw [hwrite, if_pos ⟨hiff.2 hroom, rfl⟩]
      exact ⟨h.sameTree hsame (h.inv.write db _) rfl, bytes_write s db _, hsame⟩
    | false =>
      have hwrite : vfs_write s (some db) (s.bytes db ++ entry x) false = (-1, s) := by
        unfold vfs_write
        dsimp only
        rw [if_neg (not_not.2 h.file), if_pos rfl]
      rw [hwrite, if_neg fun hboth => Bool.false_ne_true hboth.2]
      exact ⟨h, rfl, ⟨fun _ => rfl, rfl⟩⟩
  · rw [if_neg hroom, if_neg fun hboth => hroom (hiff.1 hboth.1)]
    exact ⟨h, rfl, ⟨fun _ => rfl, rfl⟩⟩

/-- The directory of the markers is there already. -/
theorem Shop.mkdir_packages (h : Shop s kids db dir) (mode : Nat) : vfs_mkdir s PACKAGES mode = (some dir, s) := by
  have hpath : PACKAGES = str "/usr/share" ++ SLASH :: str "packages" := by decide +kernel
  have hplace : ensure_parent s PACKAGES = (walk s root [str "usr", str "share"], str "packages") := by
    rw [hpath, ensure_parent_join s (by decide +kernel) (by decide +kernel) (by decide +kernel), resolve_eq,
      normalize_absolute s (by decide +kernel) (by decide +kernel)]
    congr 2
  have hwalk : walk s root ([str "usr", str "share"] ++ [str "packages"]) = some dir := h.toDir
  rw [walk_append] at hwalk
  obtain ⟨share, hshare, hlast⟩ := Option.bind_eq_some_iff.1 hwalk
  have hfind : find_child s share (str "packages") = some dir := by
    rw [walk_single, step_into_regular s share (by decide +kernel) (by unfold Dots; decide +kernel)] at hlast
    exact hlast
  have hdir := h.inv.dirs share (List.ne_nil_of_mem (h.inv.find_child_some.1 hfind).1)
  unfold vfs_mkdir make_node
  rw [hplace, hshare]
  dsimp only
  rw [if_neg (by rw [hdir]; decide +kernel), hfind]

/-- A marker that is there already is written once more. -/
theorem Shop.mark_again (h : Shop s kids db dir) (hf : find_child s dir x = some n) (buf : List UInt8) (mem : Bool) :
    Shop (vfs_write s (some n) buf mem).2 kids db dir ∧ (vfs_write s (some n) buf mem).2.bytes db = s.bytes db ∧
      ∀ y, Name y → (HasMarker (vfs_write s (some n) buf mem).2 y ↔ HasMarker s y) := by
  have hkid := (h.inv.find_child_some.1 hf).1
  obtain ⟨hshop, hbytes, hnames⟩ := h.write_other (fun heq : n = db => h.apart (heq ▸ hkid)) buf mem
  refine ⟨hshop, hbytes, fun y hy => ?_⟩
  rw [hshop.hasMarker_iff hy, h.hasMarker_iff hy]
  simp only [hnames]

theorem Shop.mark_new (h : Shop s kids db dir) (hx : Name x) (hf : find_child s dir x = none) (hn : n.val = s.node_count)
    (mode : Nat) (buf : List UInt8) (mem : Bool) :
    let s' := (vfs_write (linked s dir n x .VFS_FILE mode) (some n) buf mem).2
    Shop s' (Function.update kids dir (n :: kids dir)) db dir ∧ s'.bytes db = s.bytes db ∧
      ∀ y, Name y → (HasMarker s' y ↔ HasMarker s y ∨ y = x) := by
  have hi := h.inv
  have hnew := h.link hx.ne hf hn mode
  have hdn : dir ≠ n := by
    rintro rfl
    exact absurd (h.dir_live.used hi) (by omega)
  have hndb : n ≠ db := by
    rintro rfl
    exact hnew.apart (by rw [Function.update_self]; exact List.mem_cons_self)
  obtain ⟨hshop, hbytes, hnames⟩ := hnew.write_other hndb buf mem
  refine ⟨hshop, ?_, fun y hy => ?_⟩
  · rw [hbytes]
    unfold St.bytes
    rw [linked_old hdn (Ne.symm hndb)]
  · have hold : ∀ c ∈ kids dir, ((linked s dir n x .VFS_FILE mode).nodes c).name = (s.nodes c).name := by
      intro c hc
      rw [linked_old hdn]
      rintro rfl
      exact absurd ((Live.kid h.dir_live hc).used hi) (by omega)
    have hnewname : ((linked s dir n x .VFS_FILE mode).nodes n).name = x := by rw [linked_new hdn]
    rw [hshop.hasMarker_iff hy, h.hasMarker_iff hy, Function.update_self]
    simp only [hnames, List.mem_cons]
    constructor
    · rintro ⟨c, rfl | hc, hname⟩
      · exact .inr (hname.symm.trans hnewname)
      · exact .inl ⟨c, hc, (hold c hc).symm.trans hname⟩
    · rintro (⟨c, hc, hname⟩ | rfl)
      · exact ⟨c, .inr hc, (hold c hc).trans hname⟩
      · exact ⟨n, .inl rfl, hnewname⟩

theorem Shop.add_marker (h : Shop s kids db dir) (hx : Name x) (mem : Bool) :
    ∃ kids', Shop (add_marker s x mem) kids' db dir ∧ (add_marker s x mem).bytes db = s.bytes db ∧
      ∀ y, Name y → (HasMarker (add_marker s x mem) y ↔ HasMarker s y ∨ y = x ∧ s.node_count < VFS_MAX_NODES) := by
  have hi := h.inv
  have hplace := h.marker_parent hx
  have hfit : (ensure_parent s (marker_path x)).2.length < VFS_NAME_MAX := by
    rw [hplace]
    exact lt_of_le_of_lt hx.short (by decide)
  unfold Terminal.add_marker
  rw [h.mkdir_packages]
  dsimp only
  unfold vfs_create
  rcases hi.make_node_made h.cwd .VFS_FILE 0o644 hfit with ⟨hnone, hnot⟩ | ⟨-, n, s', ps, leaf, d, kids', hmake, hmade⟩
  · -- the table is full
    rw [hnone]
    refine ⟨kids, h, rfl, fun y hy => ⟨.inl, fun hor => hor.elim id ?_⟩⟩
    rintro ⟨rfl, hroom⟩
    rw [hplace] at hnot
    exact absurd ⟨dir, by rw [hplace], h.isDir, .inr hroom⟩ (hnot.resolve_left hx.ne)
  · have hsame := hmade.place
    rw [hplace] at hsame
    cases hsame
    rw [hmake]
    dsimp only
    rcases hmade.made with ⟨hf, rfl⟩ | ⟨hf, hn, hdn, rfl⟩
    · obtain ⟨hshop, hbytes, hmarks⟩ := h.mark_again hf (str "h3pkg package\n") mem
      refine ⟨kids, hshop, hbytes, fun y hy => ?_⟩
      rw [hmarks y hy]
      refine ⟨.inl, fun hor => hor.elim id ?_⟩
      rintro ⟨rfl, -⟩
      exact (h.hasMarker_iff hy).2 ⟨n, hi.find_child_some.1 hf⟩
    · obtain ⟨hshop, hbytes, hmarks⟩ := h.mark_new hx hf hn 0o644 (str "h3pkg package\n") mem
      have hroom : s.node_count < VFS_MAX_NODES := hn ▸ n.isLt
      refine ⟨_, hshop, hbytes, fun y hy => ?_⟩
      rw [hmarks y hy, and_iff_left hroom]

theorem Shop.remove (h : Shop s kids db dir) (hx : Name x) :
    ∃ kids', Shop (vfs_unlink s (marker_path x)).2 kids' db dir ∧
      (vfs_unlink s (marker_path x)).2.bytes db = s.bytes db ∧
      ∀ y, Name y → (HasMarker (vfs_unlink s (marker_path x)).2 y ↔ HasMarker s y ∧ y ≠ x) := by
  have hi := h.inv
  rcases hi.vfs_unlink_cases (marker_path x) with ⟨hu, hroot⟩ | ⟨n, p, hr, hn, hu⟩
  · rw [hu]
    refine ⟨kids, h, rfl, fun y hy => ⟨fun hm => ⟨hm, ?_⟩, And.left⟩⟩
    -- a marker would have been found, and it is not the root
    rintro rfl
    rw [h.hasMarker_iff hy] at hm
    obtain ⟨c, hc, hname⟩ := hm
    refine hi.kid_ne_root hc (hroot c ?_)
    rw [h.resolve_marker hy]
    exact hi.find_child_some.2 ⟨hc, hname⟩
  · rw [h.resolve_marker hx] at hr
    obtain ⟨hkid, hname⟩ := hi.find_child_some.1 hr
    obtain rfl : p = dir := Option.some.inj ((hi.parent p n hn).symm.trans (hi.parent dir n hkid))
    rw [hu]
    have hshop := h.unlink hn
    have hndb : db ≠ n := by
      rintro rfl
      exact h.apart hn
    refine ⟨_, hshop, ?_, fun y hy => ?_⟩
    · exact bytes_of_unthread (hi.unlinked_kept hn hndb)
    · rw [hshop.hasMarker_iff hy, h.hasMarker_iff hy]
      constructor
      · rintro ⟨c, hc, hcname⟩
        obtain ⟨hc, hcn⟩ := (hi.mem_without hn).1 hc
        rw [hi.unlinked_name hn hcn] at hcname
        refine ⟨⟨c, hc, hcname⟩, fun hyx => hcn ?_⟩
        exact List.inj_on_of_nodup_map (hi.names p) hc hn (hcname.trans (hyx.trans hname.symm))
      · rintro ⟨⟨c, hc, hcname⟩, hyx⟩
        have hcn : c ≠ n := by
          rintro rfl
          exact hyx (hcname.symm.trans hname)
        exact ⟨c, (hi.mem_without hn).2 ⟨hc, hcn⟩, (hi.unlinked_name hn hcn).trans hcname⟩

end

/-! ## Runs -/

def Cmd.isInstall : Cmd → Bool
  | install _ _ => true
  | remove _ => false

/-- The last command about the package was an install. -/
def installed (cs : List Cmd) (x : List UInt8) : Bool := ((cs.filter fun c => c.pkg = x).getLast?).any Cmd.isInstall

/-- Database and markers say what the commands reported. -/
def Tracks (cs : List Cmd) (s : St) : Prop :=
  ∀ x, Name x → linesFor x (dbText s) = (if installed cs x then 1 else 0) ∧ (HasMarker s x ↔ installed cs x = true)

/-- The commands that do what they report. -/
def Keeps (s : St) : Cmd → Prop
  | .install x mem =>
    -- a package that has no line gets one and a marker; one that has a line gets no second
    if linesFor x (dbText s) = 0 then Room s x ∧ mem.1 = true ∧ s.node_count < VFS_MAX_NODES
    else ¬ (Room s x ∧ mem.1 = true)
  | .remove x => linesFor x (dbText s) = 0

/-- The two places are there, and the database holds whole lines that fit the buffer. -/
def Ready (s : St) : Prop :=
  ∃ kids db dir, Shop s kids db dir ∧ Whole (s.bytes db) ∧ (s.bytes db).length < BUF_SIZE

section
variable {s : St} {x : List UInt8} {cs : List Cmd}

theorem installed_concat (cs : List Cmd) (c : Cmd) (x : List UInt8) :
    installed (cs ++ [c]) x = if c.pkg = x then c.isInstall else installed cs x := by
  unfold installed
  rw [List.filter_append]
  by_cases hx : c.pkg = x
  · simp [hx]
  · simp [hx]

theorem Ready.install (h : Ready s) (hx : Name x) (mem : Bool × Bool) :
    Ready (step s (.install x mem)) ∧
    dbText (step s (.install x mem)) = (if Room s x ∧ mem.1 = true then dbText s ++ entry x else dbText s) ∧
    ∀ y, Name y → (HasMarker (step s (.install x mem)) y ↔ HasMarker s y ∨ y = x ∧ s.node_count < VFS_MAX_NODES) := by
  obtain ⟨kids, db, dir, hshop, hwhole, hlen⟩ := h
  have hstep : step s (.install x mem) = add_marker (add_entry s x mem.1) x mem.2 := by
    rw [step, show (Cmd.install x mem).mem = mem from rfl, run_install s hx mem]
    rfl
  obtain ⟨hshop1, hbytes1, hsame⟩ := hshop.add_entry hwhole hlen x mem.1
  obtain ⟨kids', hshop2, hbytes2, hmarkers⟩ := hshop1.add_marker hx mem.2
  have hroom := hshop.dbText_eq
  rw [hstep, hshop2.dbText_eq, hbytes2, hbytes1, hshop.dbText_eq]
  refine ⟨⟨kids', db, dir, hshop2, ?_⟩, rfl, fun y hy => ?_⟩
  · rw [hbytes2, hbytes1]
    split_ifs with hfits
    · refine ⟨hwhole.append_entry hx, ?_⟩
      rw [List.length_append, ← hroom]
      exact hfits.1
    · exact ⟨hwhole, hlen⟩
  · rw [hmarkers y hy, hsame.count, hshop1.hasMarker_iff hy, hshop.hasMarker_iff hy]
    simp only [hsame.name]

theorem Ready.remove (h : Ready s) (hx : Name x) :
    Ready (step s (.remove x)) ∧ dbText (step s (.remove x)) = dbText s ∧
    ∀ y, Name y → (HasMarker (step s (.remove x)) y ↔ HasMarker s y ∧ y ≠ x) := by
  obtain ⟨kids, db, dir, hshop, hwhole, hlen⟩ := h
  have hstep : step s (.remove x) = (vfs_unlink s (marker_path x)).2 := by
    rw [step, run_remove s hx]
    rfl
  obtain ⟨kids', hshop', hbytes, hmarkers⟩ := hshop.remove hx
  rw [hstep, hshop'.dbText_eq, hbytes, hshop.dbText_eq]
  refine ⟨⟨kids', db, dir, hshop', ?_⟩, rfl, hmarkers⟩
  rw [hbytes]
  exact ⟨hwhole, hlen⟩

theorem Ready.step (h : Ready s) {c : Cmd} (hc : Name c.pkg) : Ready (step s c) := by
  cases c with
  | install x mem => exact (h.install hc mem).1
  | remove x => exact (h.remove hc).1

theorem Ready.ends (h : Ready s) : dbText s = [] ∨ ∃ t, dbText s = t ++ [NEWLINE] := by
  obtain ⟨kids, db, dir, hshop, hwhole, hlen⟩ := h
  rw [hshop.dbText_eq]
  exact hwhole.ends

/-- What is said of the other packages stays as it was. -/
theorem tracks_concat (ht : Tracks cs s) (c : Cmd) {s' : St}
    (hlines : ∀ y, c.pkg ≠ y → linesFor y (dbText s') = linesFor y (dbText s))
    (hmarks : ∀ y, Name y → c.pkg ≠ y → (HasMarker s' y ↔ HasMarker s y)) (hc : Name c.pkg) :
    Tracks (cs ++ [c]) s' ↔ linesFor c.pkg (dbText s') = (if c.isInstall then 1 else 0) ∧
      (HasMarker s' c.pkg ↔ c.isInstall = true) := by
  unfold Tracks
  simp only [installed_concat]
  constructor
  · intro h
    have hown := h c.pkg hc
    rw [if_pos rfl] at hown
    exact hown
  · intro h y hy
    by_cases hcy : c.pkg = y
    · subst hcy
      rw [if_pos rfl]
      exact h
    · rw [if_neg hcy, hlines y hcy, hmarks y hy hcy]
      exact ht y hy

theorem tracks_install (h : Ready s) (ht : Tracks cs s) (hx : Name x) (mem : Bool × Bool) :
    Tracks (cs ++ [.install x mem]) (step s (.install x mem)) ↔ Keeps s (.install x mem) := by
  obtain ⟨-, htext, hmarks⟩ := h.install hx mem
  have hlines : ∀ y, linesFor y (dbText (step s (.install x mem))) =
      linesFor y (dbText s) + if (Room s x ∧ mem.1 = true) ∧ x = y then 1 else 0 := by
    intro y
    rw [htext]
    by_cases hfit : Room s x ∧ mem.1 = true
    · rw [if_pos hfit, linesFor_entry h.ends hx]
      simp only [hfit, and_self, true_and]
    · rw [if_neg hfit, if_neg fun hboth => hfit hboth.1, Nat.add_zero]
  rw [tracks_concat ht (.install x mem) (fun y hy => ?_) (fun y hyn hy => ?_) hx]
  · -- what was said of the package before decides which case it is
    obtain ⟨hline, hmark⟩ := ht x hx
    show linesFor x (dbText (step s (.install x mem))) = 1 ∧ (HasMarker (step s (.install x mem)) x ↔ true = true) ↔ _
    rw [hlines x, hmarks x hx, hmark, Keeps, hline]
    cases installed cs x with
    | true =>
      -- a line and a marker are there already
      by_cases hfit : Room s x ∧ mem.1 = true
      · simp [hfit]
      · simp [hfit]
    | false =>
      by_cases hfit : Room s x ∧ mem.1 = true
      · simp [hfit]
      · simp only [hfit, false_and, ↓reduceIte, Bool.false_eq_true, Nat.add_zero, zero_ne_one, ← and_assoc]
  · rw [hlines y, if_neg fun hboth => hy hboth.2, Nat.add_zero]
  · rw [hmarks y hyn]
    exact or_iff_left fun hboth => hy hboth.1.symm

theorem tracks_remove (h : Ready s) (ht : Tracks cs s) (hx : Name x) :
    Tracks (cs ++ [.remove x]) (step s (.remove x)) ↔ Keeps s (.remove x) := by
  obtain ⟨-, htext, hmarks⟩ := h.remove hx
  rw [tracks_concat ht (.remove x) (fun y _ => by rw [htext]) (fun y hyn hy => ?_) hx]
  · show linesFor x (dbText (step s (.remove x))) = 0 ∧ (HasMarker (step s (.remove x)) x ↔ false = true) ↔ _
    rw [htext, hmarks x hx, Keeps]
    simp
  · rw [hmarks y hyn]
    exact and_iff_left fun hyx => hy hyx.symm

end

/-! ## From `vfs_init` on -/

/-- The answers `kmalloc` gives for the three seeded files. -/
def answers (b0 b1 b2 : Bool) : Nat → Bool
  | 0 => b0
  | 1 => b1
  | _ => b2

theorem vfs_init_answers (mem : Nat → Bool) : vfs_init mem = vfs_init (answers (mem 0) (mem 1) (mem 2)) := rfl

/-- The lines that `vfs_init` writes. -/
def seededText : List UInt8 := str "base-system 0.1.0 installed\nhorizon-desktop 0.1.0 installed\n"

def bootDb : NodePtr := ⟨16, by decide⟩
def bootDir : NodePtr := ⟨13, by decide⟩

theorem boot_places (b0 b1 b2 : Bool) :
    walk (vfs_init (answers b0 b1 b2)) root dbParts = some bootDb ∧
    walk (vfs_init (answers b0 b1 b2)) root pkgParts = some bootDir ∧
    ((vfs_init (answers b0 b1 b2)).nodes bootDb).type = .VFS_FILE ∧
    ((vfs_init (answers b0 b1 b2)).nodes bootDir).type = .VFS_DIR ∧
    ((vfs_init (answers b0 b1 b2)).nodes bootDir).child = none ∧
    (vfs_init (answers b0 b1 b2)).bytes bootDb = if b2 then seededText else [] := by
  revert b0 b1 b2
  decide +kernel

theorem boot_shop (mem : Nat → Bool) : ∃ kids, Shop (vfs_init mem) kids bootDb bootDir ∧ kids bootDir = [] := by
  obtain ⟨kids, hi⟩ := inv_vfs_init mem
  obtain ⟨hdb, hdir, hfile, hisDir, hchild, -⟩ := boot_places (mem 0) (mem 1) (mem 2)
  rw [← vfs_init_answers] at hdb hdir hfile hisDir hchild
  have hnil : kids bootDir = [] := by
    have hchain := hi.chain bootDir
    rw [hchild] at hchain
    cases hkids : kids bootDir with
    | nil => rfl
    | cons c l =>
      rw [hkids] at hchain
      exact absurd hchain.1 nofun
  refine ⟨kids, ⟨hi, ?_, hdb, hdir, hfile, hisDir, ?_, ?_⟩, hnil⟩
  · rw [vfs_init_cwd]
    rfl
  · rw [hnil]
    exact fun c hc => absurd hc List.not_mem_nil
  · rw [hnil]
    exact List.not_mem_nil

theorem boot_text (mem : Nat → Bool) : (vfs_init mem).bytes bootDb = if mem 2 then seededText else [] := by
  obtain ⟨-, -, -, -, -, htext⟩ := boot_places (mem 0) (mem 1) (mem 2)
  rw [vfs_init_answers]
  exact htext

theorem ready_init (mem : Nat → Bool) : Ready (vfs_init mem) := by
  obtain ⟨kids, hshop, -⟩ := boot_shop mem
  refine ⟨kids, bootDb, bootDir, hshop, ?_⟩
  rw [boot_text]
  cases mem 2 with
  | true => exact ⟨⟨.inr ⟨seededText.dropLast, by decide +kernel⟩, by decide +kernel⟩, by decide +kernel⟩
  | false => exact ⟨⟨.inl rfl, List.not_mem_nil⟩, by decide⟩

/-- The lines at boot are for the seeded packages. -/
theorem tracks_init (mem : Nat → Bool) : Tracks [] (vfs_init mem) := by
  obtain ⟨kids, hshop, hnil⟩ := boot_shop mem
  intro x hx
  constructor
  · rw [hshop.dbText_eq, boot_text]
    have hzero : ∀ text, (∀ l ∈ text.splitOn NEWLINE, firstWord l ∈ [[], str "base-system", str "horizon-desktop"]) →
        linesFor x text = 0 := by
      intro text htext
      refine List.countP_eq_zero.2 fun l hl => ?_
      have hword := htext l hl
      simp only [List.mem_cons, List.not_mem_nil, or_false] at hword
      simp only [decide_eq_true_eq]
      rintro rfl
      rcases hword with h | h | h
      · exact hx.ne h
      · exact hx.seeded.1 h
      · exact hx.seeded.2 h
    cases mem 2 with
    | true => exact hzero seededText (by decide +kernel)
    | false => exact hzero [] (by decide +kernel)
  · rw [hshop.hasMarker_iff hx, hnil]
    exact ⟨fun ⟨c, hc, _⟩ => absurd hc List.not_mem_nil, nofun⟩

theorem ready_run (mem : Nat → Bool) {cs : List Cmd} (hcs : ∀ c ∈ cs, Name c.pkg) : Ready (run mem cs) := by
  induction cs using List.reverseRecOn with
  | nil =>
    rw [run, List.foldl_nil]
    exact ready_init mem
  | append_singleton cs c ih =>
    rw [run, List.foldl_append]
    exact (ih fun c' hc' => hcs c' (List.mem_append_left _ hc')).step (hcs c (by simp))

theorem tracks_step {mem : Nat → Bool} {cs : List Cmd} {c : Cmd} (hcs : ∀ c' ∈ cs ++ [c], Name c'.pkg)
    (ht : Tracks cs (run mem cs)) : Tracks (cs ++ [c]) (run mem (cs ++ [c])) ↔ Keeps (run mem cs) c := by
  have hready := ready_run mem fun c' hc' => hcs c' (List.mem_append_left _ hc')
  have hc := hcs c (by simp)
  have hrun : run mem (cs ++ [c]) = step (run mem cs) c := by
    unfold run
    rw [List.foldl_append]
    rfl
  rw [hrun]
  cases c with
  | install x m => exact tracks_install hready ht hc m
  | remove x => exact tracks_remove hready ht hc

/-- The database and the markers say what was reported, after every command, iff every command keeps them so. -/
theorem packages_tracked_iff (mem : Nat → Bool) (cs : List Cmd) (hcs : ∀ c ∈ cs, Name c.pkg) :
    (∀ pre c, pre ++ [c] <+: cs → (run_command (run mem pre) c.line c.mem).map Prod.snd = some c.report) ∧
    ((∀ pre, pre <+: cs → Tracks pre (run mem pre)) ↔ ∀ pre c, pre ++ [c] <+: cs → Keeps (run mem pre) c) := by
  constructor
  · intro pre c hpre
    have hc : Name c.pkg := hcs c (hpre.subset (by simp))
    exact reports_success _ hc
  · refine prefixes_iff ?_ fun pre c hpre ht => ?_
    · rw [run, List.foldl_nil]
      exact tracks_init mem
    · exact tracks_step (fun c' hc' => hcs c' (hpre.subset hc')) ht

def vim : List UInt8 := str "vim"

theorem name_vim : Name vim := by
  refine ⟨by decide +kernel, by decide +kernel, by decide +kernel, ?_, by decide +kernel⟩
  unfold Dots
  decide +kernel

theorem packages_tracked_iff_vim :
    Tracks [.install vim (true, true)] (run (fun _ => true) [.install vim (true, true)]) := by
  have hname : ∀ c ∈ [Cmd.install vim (true, true)], Name c.pkg := by
    intro c hc
    rw [List.mem_singleton.1 hc]
    exact name_vim
  refine (packages_tracked_iff (fun _ => true) _ hname).2.2 (fun pre c hpre => ?_) _ List.prefix_rfl
  obtain ⟨rfl, rfl⟩ : pre = [] ∧ c = .install vim (true, true) := by
    obtain ⟨l, hl⟩ := hpre
    cases pre with
    | nil =>
      cases hl
      exact ⟨rfl, rfl⟩
    | cons d pre =>
      have hlen := congrArg List.length hl
      simp at hlen
  unfold Keeps
  decide +kernel

/-- Two installs leave two lines. -/
theorem second_install_doubles_line : ¬ ∀ (mem : Nat → Bool) (cs : List Cmd), (∀ c ∈ cs, Name c.pkg) →
    ∀ pre, pre <+: cs → Tracks pre (run mem pre) := by
  intro h
  have htwice := h (fun _ => true) [.install vim (true, true), .install vim (true, true)] ?_ _ List.prefix_rfl vim name_vim
  · have hlines : linesFor vim (dbText (run (fun _ => true) [.install vim (true, true), .install vim (true, true)])) = 2 := by
      decide +kernel
    rw [hlines] at htwice
    exact absurd htwice.1 (by decide +kernel)
  · intro c hc
    simp only [List.mem_cons, List.not_mem_nil, or_false, or_self] at hc
    rw [hc]
    exact name_vim

end H3OS.Terminal
