import H3OS.Terminal.Screen
import H3OS.Vfs.Model
/-!
# The package commands

The `h3pkg` branch of `run_command` in `applications/terminal/terminal.c`. A
package is a line of the database file and a marker file under
`/usr/share/packages`. The result of a command is the file system behind it
and the text it prints.
-/
open H3OS.Vfs

namespace H3OS.Terminal

def SPACE : UInt8 := 32

/-- The next word of the line, and the line behind it. -/
def next_arg (p : List UInt8) : Option (List UInt8) × List UInt8 :=
  let p := p.dropWhile (· = SPACE)
  if p = [] then (none, p) else (some (p.takeWhile (· ≠ SPACE)), (p.dropWhile (· ≠ SPACE)).tail)

def DB_PATH : List UInt8 := str "/var/lib/h3pkg/db"
def PACKAGES : List UInt8 := str "/usr/share/packages"

/-- The path of a package's marker. -/
def marker_path (pkg : List UInt8) : List UInt8 := str "/usr/share/packages/" ++ pkg

/-- A package's line in the database. -/
def entry (pkg : List UInt8) : List UInt8 := pkg ++ str " 0.1.0 installed\n"

/-- `sizeof(buf)`. -/
def BUF_SIZE : Nat := 512

/-- What `vfs_read` leaves in `buf`. -/
def read_db (s : St) (db : NodePtr) : List UInt8 := (vfs_read s (some db) (BUF_SIZE - 1)).2

/-! ## Listing and searching -/

/-- The lines of `text` that contain `pkg`, each cut to its buffer; every turn takes a byte at least. -/
def matching (pkg : List UInt8) : Nat → List UInt8 → List (List UInt8)
  | 0, _ => []
  | _, [] => []
  | fuel + 1, s =>
    let tmp := (s.takeWhile (· ≠ NEWLINE)).take 95
    (if pkg <:+: tmp then [tmp] else []) ++ matching pkg fuel (s.dropWhile (· ≠ NEWLINE)).tail

def pkg_list (s : St) (pkg : Option (List UInt8)) : List UInt8 :=
  match vfs_resolve s DB_PATH with
  | none => str "h3pkg: database missing\n"
  | some db =>
    let buf := read_db s db
    match pkg with
    | some pkg =>
      let found := matching pkg buf.length (cstr buf)
      if found = [] then str "h3pkg: no matches\n" else found.flatMap (· ++ [NEWLINE])
    | none => cstr buf ++ (if buf.getLast? = some NEWLINE then [] else [NEWLINE])

/-! ## Installing and removing -/

/-- The database with the package's line behind it, if that fits the buffer; `mem` is `kmalloc`'s answer. -/
def add_entry (s : St) (pkg : List UInt8) (mem : Bool) : St :=
  match vfs_resolve s DB_PATH with
  | none =>
    let s := (vfs_mkdir s (str "/var/lib") 0o755).2
    let s := (vfs_mkdir s (str "/var/lib/h3pkg") 0o755).2
    match vfs_create s DB_PATH 0o644 with
    | (none, s) => s
    | (some db, s) => (vfs_write s (some db) (entry pkg) mem).2
  | some db =>
    let buf := read_db s db
    if buf.length + (entry pkg).length < BUF_SIZE then (vfs_write s (some db) (cstr buf ++ entry pkg) mem).2 else s

/-- The marker. -/
def add_marker (s : St) (pkg : List UInt8) (mem : Bool) : St :=
  let s := (vfs_mkdir s PACKAGES 0o755).2
  match vfs_create s (marker_path pkg) 0o644 with
  | (none, s) => s
  | (some marker, s) => (vfs_write s (some marker) (str "h3pkg package\n") mem).2

/-- The branch of `run_command`, on the line behind `h3pkg`. -/
def h3pkg (s : St) (p : List UInt8) (mem : Bool × Bool) : St × List UInt8 :=
  let (sub, p) := next_arg p
  let (pkg, _) := next_arg p
  match sub with
  | none => (s, str "h3pkg: install|remove|update|upgrade|search|repair|list\n")
  | some sub =>
    if sub = str "list" ∨ sub = str "search" then (s, pkg_list s pkg)
    else if sub = str "install" then
      match pkg with
      | none => (s, str "h3pkg: install <name>\n")
      | some pkg => (add_marker (add_entry s pkg mem.1) pkg mem.2, str "h3pkg: installed " ++ pkg ++ [NEWLINE])
    else if sub = str "remove" then
      match pkg with
      | none => (s, str "h3pkg: remove <name>\n")
      | some pkg => ((vfs_unlink s (marker_path pkg)).2, str "h3pkg: removed " ++ pkg ++ [NEWLINE])
    else if sub = str "repair" ∨ sub = str "update" ∨ sub = str "upgrade" then
      (s, str "h3pkg: " ++ sub ++ str " — local RAMFS db OK\n")
    else (s, str "h3pkg: unknown subcommand\n")

/-- `run_command` on a line whose first word is `h3pkg`. -/
def run_command (s : St) (line : List UInt8) (mem : Bool × Bool) : Option (St × List UInt8) :=
  match next_arg line with
  | (some cmd, p) => if cmd = str "h3pkg" then some (h3pkg s p mem) else none
  | (none, _) => none

/-! ## Runs -/

inductive Cmd where
  | install (pkg : List UInt8) (mem : Bool × Bool)
  | remove (pkg : List UInt8)

def Cmd.pkg : Cmd → List UInt8
  | install pkg _ => pkg
  | remove pkg => pkg

def Cmd.line : Cmd → List UInt8
  | install pkg _ => str "h3pkg install " ++ pkg
  | remove pkg => str "h3pkg remove " ++ pkg

/-- What the command prints when it reports success. -/
def Cmd.report : Cmd → List UInt8
  | install pkg _ => str "h3pkg: installed " ++ pkg ++ [NEWLINE]
  | remove pkg => str "h3pkg: removed " ++ pkg ++ [NEWLINE]

def Cmd.mem : Cmd → Bool × Bool
  | install _ mem => mem
  | remove _ => (true, true)

def step (s : St) (c : Cmd) : St := (run_command s c.line c.mem).elim s Prod.fst

def run (mem : Nat → Bool) (cs : List Cmd) : St := cs.foldl step (vfs_init mem)

end H3OS.Terminal
