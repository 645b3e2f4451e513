import DelayLine.Text.Basic

/-!
# File trees

A file tree holds directories and files under their paths, and the directory in which relative paths
start. Main statement: `find?_put`, what is found after an entry was replaced or added.
-/

namespace DelayLine

abbrev Path := List Text

inductive Entry where
  | directory
  | file (content : Bytes)
deriving DecidableEq, Repr

inductive FileFault where
  | invalidPath
  | nameTooLong
  | notFound
  | isDirectory
  | notADirectory
deriving DecidableEq, Repr

/-- Why a file cannot be read. A directory can be opened, but has no first line. -/
inductive ReadFault where
  | unopened (cause : FileFault)
  | directory
deriving DecidableEq, Repr

/-- The entries of a tree, of which a later one for the same path has no effect, and the directory
in which relative paths start. -/
structure FileTree where
  entries : List (Path × Entry) := []
  home : Path := []
deriving DecidableEq, Repr

namespace FileTree

/-- What a path leads to. The root is a directory. -/
def find? (t : FileTree) (path : Path) : Option Entry :=
  if path = [] then some .directory else t.entries.lookup path

def file? (t : FileTree) (path : Path) : Option Bytes :=
  match t.find? path with
  | some (.file content) => some content
  | _ => none

def put (t : FileTree) (path : Path) (e : Entry) : FileTree :=
  { t with entries := (path, e) :: t.entries.filter (·.1 ≠ path) }

/-- The tree with a directory and all those above it. -/
def addDirectory (t : FileTree) (path : Path) : FileTree :=
  (List.range path.length).foldl (fun t i => t.put (path.take (i + 1)) .directory) t

def files (t : FileTree) : List (Path × Bytes) :=
  t.entries.filterMap fun (path, e) =>
    match e with
    | .directory => none
    | .file content => some (path, content)

theorem find?_put {t : FileTree} {path : Path} (h : path ≠ []) (e : Entry) (p : Path) :
    (t.put path e).find? p = if p = path then some e else t.find? p := by
  unfold find? put
  split
  · next hp => rw [if_neg (hp ▸ h.symm)]
  · rw [List.lookup_cons]
    split
    · next hb => rw [if_pos (eq_of_beq hb)]
    · next hb =>
      have hne : p ≠ path := by simpa using hb
      rw [if_neg hne]
      induction t.entries with
      | nil => rfl
      | cons x xs ih =>
        obtain ⟨q, f⟩ := x
        rw [List.filter_cons]
        split
        · rw [List.lookup_cons, List.lookup_cons, ih]
        · next hq =>
          have hq : q = path := by simpa using hq
          rw [ih, List.lookup_cons, hq, beq_eq_false_iff_ne.2 hne]

def nameLimit : Nat := 255

def pathLimit : Nat := 4095

def names (path : Text) : List Text := path.splitOn '/'

/-- Accepts a path that can be followed. A null character is in no path. -/
def check (path : Text) : Except FileFault Unit :=
  if '\x00' ∈ path then throw .invalidPath
  else if path = [] then throw .notFound
  else if pathLimit < (Text.encode path).length then throw .nameTooLong
  else pure ()

/-- The directory in which a path starts: the root, if a slash comes first. -/
def start (t : FileTree) (path : Text) : Path := if path.head? = some '/' then [] else t.home

/-- Follows names from a directory. An empty name and a single dot stay, two dots go up, from the
root to the root. -/
def follow (t : FileTree) : Path → List Text → Except FileFault Path
  | base, [] => pure base
  | base, name :: rest =>
    if name = [] ∨ name = ['.'] then t.follow base rest
    else if name = ['.', '.'] then t.follow base.dropLast rest
    else if nameLimit < (Text.encode name).length then throw .nameTooLong
    else
      match t.find? (base ++ [name]) with
      | none => throw .notFound
      | some .directory => t.follow (base ++ [name]) rest
      | some (.file _) => if rest = [] then pure (base ++ [name]) else throw .notADirectory

def openEntry (t : FileTree) (path : Text) : Except FileFault Entry := do
  check path
  let place ← t.follow (t.start path) (names path)
  (t.find? place).elim (throw .notFound) pure

def read (t : FileTree) (path : Text) : Except ReadFault Bytes :=
  match t.openEntry path with
  | .error cause => .error (.unopened cause)
  | .ok .directory => .error .directory
  | .ok (.file content) => .ok content

/-- The place of the file that a path names, whether it exists or not. -/
def placeOf (t : FileTree) (path : Text) : Except FileFault Path := do
  let names := names path
  let name := names.getLastD []
  check path
  let base ← t.follow (t.start path) names.dropLast
  match t.find? base with
  | some (.file _) => throw .notADirectory
  | _ =>
    if name = [] ∨ name = ['.'] ∨ name = ['.', '.'] then throw .isDirectory
    else if nameLimit < (Text.encode name).length then throw .nameTooLong
    else if t.find? (base ++ [name]) = some .directory then throw .isDirectory
    else pure (base ++ [name])

/-- Writes a file, which is created if it does not exist. -/
def create (t : FileTree) (path : Text) (content : Bytes) : Except FileFault FileTree := do
  let place ← t.placeOf path
  return t.put place (.file content)

end FileTree

end DelayLine
