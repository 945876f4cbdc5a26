import QtMigration.Encoding.Codec
import QtMigration.FileTree.Fault
import QtMigration.FileTree.Path
import QtMigration.Text.Order

/-!
# FileTree/Basic — a tree of files, directories and links

A place in the tree is the list of names that lead to it from the root, without links and without `.` and
`..`; the tree says what stands at a place.
-/

namespace QtMigration

/-- The names that lead to a place from the root. -/
abbrev Location := List Text

/-- What stands at a place. -/
inductive Node
  | directory
  | file (bytes : Bytes) (executable : Bool)
  | link (target : Text)
  | device
  deriving DecidableEq, Repr

/-- **A file tree** and the directory in it from which relative paths start. -/
structure FileTree where
  entries : List (Location × Node)
  here : Location
  deriving DecidableEq, Repr

namespace FileTree

def node? (t : FileTree) (p : Location) : Option Node :=
  if p.isEmpty then some .directory else t.entries.lookup p

/-- The entries with `n` at `p`, in place of what stood there. -/
def putEntry (p : Location) (n : Node) : List (Location × Node) → List (Location × Node)
  | [] => [(p, n)]
  | e :: es => if e.1 == p then (p, n) :: es else e :: putEntry p n es

def put (t : FileTree) (p : Location) (n : Node) : FileTree :=
  { t with entries := putEntry p n t.entries }

/-- The name of a place in the directory `dir`, if it is in it. -/
def nameIn? (dir p : Location) : Option Text :=
  if p.dropLast == dir then p.getLast? else none

/-- **The names in a directory**, sorted. -/
def names (t : FileTree) (dir : Location) : List Text :=
  Text.sort (t.entries.filterMap fun e => nameIn? dir e.1)

def herePath (t : FileTree) : Text := "/" ++ Text.join "/" t.here

/-! ## Following a path -/

/-- How far a path could be followed. -/
inductive Trail
  /-- To something at this place. -/
  | reached (place : Location)
  /-- To a directory that has no such name; it is the last part of the path. -/
  | vacant (dir : Location) (name : Text)
  /-- No further. -/
  | broken (kind : FileFaultKind)
  /-- To a link in this directory, with these parts left to follow. -/
  | link (dir : Location) (target : Text) (rest : List Text)

/-- Follow parts from the directory at `dir` up to the first link. -/
def advance (t : FileTree) (follow : Bool) : Location → List Text → Trail
  | dir, [] => .reached dir
  | dir, part :: rest =>
    if part == "." then advance t follow dir rest
    else if part == ".." then advance t follow dir.dropLast rest
    else match t.node? (dir ++ [part]) with
      | none => if rest.isEmpty then .vacant dir part else .broken .missing
      | some .directory => advance t follow (dir ++ [part]) rest
      | some (.link target) =>
        if rest.isEmpty && !follow then .reached (dir ++ [part]) else .link dir target rest
      | some _ => if rest.isEmpty then .reached (dir ++ [part]) else .broken .notADirectory

/-- The directory from which a path is followed. -/
def origin (dir : Location) (path : Text) : Location := if Path.isAbsolute path then [] else dir

/-- Follow parts through at most `links` links. -/
def travel (t : FileTree) (follow : Bool) : Nat → Location → List Text → Trail
  | 0, dir, parts =>
    match t.advance follow dir parts with
    | .link .. => .broken .tooManyLinks
    | trail => trail
  | links + 1, dir, parts =>
    match t.advance follow dir parts with
    | .link dir' target rest =>
      travel t follow links (origin dir' target) (Path.parts target ++ rest)
    | trail => trail

/-- The number of links a path may lead through. -/
def maxLinks : Nat := 40

/-- **The place a path leads to, and what stands there.** -/
def locate (t : FileTree) (follow : Bool) (path : Text) :
    Except FileFaultKind (Location × Option Node) :=
  if path.isEmpty then .error .missing
  else match t.travel follow maxLinks (origin t.here path) (Path.parts path) with
    | .reached p => .ok (p, t.node? p)
    | .vacant dir name => .ok (dir ++ [name], none)
    | .broken kind => .error kind
    | .link .. => .error .tooManyLinks

def stat (t : FileTree) (path : Text) : Except FileFault Node :=
  match t.locate true path with
  | .ok (_, some n) => .ok n
  | .ok (_, none) => .error ⟨.missing, path⟩
  | .error kind => .error ⟨kind, path⟩

def has (t : FileTree) (path : Text) : Bool := (t.stat path).toOption.isSome

def hasDirectory (t : FileTree) (path : Text) : Bool := (t.stat path).toOption == some .directory

def hasFile (t : FileTree) (path : Text) : Bool :=
  match t.stat path with
  | .ok (.file ..) => true
  | _ => false

def hasLink (t : FileTree) (path : Text) : Bool :=
  match t.locate false path with
  | .ok (_, some (.link _)) => true
  | _ => false

/-- The names in the directory a path leads to. -/
def namesAt (t : FileTree) (path : Text) : Option (List Text) :=
  match t.locate true path with
  | .ok (p, some .directory) => some (t.names p)
  | _ => none

end FileTree

end QtMigration
