import QtMigration.Failure
import QtMigration.FileTree.Basic

/-!
# FileTree/Access — reading and changing files

Each operation answers the tree after it, or the fault that kept it from being done.
-/

namespace QtMigration

namespace FileTree

/-- **The content of a file.** -/
def read (t : FileTree) (path : Text) : Except FileFault Bytes :=
  match t.stat path with
  | .ok (.file bytes _) => .ok bytes
  | .ok .directory => .error ⟨.isADirectory, path⟩
  | .ok _ => .ok []
  | .error f => .error f

def placeToWrite (t : FileTree) (path : Text) : Except FileFaultKind (Location × Option Node) :=
  let bare := path.trimRightOf "/"
  if path.endsWith "/" && !bare.isEmpty then
    match t.locate false bare with
    | .ok _ => .error .isADirectory
    | .error kind => .error kind
  else
    match t.locate true path with
    | .ok (_, some .directory) => .error .isADirectory
    | r => r

/-- The tree after a file got the content that `f` makes of its former one. -/
def update (t : FileTree) (path : Text) (f : Bytes → Bytes) : Except FileFault FileTree :=
  match t.placeToWrite path with
  | .error kind => .error ⟨kind, path⟩
  | .ok (p, none) => .ok (t.put p (.file (f []) false))
  | .ok (p, some (.file old executable)) => .ok (t.put p (.file (f old) executable))
  | .ok (_, some _) => .ok t

/-- **The tree after a file was written.** -/
def write (t : FileTree) (path : Text) (bytes : Bytes) : Except FileFault FileTree :=
  t.update path fun _ => bytes

/-- The tree after bytes were written at the end of a file. -/
def append (t : FileTree) (path : Text) (bytes : Bytes) : Except FileFault FileTree :=
  t.update path fun old => old ++ bytes

/-- The path leads to an executable file. -/
def isExecutable (t : FileTree) (path : Text) : Bool :=
  match t.stat path with
  | .ok (.file _ executable) => executable
  | _ => false

/-- The tree after a file was made executable or not. -/
def setExecutable (t : FileTree) (path : Text) (executable : Bool) : Except FileFault FileTree :=
  match t.locate true path with
  | .error kind => .error ⟨kind, path⟩
  | .ok (_, none) => .error ⟨.missing, path⟩
  | .ok (p, some (.file bytes _)) => .ok (t.put p (.file bytes executable))
  | .ok (_, some _) => .ok t

/-! ## Directories -/

/-- The path without the slashes it ends in. -/
def withoutSlash (path : Text) : Text :=
  if path.all (· == '/') then path else path.trimRightOf "/"

/-- The tree after a directory was made. -/
def makeDirectory (t : FileTree) (path : Text) : Except FileFault FileTree :=
  match t.locate false (withoutSlash path) with
  | .error kind => .error ⟨kind, path⟩
  | .ok (_, some _) => .error ⟨.alreadyThere, path⟩
  | .ok (p, none) => .ok (t.put p .directory)

/-- A directory was to be made: the tree after it, and the fault if it could not be. -/
abbrev Made := FileTree × Option FileFault

/-- One directory is made, if nothing stood in the way before. -/
def alsoMake (path : Text) (t : FileTree) : Made :=
  match t.makeDirectory path with
  | .ok t' => (t', none)
  | .error f => (t, some f)

/-- Walk of `makeDirectories`, which goes up at most `height` directories. -/
def makeDirectoriesGo : Nat → FileTree → Text → Made
  | 0, t, path => alsoMake path t
  | height + 1, t, path =>
    let bare := if (Path.baseName path).isEmpty then Path.parent path else path
    let head := Path.parent bare
    let name := Path.baseName bare
    if head.isEmpty || name.isEmpty || t.has head then alsoMake path t
    else
      match makeDirectoriesGo height t head with
      | (t', some ⟨.missing, p⟩) => (t', some ⟨.missing, p⟩)
      | (t', some ⟨.notADirectory, p⟩) => (t', some ⟨.notADirectory, p⟩)
      | (t', some ⟨.tooManyLinks, p⟩) => (t', some ⟨.tooManyLinks, p⟩)
      | (t', _) => if name == "." then (t', none) else alsoMake path t'

/-- **The tree after a directory was made**, with the directories above it that were missing. -/
def makeDirectories (t : FileTree) (path : Text) : Made := makeDirectoriesGo path.length t path

/-! ## Copies -/

/-- Two paths that lead to the same thing. -/
def same (t : FileTree) (a b : Text) : Bool :=
  match t.locate true a, t.locate true b with
  | .ok (p, some _), .ok (q, some _) => p == q
  | _, _ => false

/-- **The tree after a file was copied** to a path, or into the directory a path leads to. -/
def copy (t : FileTree) (source dest : Text) : Except Failure FileTree :=
  let copyPath := if t.hasDirectory dest then Path.join dest (Path.baseName source) else dest
  if t.same source copyPath then .error (.sameFile source copyPath)
  else
    match t.read source with
    | .error f => .error (.file f)
    | .ok bytes =>
      match (t.write copyPath bytes).bind fun t' => t'.setExecutable copyPath (t.isExecutable source) with
      | .error f => .error (.file f)
      | .ok t' => .ok t'

end FileTree

end QtMigration
