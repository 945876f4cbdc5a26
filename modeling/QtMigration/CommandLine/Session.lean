import QtMigration.Conversion
import QtMigration.FileTree.Difference
import QtMigration.Source.Kind

/-!
# CommandLine/Session — what a run does to a file tree and what it prints

A run works on a `Session`: the tree as it is now, what has been printed, and which file was copied from
which.
-/

namespace QtMigration

/-- Why a run ends early. -/
inductive Stop
  /-- What had to be said is printed. -/
  | leave
  /-- Something failed. -/
  | fail (failure : Failure)
  deriving DecidableEq, Repr

/-- **The state of a run.** -/
structure Session where
  tree : FileTree
  printed : Text
  copies : List (Text × Text)

abbrev Job (α : Type) := ExceptT Stop (StateM Session) α

namespace Job

def tree : Job FileTree := return (← get).tree

def print (s : Text) : Job Unit := modify fun c => { c with printed := c.printed ++ s }

def fail {α : Type} (f : Failure) : Job α := throw (.fail f)

def leaveWith {α : Type} (s : Text) : Job α := do
  print s
  throw .leave

/-- The answer of something that can fail. -/
def ofExcept {α : Type} : Except Failure α → Job α
  | .ok a => return a
  | .error f => fail f

def setTree (t : FileTree) : Job Unit := modify fun c => { c with tree := t }

def edit (f : FileTree → Except FileFault FileTree) : Job Unit := do
  match f (← tree) with
  | .ok t => setTree t
  | .error e => fail (.file e)

/-- Copy a file, and note under `copy` where it came from. -/
def copyFile (source dest copy : Text) : Job Unit := do
  setTree (← ofExcept ((← tree).copy source dest))
  modify fun c => { c with copies := (copy, source) :: c.copies }

/-- The file from which a copy was made. -/
def sourceOf (copy : Text) : Job Text := do
  match (← get).copies.lookup copy with
  | some source => return source
  | none => fail (.unknownName copy)

/-- Write a message to the log, if there is one. -/
def log (logPath : Option Text) (message : Text) : Job Unit :=
  match logPath with
  | none => return ()
  | some path => edit fun t => t.append path (encodeUtf8 (message ++ "\n"))

/-! ## Conversions -/

/-- Do what a conversion of `source` to `dest` does. -/
def play (logPath : Option Text) (source dest : Text) : Event → Job Unit
  | .say message => do
    print (message ++ "\n")
    log logPath message
  | .print text => print text
  | .save bytes => do
    edit fun t => t.write dest bytes
    edit fun t => t.setExecutable dest (t.isExecutable source)

/-- **Convert a file.** -/
def convert (target : Target) (logPath : Option Text) (source dest : Text) : Job Unit := do
  play logPath source dest (announce source)
  let c := convertContent target source ((← tree).read source)
  c.events.forM (play logPath source dest)
  match c.failure with
  | some f => fail f
  | none => return ()

/-! ## Walks -/

/-- Visit the directory at `path` and those below it, as they are when their turn comes. -/
def walk (followLinks : Bool) (visit : Text → List Text → List Text → Job (List Text)) :
    Nat → Text → Job Unit
  | 0, _ => fail .unsettled
  | depth + 1, path => do
    let t ← tree
    match t.namesAt path with
    | none => return ()
    | some names =>
      let isDirectory := fun name => t.hasDirectory (Path.join path name)
      let below ← visit path (names.filter isDirectory) (names.filter fun name => !isDirectory name)
      below.forM fun name => do
        let inner := Path.join path name
        if followLinks || !(← tree).hasLink inner then walk followLinks visit depth inner

/-- More directories than a path without a circle leads through. -/
def walkDepth (t : FileTree) : Nat := (FileTree.maxLinks + 1) * (t.entries.length + 1)

end Job

end QtMigration
