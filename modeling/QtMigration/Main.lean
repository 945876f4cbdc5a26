import QtMigration.CommandLine.Clock
import QtMigration.CommandLine.Reach
import QtMigration.CommandLine.Run

/-!
# Main — the program

The part of the disk that a run may look at is taken into a `FileTree`, `runCommand` works on the tree, and
what has changed in the tree is written to the disk.
-/

namespace QtMigration

/-! ## From the disk -/

/-- What has been taken from the disk: the tree, and the directories that were taken whole. -/
structure Intaken where
  tree : FileTree
  whole : List Location

/-- A step of taking things from the disk. -/
abbrev Taking := StateT Intaken IO

def pathOf (place : Location) : String := String.ofList ("/" ++ Text.join "/" place)

/-- The place of a path that leads through no link. -/
def placeOf (path : String) : Location := Path.parts path.toList

/-- What stands at a place of the disk, a link not followed. -/
def kindAt (place : Location) : IO (Option IO.FS.FileType) := do
  try return some (← ((← IO.currentDir) / pathOf place).symlinkMetadata).type
  catch _ => return none

/-- The place to which a path leads in the end. -/
def realPlace (path : String) : IO (Option Location) := do
  try return some (placeOf (← IO.FS.realPath path).toString)
  catch _ => return none

def namesOnDisk (place : Location) : IO (List Text) := do
  let entries ← ((← IO.currentDir) / pathOf place).readDir
  return entries.toList.map fun e => e.fileName.toList

/-- The target of a link that leads nowhere: no name has this character. -/
def deadTarget : Text := "/\x00"

def takeNode (place : Location) (node : Node) : Taking Unit :=
  modify fun s => { s with tree := s.tree.put place node }

def takeFile (place : Location) : Taking Unit := do
  let bytes := (← IO.FS.readBinFile (pathOf place)).toList
  takeNode place (.file bytes (bytes.take 2 == [0x23, 0x21]))

mutual

/-- Take what stands at a place whose directory is taken; if `whole`, with all that is below it. -/
partial def takePlace (whole : Bool) (place : Location) : Taking Unit := do
  match ← kindAt place with
  | none => return ()
  | some .dir =>
    takeNode place .directory
    if whole && !(← get).whole.contains place then
      modify fun s => { s with whole := place :: s.whole }
      (← namesOnDisk place).forM fun name => takePlace true (place ++ [name])
  | some .file => if ((← get).tree.node? place).isNone then takeFile place
  | some .symlink =>
    match ← realPlace (pathOf place) with
    | none => takeNode place (.link deadTarget)
    | some target =>
      takeNode place (.link (pathOf target).toList)
      takeParts whole [] target
  | some .other => takeNode place .device

/-- Take what a path leads to, and all that it leads through. -/
partial def takeParts (whole : Bool) (dir : Location) : List Text → Taking Unit
  | [] => return ()
  | part :: rest => do
    if part == "." then takeParts whole dir rest
    else if part == ".." then takeParts whole dir.dropLast rest
    else
      takePlace (whole && rest.isEmpty) (dir ++ [part])
      match ← realPlace (pathOf (dir ++ [part])) with
      | some next => takeParts whole next rest
      | none => return ()

end

def takePath (whole : Bool) (path : Text) : Taking Unit := do
  let here := (← get).tree.here
  takeParts whole (FileTree.origin here path) (Path.parts path)

/-- Take what a run with these options may look at. -/
def takeReach (o : Options) : Taking Unit := do
  takePath false ['.']
  let path := (← get).tree.fullPath o.path
  let reach := o.reach path
  reach.whole.forM (takePath true)
  reach.single.forM (takePath false)
  match isSource (← get).tree path, (← get).tree.read path with
  | .ok false, .ok bytes =>
    match Listing.ofBytes bytes with
    | .ok listing => listing.files.forM (takePath false)
    | .error _ => return ()
  | _, _ => return ()

/-- The part of the disk that a command line may look at. -/
def treeFor (args : List Text) : IO FileTree := do
  let here := placeOf (← IO.FS.realPath (← IO.currentDir)).toString
  let empty : Intaken := ⟨⟨[], here⟩, []⟩
  match parseOptions args with
  | .ok (some o) => return (← (takeParts false [] here *> takeReach o).run empty).2.tree
  | _ => return empty.tree

/-! ## To the disk -/

/-- The rights of a file: everyone may read it, and its owner may write it. -/
def rights (executable : Bool) : IO.FileRight :=
  ⟨⟨true, true, executable⟩, ⟨true, false, executable⟩, ⟨true, false, executable⟩⟩

/-- Write a file that was not there, or had another content or other rights. -/
def writeFile (before : Option Node) (place : Location) (bytes : Bytes) (executable : Bool) :
    IO Unit := do
  IO.FS.writeBinFile (pathOf place) ⟨bytes.toArray⟩
  let wasExecutable := match before with
    | some (.file _ was) => was
    | _ => false
  if executable != wasExecutable then IO.setAccessRights (pathOf place) (rights executable)

/-- Write to the disk what is new or different in the tree `after`. -/
def writeChanges (before after : FileTree) : IO Unit :=
  after.entries.forM fun (place, node) => do
    let old := before.node? place
    if old == some node then return ()
    match node with
    | .directory => IO.FS.createDir (pathOf place)
    | .file bytes executable => writeFile old place bytes executable
    | _ => return ()

/-! ## The run -/

/-- The present date: the time at which a new file was written. -/
def dateNow : IO Text :=
  IO.FS.withTempFile fun _ path => do return dateText (← path.metadata).modified.sec.toNat

/-- Say how a run ended; the answer is its exit code. -/
def reportEnding : Ending → IO UInt32
  | .done => return 0
  | .misused fault => do
    IO.eprint (String.ofList (usageText ++ programName ++ ": error: " ++ fault.message ++ "\n"))
    return 2
  | .failed failure => do
    IO.eprint (String.ofList (programName ++ ": " ++ failure.message ++ "\n"))
    return 1

end QtMigration

open QtMigration in
/-- **Convert what the command line names.** -/
def main (args : List String) : IO UInt32 := do
  let args := args.map String.toList
  let tree ← treeFor args
  let result := runCommand (← dateNow) args tree
  IO.print (String.ofList result.printed)
  writeChanges tree result.tree
  reportEnding result.ending
