import QtMigration.CommandLine.Comparison
import QtMigration.CommandLine.Copying
import QtMigration.CommandLine.Destination
import QtMigration.CommandLine.Help

/-!
# CommandLine/Run — what a command line does to a file tree

The path may be a directory, a source, or a list of sources.
-/

namespace QtMigration

def logHead (target : Target) (date : Text) (args : List Text) : Text :=
  "**  " ++ target.logName ++ "  " ++ date ++ "  **\nArgs: " ++
    Text.quotedList (programName :: args) ++ "\n"

namespace Job

/-- Convert all files in a directory and below it in place. -/
def convertDirectory (o : Options) (logPath : Option Text) (place : ComparisonPlace) (dir : Text) :
    Job Unit := do
  log logPath ("Beginning into: " ++ dir ++ "\n")
  let visit := fun (path : Text) (directories files : List Text) => do
    files.forM fun f => do
      let file := Path.join path f
      convert o.target logPath file file
      compare place logPath file none
    return directories
  walk o.followLinks visit (walkDepth (← tree)) dir

/-- Convert a copy of the directory at `path`. -/
def runDirectory (o : Options) (logPath : Option Text) (path dest : Text) : Job Unit := do
  let dest := if dest == path then o.target.directoryFor path else dest
  copyDirectory o path dest
  convertDirectory o logPath (← placeForSeveral o dest) dest

/-- Convert copies of the files in the list at `path`. -/
def runListing (o : Options) (logPath : Option Text) (path dest : Text) : Job Unit := do
  let listing ← readListing path
  let dest := if dest == path then o.target.listingDirectory else dest
  copyListed dest listing.files
  convertDirectory o logPath (← placeForSeveral o dest) dest

def runSource (o : Options) (logPath : Option Text) (path dest : Text) : Job Unit := do
  let dest := if dest == path then o.target.fileFor path else dest
  let place ← placeForOne o dest
  convert o.target logPath path dest
  compare place logPath dest (some path)

def runPath (o : Options) (logPath : Option Text) (path dest : Text) : Job Unit := do
  let t ← tree
  if t.hasDirectory path then runDirectory o logPath path dest
  else if t.hasFile path then
    match isSource t path with
    | .error f => fail (.file f)
    | .ok true => runSource o logPath path dest
    | .ok false => runListing o logPath path dest
  else return ()

/-- **Do what the options ask for.** -/
def runOptions (o : Options) (date : Text) (args : List Text) : Job Unit := do
  let path ← if o.path.isEmpty then pure none else some <$> orLeave (checkExisting o.path)
  let dest ← match o.output with
    | some s => some <$> orLeave (checkWritable s)
    | none => pure path
  let logPath := if o.noLog then none else some o.target.logName
  log logPath (logHead o.target date args)
  match path, dest with
  | some path, some dest => runPath o logPath path dest
  | _, _ => fail .noPath

end Job

/-- How a run ended. -/
inductive Ending
  | done
  | misused (fault : UsageFault)
  | failed (failure : Failure)
  deriving DecidableEq, Repr

/-- The tree after a run, what it printed, and how it ended. -/
structure RunResult where
  tree : FileTree
  printed : Text
  ending : Ending

/-- The result of a job that is started on a tree. -/
def Job.resultOn (t : FileTree) (job : Job Unit) : RunResult :=
  match (ExceptT.run job).run ⟨t, [], []⟩ with
  | (.ok (), s) => ⟨s.tree, s.printed, .done⟩
  | (.error .leave, s) => ⟨s.tree, s.printed, .done⟩
  | (.error (.fail f), s) => ⟨s.tree, s.printed, .failed f⟩

/-- **What a command line does to a file tree.** -/
def runCommand (date : Text) (args : List Text) (t : FileTree) : RunResult :=
  match parseOptions args with
  | .error f => ⟨t, [], .misused f⟩
  | .ok none => ⟨t, helpText, .done⟩
  | .ok (some o) => Job.resultOn t (Job.runOptions o date args)

end QtMigration
