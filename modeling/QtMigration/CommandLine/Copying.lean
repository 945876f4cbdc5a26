import QtMigration.CommandLine.Options
import QtMigration.CommandLine.Session
import QtMigration.FileTree.Pattern

/-!
# CommandLine/Copying — copying the sources to where they are converted

A directory is copied with the directories below it, a list file by file into one directory.
-/

namespace QtMigration

namespace Job

/-- Make a directory and those above it; the fault, if there is one, is answered. -/
def makeDirectories (path : Text) : Job (Option FileFault) := do
  let (t, fault) := (← tree).makeDirectories path
  setTree t
  return fault

/-- Make the directory for the copies, or end the run. -/
def makeDestination (dest : Text) : Job Unit := do
  match ← makeDirectories dest with
  | none => return ()
  | some f => leaveWith ("Can't create the dir: `" ++ dest ++ "`\nReason: " ++ f.message ++ "\n")

def skippedDirectories : List Text := ["__pycache__", ".git"]

/-- Copy what is in one directory: make the directories that are in it, and copy the sources. -/
def copyVisit (source dest : Text) (path : Text) (directories files : List Text) :
    Job (List Text) := do
  let kept := directories.filter fun d => !skippedDirectories.contains d
  let copyPath := Text.replaceAll path source dest
  kept.forM fun d => do
    match ← makeDirectories (Path.join copyPath d) with
    | none => return ()
    | some f => fail (.file f)
  files.forM fun f => do
    let file := Path.join path f
    match isSource (← tree) file with
    | .error e => fail (.file e)
    | .ok false => return ()
    | .ok true => copyFile file (Path.join copyPath f) (Path.join copyPath f)
  return kept

/-- Copy the sources of one directory only. -/
def copyFlat (source dest : Text) : Job Unit := do
  ((← tree).matching (Path.join source "*.py")).forM fun f => copyFile f dest dest

def copyDirectory (o : Options) (source dest : Text) : Job Unit := do
  makeDestination dest
  if o.noSubdirectories then copyFlat source dest
  else walk o.followLinks (copyVisit source dest) (walkDepth (← tree)) source

/-- **Copy the files of a list** into one directory, under their own names. -/
def copyListed (dest : Text) (files : List Text) : Job Unit := do
  if !(← tree).has dest then makeDestination dest
  files.forM fun f => do
    if (← tree).hasFile f then
      let copyPath := Path.join dest (Path.baseName f)
      copyFile f copyPath copyPath
    else print ("File `" ++ f ++ "` not found, ignored\n")

/-- The paths in a list, or the end of the run if it cannot be read. -/
def readListing (path : Text) : Job Listing := do
  match (← tree).read path with
  | .ok bytes => ofExcept (Listing.ofBytes bytes)
  | .error f => leaveWith ("Can't read the file: `" ++ path ++ "`\nReason: " ++ f.message ++ "\n")

end Job

end QtMigration
