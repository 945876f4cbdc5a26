import QtMigration.CommandLine.Options
import QtMigration.CommandLine.Paths

/-!
# CommandLine/Comparison — where the comparisons of old and new files are written
-/

namespace QtMigration

/-- Where comparisons are written. -/
inductive ComparisonPlace
  /-- Nowhere. -/
  | nowhere
  /-- Each beside the converted file. -/
  | beside
  /-- All in one file. -/
  | inFile (path : Text)
  deriving DecidableEq, Repr

/-- The name that stands for one comparison beside each converted file. -/
def besideName : Text := "destfile"

def ComparisonPlace.ofName (name : Text) : ComparisonPlace :=
  if name == besideName then .beside else .inFile name

namespace Job

/-- The place with the name given by the user. -/
def namedPlace (name inDirectory : Text) : Job ComparisonPlace := do
  if (← tree).hasDirectory name then
    match ← checkWritable name with
    | some _ => return .inFile (Path.join name inDirectory)
    | none =>
      print ("Dir `" ++ name ++ "` is read only\n")
      return .nowhere
  else return .ofName name

/-- The place for the comparison of one file that is converted to `dest`. -/
def placeForOne (o : Options) (dest : Text) : Job ComparisonPlace :=
  match o.diff with
  | none => return .nowhere
  | some name =>
    if name == Options.unnamedDiff then return .beside
    else namedPlace name (Path.stem (Path.baseName dest) ++ ".diff")

/-- The name of the file with the comparisons of several files. -/
def comparisonsName : Text := "DIFFs.diff"

/-- The place for the comparisons of several files that are converted in the directory `dest`. -/
def placeForSeveral (o : Options) (dest : Text) : Job ComparisonPlace :=
  if o.diffEach then return .beside
  else match o.diff with
    | none => return .nowhere
    | some name =>
      if name == Options.unnamedDiff then return .inFile (Path.join dest comparisonsName)
      else namedPlace name comparisonsName

/-- Write the comparison of `source` with `dest` to the end of a file. -/
def appendComparison (path source dest : Text) : Job Unit := do
  edit fun t => t.append path []
  edit fun t => t.append path (encodeUtf8 (t.comparison source dest))

/-- **Write the comparison for a converted file.** -/
def compare (place : ComparisonPlace) (logPath : Option Text) (dest : Text) (source : Option Text) :
    Job Unit := do
  let path ← match place with
    | .nowhere => return ()
    | .beside =>
      log logPath ("Write diff file: `" ++ besideName ++ "`")
      pure (Path.stem dest ++ ".diff")
    | .inFile path => pure path
  let source ← match source with
    | some s => pure s
    | none => sourceOf dest
  appendComparison path source dest

end Job

end QtMigration
