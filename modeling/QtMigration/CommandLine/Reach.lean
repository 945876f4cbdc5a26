import QtMigration.CommandLine.Comparison
import QtMigration.CommandLine.Destination

/-!
# CommandLine/Reach — the paths that a run may look at

A run needs only a part of a file tree: what is to be converted, the places it is converted to, the log
and the comparisons.
-/

namespace QtMigration

/-- The paths that a run may look at: the ones in `whole` with all that is below them, the ones in
`single` alone. -/
structure Reach where
  whole : List Text
  single : List Text
  deriving DecidableEq, Repr

namespace Options

/-- The places to which a run may convert what is at `path`. -/
def destinations (o : Options) (path : Text) : List Text :=
  match o.output with
  | some dest => [dest]
  | none => [o.target.directoryFor path, o.target.listingDirectory, o.target.fileFor path]

/-- The files to which a run may write comparisons for what is converted to `dest`. -/
def comparisonFiles (o : Options) (dest : Text) : List Text :=
  match o.diff with
  | none => []
  | some name =>
    [Path.stem dest ++ ".diff", name, Path.join name (Path.stem (Path.baseName dest) ++ ".diff"),
      Path.join name Job.comparisonsName]

/-- **The paths that a run may look at**, but for those that a list names. -/
def reach (o : Options) (path : Text) : Reach where
  whole := path :: o.destinations path
  single := o.target.logName :: (o.destinations path).flatMap o.comparisonFiles

end Options

end QtMigration
