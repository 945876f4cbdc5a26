import QtMigration.FileTree.Path
import QtMigration.Signal.Signature

/-!
# CommandLine/Destination — the names that a run chooses itself

Converted files and the log are named after the library that the converted sources use.
-/

namespace QtMigration

namespace Target

/-- The name of the library that the converted sources use. -/
def libraryName : Target → Text
  | .new => "PyQt5"
  | .old => "PyQt4"

def logName : Target → Text
  | .new => "pyqt4_to_pyqt5.log"
  | .old => "pyqt4_to_pyqt4.log"

/-- The directory for the copies of the directory at `path`. -/
def directoryFor (target : Target) (path : Text) : Text := path ++ "_" ++ target.libraryName

/-- The directory for the copies of listed files. -/
def listingDirectory (target : Target) : Text := "__" ++ target.libraryName ++ "__"

/-- The file for the converted source at `path`. -/
def fileFor (target : Target) (path : Text) : Text :=
  Path.stem path ++ "_" ++ target.libraryName ++ Path.extension path

end Target

end QtMigration
