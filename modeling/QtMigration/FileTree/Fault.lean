import QtMigration.Text.Quoted

/-!
# FileTree/Fault — why an operation on a file fails
-/

namespace QtMigration

/-- What is wrong with a path. -/
inductive FileFaultKind
  | missing
  | alreadyThere
  | notADirectory
  | isADirectory
  | tooManyLinks
  deriving DecidableEq, Repr

/-- An operation failed on this path. -/
structure FileFault where
  kind : FileFaultKind
  path : Text
  deriving DecidableEq, Repr

namespace FileFaultKind

/-- The number under which the system reports the fault. -/
def code : FileFaultKind → Nat
  | missing => 2
  | alreadyThere => 17
  | notADirectory => 20
  | isADirectory => 21
  | tooManyLinks => 40

def message : FileFaultKind → Text
  | missing => "No such file or directory"
  | alreadyThere => "File exists"
  | notADirectory => "Not a directory"
  | isADirectory => "Is a directory"
  | tooManyLinks => "Too many levels of symbolic links"

end FileFaultKind

namespace FileFault

def message (f : FileFault) : Text :=
  "[Errno " ++ Text.ofNat f.kind.code ++ "] " ++ f.kind.message ++ ": " ++ Text.quoted f.path

end FileFault

end QtMigration
