import QtMigration.Line.Kind
import QtMigration.Text.Between

/-!
# Api/Directory — filters and separators of directories

The filter that hides both dot entries is spelled as two filters, the second one behind the same class as the
first.
-/

namespace QtMigration

def dotFilter : Text := ".NoDotAndDotDot"

/-- The line with the two filters in place of the old one. -/
def splitDotFilter (line : Text) : Text :=
  match Text.between? "(" (fun rest => rest.startsWith dotFilter) line.trimLeft with
  | none => line
  | some inner =>
    line.replaceAll dotFilter (".NoDot | " ++ Text.trimLeft (inner.afterLast '|') ++ ".NoDotDot")

/-- A line with its directories adapted. -/
def directoryLine (line : Text) : Text :=
  if !line.isCode then line
  else if line.has ".convertSeparators(" then
    line.replaceAll "convertSeparators" "toNativeSeparators"
  else if line.has dotFilter then splitDotFilter line
  else line

/-- **Directory filters and separators.** -/
def updateDirectories (lines : List Text) : List Text := lines.map directoryLine

end QtMigration
