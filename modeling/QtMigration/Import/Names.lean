import QtMigration.Line.Kind

/-!
# Import/Names — one name in an import statement

`replaceName` and `removeName` change one imported name wherever it stands between separators: behind a comma
or a blank, and before a comma, a line end or a row continuation.
-/

namespace QtMigration

/-- What may stand before and behind an imported name, and what is left when the name is removed. -/
def nameBorders : List (Text × Text × Text) :=
  [(",", ",", ","), (", ", ",", ","), (",", "\n", "\n"), (", ", "\n", "\n"), (",", "\\", "\\"),
   (",", " \\", " \\"), (", ", "\\", "\\"), (", ", " \\", " \\"), (" ", ", ", " "), (" ", ",", " "),
   (" ", "\n", "\n"), (" ", "\\", "\\"), (" ", " \\", " \\")]

/-- The rules that put `new` in place of `old`. -/
def renameRules (old new : Text) : List (Text × Text) :=
  nameBorders.map fun b => (b.1 ++ old ++ b.2.1, b.1 ++ new ++ b.2.1)

def removeRules (old : Text) : List (Text × Text) :=
  nameBorders.map fun b => (b.1 ++ old ++ b.2.1, b.2.2)

/-- The rows of a text that are not empty, each with a line end. -/
def dropEmptyRows (s : Text) : Text :=
  Text.join "\n" (s.rows.filter fun row => !row.trim.isEmpty) ++ "\n"

/-- **An import statement with the name `old` replaced by `new`.** -/
def replaceName (line old new : Text) : Text :=
  dropEmptyRows (line.replaceEach (renameRules old new))

/-- **An import statement without the name `old`.** -/
def removeName (line old : Text) : Text := dropEmptyRows (line.replaceEach (removeRules old))

end QtMigration
