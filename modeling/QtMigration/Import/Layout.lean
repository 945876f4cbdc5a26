import QtMigration.Failure
import QtMigration.Line.Kind

/-!
# Import/Layout — an import statement on rows of at most eighty characters

A statement that is too long is set in parentheses: as many names as fit go on the first row, the rest
on rows that are aligned with the opening parenthesis.
-/

namespace QtMigration

/-- The longest row of an import statement. -/
def rowWidth : Nat := 80

def alignment (unit : Text) (column : Nat) : Except Failure Text :=
  if unit == " " then .ok (List.replicate column ' ') else .error .noAlignment

/-- The two sides of the one `import` in a statement. -/
def importSides (line : Text) : Except Failure (Text × Text) :=
  match line.splitOn "import " with
  | [head, names] => .ok (head, names)
  | parts => .error (if parts.length < 2 then .tooFewParts parts.length else .tooManyParts)

/-- Names filled into rows: `row` is the present one, and every name brings its comma. -/
def fillRows (indent : Text) : Text → List Text → Text
  | row, [] => row
  | row, name :: names =>
    let item := name.trimRight ++ ","
    if row.length + item.length ≤ rowWidth then fillRows indent (row ++ item) names
    else row ++ "\n" ++ fillRows indent (indent ++ item) names

/-- **An import statement on one row or on several.** -/
def layoutImport (unit line : Text) : Except Failure Text :=
  if line.length ≤ rowWidth then .ok (line ++ "\n")
  else do
    let (head, names) ← importSides line
    let first := head ++ "import ("
    let indent ← alignment unit (first.length - 1)
    let filled := fillRows indent first (names.trimLeft.splitOn ",")
    return filled.dropEnd 1 ++ ")\n"

end QtMigration
