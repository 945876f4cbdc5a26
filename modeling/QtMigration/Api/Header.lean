import QtMigration.Failure
import QtMigration.Line.Kind

/-!
# Api/Header — the sections of table headers

The methods of header views name sections now. They are renamed behind the headers of a table and behind the
names that such a header was assigned to.
-/

namespace QtMigration

/-- The old names of the methods and their present ones. -/
def headerMethods : List (Text × Text) :=
  [(".setMovable", ".setSectionsMovable"), (".isMovable", ".sectionsMovable"),
   (".setClickable", ".setSectionsClickable"), (".isClickable", ".sectionsClickable"),
   (".setResizeMode", ".setSectionResizeMode"), (".resizeMode", ".sectionResizeMode")]

/-- The name to which a line assigns a header. -/
def headerName? (line : Text) : Option Text :=
  if line.hasAny [".horizontalHeader()", ".verticalHeader()"] then
    match line.splitOn "=" with
    | [target, _] => some target.trim
    | _ => none
  else none

def tableHeaders : List Text := ["horizontalHeader()", "verticalHeader()"]

def headers (lines : List Text) : List Text := tableHeaders ++ lines.filterMap headerName?

def headerLine (known : List Text) (old new line : Text) : Except Failure Text :=
  if line.has old then
    match line.splitOn old with
    | [before, _] => .ok (if before.endsWithAny known then line.replaceAll old new else line)
    | parts => .error (if parts.length < 2 then .tooFewParts parts.length else .tooManyParts)
  else .ok line

/-- The methods renamed one after the other. -/
def headersGo (known : List Text) : List (Text × Text) → List Text → Except Failure (List Text)
  | [], lines => .ok lines
  | (old, new) :: methods, lines => do
    let lines' ← lines.mapM (headerLine known old new)
    headersGo known methods lines'

/-- **Sections of table headers.** -/
def updateHeaders (lines : List Text) : Except Failure (List Text) :=
  headersGo (headers lines) headerMethods lines

end QtMigration
