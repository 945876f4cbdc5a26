import QtMigration.Failure
import QtMigration.Line.Kind
import QtMigration.Token.Scan

/-!
# Line/Indent — the indentation of a line, read off its first token

A line whose first token opens a block is indented by that token's text; any other line is at the margin.
-/

namespace QtMigration

namespace Text

def indent (line : Text) : Except Failure Text :=
  match scan line with
  | ⟨[], none⟩ => .ok []
  | ⟨[], some fault⟩ => .error (.tokens fault)
  | ⟨token :: _, _⟩ => .ok (if token.kind == .indent then token.text else [])

/-- The indentation of the first of the lines, if there is one. -/
def firstIndent : List Text → Except Failure (Option Text)
  | [] => .ok none
  | line :: _ => (indent line).map some

end Text

end QtMigration
