import QtMigration.Catalogue.Classes
import QtMigration.Line.Indent
import QtMigration.Progress

/-!
# Api/Widgets — widgets that nothing imports

A source that uses a widget class without an import of the widgets module gets one.
-/

namespace QtMigration

/-- A line of code that names a widget class. -/
def usesWidget (line : Text) : Bool := line.isCode && line.hasAny Catalogue.widgets

/-- The lines with the import of all widgets behind the first import. -/
def importWidgets : List Text → Except Failure (List Text)
  | [] => .ok []
  | line :: lines =>
    if line.isCode && line.isImport && !line.has "__future__" then
      line.indent.map fun indent => line :: (indent ++ "from PyQt5.QtWidgets import *\n") :: lines
    else (importWidgets lines).map (line :: ·)

/-- **Widgets are imported if they are used.** -/
def ensureWidgets (p : Progress) (lines : List Text) : Except Failure (List Text × Progress) :=
  if p.widgetsImported || !lines.any usesWidget then .ok (lines, p)
  else (importWidgets lines).map (·, p.withWidgets)

end QtMigration
