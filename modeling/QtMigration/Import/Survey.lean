import QtMigration.Line.Kind

/-!
# Import/Survey — what a source has that needs a conversion
-/

namespace QtMigration

/-- What a source has. -/
structure Survey where
  /-- An import of the old library. -/
  library : Bool
  /-- Old-style signals, slots or emissions. -/
  signals : Bool
  /-- An import of the graphics module. -/
  gui : Bool
  /-- An import of the web module. -/
  web : Bool
  deriving DecidableEq, Repr

def importsLibrary (line : Text) : Bool := line.isImport && line.has "PyQt4"

/-- The line has an old-style signal, slot or emission. -/
def usesSignals (line : Text) : Bool :=
  line.isCode && line.hasAny ["SIGNAL(", "SLOT(", "emit("]

/-- **What the lines have.** -/
def survey (lines : List Text) : Survey where
  library := lines.any importsLibrary
  signals := lines.any usesSignals
  gui := lines.any fun line => importsLibrary line && line.hasAny [".Qt", "QtGui"]
  web := lines.any fun line => importsLibrary line && line.hasAny [".Qt", "QtWebKit"]

def Survey.isEmpty (s : Survey) : Bool := !(s.library || s.signals || s.gui || s.web)

end QtMigration
