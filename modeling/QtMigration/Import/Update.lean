import QtMigration.Import.Layout
import QtMigration.Import.Modules
import QtMigration.Import.Names
import QtMigration.Import.Sorting

/-!
# Import/Update — import statements for the new library

Every import statement first loses the names that no longer exist; one that has no names left is dropped.
-/

namespace QtMigration

/-! ## Names that no longer exist -/

/-- An import statement without the names that no longer exist; the name of the old signal function
becomes that of the new signal class when one has been declared. -/
def cleanImport (target : Target) (signalDeclared : Bool) (line : Text) : Text :=
  let line := line.trimRight ++ "\n"
  let line :=
    if signalDeclared then replaceName line "SIGNAL" "pyqtSignal" else removeName line "SIGNAL"
  let line := removeName line "SLOT"
  match target with
  | .new => removeName (removeName line "QStringList") "QString"
  | .old => line

/-- The statement has lost all its names. -/
def importsNothing (line : Text) : Bool :=
  line.trim == "import" || line.trimRight.endsWith " import"

/-! ## Statements by module -/

/-- The statement that imports `names`, if there are any, with a head given up to `import`. -/
def importNames (unit head : Text) (names : List Text) : Except Failure (List Text) :=
  if names.isEmpty then .ok []
  else (layoutImport unit (head ++ Text.commaList names)).map ([·])

/-- Comments found between names, on rows of their own. -/
def commentRows (comments : List Text) : List Text :=
  if comments.isEmpty then [] else [Text.join "\n" comments ++ "\n"]

/-- The import of the class of standard paths, when it is still wanted, with a head given up to the
library's name. -/
def pathsImport (p : Progress) (head : Text) : List Text × Progress :=
  if p.uses "QStandardPaths" then
    ([head.replaceAll "PyQt4" "PyQt5" ++ ".QtCore import QStandardPaths\n"],
      p.forget "QStandardPaths")
  else ([], p)

/-- The names behind the first `import` of a statement and the head before it. -/
def headAndNames (line : Text) : Except Failure (Text × Text) :=
  match line.splitOn "import " with
  | head :: names :: _ => .ok (head, names)
  | _ => .error .pieceMissing

/-- `from PyQt4.QtCore`, when the class of standard paths is wanted. -/
def coreWithPaths (p : Progress) (line : Text) : List Text × Progress :=
  ([(line.replaceAll "PyQt4" "PyQt5").trimRight ++ ", QStandardPaths\n"], p.forget "QStandardPaths")

/-- `from PyQt4.QtCore`, with the character class among its names, which is left out. -/
def coreWithoutChar (line : Text) : Except Failure (List Text) :=
  let names := (Text.splitOn (line.drop 25) ",").map Text.trim
  if names.contains "QChar" then
    let rest := names.erase "QChar"
    .ok (if rest.isEmpty then [] else ["from PyQt5.QtCore import " ++ Text.commaList rest ++ "\n"])
  else .error .nameNotListed

def modulesImport (cfg : Settings) (p : Progress) (line : Text) :
    Except Failure (List Text × Progress) := do
  match ← importModules p line with
  | (none, p) => return ([], p)
  | (some line', p) =>
    let text ← layoutImport cfg.indent line'
    let (paths, p) := pathsImport p (line'.firstPiece " import ")
    return (text :: paths, p)

/-- `from PyQt4.Qt import`: classes of all modules. -/
def allImport (cfg : Settings) (p : Progress) (line : Text) :
    Except Failure (List Text × Progress) := do
  let (head, names) ← headAndNames line
  let s := sortAllNames names
  let to_ (module : Text) := head.replaceAll "PyQt4.Qt " ("PyQt5." ++ module ++ " import ")
  let core ← importNames cfg.indent (to_ "QtCore") s.core
  let gui ← importNames cfg.indent (to_ "QtGui") s.gui
  let widgets ← importNames cfg.indent (to_ "QtWidgets") s.widgets
  let printing ← importNames cfg.indent (to_ "QtPrintSupport") s.printing
  let media ← importNames cfg.indent (to_ "QtMultimedia") s.media
  let openGL ← importNames cfg.indent (to_ "QtOpenGL") s.openGL
  let p := if s.widgets.isEmpty then p else p.withWidgets
  let (paths, p) := pathsImport p (line.firstPiece ".Qt")
  return (core ++ gui ++ widgets ++ printing ++ media ++ openGL ++ commentRows s.comments ++ paths, p)

/-- `from PyQt4.QtGui`: classes that were in the graphics module. -/
def guiImport (cfg : Settings) (p : Progress) (line : Text) :
    Except Failure (List Text × Progress) := do
  let (head, names) ← headAndNames line
  let s := sortNames names
  let to_ (module : Text) := head.replaceAll "PyQt4.QtGui " ("PyQt5." ++ module ++ " import ")
  let core ← importNames cfg.indent (to_ "QtCore") s.core
  let gui ← importNames cfg.indent (head.replaceAll "PyQt4" "PyQt5" ++ "import ") s.gui
  let widgets ← importNames cfg.indent (to_ "QtWidgets") s.widgets
  let printing ← importNames cfg.indent (to_ "QtPrintSupport") s.printing
  let media ← importNames cfg.indent (to_ "QtMultimedia") s.media
  let p := if s.core.isEmpty && s.widgets.isEmpty then p else p.withWidgets
  let (paths, p) := pathsImport p (line.firstPiece ".QtGui")
  return (core ++ gui ++ widgets ++ printing ++ media ++ commentRows s.comments ++ paths, p)

/-- `from PyQt4.QtWebKit`: classes that were in the web module. -/
def webImport (cfg : Settings) (line : Text) : Except Failure (List Text) := do
  let (head, names) ← headAndNames line
  let (stay, widgets) := sortWebNames names
  let stay' ← importNames cfg.indent (head.replaceAll "PyQt4" "PyQt5" ++ "import ") stay
  let widgets' ← importNames cfg.indent
    (head.replaceAll "PyQt4.QtWebKit" "PyQt5.QtWebKitWidgets" ++ "import ") widgets
  return stay' ++ widgets'

/-- A code line, import or not, for the new library; `start` is the line as it was, without its
indentation. -/
def newLibraryLine (cfg : Settings) (p : Progress) (start line : Text) :
    Except Failure (List Text × Progress) :=
  if start.startsWith "from PyQt4.QtCore " && p.uses "QStandardPaths" then
    .ok (coreWithPaths p line)
  else if start.startsWith "from PyQt4.QtCore " && line.has "QChar" then
    (coreWithoutChar line).map (·, p)
  else if start.startsWith "from PyQt4 import " then modulesImport cfg p line
  else if start.startsWith "from PyQt4.Qt import " then allImport cfg p line
  else if start.startsWith "from PyQt4.QtGui " then guiImport cfg p line
  else if start.startsWith "from PyQt4.QtWebKit " then (webImport cfg line).map (·, p)
  else .ok ([line.replaceAll "PyQt4" "PyQt5"], p)

def importLine (cfg : Settings) (p : Progress) (line : Text) :
    Except Failure (List Text × Progress) :=
  if !line.isCode then .ok ([line], p)
  else
    let line' := if line.isImport then cleanImport cfg.target p.signalDeclared line else line
    if line.isImport && importsNothing line' then .ok ([], p)
    else
      match cfg.target with
      | .old => .ok ([line'], p)
      | .new => newLibraryLine cfg p line.trimLeft line'

/-- **Import statements for the new library.** -/
def updateImports (cfg : Settings) : Progress → List Text → Except Failure (List Text × Progress)
  | p, [] => .ok ([], p)
  | p, line :: lines => do
    let (here, p) ← importLine cfg p line
    let (rest, p) ← updateImports cfg p lines
    return (here ++ rest, p)

end QtMigration
