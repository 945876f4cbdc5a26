import QtMigration.Catalogue.Classes
import QtMigration.Line.Kind

/-!
# Import/Sorting — imported classes, sorted by the module they are now in

The names of an import statement are read row by row; a row with several names on it counts as one name.
-/

namespace QtMigration

/-- Imported names by module, each list in the order of the statement. -/
structure SortedNames where
  core : List Text
  gui : List Text
  widgets : List Text
  printing : List Text
  media : List Text
  openGL : List Text
  comments : List Text
  deriving DecidableEq, Repr

namespace SortedNames

def empty : SortedNames := ⟨[], [], [], [], [], [], []⟩

end SortedNames

/-- Where an imported name belongs. -/
inductive Home
  | core
  | gui
  | widgets
  | printing
  | media
  | comment
  deriving DecidableEq, Repr

/-- The module a class is in; a name that no module lists stays where it was. -/
def homeOf (name : Text) : Home :=
  if name.isComment then .comment
  else if Catalogue.core.contains name then .core
  else if Catalogue.widgets.contains name then .widgets
  else if Catalogue.multimedia.contains name then .media
  else if Catalogue.printSupport.contains name then .printing
  else .gui

def presentName (name : Text) : Text :=
  if name == "QIconEngineV2" then "QIconEngine" else if name == "QMatrix" then "QTransform" else name

def SortedNames.insert (s : SortedNames) (name : Text) : SortedNames :=
  match homeOf name with
  | .comment => { s with comments := s.comments ++ [name] }
  | .core => { s with core := s.core ++ [name] }
  | .widgets => { s with widgets := s.widgets ++ [name] }
  | .media => { s with media := s.media ++ [name] }
  | .printing => { s with printing := s.printing ++ [name] }
  | .gui => { s with gui := s.gui ++ [presentName name] }

/-- The name on a row: without commas at its ends, continuation marks and parentheses. -/
def rowName (row : Text) : Text :=
  ((row.trimOf ",").replaceEach [("\\", ""), ("(", ""), (")", "")]).trim

/-- **The names behind the `import` of the graphics module, sorted.** -/
def sortNames (names : Text) : SortedNames :=
  (((names.rows.map rowName).filter fun n => !n.isEmpty)).foldl SortedNames.insert .empty

/-- The names behind the `import` of the module that holds everything: the OpenGL classes are set
apart too. -/
def sortAllNames (names : Text) : SortedNames :=
  let s := sortNames names
  { s with
    gui := s.gui.filter fun n => !Catalogue.openGL.contains n
    openGL := s.gui.filter fun n => Catalogue.openGL.contains n }

/-- The name at a comma of an import from the web module. -/
def commaName (piece : Text) : Text :=
  ((piece.replaceAll "\\" "").trim).replaceEach [("(", ""), (")", "")]

/-- **The names behind the `import` of the web module**: those that stay, and those that are widgets
now. -/
def sortWebNames (names : Text) : List Text × List Text :=
  let all := ((names.splitOn ",").map commaName).filter fun n => !n.isEmpty
  (all.filter fun n => !Catalogue.webKitWidgets.contains n,
    all.filter fun n => Catalogue.webKitWidgets.contains n)

end QtMigration
