import QtMigration.Progress

/-!
# Import/Modules — importing the modules that the code uses

The statement that imports whole modules is built anew: modules that the code no longer uses are left
out, modules that it uses now are added, and the names are written once each, in order.
-/

namespace QtMigration

/-- The modules that are left out when the code no longer uses them. -/
def droppableModules : List Text := ["QtGui", "QtWebKit"]

/-- The modules that are added when the code uses them. -/
def addableModules : List Text :=
  ["QtCore", "QtWidgets", "QtWebKitWidgets", "QtMultimedia", "QtPrintSupport"]

/-- The module names in the list behind `import`, in the order they come. -/
def listedModules (names : Text) : List Text :=
  (((names.replaceEach [("(", ""), (")", ""), ("\\", "")]).splitOn ",").map Text.trim).filter
    fun n => !n.isEmpty

/-- The modules to import, of those listed and those used. -/
def neededModules (p : Progress) (listed : List Text) : List Text :=
  listed.filter (fun m => !droppableModules.contains m || p.uses m) ++
    addableModules.filter p.uses

/-- Put a name into an increasing list, unless it is there. -/
def insertName (name : Text) : List Text → List Text
  | [] => [name]
  | m :: ms =>
    if name == m then m :: ms
    else if name.lt m then name :: m :: ms
    else m :: insertName name ms

/-- The names once each, in increasing order. -/
def sortedNames (names : List Text) : List Text := names.foldr insertName []

/-- **The import of the modules that the code uses**; nothing if there are none. -/
def importModules (p : Progress) (line : Text) : Except Failure (Option Text × Progress) :=
  match line.splitOn "import " with
  | head :: names :: _ =>
    let modules := sortedNames (neededModules p (listedModules names))
    let p' := if p.uses "QtWidgets" then p.withWidgets else p
    .ok (if modules.isEmpty then none
      else some (head.replaceAll "PyQt4" "PyQt5" ++ "import " ++ Text.commaList modules), p')
  | _ => .error .pieceMissing

end QtMigration
