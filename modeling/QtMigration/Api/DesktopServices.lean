import QtMigration.Api.LayoutMargin
import QtMigration.Api.Notes
import QtMigration.Progress

/-!
# Api/DesktopServices — standard places of the desktop

The names of standard places are asked of a class of their own.
-/

namespace QtMigration

def desktopServices : List Text := ["QDesktopServices()", "QtGui.QDesktopServices()"]

/-- The name to which a line assigns the desktop services. -/
def servicesName? (line : Text) : Option Text :=
  if line.has "QDesktopServices" then
    (line.assignment? "QDesktopServices(").map fun r => r.1.trim
  else none

/-- The note on a place that is not a class member. -/
def placeNote : Text := "# FIXME$ Ambiguous syntax for QDesktopServices, can't refactor it.\n"

/-- The method by which a line asks for a place, and its present name. -/
def placeMethod? (line : Text) : Option (Text × Text) :=
  if line.has ".displayName(" then some (".displayName(", ".displayName(")
  else if line.has ".storageLocation(" then some (".storageLocation(", ".writableLocation(")
  else none

/-- The target of an assignment whose value, up to `method`, is one of `services`; and the text
behind the method. -/
def placeRequest? (services : List Text) (line method : Text) : Option (Text × Text) :=
  match line.splitOn method with
  | before :: value :: _ =>
    match before.splitOn "=" with
    | target :: service :: _ =>
      if services.contains service.trim then some (target, value) else none
    | _ => none
  | _ => none

/-- A line with its request for a place adapted, and whether it was. -/
def placeLine (services : List Text) (line : Text) : Except Failure (List Text × Bool) :=
  if !line.isCode then .ok ([line], false)
  else
    match placeMethod? line with
    | none => .ok ([line], false)
    | some (method, method') =>
      match placeRequest? services line method with
      | none => .ok ([line], false)
      | some (target, value) =>
        match (argumentValue value).splitOn "." with
        | _ :: place :: _ =>
          .ok ([target.trimRight ++ " = QStandardPaths" ++ method' ++ "QStandardPaths." ++ place ++
            ")\n"], true)
        | _ => line.indent.map fun indent => ([indent ++ placeNote, line], false)

def placesGo (services : List Text) : List Text → Except Failure (List Text × Bool)
  | [] => .ok ([], false)
  | line :: lines => do
    let (here, changed) ← placeLine services line
    let (rest, more) ← placesGo services lines
    return (here ++ rest, changed || more)

/-- **Standard places of the desktop.** -/
def updateDesktopServices (p : Progress) (lines : List Text) :
    Except Failure (List Text × Progress) := do
  let (lines', changed) ← placesGo (desktopServices ++ lines.filterMap servicesName?) lines
  return (lines', if changed then p.note "QStandardPaths" else p)

end QtMigration
