import QtMigration.Failure
import QtMigration.Line.At
import QtMigration.Line.Kind
import QtMigration.Text.Between

/-!
# Api/Date — setting a date

The method that sets year, month and day has the shorter name now.
-/

namespace QtMigration

/-- The old method renamed throughout a line. -/
def renameSetDate (line : Text) : Text := line.replaceAll "setYMD" "setDate"

/-- The line opens a class that has `base` in its first pair of parentheses. -/
def isSubclassOf (base line : Text) : Bool :=
  line.isClass &&
    match line.splitOn "(" with
    | _ :: bases :: _ => bases.has base
    | _ => false

/-- The positions of the lines that open such a class; the first line has position `i`. -/
def subclassLines (base : Text) (i : Nat) : List Text → List Nat
  | [] => []
  | line :: lines =>
    if isSubclassOf base line then i :: subclassLines base (i + 1) lines
    else subclassLines base (i + 1) lines

/-- The positions of the lines that contain `s`; the first line has position `i`. -/
def linesWith (s : Text) (i : Nat) : List Text → List Nat
  | [] => []
  | line :: lines =>
    if line.has s then i :: linesWith s (i + 1) lines else linesWith s (i + 1) lines

/-- Walk of `dateClassBodyAt`: up to the next class, the method is renamed on the object itself. -/
def dateClassBody (done : List Text) (p : Int) : List Text → Except Failure (List Text)
  | [] => .ok done
  | line :: lines =>
    if line.isClass then .ok done
    else if line.has "self.setYMD(" then
      match setAt? done p (renameSetDate line) with
      | some done' => dateClassBody done' (p + 1) lines
      | none => .error .placeMissing
    else dateClassBody done (p + 1) lines

/-- The lines with the class body that begins at a signed position renamed. -/
def dateClassBodyAt (lines : List Text) (start : Int) : Except Failure (List Text) :=
  dateClassBody lines start (linesFrom lines start)

/-- The lines with the method renamed inside date classes; `inside` says that they begin in one. -/
def dateClasses (inside : Bool) : List Text → List Text
  | [] => []
  | line :: lines =>
    if line.isClass then line :: dateClasses (isSubclassOf "QDate" line) lines
    else
      (if inside && line.has "self.setYMD(" then renameSetDate line else line) ::
        dateClasses inside lines

/-- The lines with the method renamed on the names in `dates` and on those assigned on the way. -/
def dateNames (dates : List Text) : List Text → List Text
  | [] => []
  | line :: lines =>
    if !line.isCode then line :: dateNames dates lines
    else
      let dates' := if line.has "QDate(" then
          match line.assignment? "QDate(" with
          | some (target, _) => target.trim :: dates
          | none => dates
        else dates
      (if line.has ".setYMD(" && dates'.contains (line.firstPiece ".setYMD").trimLeft then
        renameSetDate line else line) :: dateNames dates' lines

/-- **Dates are set by the new method.** -/
def updateDates (lines : List Text) : List Text := dateNames [] (dateClasses false lines)

end QtMigration
