import QtMigration.Line.Kind
import QtMigration.Text.Between

/-!
# Api/LayoutMargin — the margins of layouts

A layout has four margins now. The names of the layouts are taken from the assignments that make one;
only for these names the calls are changed.
-/

namespace QtMigration

/-- The name to which a line assigns a box or grid layout. -/
def layoutName? (line : Text) : Option Text :=
  if line.has "Layout(" then
    match line.assignment? "Layout(" with
    | some (target, value) =>
      if value.endsWithAny ["QGrid", "QVBox", "QHBox"] then some target.trim else none
    | none => none
  else none

/-- The value of a call's one argument, given the text behind the opening parenthesis. -/
def argumentValue (s : Text) : Text := Text.trim ((s.trim).trimRightOf ")")

/-- The text behind the last operator, comma, blank or opening parenthesis. -/
def lastOperand (s : Text) : Text :=
  let stops : Text := ", =(-+"
  (s.reverse.takeWhile fun c => !stops.contains c).reverse

/-- A line with the margins of the layouts adapted. -/
def marginLine (layouts : List Text) (line : Text) : Text :=
  if !line.isCode then line
  else
    match line.splitOn ".setMargin(" with
    | before :: value :: _ =>
      if layouts.contains before.trimLeft then
        before ++ ".setContentsMargins(" ++
          Text.commaList (List.replicate 4 (argumentValue value)) ++ ")\n"
      else line
    | _ =>
      if line.has ".margin(" && layouts.contains (lastOperand (line.firstPiece ".margin")) then
        line.replaceAll ".margin()" ".getContentsMargins()[0]"
      else line

def updateLayoutMargins (lines : List Text) : List Text :=
  lines.map (marginLine (lines.filterMap layoutName?))

end QtMigration
