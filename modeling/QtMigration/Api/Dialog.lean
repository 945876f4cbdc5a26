import QtMigration.Line.Paren
import QtMigration.Signal.Overload

/-!
# Api/Dialog — dialogs for file names and numbers

The file dialogs now answer the name together with the filter, so a call for the name alone takes the first of
the two.
-/

namespace QtMigration

/-- The calls that answer a name and a filter. -/
def pairCalls : List Text :=
  [".getOpenFileNamesAndFilter", ".getOpenFileNameAndFilter", ".getSaveFileNameAndFilter"]

def nameCalls : List Text := [".getOpenFileNames", ".getOpenFileName", ".getSaveFileName"]

/-- The line with the first element taken behind the parenthesis at `close`. -/
def takeFirstAt (line : Text) (close : Nat) : Text :=
  line.take (close + 1) ++ "[0]" ++ line.drop (close + 1) ++ "\n"

def fileDialogLine (line : Text) : Except Failure Text :=
  if !line.isCode then .ok line
  else if line.has "AndFilter" then
    .ok (if line.hasAny pairCalls then line.replaceAll "AndFilter" "" else line)
  else if line.has "FileName" then
    match nameCalls.find? line.has with
    | none => .ok line
    | some call =>
      let line' := line.trimRight
      if countReferences (line'.firstPiece "=") == 2 then .ok line
      else (line'.closingParen call).map fun r => takeFirstAt line' r.2
  else .ok line

/-- **File dialogs that answer a pair.** -/
def updateFileDialogs (lines : List Text) : Except Failure (List Text) := lines.mapM fileDialogLine

/-- **Input dialogs under their new name.** -/
def updateInputDialogs (lines : List Text) : List Text :=
  lines.map fun line =>
    if line.has "QInputDialog.getInteger(" then line.replaceAll ".getInteger(" ".getInt(" else line

end QtMigration
