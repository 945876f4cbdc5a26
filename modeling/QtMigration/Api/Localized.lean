import QtMigration.Line.Kind

/-!
# Api/Localized — texts in the language of the user

The function `translate` belongs to the core application class, and its encoding argument is gone.
-/

namespace QtMigration

/-- A text that ends in the application class, with the core class in its place. -/
def coreApplication (s : Text) : Text :=
  if s.endsWith "QApplication" then
    if s.endsWith "QtWidgets.QApplication" then s.dropEnd 22 ++ "QtCore.QCoreApplication"
    else s.dropEnd 12 ++ "QCoreApplication"
  else s

/-- A text that ends in the application class, without it. -/
def dropApplication (s : Text) : Text :=
  if s.endsWith "QApplication" then
    if s.endsWith "QtWidgets.QApplication" then s.dropEnd 22 else s.dropEnd 12
  else s

/-- A piece of the line before an encoding argument, with the argument's comma dropped. -/
def beforeEncoding (s : Text) : Text :=
  ((((dropApplication s).trimRightOf ",").trimRight).trimRightOf ",")

/-- A line with a call of `translate`; its last character, the line end, is written anew. -/
def translateCall (line : Text) : Text :=
  let called := (((line.splitOn ".translate").map fun s => coreApplication s ++ ".translate").flatten)
  let line' := Text.dropEnd called 11
  let line' :=
    if line'.has ".UnicodeUTF8" then ((line'.splitOn ".UnicodeUTF8").map beforeEncoding).flatten
    else line'
  line' ++ "\n"

/-- A line with its calls for localized texts adapted. -/
def localizedLine (line : Text) : Text :=
  if !line.isCode then line
  else if line.has ".translate" then translateCall line
  else if line.has ".trUtf8(" then line.replaceAll "trUtf8(" "tr("
  else line

def updateLocalizedTexts (lines : List Text) : List Text := lines.map localizedLine

end QtMigration
