import QtMigration.Catalogue.Discarded
import QtMigration.Import.Names
import QtMigration.Text.Word

/-!
# Api/Application — the global application object

The global name of the application object is gone. A method of the class is called on the class; any other use
asks the class for its instance.
-/

namespace QtMigration

/-- A character that may stand before the global name. -/
def opensName (c : Char) : Bool := !(Text.isAsciiWord c || c == '.' || c == '\'' || c == '"')

/-- The text behind `word` at the beginning of `s`, if the word ends there. -/
def wholeWord? (word s : Text) : Option Text :=
  if word.isPrefixOf s then
    match s.drop word.length with
    | [] => some []
    | c :: cs => if Text.isAsciiWord c then none else some (c :: cs)
  else none

/-- What stands before the global name at the beginning of `s`, and what stands behind it; `first`
says that the line begins here. -/
def globalName? (word : Text) (first : Bool) (s : Text) : Option (Text × Text) :=
  let direct := if first then (wholeWord? word s).map (([] : Text), ·) else none
  let behind (head : Text) : Option (Text × Text) :=
    if head.isPrefixOf s then (wholeWord? word (s.drop head.length)).map (head, ·) else none
  let spaced := match s with
    | c :: cs => if opensName c then (wholeWord? word cs).map ([c], ·) else none
    | [] => none
  direct <|> spaced <|> behind "Qt." <|> behind "QtWidgets."

/-- Walk of `replaceGlobal`: `skip` characters belong to an occurrence that has been replaced. -/
def replaceGlobalGo (word new : Text) : Nat → Bool → Text → Text
  | _, _, [] => []
  | skip + 1, _, _ :: cs => replaceGlobalGo word new skip false cs
  | 0, first, c :: cs =>
    match globalName? word first (c :: cs) with
    | none => c :: replaceGlobalGo word new 0 false cs
    | some (before, after) =>
      before ++ new ++ after.take 1 ++
        replaceGlobalGo word new (before.length + word.length + min 1 after.length - 1) false cs

/-- The line with every whole `word` replaced. -/
def replaceGlobal (line word new : Text) : Text := replaceGlobalGo word new 0 true line

def classMethodRules : List (Text × Text) :=
  Catalogue.applicationMethods.map fun (m : Text) => ("qApp." ++ m, "QApplication." ++ m)

def instanceRule : Text × Text := ("qApp", "QApplication.instance()")

/-- The rules for the global name: its class methods first, then all other uses. -/
def applicationRules : List (Text × Text) := classMethodRules ++ [instanceRule]

/-- A line with the global name replaced. -/
def applicationLine (line : Text) : Text :=
  if !line.isCode || !line.has "qApp" then line
  else if line.isImport then replaceName line "qApp" "QApplication"
  else applicationRules.foldl (fun l rule => replaceGlobal l rule.1 rule.2) line

/-- **The application object without its global name.** -/
def updateApplication (lines : List Text) : List Text := lines.map applicationLine

end QtMigration
