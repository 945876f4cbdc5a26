import QtMigration.Line.Indent

/-!
# Api/StringTypes — the library's own strings and characters

The library's character and string classes are gone. In signals their names are set in quotes; for any
other use a definition in terms of the language's own types is put before the first line of code that
is no import.
-/

namespace QtMigration

/-- The line is one before which definitions may not be put. -/
def isPreamble (line : Text) : Bool :=
  !line.isCode || line.trimLeft.startsWithAny ["import ", "from ", "__"]

/-- The lines with `block line` put before the first line of code that is no import. -/
def insertDefinitions (block : Text → Except Failure (List Text)) :
    List Text → Except Failure (List Text)
  | [] => .ok []
  | line :: lines =>
    if isPreamble line then (insertDefinitions block lines).map (line :: ·)
    else (block line).map (· ++ line :: lines)

/-- An indentation, or four blanks if it is empty. -/
def blockIndent (indent : Text) : Text := if indent.isEmpty then "    " else indent

/-- The definition of a class by a type of the language's second version, or of its third. -/
def typeDefinition (indent name second third : Text) : Text :=
  "try:\n" ++ indent ++ name ++ " = " ++ second ++ "\nexcept NameError:\n" ++ indent ++
    "# Python 3\n" ++ indent ++ name ++ " = " ++ third ++ "\n"

/-- A line that connects or declares a signal, where types are named in quotes. -/
def namesTypes (line : Text) : Bool := line.hasAny ["].connect(", "pyqtSignal("]

/-! ## Characters -/

/-- A line with its characters named without their module, and in quotes in signals. -/
def charLine (line : Text) : Text :=
  if !line.isCode then line
  else
    let line' := line.replaceEach
      [("PyQt5.QtCore.QChar", "QChar"), ("PyQt5.Qt.QChar", "QChar"), ("QtCore.QChar", "QChar"),
       ("Qt.QChar", "QChar")]
    if namesTypes line' then
      line'.replaceEach [("'QChar'", "QChar"), ("\"QChar\"", "QChar"), ("QChar", "'QChar'")]
    else line'

/-- The line uses characters outside quotes. -/
def usesChar (line : Text) : Bool :=
  line.isCode && (line.replaceEach [("'QChar'", ""), ("\"QChar\"", "")]).has "QChar"

/-- The definition of characters, before a line. -/
def charBlock (line : Text) : Except Failure (List Text) :=
  line.indent.map fun indent => [typeDefinition (blockIndent indent) "QChar" "unichr" "chr", "\n"]

/-- **Characters in terms of the language's own.** -/
def updateChars (lines : List Text) : Except Failure (List Text) :=
  let lines' := lines.map charLine
  if lines'.any usesChar then insertDefinitions charBlock lines' else .ok lines'

/-! ## Strings -/

/-- A line with its strings named without their module, and in quotes in signals. -/
def stringLine (line : Text) : Text :=
  if !line.isCode then line
  else
    let line' := line.replaceEach
      [("PyQt5.QtCore.QString", "QString"), ("PyQt5.Qt.QString", "QString"),
       ("QtCore.QString", "QString"), ("Qt.QString", "QString")]
    if namesTypes line' then
      line'.replaceEach
        [("'QString'", "QString"), ("\"QString\"", "QString"),
         ("'QStringList'", "QStringList"), ("\"QStringList\"", "QStringList"),
         ("QString", "'QString'"), ("'QString'List", "'QStringList'"),
         ("'QStringList'Model", "QStringListModel")]
    else line'

/-- The line uses strings outside quotes. -/
def usesString (line : Text) : Bool :=
  line.isCode &&
    (line.replaceEach [("QStringListModel", ""), ("QStringList", ""), ("'QString'", ""),
      ("\"QString\"", "")]).has "QString"

/-- The line uses lists of strings outside quotes. -/
def usesStringList (line : Text) : Bool :=
  line.isCode &&
    (line.replaceEach [("QStringListModel", ""), ("'QStringList'", ""), ("\"QStringList\"", "")]).has
      "QStringList"

/-- The definitions of strings and of lists of strings, before a line. -/
def stringBlock (strings lists : Bool) (line : Text) : Except Failure (List Text) := do
  let listPart : List Text := if lists then ["QStringList = list\n"] else []
  let stringPart ← if strings then do
      let indent ← if lists then pure [] else line.indent
      pure [typeDefinition (blockIndent indent) "QString" "unicode" "str"]
    else pure []
  return stringPart ++ listPart ++ [['\n']]

/-- **Strings in terms of the language's own.** -/
def updateStrings (lines : List Text) : Except Failure (List Text) :=
  let lines' := lines.map stringLine
  let strings := lines'.any usesString
  let lists := lines'.any usesStringList
  if strings || lists then insertDefinitions (stringBlock strings lists) lines' else .ok lines'

end QtMigration
