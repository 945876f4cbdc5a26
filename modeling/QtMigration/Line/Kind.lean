import QtMigration.Text.Search

/-!
# Line/Kind — what a logical line is

A logical line is told apart by its first character that is not white space: a comment, a string, or code.
-/

namespace QtMigration

namespace Text

def isComment (line : Text) : Bool := line.trimLeft.head? == some '#'

def isString (line : Text) : Bool := line.trimLeft.startsWithAny ["\"", "'"]

/-- A line that begins with a triple-quoted string. -/
def isDocstring (line : Text) : Bool := line.trimLeft.startsWithAny ["\"\"\"", "'''"]

/-- **A line of code**: neither empty nor a comment nor a string. -/
def isCode (line : Text) : Bool :=
  !(line.trim.isEmpty || line.isComment || line.isString || line.isDocstring)

def isClass (line : Text) : Bool := line.trimLeft.startsWith "class "

def isFunction (line : Text) : Bool := line.trimLeft.startsWith "def "

def isImport (line : Text) : Bool := line.trimLeft.startsWithAny ["import ", "from "]

end Text

end QtMigration
