import QtMigration.Signal.Arguments

/-!
# Signal/Signature — old spellings of signals and slots

A signal is spelled as a string: its name and the types of its arguments in parentheses.
-/

namespace QtMigration

/-- Which library the converted code is for. -/
inductive Target
  /-- The new library, PyQt5. -/
  | new
  /-- The old library, PyQt4, with new-style signals. -/
  | old
  deriving DecidableEq, Repr

/-- Qualifiers, pointers and references, which a signature drops. -/
def qualifierRules : List (Text × Text) :=
  [(" const ", ""), ("const ", ""),
   (" * ", ""), (" *", ""), ("* ", ""), ("*", ""),
   (" & ", ""), (" &", ""), ("& ", ""), ("&", ""),
   ("PyQt_PyObject", "'PyQt_PyObject'")]

/-- C strings are plain strings in the new library. -/
def cStringRules : List (Text × Text) := [("const char*", "str"), ("const char *", "str")]

/-- Library strings are named in quotes in the new library. -/
def libraryStringRules : List (Text × Text) :=
  [("PyQt4.QtCore.QString", "QString"), ("PyQt4.Qt.QString", "QString"),
   ("QtCore.QString", "QString"), ("Qt.QString", "QString"),
   ("QString", "'QString'"), ("'QString'List", "'QStringList'"),
   ("'QStringList'Model", "QStringListModel")]

/-- C strings are put aside under names that no other rule touches. -/
def cStringAside : List (Text × Text) :=
  [("const char*", "const_char_star_arg"), ("const char *", "const_char_space_star_arg")]

def cStringBack : List (Text × Text) :=
  [("const_char_star_arg", "\"const char*\""), ("const_char_space_star_arg", "\"const char *\"")]

/-- The rules that clean the types of a signature. -/
def typeRules : Target → List (Text × Text)
  | .new => cStringRules ++ qualifierRules ++ libraryStringRules
  | .old => cStringAside ++ qualifierRules ++ cStringBack

def cleanTypes (target : Target) (s : Text) : Text := s.replaceEach (typeRules target)

/-- A signature with its types cleaned and set in brackets; empty parentheses are dropped. -/
def cleanSignature (target : Target) (s : Text) : Text :=
  (cleanTypes target s).replaceEach [("()", ""), ("(", "["), (")", "]")]

/-- The declaration contains an old-style signal or slot. -/
def isDeclared (s : Text) : Bool := s.has "SIGNAL(" || s.has "SLOT("

/-- The warning about a declaration that is not a string. -/
def declarationWarning (content : Text) : Text :=
  "WARNING: Invalid signal/slot declaration syntax:" ++ content ++ "\n"

/-- The name and the types in the string of a declaration. -/
def signatureParts (target : Target) (content : Text) : Except Failure (List Text) :=
  match content.splitOn "(" with
  | [] => .ok []
  | [name] => .ok [name.trimLeft]
  | name :: types :: _ =>
    (splitArguments (cleanTypes target (types.replaceAll ")" ""))).map (name.trimLeft :: ·)

/-- **The name of a signal or slot, then its argument types.** -/
def signature (target : Target) (s : Text) : Run (List Text) := do
  if isDeclared s then
    match parenContent? s with
    | none => Run.fail .noParentheses
    | some inner =>
      let content := inner.trim
      if content.startsWithAny ["\"", "'"] then signatureParts target (content.trimOf "'\"")
      else
        Run.print (declarationWarning content)
        return [content]
  else return [s]

def signatureName (parts : List Text) : Text := parts.headD []

/-- The signal whose overloads are not told apart. -/
def untypedSignal : Text := "sslErrors"

/-- The argument types as they are written behind a name, with dots for C++ scopes; empty if the
signature has none. -/
def signatureTypes (parts : List Text) : Text :=
  if parts.length > 1 && signatureName parts != untypedSignal then
    (Text.commaList (parts.drop 1)).replaceAll "::" "."
  else []

end QtMigration
