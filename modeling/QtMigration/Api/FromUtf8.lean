import QtMigration.Line.Indent
import QtMigration.Line.Paren

/-!
# Api/FromUtf8 — conversions from UTF-8 that are no longer needed

Texts need no conversion any more. Calls of the conversion are replaced by their argument, and the block that
defines a short name for it is removed.
-/

namespace QtMigration

def conversionName : Text := "_fromUtf8"

/-- The longer spellings of a call, which are brought to the short name. -/
def conversionRules : List (Text × Text) :=
  [("PyQt4.QtCore.QString.fromUtf8(", "_fromUtf8("), ("PyQt4.Qt.QString.fromUtf8(", "_fromUtf8("),
   ("QtCore.QString.fromUtf8(", "_fromUtf8("), ("Qt.QString.fromUtf8(", "_fromUtf8("),
   ("QString.fromUtf8(", "_fromUtf8(")]

/-- The line without the call whose parentheses are at these positions: the nine characters before
the opening one are its name. -/
def unwrapAt (line : Text) (opening closing : Nat) : Text :=
  line.takeTo (opening - 9) ++ line.slice (opening + 1) closing ++ line.drop (closing + 1)

/-- The line with its calls unwrapped one after the other, at most `limit` of them. -/
def unwrapGo : Nat → Text → Except Failure Text
  | 0, _ => .error .unsettled
  | limit + 1, line => do
    let (opening, closing) ← line.closingParen conversionName
    if line.length ≤ opening then return line
    unwrapGo limit (unwrapAt line opening closing)

/-- The number of calls after which unwrapping is given up. -/
def unwrapLimit (line : Text) : Nat := 2 * line.length + 16

/-- A line with its conversions unwrapped. -/
def unwrapLine (line : Text) : Except Failure Text :=
  let line' := line.replaceEach conversionRules
  unwrapGo (unwrapLimit line') line'

def isConversionDefinition (line : Text) : Bool :=
  line.trim == "_fromUtf8 = QtCore.QString.fromUtf8"

/-- The handler in the definition's block. -/
def conversionHandler : Text := "except AttributeError:"

def handlerForms : List (List Text) :=
  [[conversionHandler, "_fromUtf8 = lambda s: s"],
   [conversionHandler, "def _fromUtf8(s):", "return s"]]

/-- The number of lines that belong to the definition's block behind it: the handler with its body, and an empty
line if one follows. -/
def handlerLength? (lines : List Text) : Option Nat :=
  (handlerForms.find? fun form => form.isPrefixOf (lines.map Text.trim)).map fun form =>
    if lines[form.length]?.any fun line => line.trim.isEmpty then form.length + 1 else form.length

/-- The definition stands in a block of its own: between the line before it and the handler. -/
def inConversionBlock (before after : List Text) : Bool :=
  before.head?.any (fun (line : Text) => line.trim == "try:") &&
    after.head?.any (fun (line : Text) => line.trim == conversionHandler)

/-- Walk of `removeConversions`: `before` holds the lines that are done, last one first, and `skip`
lines belong to a block that is removed. -/
def removeConversionsGo : Nat → List Text → List Text → Except Failure (List Text)
  | _, before, [] => .ok before.reverse
  | skip + 1, before, _ :: lines => removeConversionsGo skip before lines
  | 0, before, line :: lines =>
    if !line.isCode then removeConversionsGo 0 (line :: before) lines
    else if isConversionDefinition line && !inConversionBlock before lines then do
      let indent ← line.indent
      removeConversionsGo 0 ((indent ++ "_fromUtf8 = lambda s: s\n") :: before) lines
    else
      match (if isConversionDefinition line then handlerLength? lines else none) with
      | some n => removeConversionsGo n (before.drop 1) lines
      | none => do
        let line' ← unwrapLine line
        removeConversionsGo 0 (line' :: before) lines

/-- **Conversions from UTF-8 removed.** -/
def removeConversions (lines : List Text) : Except Failure (List Text) :=
  removeConversionsGo 0 [] lines

end QtMigration
