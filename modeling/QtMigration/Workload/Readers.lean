import QtMigration.Conversion

/-!
# Workload/Readers — the small readers on an argument list of any length

One round calls each of the functions that read parts of a line.
-/

namespace QtMigration

/-- An answer of a reader. -/
inductive Sample
  | absent
  | flag (b : Bool)
  | number (n : Int)
  | text (s : Text)
  | list (samples : List Sample)

namespace Sample

def texts (ss : List Text) : Sample := .list (ss.map .text)

def text? : Option Text → Sample
  | some s => .text s
  | none => .absent

def pair (p : Nat × Nat) : Sample := .list [.number p.1, .number p.2]

end Sample

namespace Workload

def argumentForms : Text :=
  Text.commaList ["arg", "f(1, \"(\", 2)", "g('(', 3)", "lambda x, y: h(x, y)", "nested(a(b(c)))"]

/-- The smallest size of an argument list, in units of six characters. -/
def leastSize : Nat := 10

def argumentList (size : Nat) : Text :=
  let size := max leastSize size
  (Text.join ", " (List.replicate size argumentForms)).take (6 * size)

/-- A signal with a number of arguments that grows with the size. -/
def longSignal (size : Nat) : Text :=
  "SIGNAL(\"sig(" ++ Text.commaList (List.replicate (max 4 (size / 4)) "int".toList) ++ ")\")"

/-- An import that does not fit on a row. -/
def longImport : Text :=
  "from PyQt5.QtWidgets import " ++
    Text.commaList ((List.range 40).map fun i => 'Q' :: Text.ofNat i) ++ "\n"

def readSignals (size : Nat) : Run (List Sample) := do
  let arguments ← splitArguments (argumentList size)
  let signal ← signature .new (longSignal size)
  let none' ← splitArguments []
  let slot ← signature .new "SLOT(\"slot()\")"
  let callback ← signature .new "callback"
  return [.texts arguments, .texts signal, .texts none', .texts slot, .texts callback]

def readValues : List Sample :=
  let multiRow : Text := "a = (1,\n     2,\n     3)"
  [.text? (className? "class Foo(Bar):\n"), .text (cleanSignature .new "sig(QString, int)"),
    .texts (emittedValues "SIGNAL(\"sig\"), a, b)"), .texts (emittedValues "SIGNAL(\"sig\")"),
    .text (cutTail "hello\n" ["\n"] 1), .text (onOneRow multiRow), .text (onOneRow "a = 1"),
    .text? (overload? .new "SIGNAL(\"clicked(bool)\")"),
    .text? (overload? .new "SIGNAL(\"custom(int)\")"),
    (overload? .new "custom(int)").elim (.flag false) .text]

def readArguments : Except Failure (List Sample) := do
  let slots : List Text := ["self", "SLOT(\"foo()\")"]
  let signal ← takeSignal ["SIGNAL(\"a(int", "int)\")", "b", "c"]
  let keyword := takeKeyword "scene" ["a", "scene=s", "b"]
  return [.text (takeSlot slots).1,
    signal.elim .absent fun r => .list [.text r.1, .texts r.2],
    .texts (listArguments "(a, b, c)"),
    .list [.text? keyword.1, .texts keyword.2],
    .number (((keywordIndex? "scene" ["a", "scene"]).map Int.ofNat).getD (-1))]

/-- The readers of kinds of lines, of imports and of types. -/
def readImports : Except Failure (List Sample) := do
  let row ← layoutImport " " longImport
  let margin ← alignment " " 30
  let web := sortWebNames "QWebSettings, QWebView"
  return [.flag (Text.isCode "x = 1\n"), .flag (Text.isCode "# comment\n"),
    .number (countReferences "a, b, c"), .number (Text.parenExcess "f((x)"), .text row, .text margin,
    .text (cleanTypes .old "const char*, const char *, int"),
    .list [.texts web.1, .texts web.2]]

def readTokens : Except Failure (List Sample) := do
  let call : Text := "foo(a, (b, c), bar(d))"
  let uncounted ← Text.countParens "x = 1\n" "x" "end"
  let counted ← Text.countParens "f(g(h(x)))\n" "f" "x"
  let pairPositions ← Text.closingParen call "foo"
  let noPair ← Text.closingParen "x = 1" "x"
  let indent ← Text.indent "    x = 1\n"
  let noIndent ← Text.indent "x = 1\n"
  return [.text? (className? "x = 1\n"), uncounted.elim .absent fun n => .number n,
    .pair pairPositions, .pair noPair, counted.elim .absent fun n => .number n,
    .text indent, .text noIndent]

/-- **One round of the readers.** -/
def readAll (size : Nat) : Run (List Sample) := do
  let signals ← readSignals size
  let arguments ← readArguments
  let imports ← readImports
  let tokens ← readTokens
  return signals ++ readValues ++ arguments ++ imports ++ tokens

end Workload

end QtMigration
