import QtMigration.Line.Paren
import QtMigration.Signal.Connection

/-!
# Signal/Emission — emitting a signal

An old-style emission names the signal first and then the values.
-/

namespace QtMigration

/-- The last argument without its surplus closing parentheses. -/
def balanceLast (last : Text) : Text :=
  if last.parenExcess < 0 then last.eraseLast ')' last.parenExcess.natAbs else last

/-- The parentheses that go behind the call. -/
def surplus (last : Text) : Text := List.replicate last.parenExcess.natAbs ')'

/-- The arguments with a lone pair of parentheses in place of values left out. -/
def dropEmptyValues (args : List Text) : List Text :=
  match args with
  | [signal, values] => if values == "()" then [signal] else args
  | _ => args

/-- The new-style emission and the signal it needs, for the text before the call and its arguments. -/
def emissionLine (target : Target) (before : Text) (args : List Text) : Run (Text × Text) := do
  match args.getLast? with
  | none => Run.fail .pieceMissing
  | some last =>
    let args' := dropEmptyValues (args.dropLast ++ [balanceLast last])
    let signal := args'.headD []
    let parts ← signature target signal
    return (before ++ "." ++ signatureName parts ++ ".emit(" ++ Text.commaList (args'.drop 1) ++ ")" ++
      surplus last ++ "\n", signal)

/-- The line at `i` with its emission in the new style, and its signal declared. -/
def emitAt (target : Target) (i : Nat) (lines : List Text) : Run Declared := do
  match lines[i]? with
  | none => return ⟨lines, 0⟩
  | some line =>
    if !line.isCode || !line.has ".emit(" || !line.has "SIGNAL(" then return ⟨lines, 0⟩
    match callContent? line ".emit(" with
    | none => return ⟨lines, 0⟩
    | some content =>
      let args ← splitArguments content
      let (line', signal) ← emissionLine target (line.firstPiece ".emit(") args
      declareSignal target (lines.set i line') i signal

/-- **Emissions in the new style.** -/
def updateEmissions (target : Target) (lines : List Text) : Run Declaring :=
  visitLines (emitAt target) lines.length 0 ⟨lines, false⟩

end QtMigration
