import QtMigration.Line.At
import QtMigration.Line.Indent
import QtMigration.Signal.Signature

/-!
# Signal/Declaration — declaring a signal in its class

A new-style signal is a member of its class. `declareSignal` looks backwards from a line for the class it
belongs to and puts the declaration at the top of the class body, after the signals that are there already.
-/

namespace QtMigration

/-- What declaring a signal does to the lines. -/
structure Declared where
  lines : List Text
  /-- The number of lines that were inserted. -/
  added : Nat
  deriving DecidableEq, Repr

def opensClass (line : Text) : Bool := line.isCode && line.has "class "

/-- The position of the nearest class line at or before `i`. -/
def classBefore? (lines : List Text) (i : Int) : Option Int :=
  if i < lines.length then
    ((List.range (i + lines.length + 1).toNat).map fun (k : Nat) => i - k).find? fun p =>
      (lineAt? lines p).any opensClass
  else none

/-- What the search for a place in the class body finds at a line. -/
inductive Place
  /-- The signal is declared here. -/
  | known
  /-- The declaration goes before this line. -/
  | here
  | further
  deriving DecidableEq, Repr

/-- What a line of the class body is for the search. -/
def placeAt (name line : Text) : Place :=
  if line.isCode && line.has name then .known
  else if line.isCode && !line.has "pyqtSignal" then .here
  else .further

/-- The first of the positions at which the search ends, with its line. -/
def findPlace (lines : List Text) (name : Text) : List Int → Option (Place × Int × Text)
  | [] => none
  | p :: ps =>
    match lineAt? lines p with
    | none => none
    | some line =>
      match placeAt name line with
      | .further => findPlace lines name ps
      | place => some (place, p, line)

/-- The declaration of a signal, for a given indentation and module. -/
def declarationLine (indent module : Text) (parts : List Text) : Text :=
  indent ++ signatureName parts ++ " = " ++ module ++ "pyqtSignal(" ++ signatureTypes parts ++ ")\n"

/-- The lines with a declaration before position `p`; an empty line is put behind it where a function
follows. -/
def insertDeclaration (lines : List Text) (p : Int) (decl : Text) : Except Failure Declared :=
  let place := if lineAt? lines (p - 1) == some "\n" then p - 1 else p
  let lines' := insertAt lines place decl
  match lineAt? lines' (place + 1) with
  | none => .error .pieceMissing
  | some next =>
    if next.isFunction then .ok ⟨insertAt lines' (place + 1) "\n", 2⟩ else .ok ⟨lines', 1⟩

/-- **Declare the signal that the line at `i` uses.** -/
def declareSignal (target : Target) (lines : List Text) (i : Int) (signal : Text) :
    Run Declared := do
  let module := signal.firstPiece "SIGNAL("
  let parts ← signature target signal
  match classBefore? lines i with
  | none => Run.fail .pieceMissing
  | some c =>
    let body := (List.range (lines.length - (c + 1)).toNat).map fun (k : Nat) => c + 1 + (k : Int)
    match findPlace lines (signatureName parts) body with
    | none => Run.fail .pieceMissing
    | some (.known, _, _) => return ⟨lines, 0⟩
    | some (_, p, line) =>
      let indent ← line.indent
      insertDeclaration lines p (declarationLine indent module parts)

/-- The lines and whether a signal has been declared in them. -/
structure Declaring where
  lines : List Text
  declared : Bool
  deriving DecidableEq, Repr

/-- Visit every line once: `visit` sees a line by its position and may insert lines, which are passed over. -/
def visitLines (visit : Nat → List Text → Run Declared) : Nat → Nat → Declaring → Run Declaring
  | 0, _, st => return st
  | n + 1, i, st => do
    let r ← visit i st.lines
    visitLines visit n (i + r.added + 1) ⟨r.lines, st.declared || r.added != 0⟩

end QtMigration
