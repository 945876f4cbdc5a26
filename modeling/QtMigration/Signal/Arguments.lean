import QtMigration.Failure
import QtMigration.Line.Kind

/-!
# Signal/Arguments — the arguments of a call, cut at its outer commas

`splitArguments` cuts a text at the commas that stand outside parentheses.
-/

namespace QtMigration

/-- Put `c` in front of the first piece. -/
def consPiece (c : Char) (r : Option (Text × List Text)) : Option (Text × List Text) :=
  r.map fun r => (c :: r.1, r.2)

/-- **The pieces between outer commas**: the first one and the others. -/
def outerPieces : Nat → Option Char → Text → Option (Text × List Text)
  | 0, _, [] => some ([], [])
  | _ + 1, _, [] => none
  | 0, _, c :: cs =>
    if c == ',' then (outerPieces 0 none cs).map fun r => ([], r.1 :: r.2)
    else if c == '(' then consPiece c (outerPieces 1 none cs)
    else consPiece c (outerPieces 0 none cs)
  | d + 1, none, c :: cs =>
    if c == '"' || c == '\'' then consPiece c (outerPieces (d + 1) (some c) cs)
    else if c == '(' then consPiece c (outerPieces (d + 2) none cs)
    else if c == ')' then consPiece c (outerPieces d none cs)
    else consPiece c (outerPieces (d + 1) none cs)
  | d + 1, some q, c :: cs =>
    if c == q then consPiece c (outerPieces (d + 1) none cs)
    else consPiece c (outerPieces (d + 1) (some q) cs)

/-- The pieces with those of one `lambda` put together again; the first argument is the beginning of a
`lambda` whose colon has not come yet. -/
def joinLambdas : Option Text → List Text → List Text
  | none, [] => []
  | some open_, [] => [open_]
  | none, p :: ps =>
    if p.has "lambda " && !p.has ":" then joinLambdas (some p) ps else p :: joinLambdas none ps
  | some open_, p :: ps =>
    let longer := open_ ++ "," ++ p
    if p.has ":" then longer :: joinLambdas none ps else joinLambdas (some longer) ps

/-- Trimmed arguments; a single empty one is none at all. -/
def trimArguments (ps : List Text) : List Text :=
  match ps with
  | [p] => if p.trim.isEmpty then [] else [p.trim]
  | _ => ps.map Text.trim

/-- **The arguments of a call**, given the text between its parentheses. -/
def splitArguments (s : Text) : Except Failure (List Text) :=
  match outerPieces 0 none s with
  | none => .error .textEnds
  | some (p, ps) => .ok (trimArguments (joinLambdas none (p :: ps)))

/-- The text between the first opening and the last closing parenthesis. -/
def parenContent? (s : Text) : Option Text :=
  match s.cut? "(" with
  | none => none
  | some (_, rest) => rest.beforeLast? ')'

end QtMigration
