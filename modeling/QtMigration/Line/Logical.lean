import QtMigration.Line.Kind
import QtMigration.Token.Scan

/-!
# Line/Logical — cutting a source into logical lines

A logical line is a whole statement with all its rows, a comment line, or an empty line.
-/

namespace QtMigration

/-- What the search for line ends remembers between tokens. -/
structure LineMarks where
  /-- No token of a statement has come since the last line end. -/
  fresh : Bool
  /-- A comment line has been counted and its row has not ended yet. -/
  afterComment : Bool
  deriving DecidableEq, Repr

namespace LineMarks

def initial : LineMarks := ⟨true, false⟩

/-- The marks after a token, and the row at which a logical line ends there, if one does. -/
def step (m : LineMarks) (t : Token) : LineMarks × Option Nat :=
  match t.kind with
  | .finish => (m, some t.stop.row)
  | .newline => ({ m with fresh := true }, some t.stop.row)
  | .comment => if m.fresh then (⟨true, true⟩, some t.stop.row) else ({ m with fresh := false }, none)
  | .lineBreak =>
    if m.afterComment then (⟨true, false⟩, none)
    else if t.line.trim.isEmpty && m.fresh then (m, some t.stop.row)
    else ({ m with fresh := false }, none)
  | _ => ({ m with fresh := false }, none)

end LineMarks

/-- How the search for line ends came to its end. -/
inductive LineEndsStop
  | complete
  /-- It broke off for this reason; the last token seen stops here, on these physical lines. -/
  | broken (reason : Text) (stop : Position) (line : Text)
  /-- It broke off before the first token. -/
  | brokenAtOnce
  deriving DecidableEq, Repr

/-- The rows at which logical lines end, in order. -/
structure LineEnds where
  rows : List Nat
  stop : LineEndsStop
  deriving DecidableEq, Repr

def strayReason : Text := "Error token encountered"

/-- How the search ends when the tokens do; `reason` says why they broke off and `seen` is the last
token. -/
def lineEndsStop (reason : Option Text) (seen : Option Token) : LineEndsStop :=
  match reason, seen with
  | none, _ => .complete
  | some why, some t => .broken why t.stop t.line
  | some _, none => .brokenAtOnce

def lineEndsGo (reason : Option Text) : LineMarks → Option Token → List Token → LineEnds
  | _, seen, [] => ⟨[], lineEndsStop reason seen⟩
  | m, _, t :: ts =>
    if t.kind == .stray then ⟨[], .broken strayReason t.stop t.line⟩
    else
      let r := lineEndsGo reason (m.step t).1 (some t) ts
      ⟨(m.step t).2.toList ++ r.rows, r.stop⟩

/-- **The rows at which logical lines end.** -/
def lineEnds (tokens : List Token) (reason : Option Text) : LineEnds :=
  lineEndsGo reason .initial none tokens

/-- The rows `lines` cut at the numbers `ends`; `count` rows have been used before. -/
def cutAt (lines : List Text) (count : Nat) : List Nat → List Text
  | [] => []
  | n :: ns => ((lines.take n).drop count).flatten :: cutAt lines n ns

end QtMigration
