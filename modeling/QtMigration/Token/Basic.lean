import QtMigration.Text.Basic

/-!
# Token/Basic — tokens of a source text, and what may go wrong in finding them

A token carries its text, where it starts and stops (rows count from one, columns from zero), and the physical
line or lines it was found on.
-/

namespace QtMigration

/-- A place in a text: the row counts from one, the column from zero. -/
structure Position where
  row : Nat
  col : Nat
  deriving DecidableEq, Repr

namespace Position

def render (p : Position) : Text := "(" ++ Text.ofNat p.row ++ ", " ++ Text.ofNat p.col ++ ")"

end Position

/-- What a token is. -/
inductive TokenKind
  | word
  | number
  | string
  | operator
  | comment
  | newline
  | lineBreak
  | indent
  | dedent
  | stray
  | finish
  deriving DecidableEq, Repr

/-- A token, with the physical lines it stands on. -/
structure Token where
  kind : TokenKind
  text : Text
  start : Position
  stop : Position
  line : Text
  deriving DecidableEq, Repr

/-- Why a text has no further tokens. -/
inductive ScanFault
  /-- The text ends inside a string that was opened at this place. -/
  | openString (start : Position)
  /-- The text ends inside brackets or after a continuation mark. -/
  | openStatement (stop : Position)
  /-- A line is indented less than the one before and like none of the blocks around it. -/
  | unindent (row : Nat)
  deriving DecidableEq, Repr

namespace ScanFault

def message : ScanFault → Text
  | openString p => "('EOF in multi-line string', " ++ p.render ++ ")"
  | openStatement p => "('EOF in multi-line statement', " ++ p.render ++ ")"
  | unindent row =>
    "unindent does not match any outer indentation level (<tokenize>, line " ++ Text.ofNat row ++ ")"

end ScanFault

/-- The tokens of a text, up to its end or to a fault. -/
structure Scan where
  tokens : List Token
  fault : Option ScanFault
  deriving DecidableEq, Repr

namespace Scan

def broken (f : ScanFault) : Scan := ⟨[], some f⟩

/-- The scan with `front` before its tokens. -/
def after (front : List Token) (s : Scan) : Scan := ⟨front ++ s.tokens, s.fault⟩

end Scan

end QtMigration
