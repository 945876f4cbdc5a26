import QtMigration.Failure
import QtMigration.Line.Kind
import QtMigration.Token.Scan

/-!
# Line/Paren — parentheses of a logical line

`parenExcess` counts characters. The other two functions go by tokens, so parentheses inside strings and
comments do not count.
-/

namespace QtMigration

namespace Text

def parenExcess (line : Text) : Int := (line.count '(' : Int) - (line.count ')' : Int)

/-- Walk of `countParens`: `count` is set once the word `start` has been met. -/
def countParensGo (start stop : Text) (fault : Option ScanFault) :
    Option Nat → List Token → Except Failure (Option Nat)
  | _, [] =>
    match fault with
    | none => .ok none
    | some f => .error (.tokens f)
  | count, t :: ts =>
    if t.text == start then countParensGo start stop fault (some 0) ts
    else if t.text == ['('] then
      match count with
      | none => .error (.unset "count")
      | some n => countParensGo start stop fault (some (n + 1)) ts
    else if t.text == stop then
      match count with
      | none => .error (.unset "count")
      | some n => .ok (some n)
    else countParensGo start stop fault count ts

/-- The number of opening parentheses from the last `start` token up to the first `stop` token after
it; nothing if the line has no such `stop`. -/
def countParens (line start stop : Text) : Except Failure (Option Nat) :=
  countParensGo start stop (scan line).fault none (scan line).tokens

/-- What the search for a closing parenthesis knows. -/
structure ParenSearch where
  /-- The word that starts the search has been met. -/
  begun : Bool
  /-- Parentheses open at this point. -/
  depth : Nat
  /-- Position of the opening parenthesis, as far as it is known. -/
  opening : Nat
  /-- Length of the rows that have ended. -/
  passed : Nat

def closingParenGo (word : Text) : ParenSearch → List Token → Option (Nat × Nat)
  | _, [] => none
  | st, t :: ts =>
    let col := t.start.col
    if t.kind == .lineBreak then
      closingParenGo word
        { st with
          opening := if st.begun then st.opening else st.opening + (col + 1)
          passed := st.passed + (col + 1) } ts
    else if !word.isEmpty && t.text == word then
      closingParenGo word
        (if word == ['('] then
          { st with begun := true, depth := st.depth + 1, opening := st.opening + col }
        else { st with begun := true }) ts
    else if st.begun && t.text == ['('] then
      closingParenGo word
        { st with
          opening := if st.depth == 0 then st.opening + col else st.opening
          depth := st.depth + 1 } ts
    else if st.depth != 0 && t.text == [')'] then
      if st.depth == 1 then some (st.opening, st.passed + col)
      else closingParenGo word { st with depth := st.depth - 1 } ts
    else closingParenGo word st ts

/-- **The opening parenthesis after `word` and the one that closes it**, as positions in the line; the
length of the line, twice, if there is no such pair. -/
def closingParen (line word : Text) : Except Failure (Nat × Nat) :=
  match closingParenGo word ⟨word.isEmpty, 0, 0, 0⟩ (scan line).tokens with
  | some r => .ok r
  | none =>
    match (scan line).fault with
    | some f => .error (.tokens f)
    | none => .ok (line.length, line.length)

end Text

end QtMigration
