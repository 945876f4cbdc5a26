import QtMigration.Text.Word
import QtMigration.Token.Basic
import QtMigration.Token.Matcher

/-!
# Token/Lexeme — the lexeme at the beginning of a row's remainder

`lexeme?` decides which lexeme stands at the beginning of a text that has no leading blanks.
-/

namespace QtMigration

open Matcher

/-! ## Numbers -/

/-- Digits after the first, each maybe with one underscore before it. -/
def digitTail (p : Char → Bool) : Text → Text × Text
  | [] => ([], [])
  | [c] => if p c then ([c], []) else ([], [c])
  | c :: d :: cs =>
    if p c then
      let r := digitTail p (d :: cs)
      (c :: r.1, r.2)
    else if c == '_' && p d then
      let r := digitTail p cs
      (c :: d :: r.1, r.2)
    else ([], c :: d :: cs)

def digits : Matcher := seq (one Char.isDigit) fun s => some (digitTail Char.isDigit s)

/-- At least one digit of another base, underscores allowed before each. -/
def baseDigits (p : Char → Bool) : Matcher := fun s =>
  let r := digitTail p s
  if r.1.isEmpty then none else some r

def isHexDigit (c : Char) : Bool :=
  c.isDigit || ('a' ≤ c && c ≤ 'f') || ('A' ≤ c && c ≤ 'F')

def exponent : Matcher :=
  seq (one fun c => c == 'e' || c == 'E') (seq (opt (one fun c => c == '-' || c == '+')) digits)

/-- A number with a decimal point or an exponent. -/
def decimalNumber : Matcher :=
  alt
    (seq
      (alt (seq digits (seq (literal ".") (opt digits))) (seq (literal ".") digits))
      (opt exponent))
    (seq digits exponent)

def imaginaryNumber : Matcher :=
  let mark := one fun c => c == 'j' || c == 'J'
  alt (seq digits mark) (seq decimalNumber mark)

/-- A number in base sixteen, two, eight or ten. -/
def wholeNumber : Matcher :=
  firstOf
    [seq (literal "0") (seq (one fun c => c == 'x' || c == 'X') (baseDigits isHexDigit)),
     seq (literal "0") (seq (one fun c => c == 'b' || c == 'B')
       (baseDigits fun c => c == '0' || c == '1')),
     seq (literal "0") (seq (one fun c => c == 'o' || c == 'O')
       (baseDigits fun c => '0' ≤ c && c ≤ '7')),
     seq (literal "0") (fun s => some (digitTail (· == '0') s)),
     seq (one fun c => '1' ≤ c && c ≤ '9') fun s => some (digitTail Char.isDigit s)]

def numberLexeme : Matcher := firstOf [imaginaryNumber, decimalNumber, wholeNumber]

/-! ## Operators, line ends, comments -/

def longOperators : List Text := ["**=", "...", "//=", "<<=", ">>="]

def doubleOperators : List Text :=
  ["!=", "%=", "&=", "**", "*=", "+=", "-=", "->", "//", "/=", ":=", "<<", "<=", "==", ">=", ">>",
   "@=", "^=", "|="]

/-- The operators of one character, brackets included. -/
def singleOperators : List Text :=
  ["%", "&", "(", ")", "*", "+", ",", "-", ".", "/", ":", ";", "<", "=", ">", "@", "[", "]", "^",
   "\x7b", "|", "\x7d", "~"]

/-- The operators, the longer ones before their own beginnings. -/
def operators : List Text := longOperators ++ doubleOperators ++ singleOperators

def operatorLexeme : Matcher := firstOf (operators.map literal)

def lineEnd : Matcher := seq (opt (literal "\r")) (literal "\n")

/-- The mark that continues a row in the next one. -/
def rowContinuation : Matcher := seq (literal "\\") lineEnd

def commentLexeme : Matcher := seq (literal "#") (run fun c => c != '\r' && c != '\n')

/-! ## Strings -/

def isQuote (c : Char) : Bool := c == '\'' || c == '"'

/-- The letters that may stand before an opening quote, in lower case. -/
def stringMarks : List Text := ["", "b", "r", "u", "f", "br", "rb", "fr", "rf"]

/-- The letters before an opening quote, and the text from the quote on. -/
def stringMark : Matcher := fun s =>
  let letters : Text := (s.take 2).takeWhile fun c => !isQuote c
  match s.drop letters.length with
  | [] => none
  | c :: cs =>
    if isQuote c && stringMarks.contains (letters.map Char.toLower) then some (letters, c :: cs)
    else none

def tripleQuote : Matcher := alt (literal "'''") (literal "\"\"\"")

/-- The body of a string up to its closing quote on the same row, or up to a row continuation. -/
def stringBody (quote : Char) : Matcher
  | [] => none
  | '\\' :: '\n' :: cs => some ("\\\n", cs)
  | '\\' :: '\r' :: '\n' :: cs => some ("\\\r\n", cs)
  | '\\' :: c :: cs => (stringBody quote cs).map fun r => ('\\' :: c :: r.1, r.2)
  | c :: cs =>
    if c == quote then some ([c], cs)
    else if c == '\n' || c == '\\' then none
    else (stringBody quote cs).map fun r => (c :: r.1, r.2)

/-- A string that begins with one quote. -/
def stringLexeme : Matcher := seq stringMark fun s =>
  match s with
  | [] => none
  | q :: cs => (stringBody q cs).map fun r => (q :: r.1, r.2)

/-- The text up to and with the closing quotes, looked for on one row: a backslash hides the
character after it, which must be on the row. -/
def stringEnd (closing : Text) : Matcher
  | [] => none
  | '\\' :: c :: cs =>
    if closing.isPrefixOf ('\\' :: c :: cs) then some (closing, ('\\' :: c :: cs).drop closing.length)
    else if c == '\n' then none
    else (stringEnd closing cs).map fun r => ('\\' :: c :: r.1, r.2)
  | c :: cs =>
    if closing.isPrefixOf (c :: cs) then some (closing, (c :: cs).drop closing.length)
    else if c == '\\' then none
    else (stringEnd closing cs).map fun r => (c :: r.1, r.2)

/-! ## The lexeme at the front -/

/-- What stands at the front of a row's remainder. -/
inductive Lexeme
  /-- The statement goes on in the next row. -/
  | continuation
  /-- The opening of a triple-quoted string. -/
  | tripleOpen (closing : Text)
  /-- A string that goes on in the next row. -/
  | openString (closing : Text)
  /-- A whole token of this kind. -/
  | whole (kind : TokenKind)
  /-- A line end. -/
  | lineEnd
  deriving DecidableEq, Repr

/-- The quotes at the end of a string's opening. -/
def closingOf (s : Text) : Text := s.dropWhile fun c => !isQuote c

/-- The result `r` of a matcher, named as the lexeme `l`. -/
def named (l : Lexeme) (r : Option (Text × Text)) : Option (Lexeme × Text × Text) :=
  r.map fun r => (l, r.1, r.2)

/-- **The lexeme at the front of a non-empty text without leading blanks**, with its spelling and the
rest. -/
def lexeme? (s : Text) : Option (Lexeme × Text × Text) :=
  named .continuation (rowContinuation s)
  <|> named (.whole .comment) (commentLexeme s)
  <|> (seq stringMark tripleQuote s).map (fun r => (.tripleOpen (closingOf r.1), r.1, r.2))
  <|> named (.whole .number) (numberLexeme s)
  <|> named .lineEnd (lineEnd s)
  <|> named (.whole .operator) (operatorLexeme s)
  <|> (stringLexeme s).map (fun r =>
        if r.1.getLast? == some '\n' then (.openString ((closingOf r.1).take 1), r.1, r.2)
        else (.whole .string, r.1, r.2))
  <|> named (.whole .word) (run1 Text.isWord s)

end QtMigration
