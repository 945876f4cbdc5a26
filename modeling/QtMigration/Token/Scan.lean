import QtMigration.Token.Lexeme

/-!
# Token/Scan — the tokens of a text, row by row

`scan` reads a text one physical row after the other. Between rows it keeps a `ScanState`: how deep the
brackets are nested, whether the row before asked to be continued, the indentations of the open blocks, and a
string that is still open.
-/

namespace QtMigration

/-- A string that is still open at the end of a row. -/
structure OpenString where
  start : Position
  closing : Text
  text : Text
  line : Text
  deriving DecidableEq, Repr

/-- What the scanner knows between two rows. -/
structure ScanState where
  /-- Opening brackets less closing brackets; it may be negative. -/
  depth : Int
  /-- The row before ended in a continuation mark. -/
  continued : Bool
  /-- An open string ends with its row unless the row is continued. -/
  needsMark : Bool
  /-- The indentations of the open blocks, innermost first. -/
  indents : List Nat
  openString : Option OpenString
  deriving DecidableEq, Repr

namespace ScanState

def initial : ScanState := ⟨0, false, false, [0], none⟩

def bracket (st : ScanState) (text : Text) : ScanState :=
  if text == ['('] || text == ['['] || text == ['{'] then { st with depth := st.depth + 1 }
  else if text == [')'] || text == [']'] || text == ['}'] then { st with depth := st.depth - 1 }
  else st

/-- The kind of a line end: inside brackets it ends only the row. -/
def lineEndKind (st : ScanState) : TokenKind := if st.depth > 0 then .lineBreak else .newline

end ScanState

def isRowBlank (c : Char) : Bool := c == ' ' || c == '\x0c' || c == '\t'

/-- What a walk found at a place: the tokens there, the state after them, and how many characters to
pass over; `none` for the rest of the row. -/
structure RowStep where
  tokens : List Token
  state : ScanState
  length : Option Nat

/-- The step at column `col`, where `s` is the rest of the row. -/
def rowStep (row : Nat) (line : Text) (st : ScanState) (col : Nat) (s : Text) : RowStep :=
  let body : Text := s.dropWhile isRowBlank
  let from_ := col + (s.length - body.length)
  if body.isEmpty then ⟨[], st, none⟩
  else
    match lexeme? body with
    | none => ⟨[⟨.stray, s.take 1, ⟨row, col⟩, ⟨row, col + 1⟩, line⟩], st, some 1⟩
    | some (l, text, rest) =>
      let to_ := from_ + text.length
      let token (kind : TokenKind) : Token := ⟨kind, text, ⟨row, from_⟩, ⟨row, to_⟩, line⟩
      match l with
      | .continuation => ⟨[], { st with continued := true }, some (to_ - col)⟩
      | .lineEnd => ⟨[token st.lineEndKind], st, some (to_ - col)⟩
      | .whole kind =>
        ⟨[token kind], if kind == .operator then st.bracket text else st, some (to_ - col)⟩
      | .openString closing =>
        ⟨[], { st with needsMark := true, openString := some ⟨⟨row, from_⟩, closing, body, line⟩ },
          none⟩
      | .tripleOpen closing =>
        match stringEnd closing rest with
        | some (more, _) =>
          ⟨[⟨.string, text ++ more, ⟨row, from_⟩, ⟨row, to_ + more.length⟩, line⟩], st,
            some (to_ + more.length - col)⟩
        | none => ⟨[], { st with openString := some ⟨⟨row, from_⟩, closing, body, line⟩ }, none⟩

/-- The tokens of a row from column `col` on, and the state at its end. -/
def scanRow (row : Nat) (line : Text) : Nat → ScanState → Nat → Text → List Token × ScanState
  | _, st, _, [] => ([], st)
  | skip + 1, st, col, _ :: cs => scanRow row line skip st (col + 1) cs
  | 0, st, col, c :: cs =>
    let step := rowStep row line st col (c :: cs)
    match step.length with
    | none => (step.tokens, step.state)
    | some n =>
      let r := scanRow row line (n - 1) step.state (col + 1) cs
      (step.tokens ++ r.1, r.2)

/-! ## Indentation -/

/-- The column after one more leading blank: a tab goes to the next multiple of eight, a form feed
back to the margin. -/
def nextColumn (column : Nat) (c : Char) : Nat :=
  if c == ' ' then column + 1 else if c == '\t' then (column / 8 + 1) * 8 else 0

/-- The column that leading blanks reach. -/
def indentColumn (blanks : Text) : Nat := blanks.foldl nextColumn 0

/-! ## Rows -/

/-- The tokens that close the text after the row `last`. -/
def finishTokens (row : Nat) (last : Text) (st : ScanState) : List Token :=
  let ends := match last.getLast? with
    | some c => c == '\r' || c == '\n'
    | none => true
  let newline : List Token :=
    if ends || Text.startsWith (Text.trim last) "#" then []
    else [⟨.newline, [], ⟨row - 1, last.length⟩, ⟨row - 1, last.length + 1⟩, []⟩]
  let dedents : List Token :=
    (st.indents.drop 1).map fun _ => ⟨.dedent, [], ⟨row, 0⟩, ⟨row, 0⟩, []⟩
  newline ++ dedents ++ [⟨.finish, [], ⟨row, 0⟩, ⟨row, 0⟩, []⟩]

/-- The end of the text: it must not come inside a string or a statement. -/
def scanEnd (row : Nat) (last : Text) (st : ScanState) : Scan :=
  match st.openString with
  | some s => .broken (.openString s.start)
  | none =>
    if st.depth == 0 && !st.continued then ⟨finishTokens row last st, none⟩
    else .broken (.openStatement ⟨row, 0⟩)

/-- What a row turned out to be. -/
inductive RowResult
  /-- Its tokens and the state after it. -/
  | go (tokens : List Token) (state : ScanState)
  /-- Blanks only, without a line end: the text ends before them. -/
  | stop
  | fault (f : ScanFault)

def continueString (row : Nat) (line : Text) (st : ScanState) (s : OpenString) : RowResult :=
  match stringEnd s.closing line with
  | some (text, rest) =>
    let st' := { st with needsMark := false, openString := none }
    let r := scanRow row line 0 st' text.length rest
    .go (⟨.string, s.text ++ text, s.start, ⟨row, text.length⟩, s.line ++ line⟩ :: r.1) r.2
  | none =>
    if st.needsMark && !Text.endsWith line "\\\n" && !Text.endsWith line "\\\r\n" then
      .go [⟨.stray, s.text ++ line, s.start, ⟨row, line.length⟩, s.line⟩]
        { st with openString := none }
    else
      .go [] { st with openString := some { s with text := s.text ++ line, line := s.line ++ line } }

/-- The tokens of a row that holds a comment only, or nothing. -/
def blankRow (row : Nat) (line blanks body : Text) : List Token :=
  let pos := blanks.length
  if Text.startsWith body "#" then
    let comment := Text.trimRightOf body "\r\n"
    let stop := pos + comment.length
    [⟨.comment, comment, ⟨row, pos⟩, ⟨row, stop⟩, line⟩,
     ⟨.lineBreak, line.drop stop, ⟨row, stop⟩, ⟨row, line.length⟩, line⟩]
  else [⟨.lineBreak, body, ⟨row, pos⟩, ⟨row, line.length⟩, line⟩]

/-- The tokens that open or close blocks at a new statement, and the indentations after them. -/
def blockTokens (row : Nat) (line blanks : Text) (indents : List Nat) :
    Except ScanFault (List Token × List Nat) :=
  let column := indentColumn blanks
  let pos := blanks.length
  let top := indents.headD 0
  if top < column then
    .ok ([⟨.indent, blanks, ⟨row, 0⟩, ⟨row, pos⟩, line⟩], column :: indents)
  else if column < top then
    if indents.contains column then
      let closed := indents.takeWhile (column < ·)
      .ok (closed.map fun _ => ⟨.dedent, [], ⟨row, pos⟩, ⟨row, pos⟩, line⟩,
        indents.drop closed.length)
    else .error (.unindent row)
  else .ok ([], indents)

def newStatement (row : Nat) (line : Text) (st : ScanState) : RowResult :=
  let blanks := line.takeWhile isRowBlank
  let body := line.dropWhile isRowBlank
  match body with
  | [] => .stop
  | c :: _ =>
    if c == '#' || c == '\r' || c == '\n' then .go (blankRow row line blanks body) st
    else
      match blockTokens row line blanks st.indents with
      | .error f => .fault f
      | .ok (tokens, indents) =>
        let r := scanRow row line 0 { st with indents := indents } blanks.length body
        .go (tokens ++ r.1) r.2

def rowResult (row : Nat) (line : Text) (st : ScanState) : RowResult :=
  match st.openString with
  | some s => continueString row line st s
  | none =>
    if st.depth == 0 && !st.continued then newStatement row line st
    else
      let r := scanRow row line 0 { st with continued := false } 0 line
      .go r.1 r.2

/-- The rows from number `row` on; `last` is the row before. -/
def scanRows (row : Nat) (last : Text) (st : ScanState) : List Text → Scan
  | [] => scanEnd row last st
  | line :: lines =>
    match rowResult row line st with
    | .stop => ⟨finishTokens row last st, none⟩
    | .fault f => .broken f
    | .go tokens st' => (scanRows (row + 1) line st' lines).after tokens

/-- **The tokens of a text.** -/
def scan (s : Text) : Scan := scanRows 1 [] .initial s.rowsWithEnds

end QtMigration
