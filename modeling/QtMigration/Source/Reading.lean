import QtMigration.Encoding.Declared
import QtMigration.Line.Logical

/-!
# Source/Reading — from the bytes of a file to its logical lines

A source is read in three steps: its encoding is found, its bytes are decoded, and its rows are cut into
logical lines.
-/

namespace QtMigration

/-- What came of reading a source. -/
inductive SourceLines
  | unreadable
  | unscannable
  | lines (lines : List Text)
  deriving DecidableEq, Repr

/-- A source as it was read: the encoding is absent if the file could not be opened, and the last
error is empty if there was none. -/
structure Reading where
  printed : Text
  encoding : Option Text
  lastError : Text
  outcome : Except Failure SourceLines

/-- The content of a file under an encoding, with universal line ends. -/
def decodeSource (label : Text) (bytes : Bytes) : Except Failure (Except DecodeFault Text) :=
  match Codec.ofLabel? label with
  | none => .error (.unknownEncoding label)
  | some codec => .ok ((codec.decode bytes).map universalNewlines)

/-- The rows of a content, or the error that is reported for it. -/
def contentRows (label : Text) (file : Except FileFault Bytes) :
    Except Failure (Except Text (List Text)) :=
  match file with
  | .error f => .ok (.error f.message)
  | .ok bytes =>
    match decodeSource label bytes with
    | .error e => .error e
    | .ok (.error f) => .ok (.error f.message)
    | .ok (.ok s) => .ok (.ok s.rows)

/-- The rows without the empty one after a last newline. -/
def dropEmptyLast (rows : List Text) : List Text :=
  if rows.getLast? == some [] then rows.dropLast else rows

/-! ## Line ends of a file -/

def textLineEnds (s : Text) : LineEnds :=
  lineEnds (scan s).tokens ((scan s).fault.map ScanFault.message)

/-- What a search for line ends that broke off prints. -/
def brokenReport (reason : Text) (stop : Position) (line : Text) : Text :=
  "Except: " ++ reason ++ "\nLine: " ++ stop.render ++ "\n" ++ line

/-- The size of the blocks in which a file is read. -/
def blockSize : Nat := 8192

/-- The first position that a decoding fault needs to be noticed; none if only the end of the file
shows it. -/
def DecodeFault.noticedAt (f : DecodeFault) : Option Nat :=
  match f.reason with
  | .unexpectedEnd => none
  | .invalidContinuation => some (f.start + f.size)
  | _ => some f.start

/-- The bytes that are decoded before the block in which a fault is noticed is read, and the fault
counted from there. -/
def beforeFault (codec : Codec) (bytes : Bytes) (f : DecodeFault) : Bytes × DecodeFault :=
  let mark := if codec == .utf8Signed && byteOrderMark.isPrefixOf bytes then 3 else 0
  let body := bytes.drop mark
  match f.noticedAt with
  | none => (body.take f.start, { f with start := 0 })
  | some p =>
    let border := (p + mark) / blockSize * blockSize - mark
    let whole := match codec.decode (body.take border) with
      | .ok _ => border
      | .error g => g.start
    (body.take whole, { f with start := f.start - whole })

/-- The tokens of a text whose last rows cannot be read: those of the rows before, and the reason why
they break off. -/
def tokensBefore (s : Text) (reason : Text) : List Token × Option Text :=
  let whole : Text := (s.reverse.dropWhile (· != '\n')).reverse
  let r := scan whole
  let tokens := r.tokens.filter fun t => !t.line.isEmpty
  match r.fault with
  | some (.unindent row) => (tokens, some (ScanFault.unindent row).message)
  | _ => (tokens, some reason)

/-- **The line ends of a file's content**, as far as it can be decoded. -/
def byteLineEnds (codec : Codec) (bytes : Bytes) : LineEnds :=
  match codec.decode bytes with
  | .ok s => textLineEnds (universalNewlines s)
  | .error f =>
    let (before, fault) := beforeFault codec bytes f
    match codec.decode before with
    | .error _ => ⟨[], .brokenAtOnce⟩
    | .ok s =>
      let (tokens, reason) := tokensBefore (universalNewlines s) fault.message
      lineEnds tokens reason

/-- The line ends of a file with what is printed for them: the rows, whether the search broke off, and
the last error. -/
structure LineEndsReport where
  rows : List Nat
  broken : Bool
  printed : Text
  lastError : Text
  failure : Option Failure

def LineEnds.report (e : LineEnds) : LineEndsReport :=
  match e.stop with
  | .complete => ⟨e.rows, false, [], [], none⟩
  | .broken reason stop line => ⟨e.rows, true, brokenReport reason stop line, reason, none⟩
  | .brokenAtOnce => ⟨e.rows, false, [], [], some (.unset "end")⟩

/-- The report on the line ends of a file that is opened under an encoding. -/
def fileLineEnds (label : Text) (file : Except FileFault Bytes) : LineEndsReport :=
  match file, Codec.ofLabel? label with
  | .error f, _ => ⟨[], false, [], [], some (.file f)⟩
  | .ok _, none => ⟨[], false, [], [], some (.unknownEncoding label)⟩
  | .ok bytes, some codec => (byteLineEnds codec bytes).report

/-! ## Logical lines of a file -/

/-- The logical lines of a decoded text. -/
def logicalLines (s : Text) : LineEndsReport × List Text :=
  let rows := dropEmptyLast s.rows
  let r := (textLineEnds s).report
  (r, cutAt (rows.map (· ++ "\n")) 0 r.rows)

/-- What is printed for a file that cannot be opened. -/
def unopenedReport (path : Text) (f : FileFault) : Text :=
  "Can't read the file `" ++ path ++ "`\nReason: " ++ f.message ++ "\n"

def readText (printed label : Text) (s : Text) : Reading :=
  if (dropEmptyLast s.rows).isEmpty then ⟨printed, some label, [], .ok (.lines [])⟩
  else
    let (r, lines) := logicalLines s
    let outcome : Except Failure SourceLines := match r.failure with
      | some f => .error f
      | none => if r.broken then .ok .unscannable else .ok (.lines lines)
    ⟨printed ++ r.printed, some label, r.lastError, outcome⟩

/-- **The logical lines of a file.** -/
def readSource (path : Text) (file : Except FileFault Bytes) : Reading :=
  match file with
  | .error f => ⟨unopenedReport path f, none, [], .ok .unreadable⟩
  | .ok bytes =>
    match encodingOf bytes with
    | ⟨printed, .error e⟩ => ⟨printed, none, [], .error e⟩
    | ⟨printed, .ok label⟩ =>
      match decodeSource label bytes with
      | .error e => ⟨printed, some label, [], .error e⟩
      | .ok (.error f) => ⟨printed, some label, f.message, .ok .unreadable⟩
      | .ok (.ok s) => readText printed label s

end QtMigration
