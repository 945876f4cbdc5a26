import QtMigration.Failure
import QtMigration.Line.Kind

/-!
# Encoding/Declared — the encoding that a source declares for itself

A source may declare its encoding in one of its first two lines: the word `coding`, a colon or an equals sign,
and a label.
-/

namespace QtMigration

/-- The length up to which a declared label is read. -/
def labelLength : Nat := 12

def isLabelChar (c : Char) : Bool := c == '-' || c == '.' || c.isAlphanum || c == '_'

/-- The label that a declaration gives, if the text behind the word `coding` is a declaration. -/
def labelAfter (s : Text) : Option Text :=
  match s with
  | [] => none
  | c :: cs =>
    if c == ':' || c == '=' then
      let label : Text := (Text.trimLeft cs).takeWhile isLabelChar
      if label.isEmpty then none else some label
    else none

/-- The label of the first declaration in a line. -/
def declaredLabel? : Text → Option Text
  | [] => none
  | c :: cs =>
    match (if Text.startsWith (c :: cs) "coding" then labelAfter ((c :: cs).drop 6) else none) with
    | some label => some label
    | none => declaredLabel? cs

/-- The spellings of Latin-1 that are brought to one label. -/
def latinLabels : List Text := ["latin-1", "iso-8859-1", "iso-latin-1"]

/-- A label as it is compared: at most twelve characters, lower case, dashes for underscores. -/
def normalLabel (label : Text) : Text :=
  (label.take labelLength).map fun c => if c == '_' then '-' else c.toLower

def standardLabel? (label : Text) : Option Text :=
  if label == "utf-8" || label.startsWith "utf-8-" then some "utf-8"
  else if latinLabels.contains label || label.startsWithAny (latinLabels.map (· ++ "-")) then
    some "iso-8859-1"
  else none

/-- **The encoding that a line declares**; `signed` says that the file begins with a byte order mark. -/
def declaredEncoding (line : Bytes) (signed : Bool) : Run (Option Text) := do
  match decodeAscii line with
  | .error _ => return none
  | .ok s =>
    match declaredLabel? s with
    | none => return none
    | some label =>
      let normal := normalLabel label
      let encoding ← match standardLabel? normal with
        | some standard => pure standard
        | none => do
          Run.print ("Non-standard encoding: " ++ normal ++ "\n")
          pure normal
      match Codec.ofLabel? encoding with
      | none => do
        Run.print ("Can't read the encoding: " ++ encoding ++ "\n")
        return none
      | some codec =>
        if signed then
          if codec == .utf8 then return some (encoding ++ "-sig")
          else
            Run.print ("Inconsistant encoding: " ++ encoding ++ "\n")
            return none
        else return some encoding

/-- The encoding of a file from its first two lines. -/
def encodingOfLines (first second : Bytes) : Run Text := do
  if first.isEmpty && second.isEmpty then return "utf-8"
  let signed := byteOrderMark.isPrefixOf first
  let first' := if signed then first.drop 3 else first
  let default : Text := if signed then "utf-8-sig" else "utf-8"
  if signed && first'.isEmpty then return default
  match ← declaredEncoding first' signed with
  | some label => return label
  | none =>
    match ← declaredEncoding second signed with
    | some label => return label
    | none => return default

/-- The encoding of a file from a list of lines, which must be two. -/
def encodingOfHead : List Bytes → Run Text
  | [first, second] => encodingOfLines first second
  | lines => Run.fail (if lines.length < 2 then .tooFewParts lines.length else .tooManyParts)

/-- The bytes up to and with the first newline. -/
def firstByteLine : Bytes → Bytes
  | [] => []
  | b :: bs => if b == 10 then [b] else b :: firstByteLine bs

def encodingOf (bytes : Bytes) : Run Text :=
  let first := firstByteLine bytes
  encodingOfLines first (firstByteLine (bytes.drop first.length))

end QtMigration
