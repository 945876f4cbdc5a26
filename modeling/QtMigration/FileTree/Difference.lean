import QtMigration.FileTree.Access

/-!
# FileTree/Difference — the headings of a comparison of two files

A comparison of two files that differ begins with two headings that name them.
-/

namespace QtMigration

/-- The letters by which control characters are escaped. -/
def escapeLetters : List (UInt8 × Char) :=
  [(7, 'a'), (8, 'b'), (9, 't'), (10, 'n'), (11, 'v'), (12, 'f'), (13, 'r'), (34, '"'), (92, '\\')]

def headingByte (b : UInt8) : Text :=
  match escapeLetters.lookup b with
  | some c => ['\\', c]
  | none =>
    if b < 32 || 128 ≤ b then
      '\\' :: [b / 64, b / 8 % 8, b % 8].map fun d => Nat.digitChar d.toNat
    else [Char.ofNat b.toNat]

/-- A byte for which a name has to be quoted. -/
def needsQuotes (b : UInt8) : Bool := b == 32 || (headingByte b).length != 1

def headingName (path : Text) : Text :=
  let bytes := encodeUtf8 path
  if bytes.any needsQuotes then "\"" ++ bytes.flatMap headingByte ++ "\"" else path

/-- The number of bytes in which a file is searched for a zero byte. -/
def probeSize : Nat := 4096

/-- The content is not compared as text. -/
def isBinary (bytes : Bytes) : Bool := (bytes.take probeSize).contains 0

namespace FileTree

/-- The headings for two paths whose contents differ. -/
def headings (old new : Text) : Text :=
  "--- " ++ headingName old ++ "\n+++ " ++ headingName new ++ "\n"

/-- **The headings of the comparison of two files**: none if the files are equal, if one is missing or
binary, or if the first path would be taken for an option. -/
def comparison (t : FileTree) (old new : Text) : Text :=
  let new := if t.hasDirectory new then Path.join new (Path.baseName old) else new
  match t.read old, t.read new with
  | .ok a, .ok b =>
    if a == b || isBinary a || isBinary b || old.startsWith "-" then [] else headings old new
  | _, _ => []

end FileTree

end QtMigration
