import QtMigration.FileTree.Access
import QtMigration.Source.Reading

/-!
# Source/Kind — which files are sources, and which are lists of sources

A file is a source by its extension or, if it is executable, by its first row.
-/

namespace QtMigration

def sourceExtensions : List Text := [".py", ".pxi"]

/-- The first rows of executable sources. -/
def sourceHeads : List Text := ["#!/usr/bin/env python", "#!/usr/bin/python"]

def firstRow (s : Text) : Text := s.takeWhile (· != '\n')

/-- The first row of a content, if the blocks in which it stands can be decoded. -/
def firstRow? (bytes : Bytes) : Option Text :=
  match decodeUtf8 bytes with
  | .ok s => some (firstRow (universalNewlines s))
  | .error f =>
    match decodeUtf8 (beforeFault .utf8 bytes f).1 with
    | .error _ => none
    | .ok s =>
      let s := universalNewlines s
      if s.contains '\n' then some (firstRow s) else none

/-- The content is that of an executable source. -/
def hasSourceHead (bytes : Bytes) : Bool :=
  match firstRow? bytes with
  | some row => sourceHeads.contains row.trim
  | none => false

/-- **The path leads to a source.** -/
def isSource (t : FileTree) (path : Text) : Except FileFault Bool :=
  match t.stat path with
  | .error f => .error f
  | .ok (.file bytes executable) =>
    .ok (sourceExtensions.contains (Path.extension path) || (executable && hasSourceHead bytes))
  | .ok _ => .ok false

/-! ## Lists of sources -/

/-- The paths in a list, sorted, and the directories they are in. -/
structure Listing where
  files : List Text
  directories : List Text
  deriving DecidableEq, Repr

/-- **The paths listed in a text**, one on a row, without white space around them. -/
def Listing.ofText (s : Text) : Listing :=
  let files := Text.sort (s.rowsWithEnds.map Text.trim)
  ⟨files, Text.sortedSet ((files.map Path.parent).filter fun d => !d.isEmpty)⟩

def Listing.ofBytes (bytes : Bytes) : Except Failure Listing :=
  match decodeUtf8 bytes with
  | .ok s => .ok (.ofText (universalNewlines s))
  | .error f => .error (.undecodable (beforeFault .utf8 bytes f).2)

end QtMigration
