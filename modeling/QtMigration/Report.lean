import QtMigration.Line.Kind

/-!
# Report — the notes in the converted text

The passes mark their notes so that they can be told from those of the author.
-/

namespace QtMigration

def noteMark : Text := "FIXME$"

def isNote (line : Text) : Bool := line.isComment && line.has noteMark

/-- A line with its marks removed, if it is a note. -/
def unmarked (line : Text) : Text := if isNote line then line.replaceAll noteMark "FIXME" else line

/-- The entry for a note on the physical line `row`. -/
def noteEntry (row : Nat) (line : Text) : Text :=
  (Text.ofNat row).padLeft 6 ++ " " ++ (line.trimLeft).trimLeftOf "# FIXME$"

/-- The entries for the notes in the lines, of which the first begins on row `row`. -/
def noteEntries (row : Nat) : List Text → List Text
  | [] => []
  | line :: lines =>
    let rest := noteEntries (row + line.count '\n') lines
    if isNote line then noteEntry row line :: rest else rest

/-- **The lines without marks, and the list of notes.** -/
def collectNotes (lines : List Text) : List Text × List Text :=
  (lines.map unmarked, noteEntries 1 lines)

/-- The report on the notes, if there are any. -/
def notesReport : List Text → Option Text
  | [] => none
  | [entry] => some ("  FIXME added:\n" ++ entry.dropEnd 1)
  | entries => some ("  FIXMEs added:\n" ++ Text.dropEnd entries.flatten 1)

end QtMigration
