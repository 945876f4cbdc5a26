import QtMigration.Text.Basic

/-!
# Line/At — lines by signed position

A negative position counts from the end of the list. `lineAt?` and `setAt?` have no answer outside the
list on either side; `insertAt` puts a line before the one at the position, at the ends if the position
lies outside.
-/

namespace QtMigration

def lineAt? (lines : List Text) (i : Int) : Option Text :=
  if 0 ≤ i then lines[i.toNat]?
  else if 0 ≤ i + lines.length then lines[(i + lines.length).toNat]?
  else none

/-- The lines with another one at a signed position. -/
def setAt? (lines : List Text) (i : Int) (line : Text) : Option (List Text) :=
  let place := if i < 0 then i + lines.length else i
  if 0 ≤ place && place < lines.length then some (lines.set place.toNat line) else none

/-- The lines from a signed position on; all of them if the position lies before the first. -/
def linesFrom (lines : List Text) (i : Int) : List Text :=
  lines.drop (if i < 0 then i + lines.length else i).toNat

/-- The lines with one more before the signed position. -/
def insertAt (lines : List Text) (i : Int) (line : Text) : List Text :=
  let place := if i < 0 then (i + lines.length).toNat else min i.toNat lines.length
  lines.take place ++ line :: lines.drop place

end QtMigration
