import QtMigration.Text.Basic

/-!
# Text/Order — sorting texts by code points

Insertion sort: it recurses on the list, keeps equal texts in the order in which they came, and the
lists it is used on (names in a directory, paths in a list) are short.
-/

namespace QtMigration

namespace Text

/-- The text put before the first one that is larger. -/
def insertSorted (s : Text) : List Text → List Text
  | [] => [s]
  | t :: ts => if lt s t then s :: t :: ts else t :: insertSorted s ts

/-- **The texts in the order of code points.** -/
def sort (ss : List Text) : List Text := ss.foldl (fun sorted s => insertSorted s sorted) []

/-- The sorted texts without repetitions. -/
def sortedSet (ss : List Text) : List Text := sort ss.eraseDups

end Text

end QtMigration
