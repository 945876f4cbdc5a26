import QtMigration.Text.Search

/-!
# Text/Between — what stands between two marks on a row

`between?` finds a piece of text that begins behind a head and ends before a tail on the same physical row.
-/

namespace QtMigration

namespace Text

/-- The text before the first place where `tail` holds, if it comes on this row. -/
def untilOnRow (tail : Text → Bool) : Text → Option Text
  | [] => if tail [] then some [] else none
  | c :: cs =>
    if tail (c :: cs) then some []
    else if c == '\n' then none
    else (untilOnRow tail cs).map (c :: ·)

/-- **The text behind the first `head` that is followed by `tail` on its row**, up to that tail. -/
def between? (head : Text) (tail : Text → Bool) : Text → Option Text
  | [] => none
  | c :: cs =>
    match (if head.isPrefixOf (c :: cs) then untilOnRow tail ((c :: cs).drop head.length) else none) with
    | some inner => some inner
    | none => between? head tail cs

/-- On a row with an equals sign and `mark` somewhere behind it: the text before the sign, and the
text between the sign and the mark. -/
def rowAssignment? (mark row : Text) : Option (Text × Text) :=
  match row.cut? "=" with
  | none => none
  | some (target, value) => (value.cut? mark).map fun r => (target, r.1)

/-- **The first row of a line that assigns something with `mark` in it**, leading white space
dropped. -/
def assignment? (line mark : Text) : Option (Text × Text) :=
  line.trimLeft.rows.findSome? (rowAssignment? mark)

end Text

end QtMigration
