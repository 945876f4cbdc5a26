import QtMigration.Text.Basic

/-!
# Token/Matcher — recognising a beginning of a text

A `Matcher` takes a beginning off a text: it answers the part it recognised and the rest, or nothing.
-/

namespace QtMigration

/-- Takes a recognised beginning off a text. -/
abbrev Matcher := Text → Option (Text × Text)

namespace Matcher

def one (p : Char → Bool) : Matcher
  | [] => none
  | c :: cs => if p c then some ([c], cs) else none

def literal (t : Text) : Matcher := fun s =>
  if t.isPrefixOf s then some (t, s.drop t.length) else none

/-- The longest run of characters that satisfy `p`, maybe empty. -/
def run (p : Char → Bool) : Matcher := fun s => some (s.takeWhile p, s.dropWhile p)

/-- The longest run of characters that satisfy `p`, at least one. -/
def run1 (p : Char → Bool) : Matcher := fun s =>
  if (s.takeWhile p).isEmpty then none else some (s.takeWhile p, s.dropWhile p)

def seq (a b : Matcher) : Matcher := fun s =>
  match a s with
  | none => none
  | some (x, r) =>
    match b r with
    | none => none
    | some (y, r') => some (x ++ y, r')

def alt (a b : Matcher) : Matcher := fun s =>
  match a s with
  | none => b s
  | some r => some r

/-- The first of the matchers that fits. -/
def firstOf : List Matcher → Matcher
  | [] => fun _ => none
  | m :: ms => alt m (firstOf ms)

/-- `a` if it fits, else nothing at all. -/
def opt (a : Matcher) : Matcher := fun s =>
  match a s with
  | none => some ([], s)
  | some r => some r

end Matcher

end QtMigration
