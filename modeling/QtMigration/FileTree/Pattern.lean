import QtMigration.FileTree.Basic

/-!
# FileTree/Pattern — the files whose path fits a pattern

In a pattern a star fits any characters, a question mark any one character, and a bracket one character of a
set; every part of a path may be a pattern.
-/

namespace QtMigration

/-- One sign of a pattern. -/
inductive Piece
  /-- Any characters. -/
  | star
  /-- Any one character. -/
  | any
  /-- This character. -/
  | char (c : Char)
  /-- A character in, or if `negated` not in, one of the ranges. -/
  | set (negated : Bool) (ranges : List (Char × Char))
  deriving DecidableEq, Repr

namespace Piece

/-- The ranges in a bracket: a character, or two with a hyphen between them. -/
def ranges : Text → List (Char × Char)
  | a :: '-' :: b :: rest => (a, b) :: ranges rest
  | a :: rest => (a, a) :: ranges rest
  | [] => []

/-- The inside of a bracket and its length with the closing bracket, if it is closed. -/
def bracket? (s : Text) : Option (Text × Nat) :=
  let mark := if s.startsWith "!" then 1 else 0
  let first := if Text.startsWith (s.drop mark) "]" then mark + 1 else mark
  let inside := s.take first ++ (s.drop first).takeWhile (· != ']')
  if inside.length < s.length then some (inside, inside.length + 1) else none

/-- The set that the inside of a bracket stands for. -/
def ofBracket (inside : Text) : Piece :=
  match inside with
  | '!' :: rest => .set true (ranges rest)
  | _ => .set false (ranges inside)

/-- Walk of `ofText`; the counter is the number of characters of a bracket still to be passed
over. -/
def ofTextGo : Nat → Text → List Piece
  | _, [] => []
  | n + 1, _ :: cs => ofTextGo n cs
  | 0, '*' :: cs => .star :: ofTextGo 0 cs
  | 0, '?' :: cs => .any :: ofTextGo 0 cs
  | 0, '[' :: cs =>
    match bracket? cs with
    | some (inside, n) => ofBracket inside :: ofTextGo n cs
    | none => .char '[' :: ofTextGo 0 cs
  | 0, c :: cs => .char c :: ofTextGo 0 cs

def ofText (pattern : Text) : List Piece := ofTextGo 0 pattern

def fitsChar (c : Char) : Piece → Bool
  | .star => false
  | .any => true
  | .char d => c == d
  | .set negated ranges => (ranges.any fun r => r.1 ≤ c && c ≤ r.2) != negated

/-- The rests of a text behind each of its beginnings. -/
def allRests : Text → List Text
  | [] => [[]]
  | c :: cs => (c :: cs) :: allRests cs

/-- The rests of a text behind what a sign fits. -/
def rests (piece : Piece) (s : Text) : List Text :=
  match piece, s with
  | .star, _ => allRests s
  | _, [] => []
  | _, c :: cs => if piece.fitsChar c then [cs] else []

end Piece

/-- **A name fits a pattern.** -/
def fits (pattern name : Text) : Bool :=
  let left := (Piece.ofText pattern).foldl (fun rests piece => (rests.flatMap piece.rests).eraseDups)
    [name]
  left.contains []

/-- The text has a sign that fits more than one text. -/
def isPattern (s : Text) : Bool := s.any fun c => c == '*' || c == '?' || c == '['

namespace FileTree

/-- The names in a directory that fit a pattern. -/
def namesFitting (t : FileTree) (onlyDirectories : Bool) (dir pattern : Text) : List Text :=
  ((t.namesAt (if dir.isEmpty then "." else dir)).getD []).filter fun name =>
    (!onlyDirectories || t.hasDirectory (Path.join dir name)) &&
      (pattern.startsWith "." || !Text.startsWith name ".") && fits pattern name

/-- The last part of a path in the directory `dir`: the names that fit it, or itself if it is there. -/
def lastFitting (t : FileTree) (onlyDirectories : Bool) (dir name : Text) : List Text :=
  if isPattern name then t.namesFitting onlyDirectories dir name
  else if name.isEmpty then if t.hasDirectory dir then [name] else []
  else match t.locate false (Path.join dir name) with
    | .ok (_, some _) => [name]
    | _ => []

/-- Walk of `matching`, which goes up at most `height` directories. -/
def matchingGo (t : FileTree) : Nat → Bool → Text → List Text
  | 0, _, _ => []
  | height + 1, onlyDirectories, pattern =>
    let dir := Path.parent pattern
    let dirs := if dir != pattern && isPattern dir then matchingGo t height true dir else [dir]
    dirs.flatMap fun d =>
      (t.lastFitting onlyDirectories d (Path.baseName pattern)).map fun name => Path.join d name

/-- **The paths that fit a pattern.** -/
def matching (t : FileTree) (pattern : Text) : List Text :=
  matchingGo t (pattern.length + 1) false pattern

end FileTree

end QtMigration
