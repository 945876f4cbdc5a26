import QtMigration.Text.Basic

/-!
# Text/Search — finding, splitting at and replacing a piece of text

Occurrences are taken from the left and do not overlap. `splitOn` and `replaceAll` walk over the
text once; the counter they carry is the number of characters of the present occurrence that are
still to be passed over, so both recurse on the text itself.
-/

namespace QtMigration

namespace Text

def has : Text → Text → Bool
  | [], needle => needle.isEmpty
  | c :: cs, needle => needle.isPrefixOf (c :: cs) || has cs needle

def hasAny (s : Text) (needles : List Text) : Bool := needles.any s.has

/-- The text around the first occurrence of `needle`: what stands before it and what stands
after. -/
def cut? : Text → Text → Option (Text × Text)
  | [], needle => if needle.isEmpty then some ([], []) else none
  | c :: cs, needle =>
    if needle.isPrefixOf (c :: cs) then some ([], (c :: cs).drop needle.length)
    else (cut? cs needle).map fun r => (c :: r.1, r.2)

/-- The text before the last `c`, if there is one. -/
def beforeLast? (s : Text) (c : Char) : Option Text :=
  match s.reverse.dropWhile (· != c) with
  | [] => none
  | _ :: r => some r.reverse

/-- The text after the last `c`; the whole text if there is none. -/
def afterLast (s : Text) (c : Char) : Text := (s.reverse.takeWhile (· != c)).reverse

/-- Walk of `splitOn`: the first piece, then the others. -/
def splitGo (sep : Text) : Nat → Text → Text × List Text
  | _, [] => ([], [])
  | n + 1, _ :: cs => splitGo sep n cs
  | 0, c :: cs =>
    if sep.isPrefixOf (c :: cs) then
      let r := splitGo sep (sep.length - 1) cs
      ([], r.1 :: r.2)
    else
      let r := splitGo sep 0 cs
      (c :: r.1, r.2)

/-- **The pieces of the text between the occurrences of `sep`.** -/
def splitOn (s sep : Text) : List Text :=
  let r := splitGo sep 0 s
  r.1 :: r.2

/-- The piece before the first occurrence of `sep`; the whole text if there is none. -/
def firstPiece (s sep : Text) : Text := (splitGo sep 0 s).1

def replaceGo (old new : Text) : Nat → Text → Text
  | _, [] => []
  | n + 1, _ :: cs => replaceGo old new n cs
  | 0, c :: cs =>
    if old.isPrefixOf (c :: cs) then new ++ replaceGo old new (old.length - 1) cs
    else c :: replaceGo old new 0 cs

/-- **The text with every occurrence of `old` replaced by `new`.** -/
def replaceAll (s old new : Text) : Text := replaceGo old new 0 s

/-- Replacements carried out one after the other, each on the result of the one before. -/
def replaceEach (s : Text) (rules : List (Text × Text)) : Text :=
  rules.foldl (fun t rule => t.replaceAll rule.1 rule.2) s

/-- The text without its first `n` occurrences of `c`. -/
def eraseFirst (c : Char) : Nat → Text → Text
  | 0, s => s
  | _ + 1, [] => []
  | n + 1, d :: s => if d == c then eraseFirst c n s else d :: eraseFirst c (n + 1) s

/-- The text without its last `n` occurrences of `c`. -/
def eraseLast (s : Text) (c : Char) (n : Nat) : Text := (eraseFirst c n s.reverse).reverse

end Text

end QtMigration
