/-!
# Text/Basic — a piece of source text is the list of its characters

Every pass of the converter reads and writes source text. `Text` is a plain list of characters, so the list
library and its lemmas apply to it as they stand.
-/

namespace QtMigration

abbrev Text := List Char

instance : Coe String Text := ⟨String.toList⟩

namespace Text

def render (s : Text) : String := String.ofList s

/-- **White space.** -/
def isBlank (c : Char) : Bool :=
  let n := c.toNat
  (0x09 ≤ n && n ≤ 0x0D) || (0x1C ≤ n && n ≤ 0x20) || n == 0x85 || n == 0xA0 || n == 0x1680 ||
    (0x2000 ≤ n && n ≤ 0x200A) || n == 0x2028 || n == 0x2029 || n == 0x202F || n == 0x205F ||
    n == 0x3000

/-! ## Trimming -/

/-- Drop the leading characters that satisfy `p`. -/
def trimLeftWhile (s : Text) (p : Char → Bool) : Text := s.dropWhile p

/-- Drop the trailing characters that satisfy `p`. -/
def trimRightWhile (s : Text) (p : Char → Bool) : Text := (s.reverse.dropWhile p).reverse

def trimLeft (s : Text) : Text := s.trimLeftWhile isBlank

def trimRight (s : Text) : Text := s.trimRightWhile isBlank

def trim (s : Text) : Text := trimRight (trimLeft s)

/-- Drop the leading characters that occur in `set`, in whatever order they come. -/
def trimLeftOf (s set : Text) : Text := s.trimLeftWhile set.contains

/-- Drop the trailing characters that occur in `set`. -/
def trimRightOf (s set : Text) : Text := s.trimRightWhile set.contains

/-- Drop the characters of `set` on both sides. -/
def trimOf (s set : Text) : Text := trimRightOf (trimLeftOf s set) set

def isEmptyLine (s : Text) : Bool := s.all isBlank

/-! ## Beginnings and ends -/

def startsWith (s head : Text) : Bool := head.isPrefixOf s

def endsWith (s tail : Text) : Bool := tail.isSuffixOf s

/-- The text begins with one of `heads`. -/
def startsWithAny (s : Text) (heads : List Text) : Bool := heads.any s.startsWith

def endsWithAny (s : Text) (tails : List Text) : Bool := tails.any s.endsWith

/-- The text without its last `n` characters. -/
def dropEnd (s : Text) (n : Nat) : Text := s.take (s.length - n)

/-- The characters before position `n`, where a negative position counts from the end. -/
def takeTo (s : Text) (n : Int) : Text :=
  if n < 0 then s.dropEnd n.natAbs else s.take n.toNat

/-- The characters from position `lo` up to, not including, position `hi`. -/
def slice (s : Text) (lo hi : Nat) : Text := (s.take hi).drop lo

/-! ## Joining -/

/-- The pieces one after the other, with `sep` between neighbours. -/
def join (sep : Text) : List Text → Text
  | [] => []
  | [p] => p
  | p :: q :: ps => p ++ sep ++ join sep (q :: ps)

/-- The pieces with a comma and a blank between neighbours, the way a list of names is written. -/
def commaList (ps : List Text) : Text := join ", " ps

def times (s : Text) (n : Nat) : Text := (List.replicate n s).flatten

def ofNat (n : Nat) : Text := Nat.toDigits 10 n

/-- The text set flush right in a field of `width` characters. -/
def padLeft (s : Text) (width : Nat) : Text := List.replicate (width - s.length) ' ' ++ s

/-! ## Rows -/

/-- **The physical rows of a text**, their line ends removed: the pieces between newlines. -/
def rows (s : Text) : List Text :=
  let r := s.foldr (fun c (r : Text × List Text) =>
    if c == '\n' then ([], r.1 :: r.2) else (c :: r.1, r.2)) ([], [])
  r.1 :: r.2

/-- The physical rows, each with its own newline; only the last may lack one, and there is no empty
last row. -/
def rowsWithEnds (s : Text) : List Text :=
  s.foldr (fun c (r : List Text) =>
    if c == '\n' then [c] :: r else
      match r with
      | [] => [[c]]
      | row :: rest => (c :: row) :: rest) []

/-- Smaller in the order of code points, a proper beginning being smaller than its extensions. -/
def lt : Text → Text → Bool
  | [], [] => false
  | [], _ :: _ => true
  | _ :: _, [] => false
  | a :: as, b :: bs => if a == b then lt as bs else a < b

/-- At most as large in the order of code points. -/
def le (s t : Text) : Bool := !lt t s

end Text

end QtMigration
