import QtMigration.Text.Search

/-!
# FileTree/Path — paths as texts

A path is a text; its parts are separated by slashes. The functions of this module look at the text
alone: whether a part is a link is not asked, so `normalize` makes `link/../e` to `e` although a file
tree may lead `link/..` somewhere else.
-/

namespace QtMigration

namespace Path

def isAbsolute (path : Text) : Bool := path.startsWith "/"

/-- **The path of `path` seen from `base`.** -/
def join (base path : Text) : Text :=
  if isAbsolute path then path
  else if base.isEmpty || base.endsWith "/" then base ++ path
  else base ++ "/" ++ path

def baseName (path : Text) : Text := path.afterLast '/'

/-- The part before the last slash, without the slashes it ends in unless it has nothing else. -/
def parent (path : Text) : Text :=
  let head := path.dropEnd (baseName path).length
  if head.all (· == '/') then head else head.trimRightOf "/"

def extension (path : Text) : Text :=
  let name : Text := (baseName path).dropWhile (· == '.')
  if name.contains '.' then '.' :: name.afterLast '.' else []

def stem (path : Text) : Text := path.dropEnd (extension path).length

/-! ## Normal form -/

/-- The slashes a normal path begins with: two stay two, any other number becomes one. -/
def rootSlashes (path : Text) : Text :=
  if path.startsWith "//" && !path.startsWith "///" then "//"
  else if isAbsolute path then "/" else ""

/-- One more part on the stack of parts, the last one on top. -/
def pushPart (rooted : Bool) (stack : List Text) (part : Text) : List Text :=
  if part.isEmpty || part == "." then stack
  else if part == ".." then
    match stack with
    | [] => if rooted then [] else [part]
    | top :: rest => if top == part then part :: stack else rest
  else part :: stack

/-- **The path without empty parts, `.`, and `..` where it can be resolved.** -/
def normalize (path : Text) : Text :=
  let root := rootSlashes path
  let parts := (path.splitOn "/").foldl (pushPart !root.isEmpty) []
  let whole := root ++ Text.join "/" parts.reverse
  if whole.isEmpty then "." else whole

/-- The parts by which a path is followed. -/
def parts (path : Text) : List Text :=
  let names := (path.splitOn "/").filter fun part => !part.isEmpty
  if path.endsWith "/" then names ++ [['.']] else names

end Path

end QtMigration
