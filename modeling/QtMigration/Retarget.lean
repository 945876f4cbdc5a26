import QtMigration.Catalogue.Classes
import QtMigration.Line.Indent
import QtMigration.Progress

/-!
# Retarget — classes that moved to another module

A class is named behind its module and a dot. `retarget` goes through the code lines, reads the name behind
every occurrence of the old module and writes the module in which that class now is.
-/

namespace QtMigration

def splitModules : List Text := ["QtGui", "QtWebKit"]

def endsName (c : Char) : Bool :=
  c == '.' || c == '(' || c == ')' || c == ',' || c == ']' || c == ':'

/-- The length of the name at the beginning of a text. -/
def nameLength (s : Text) : Nat := (s.takeWhile fun c => !endsName c).length

/-- Walk of `namesBehind`: `back` is the text before the present place, last character first, and
`skip` is what is left of the name that was read last. -/
def namesGo (head : Text) : Nat → Text → Text → List Text
  | 0, back, [] => if head.isPrefixOf back then [[]] else []
  | _ + 1, _, [] => []
  | skip + 1, back, c :: cs => namesGo head skip (c :: back) cs
  | 0, back, c :: cs =>
    if head.isPrefixOf back then
      if endsName c then
        [] :: (c :: cs).take (nameLength cs + 1) :: namesGo head (nameLength cs) (c :: back) cs
      else
        (c :: cs).take (nameLength (c :: cs)) ::
          namesGo head (nameLength (c :: cs) - 1) (c :: back) cs
    else namesGo head 0 (c :: back) cs

/-- **The names behind a module and a dot**, in order. -/
def namesBehind (module s : Text) : List Text := namesGo (module ++ ".").reverse 0 [] s

/-- The module in which a class is, when the classes of `new` have left `old`; what the code uses is
noted. -/
def moduleOf (old new : Text) (classes : List Text) (p : Progress) (name : Text) :
    Text × Progress :=
  if name == "QSound" then ("QtMultimedia", (p.note "QtMultimedia").note "QSound")
  else if name == "QStringListModel" then ("QtCore", p.note "QtCore")
  else if classes.contains name then (new, p.note new)
  else (old, p.note old)

/-- What retargeting a line has written so far. -/
structure Retargeting where
  /-- The names that are not used up. -/
  names : List Text
  written : Text
  /-- Occurrences without a name. -/
  missed : Nat
  progress : Progress

/-- The next name, if there is one, and its module. -/
def Retargeting.next (r : Retargeting) (choose : Progress → Text → Text × Progress) :
    Retargeting :=
  match r.names with
  | [] => { r with missed := r.missed + 1 }
  | name :: names =>
    let (module, p) := choose r.progress name.trim
    { r with names := names, written := r.written ++ module, progress := p }

/-- The pieces before the last one, each followed by the module of the next name. -/
def Retargeting.pieces (choose : Progress → Text → Text × Progress) :
    Retargeting → List Text → Retargeting
  | r, [] => r
  | r, [last] => { r with written := r.written ++ last }
  | r, piece :: rest =>
    if piece.isEmpty then Retargeting.pieces choose r rest
    else Retargeting.pieces choose (({ r with written := r.written ++ piece }).next choose) rest

/-- The note on a line that cannot be retargeted. -/
def retargetNote : Text := "# FIXME$ Ambiguous syntax, can't refactor it\n"

/-- What a line becomes, and how many of the following lines are passed over. -/
structure Retargeted where
  lines : List Text
  passOver : Nat
  progress : Progress

def retargetNames (old new : Text) (classes : List Text) (p : Progress) (line : Text)
    (names : List Text) : Except Failure Retargeted := do
  let choose := moduleOf old new classes
  let start : Retargeting := ⟨names, [], 0, p⟩
  let start := if line.startsWith old then start.next choose else start
  let r := start.pieces choose (line.splitOn old)
  let notes ← if r.missed == 0 then pure [] else do
    let indent ← line.indent
    pure (List.replicate r.missed [indent ++ retargetNote, line]).flatten
  return ⟨notes ++ [r.written], 2 * r.missed, r.progress⟩

def retargetLine (old new : Text) (classes : List Text) (p : Progress) (line : Text) :
    Except Failure Retargeted :=
  if !line.isCode || line.has " import " || !line.has old then .ok ⟨[line], 0, p⟩
  else if !splitModules.contains old then .error (.unknownName old)
  else
    match namesBehind old line with
    | [] => .ok ⟨[line], 0, p⟩
    | names => retargetNames old new classes p line names

/-- The lines, of which the first `passOver` are left out. -/
def retargetGo (old new : Text) (classes : List Text) :
    Nat → Progress → List Text → Except Failure (List Text × Progress)
  | _, p, [] => .ok ([], p)
  | skip + 1, p, _ :: lines => retargetGo old new classes skip p lines
  | 0, p, line :: lines => do
    let r ← retargetLine old new classes p line
    let (rest, p') ← retargetGo old new classes r.passOver r.progress lines
    return (r.lines ++ rest, p')

/-- **Name the classes of `new` that were named as classes of `old` by their new module.** -/
def retarget (old new : Text) (p : Progress) (lines : List Text) :
    Except Failure (List Text × Progress) :=
  match Catalogue.classesOf? new with
  | none => .error (.unknownName new)
  | some classes => retargetGo old new classes 0 p lines

end QtMigration
