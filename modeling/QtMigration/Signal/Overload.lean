import QtMigration.Signal.Signature

/-!
# Signal/Overload — picking signals and slots out of an argument list

Small readers for a list of argument texts that was cut at every comma: the signal at its front, a
slot anywhere in it, the values behind the signal, and the overload that a signal's string names.
-/

namespace QtMigration

/-- The text behind `head` and one character of `opens`, up to the first character of `stops`. -/
def quotedAfter? (head opens stops : Text) : Text → Option Text
  | [] => none
  | c :: cs =>
    match head.isPrefixOf (c :: cs), (c :: cs).drop head.length with
    | true, o :: rest =>
      if opens.contains o then
        if rest.any stops.contains then some (rest.takeWhile fun d => !stops.contains d) else none
      else quotedAfter? head opens stops cs
    | _, _ => quotedAfter? head opens stops cs

/-- Overloads of common signals, with their new spelling. -/
def commonOverloads : List (Text × Text) :=
  [("clicked(bool)", "clicked[bool]"), ("clicked()", "clicked[()]"),
   ("triggered(bool)", "triggered[bool]"), ("triggered()", "triggered[()]")]

/-- The overload that a declaration of a signal names. -/
def overload? (target : Target) (s : Text) : Option Text :=
  (quotedAfter? "SIGNAL(" "\"' " "\"'," s).map fun sig =>
    match commonOverloads.find? (·.1 == sig) with
    | some (_, new) => new
    | none => cleanSignature target sig

/-- The first of the texts that declares a slot with a name in quotes, and that name. -/
def findSlot? : List Text → Option (Text × Text)
  | [] => none
  | s :: ss =>
    if s.has "SLOT" then
      match quotedAfter? "SLOT(" "\"'" "\"'" s with
      | some name => some (s, name.firstPiece "(")
      | none => findSlot? ss
    else findSlot? ss

/-- **Take the slot out of an argument list**: its name, and the arguments without it. -/
def takeSlot (args : List Text) : Text × List Text :=
  match findSlot? args with
  | none => ([], args)
  | some (s, name) => (name.trim, if name.isEmpty then args else args.erase s)

/-- Walk of `takeSignal`: `signal` grows by one argument until it ends in a quote and a closing
parenthesis. -/
def takeSignalGo (signal : Text) : List Text → Option (Text × List Text)
  | [] => none
  | s :: ss =>
    if signal.endsWithAny ["\")", "')"] then some (signal, s :: ss)
    else takeSignalGo (signal ++ ", " ++ s) ss

/-- The signal at the front of an argument list and the arguments behind it; nothing if no argument
follows it. -/
def takeSignal (args : List Text) : Except Failure (Option (Text × List Text)) :=
  match args with
  | [] => .error .nothingLeft
  | s :: ss => .ok (takeSignalGo s ss)

/-- The values behind the signal of an emission, cut at every comma. -/
def emittedValues (s : Text) : List Text :=
  ((s.splitOn ",").drop 1).map fun v => ((v.trim).trimOf ")").trim

/-- The number of pieces between commas. -/
def countReferences (s : Text) : Nat := (s.splitOn ",").length

/-- The text without one of `tails` at its end; as many characters are cut off as `width` says. -/
def cutTail (s : Text) (tails : List Text) (width : Nat) : Text :=
  if s.endsWithAny tails then (if width == 0 then [] else s.dropEnd width) else s

/-- The rows of a text on one, leading white space dropped from all but the first. -/
def onOneRow (s : Text) : Text :=
  match s.rows with
  | [] => []
  | first :: rest => first ++ (rest.map Text.trimLeft).flatten

end QtMigration
