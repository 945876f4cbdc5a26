import QtMigration.Text.Digit
import QtMigration.Text.Quoted
import QtMigration.Text.Search

/-!
# CommandLine/Switch — the switches and how an argument names one

A long switch may be shortened as long as only one switch begins with it, and takes its value after an equals
sign; the value of a short one may stand right behind it.
-/

namespace QtMigration

/-- What can be asked for on the command line. -/
inductive Switch
  | help
  | noSubdirectories
  | followLinks
  | output
  | diff
  | diffEach
  | noLog
  | keepLibrary
  deriving DecidableEq, Repr

/-- Whether a switch has a value. -/
inductive ValueRule
  | absent
  | required
  | optional
  deriving DecidableEq, Repr

namespace Switch

def valueRule : Switch → ValueRule
  | output => .required
  | diff => .optional
  | _ => .absent

/-- The spellings of a switch, together. -/
def label : Switch → Text
  | help => "-h/--help"
  | noSubdirectories => "--nosubdir"
  | followLinks => "--followlinks"
  | output => "-o"
  | diff => "--diff"
  | diffEach => "--diffs"
  | noLog => "--nolog"
  | keepLibrary => "--nopyqt5"

def spellings : List (Text × Switch) :=
  [("-h", help), ("--help", help), ("--nosubdir", noSubdirectories), ("--followlinks", followLinks),
    ("-o", output), ("--diff", diff), ("--diffs", diffEach), ("--nolog", noLog),
    ("--nopyqt5", keepLibrary)]

def ofSpelling? (s : Text) : Option Switch := spellings.lookup s

end Switch

/-- What is wrong with a command line. -/
inductive UsageFault
  /-- A shortened switch with more than one meaning. -/
  | ambiguous (argument : Text) (candidates : List Text)
  /-- A value for a switch that has none. -/
  | surplusValue (switch : Switch) (value : Text)
  /-- No value for a switch that needs one. -/
  | missingValue (switch : Switch)
  /-- No path. -/
  | missingPath
  /-- Arguments that are left over. -/
  | unrecognized (arguments : List Text)
  deriving DecidableEq, Repr

def UsageFault.message : UsageFault → Text
  | ambiguous argument candidates =>
    "ambiguous option: " ++ argument ++ " could match " ++ Text.commaList candidates
  | surplusValue switch value =>
    "argument " ++ switch.label ++ ": ignored explicit argument " ++ Text.quoted value
  | missingValue switch => "argument " ++ switch.label ++ ": expected 1 argument"
  | missingPath => "the following arguments are required: path"
  | unrecognized arguments => "unrecognized arguments: " ++ Text.join " " arguments

/-! ## Arguments -/

/-- The spelling of the separator, behind which no switches follow. -/
def separator : Text := "--"

/-- What an argument is. -/
inductive ArgumentKind
  /-- Not a switch: the path, or the value of a switch. -/
  | plain
  /-- The sign that no switches follow. -/
  | separator
  /-- A switch, perhaps with a value in the same argument: behind an equals sign, or right behind the short
spelling. -/
  | switch (switch : Switch) (short : Bool) (value : Option Text)
  /-- A switch that there is not. -/
  | unknown
  deriving DecidableEq, Repr

/-- Digits, or digits around a point of which those before it may be missing. -/
def isUnsignedNumber (s : Text) : Bool :=
  match s.dropWhile Text.isDecimal with
  | [] => !s.isEmpty
  | '.' :: digits => !digits.isEmpty && digits.all Text.isDecimal
  | _ => false

def isNegativeNumber (s : Text) : Bool :=
  match s with
  | '-' :: rest => isUnsignedNumber (if Text.endsWith rest "\n" then Text.dropEnd rest 1 else rest)
  | _ => false

/-- The text before the first equals sign, and the value behind it if there is one. -/
def splitValue (s : Text) : Text × Option Text :=
  match s.cut? "=" with
  | some (head, value) => (head, some value)
  | none => (s, none)

/-- The switches that a shortened argument may stand for, by their spellings. -/
def candidates (s : Text) : List (Text × ArgumentKind) :=
  if s.startsWith "--" then
    let (head, value) := splitValue s
    Switch.spellings.filterMap fun (spelling, switch) =>
      if spelling.startsWith head then some (spelling, .switch switch false value) else none
  else
    Switch.spellings.filterMap fun (spelling, switch) =>
      if spelling == s.take 2 then some (spelling, .switch switch true (some (s.drop 2)))
      else if spelling.startsWith s then some (spelling, .switch switch false none) else none

/-- An argument that begins with a hyphen and is not the spelling of a switch. -/
def classifyShortened (s : Text) : Except UsageFault ArgumentKind :=
  match candidates s with
  | [] => .ok (if isNegativeNumber s || s.contains ' ' then .plain else .unknown)
  | [(_, kind)] => .ok kind
  | several => .error (.ambiguous s (several.map Prod.fst))

/-- **What an argument is.** -/
def classify (s : Text) : Except UsageFault ArgumentKind :=
  if s == separator then .ok .separator
  else if !s.startsWith "-" || s == "-" then .ok .plain
  else
    match Switch.ofSpelling? s, splitValue s with
    | some switch, _ => .ok (.switch switch false none)
    | none, (head, some value) =>
      match Switch.ofSpelling? head with
      | some switch => .ok (.switch switch (head.length == 2) (some value))
      | none => classifyShortened s
    | none, _ => classifyShortened s

/-- The arguments with what they are; behind the separator all are plain. -/
def classifyAll : List Text → Except UsageFault (List (Text × ArgumentKind))
  | [] => .ok []
  | s :: ss =>
    match classify s with
    | .error f => .error f
    | .ok .separator => .ok ((s, .separator) :: ss.map fun a => (a, .plain))
    | .ok kind => (classifyAll ss).map fun rest => (s, kind) :: rest

end QtMigration
