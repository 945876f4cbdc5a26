import QtMigration.CommandLine.Switch
import QtMigration.Signal.Signature

/-!
# CommandLine/Options — what a command line asks for

The arguments are taken from the left: the first plain one is the path, and plain ones behind it are left
over; a switch takes the plain argument behind it if it has a value.
-/

namespace QtMigration

/-- **What is asked for.** -/
structure Options where
  path : Text
  noSubdirectories : Bool
  followLinks : Bool
  output : Option Text
  diff : Option Text
  diffEach : Bool
  noLog : Bool
  target : Target
  deriving DecidableEq, Repr

namespace Options

/-- The name that asks for comparisons to be named after what is converted. -/
def unnamedDiff : Text := "same_as"

def initial : Options := ⟨[], false, false, none, none, false, false, .new⟩

/-- The options with a switch that has no value. -/
def turnOn (o : Options) : Switch → Options
  | .noSubdirectories => { o with noSubdirectories := true }
  | .followLinks => { o with followLinks := true }
  | .diffEach => { o with diffEach := true }
  | .noLog => { o with noLog := true }
  | .keepLibrary => { o with target := .old }
  | _ => o

/-- The options with the value of a switch. -/
def setValue (o : Options) (switch : Switch) (value : Text) : Options :=
  match switch with
  | .output => { o with output := some value }
  | .diff => { o with diff := if value.isEmpty then none else some value }
  | _ => o

/-- The options with a switch that could have a value and has none. -/
def setBare (o : Options) : Switch → Options
  | .output => { o with output := none }
  | .diff => { o with diff := some unnamedDiff }
  | _ => o

end Options

/-- The arguments taken so far. -/
structure Intake where
  options : Options
  hasPath : Bool
  leftOver : List Text

namespace Intake

def initial : Intake := ⟨.initial, false, []⟩

def leave (i : Intake) (s : Text) : Intake := { i with leftOver := i.leftOver ++ [s] }

def takePath (i : Intake) (s : Text) : Intake :=
  { i with options := { i.options with path := s }, hasPath := true }

def takeSwitch (i : Intake) (switch : Switch) : Intake :=
  { i with options := i.options.turnOn switch }

def takeValue (i : Intake) (switch : Switch) (value : Text) : Intake :=
  { i with options := i.options.setValue switch value }

/-- A switch is taken without its value. -/
def takeBare (i : Intake) (switch : Switch) : Intake :=
  { i with options := i.options.setBare switch }

/-- The outcome when all arguments are taken. -/
def finish (i : Intake) : Except UsageFault (Option Options) :=
  if !i.hasPath then .error .missingPath
  else if !i.leftOver.isEmpty then .error (.unrecognized i.leftOver)
  else .ok (some i.options)

end Intake

/-- Help was asked for by `-h`, and this stands behind it. -/
def checkHelp (nextIsPlain : Bool) : Text → Except UsageFault (Option Options)
  | ['h'] => .ok none
  | 'h' :: rest => checkHelp nextIsPlain rest
  | ['o'] => if nextIsPlain then .ok none else .error (.missingValue .output)
  | 'o' :: _ => .ok none
  | rest => .error (.surplusValue .help rest)

/-- The first argument, if it is a plain one. -/
def plainHead? : List (Text × ArgumentKind) → Option Text
  | (s, .plain) :: _ => some s
  | _ => none

/-- The number of separators the arguments begin with, which is at most one. -/
def separatorCount : List (Text × ArgumentKind) → Nat
  | (_, .separator) :: _ => 1
  | _ => 0

/-- **Taking the arguments from the left.** -/
def takeAll : Nat → Intake → List (Text × ArgumentKind) → Except UsageFault (Option Options)
  | _, i, [] => i.finish
  | n + 1, i, _ :: rest => takeAll n i rest
  | 0, i, (s, .plain) :: rest =>
    if i.hasPath then takeAll 0 (i.leave s) rest
    else takeAll (separatorCount rest) (i.takePath s) rest
  | 0, i, (s, .separator) :: rest =>
    if i.hasPath then takeAll 0 (i.leave s) rest else takeAll 0 i rest
  | 0, i, (s, .unknown) :: rest => takeAll 0 (i.leave s) rest
  | 0, i, (_, .switch switch short (some value)) :: rest =>
    if switch == .help && short then checkHelp (plainHead? rest).isSome value
    else if switch.valueRule == .absent then .error (.surplusValue switch value)
    else if value == separator then takeAll 0 (i.takeBare switch) rest
    else takeAll 0 (i.takeValue switch value) rest
  | 0, i, (_, .switch switch _ none) :: rest =>
    match switch.valueRule, plainHead? rest with
    | .absent, _ => if switch == .help then .ok none else takeAll 0 (i.takeSwitch switch) rest
    | _, some value => takeAll 1 (i.takeValue switch value) rest
    | .optional, none => takeAll 0 (i.takeBare switch) rest
    | .required, none => .error (.missingValue switch)

/-- **The options of a command line**; none if it asks for help. -/
def parseOptions (args : List Text) : Except UsageFault (Option Options) :=
  (classifyAll args).bind (takeAll 0 .initial)

end QtMigration
