import QtMigration.Encoding.Codec
import QtMigration.FileTree.Fault
import QtMigration.Token.Basic

/-!
# Failure — the causes for which a conversion breaks off

Every cause is one constructor of `Failure`, and `Failure.message` is the only place that words them.
-/

namespace QtMigration

/-- Why a conversion breaks off. -/
inductive Failure
  /-- A line or a piece was asked for that is not there. -/
  | pieceMissing
  /-- A line was to be replaced that is not there. -/
  | placeMissing
  /-- The text ends inside parentheses or inside a string. -/
  | textEnds
  /-- The first element of an empty list was asked for. -/
  | nothingLeft
  /-- A text that should have two parts has fewer. -/
  | tooFewParts (found : Nat)
  /-- A text that should have two parts has more. -/
  | tooManyParts
  /-- A text was to be cut at an empty one. -/
  | emptySeparator
  /-- A name that should be in a list is not. -/
  | nameNotListed
  /-- The source could not be cut into logical lines. -/
  | noLogicalLines
  /-- A wrapped import cannot be aligned by an indentation that is not one blank. -/
  | noAlignment
  /-- A declaration has no closed pair of parentheses. -/
  | noParentheses
  /-- A value was asked for before it was set. -/
  | unset (name : Text)
  /-- A name that no table knows. -/
  | unknownName (name : Text)
  /-- The tokens break off. -/
  | tokens (fault : ScanFault)
  /-- No encoding has this label. -/
  | unknownEncoding (label : Text)
  /-- The bytes are not text in the encoding. -/
  | undecodable (fault : DecodeFault)
  /-- The text has a character that the encoding lacks. -/
  | unencodable
  /-- An operation on a file failed. -/
  | file (fault : FileFault)
  /-- A file was to be copied onto itself. -/
  | sameFile (source copy : Text)
  /-- A path was asked for and none is given. -/
  | noPath
  /-- A repetition that goes on until nothing is left to do was given up. -/
  | unsettled
  deriving DecidableEq, Repr

namespace Failure

def message : Failure → Text
  | pieceMissing => "list index out of range"
  | placeMissing => "list assignment index out of range"
  | textEnds => "string index out of range"
  | nothingLeft => "pop from empty list"
  | tooFewParts n => "not enough values to unpack (expected 2, got " ++ Text.ofNat n ++ ")"
  | tooManyParts => "too many values to unpack (expected 2)"
  | emptySeparator => "empty separator"
  | nameNotListed => "list.remove(x): x not in list"
  | noLogicalLines => "can only join an iterable"
  | noAlignment => "can't multiply sequence by non-int of type 'float'"
  | noParentheses => "'NoneType' object has no attribute 'groups'"
  | unset name =>
    "cannot access local variable '" ++ name ++ "' where it is not associated with a value"
  | unknownName name => Text.quoted name
  | tokens fault => fault.message
  | unknownEncoding label => "unknown encoding: " ++ label
  | undecodable fault => fault.message
  | unencodable => "character not in the encoding"
  | file fault => fault.message
  | sameFile source copy =>
    Text.quoted source ++ " and " ++ Text.quoted copy ++ " are the same file"
  | noPath => "stat: path should be string, bytes, os.PathLike or integer, not NoneType"
  | unsettled => "the conversion does not come to an end"

end Failure

/-- **A computation that prints and may break off.** -/
structure Run (α : Type) where
  printed : Text
  outcome : Except Failure α

namespace Run

variable {α β : Type}

def done (a : α) : Run α := ⟨[], .ok a⟩

def fail (f : Failure) : Run α := ⟨[], .error f⟩

def print (s : Text) : Run Unit := ⟨s, .ok ()⟩

/-- Print nothing and answer as `x` does. -/
def ofExcept (x : Except Failure α) : Run α := ⟨[], x⟩

/-- `x`, then `f` on its answer; the prints follow each other. -/
def andThen (x : Run α) (f : α → Run β) : Run β :=
  match x.outcome with
  | .ok a => ⟨x.printed ++ (f a).printed, (f a).outcome⟩
  | .error e => ⟨x.printed, .error e⟩

instance : Monad Run where
  pure := done
  bind := andThen

instance : MonadLift (Except Failure) Run := ⟨ofExcept⟩

end Run

end QtMigration
