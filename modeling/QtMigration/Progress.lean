import QtMigration.Signal.Signature

/-!
# Progress — what the passes of a conversion tell each other

Passes that come first note which modules the code now uses and which imports it has got; the passes that
update imports read these notes.
-/

namespace QtMigration

/-- What is fixed for a conversion. -/
structure Settings where
  target : Target
  /-- The unit of indentation by which wrapped imports are aligned. -/
  indent : Text
  deriving DecidableEq, Repr

/-- What has been found and done so far. -/
structure Progress where
  /-- The modules, and the few classes, that the converted code is known to use. -/
  used : List Text
  /-- A signal has been declared. -/
  signalDeclared : Bool
  /-- The widgets module, or a class of it, has been imported. -/
  widgetsImported : Bool
  deriving DecidableEq, Repr

namespace Progress

def initial : Progress := ⟨[], false, false⟩

def uses (p : Progress) (name : Text) : Bool := p.used.contains name

def note (p : Progress) (name : Text) : Progress :=
  if p.uses name then p else { p with used := name :: p.used }

def forget (p : Progress) (name : Text) : Progress :=
  { p with used := p.used.filter (· != name) }

/-- Note that the widgets module has been imported. -/
def withWidgets (p : Progress) : Progress := { p with widgetsImported := true }

end Progress

end QtMigration
