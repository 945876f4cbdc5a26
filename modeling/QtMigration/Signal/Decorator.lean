import QtMigration.Signal.Signature

/-!
# Signal/Decorator — decorators of signals and slots

The argument types in a decorator are cleaned like those of a signature, and strings are named without quotes.
-/

namespace QtMigration

/-- A decorator line with its types cleaned. -/
def cleanDecorator (target : Target) (line : Text) : Text :=
  (cleanTypes target line).replaceEach [("'str'", "str"), ("\"str\"", "str")]

/-- A line with its signal decorator cleaned. -/
def signalDecorator (target : Target) (line : Text) : Text :=
  if line.has "@pyqtSignal" then cleanDecorator target line else line

/-- A line with its slot decorator renamed and cleaned. -/
def slotDecorator (target : Target) (line : Text) : Text :=
  let line' := line.replaceAll "@pyqtSignature" "@pyqtSlot"
  if line'.has "@pyqtSlot" then cleanDecorator target line' else line'

def cleanSignalDecorators (target : Target) (lines : List Text) : List Text :=
  lines.map (signalDecorator target)

def cleanSlotDecorators (target : Target) (lines : List Text) : List Text :=
  lines.map (slotDecorator target)

end QtMigration
