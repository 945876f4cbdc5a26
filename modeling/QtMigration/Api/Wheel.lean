import QtMigration.Line.Indent
import QtMigration.Text.Between

/-!
# Api/Wheel — how far the wheel was turned

A handler of wheel events reads the distance off its event. Inside a handler, which lasts until a line
of code that is indented no deeper than its head, the distance is asked for by its new name.
-/

namespace QtMigration

/-- An open handler: the indentation of its head, and the call on its event. -/
structure WheelHandler where
  indent : Text
  call : Text
  deriving DecidableEq, Repr

/-- The name of the event in the head of a handler. -/
def wheelEvent? (line : Text) : Option Text :=
  if line.has "wheelEvent(" then
    Text.between? "def wheelEvent(self," (fun rest => rest.startsWith "):") line
  else none

def openHandler? (line : Text) : Except Failure (Option WheelHandler) :=
  match wheelEvent? line with
  | none => .ok none
  | some event => line.indent.map fun indent => some ⟨indent, event.trim ++ ".delta()"⟩

def handlerLine (h : WheelHandler) (line : Text) : Text :=
  if line.has h.call then line.replaceAll ".delta()" ".angleDelta().y()" else line

/-- The lines, the handler that is open before them given. -/
def wheelGo : Option WheelHandler → List Text → Except Failure (List Text)
  | _, [] => .ok []
  | h, line :: lines =>
    if !line.isCode then (wheelGo h lines).map (line :: ·)
    else do
      let inside ← match h with
        | none => pure none
        | some h => do
          let indent ← line.indent
          pure (if indent.le h.indent then none else some h)
      match inside with
      | some h => (wheelGo (some h) lines).map (handlerLine h line :: ·)
      | none => do
        let h' ← openHandler? line
        (wheelGo h' lines).map (line :: ·)

/-- **Wheel distances under their new name.** -/
def updateWheelEvents (lines : List Text) : Except Failure (List Text) := wheelGo none lines

end QtMigration
