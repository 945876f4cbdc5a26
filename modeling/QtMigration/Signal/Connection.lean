import QtMigration.Signal.Declaration

/-!
# Signal/Connection — connecting and disconnecting signals

An old-style call names the sender, the signal, and a slot, a further signal or a callable, with or without
the object it belongs to.
-/

namespace QtMigration

/-- A connection of a signal. -/
structure Connection where
  sender : Text
  signal : Text
  signalTypes : Text
  /-- The object of the slot; empty if there is none. -/
  receiver : Text
  slot : Text
  slotTypes : Text
  /-- The declaration of the further signal that the signal is connected to; empty for a slot. -/
  relayed : Text
  /-- The arguments behind the slot. -/
  options : Text
  deriving DecidableEq, Repr

namespace Connection

/-- A piece of text between `before` and `after`, left out when it is empty. -/
def wrapped (before s after : Text) : Text := if s.isEmpty then [] else before ++ s ++ after

/-- The new-style call, for the method `verb`. -/
def render (c : Connection) (indent verb : Text) : Text :=
  indent ++ c.sender ++ "." ++ c.signal ++ wrapped "[" c.signalTypes "]" ++ "." ++ verb ++ "(" ++
    wrapped "" c.receiver "." ++ c.slot ++
    (if c.relayed.isEmpty then [] else wrapped "[" c.slotTypes "]") ++
    wrapped ", " c.options "" ++ ")\n"

end Connection

/-- The slot's side of a connection: the object, the declaration, and what follows it. -/
structure Slot where
  receiver : Text
  declaration : Text
  options : Text

/-- The declaration of a further signal; empty for a slot. -/
def relayOf (declaration : Text) : Text :=
  if declaration.has "SIGNAL(" then declaration else []

/-- The connection of the signal `signal` of `sender` to a declared slot or signal. -/
def connectionTo (target : Target) (sender : Text) (signal : List Text) (slot : Slot) :
    Run Connection := do
  let parts ← signature target slot.declaration
  return ⟨sender, signatureName signal, signatureTypes signal, slot.receiver, signatureName parts,
    signatureTypes parts, relayOf slot.declaration, slot.options⟩

def connectionToCallable (sender : Text) (signal : List Text) (callable options : Text) :
    Connection :=
  ⟨sender, signatureName signal, signatureTypes signal, [], callable, [], [], options⟩

/-- The connection that a call to connect makes; nothing if its arguments have another form. -/
def Connection.ofConnect? (target : Target) (args : List Text) : Run (Option Connection) := do
  match args with
  | sender :: signal :: third :: rest =>
    if rest.length > 2 || !signal.has "SIGNAL(" then return none
    let parts ← signature target signal
    if isDeclared third then
      let receiver : Text := if third.has "SIGNAL(" then "self" else ""
      return some (← connectionTo target sender parts ⟨receiver, third, Text.commaList rest⟩)
    match rest with
    | fourth :: others =>
      if isDeclared fourth then
        return some (← connectionTo target sender parts ⟨third, fourth, Text.commaList others⟩)
      else return some (connectionToCallable sender parts third (Text.commaList rest))
    | [] => return some (connectionToCallable sender parts third [])
  | _ => return none

/-- The connection that a call to disconnect undoes; nothing if its arguments have another form. -/
def Connection.ofDisconnect? (target : Target) (args : List Text) : Run (Option Connection) := do
  match args with
  | sender :: signal :: third :: rest =>
    if rest.length > 1 || !signal.has "SIGNAL(" then return none
    let parts ← signature target signal
    if isDeclared third then
      let receiver : Text := if third.has "SIGNAL(" then "self" else ""
      return some (← connectionTo target sender parts ⟨receiver, third, []⟩)
    match rest with
    | fourth :: _ =>
      if isDeclared fourth then
        return some (← connectionTo target sender parts ⟨third, fourth, []⟩)
      else return none
    | [] => return some (connectionToCallable sender parts third [])
  | _ => return none

/-- The text between the parentheses of the first call of `method` on a line: up to the last closing
parenthesis before the next call of it. -/
def callContent? (line method : Text) : Option Text :=
  match line.splitOn method with
  | _ :: rest :: _ => rest.beforeLast? ')'
  | _ => none

/-- The warning about a call of another form. -/
def callWarning (verb line : Text) : Text :=
  "WARNING: Invalid " ++ verb ++ "() syntax:" ++ line ++ "\n"

/-- The new-style line and the connection it makes, for a line that has an old-style call of `verb`;
nothing for any other line. -/
def updateCall (verb : Text) (parse : List Text → Run (Option Connection)) (line : Text) :
    Run (Option (Text × Connection)) := do
  let method := "." ++ verb ++ "("
  if !line.isCode || !line.has method || !line.has "SIGNAL(" then return none
  match callContent? line method with
  | none => return none
  | some content =>
    let args ← splitArguments content
    match ← parse args with
    | none =>
      Run.print (callWarning verb line)
      return none
    | some c =>
      let indent ← line.indent
      return some (c.render indent verb, c)

/-- The line at `i` with its connection in the new style; a signal that it relays to is declared. -/
def connectAt (target : Target) (i : Nat) (lines : List Text) : Run Declared := do
  match lines[i]? with
  | none => return ⟨lines, 0⟩
  | some line =>
    match ← updateCall "connect" (Connection.ofConnect? target) line with
    | none => return ⟨lines, 0⟩
    | some (line', c) =>
      let lines' := lines.set i line'
      if c.relayed.isEmpty then return ⟨lines', 0⟩
      else declareSignal target lines' i c.relayed

/-- **Connections in the new style.** -/
def updateConnections (target : Target) (lines : List Text) : Run Declaring :=
  visitLines (connectAt target) lines.length 0 ⟨lines, false⟩

/-- One line with its disconnection in the new style. -/
def disconnectLine (target : Target) (line : Text) : Run Text := do
  match ← updateCall "disconnect" (Connection.ofDisconnect? target) line with
  | none => return line
  | some (line', _) => return line'

/-- **Disconnections in the new style.** -/
def updateDisconnections (target : Target) : List Text → Run (List Text)
  | [] => return []
  | line :: lines => do
    let line' ← disconnectLine target line
    return line' :: (← updateDisconnections target lines)

end QtMigration
