import QtMigration.Api.Application
import QtMigration.Api.Date
import QtMigration.Api.DesktopServices
import QtMigration.Api.Dialog
import QtMigration.Api.Directory
import QtMigration.Api.FromUtf8
import QtMigration.Api.Graphics
import QtMigration.Api.Header
import QtMigration.Api.Localized
import QtMigration.Api.Rename
import QtMigration.Api.StringTypes
import QtMigration.Api.Wheel
import QtMigration.Api.Widgets
import QtMigration.Import.Survey
import QtMigration.Import.Update
import QtMigration.Report
import QtMigration.Retarget
import QtMigration.Signal.Decorator
import QtMigration.Signal.Emission
import QtMigration.Source.Reading

/-!
# Conversion — converting one source

`convertLines` runs the passes over the logical lines in their order.
-/

namespace QtMigration

/-! ## The passes -/

def convertSignals (target : Target) (lines : List Text) : Run Declaring := do
  let emitted ← updateEmissions target lines
  let connected ← updateConnections target emitted.lines
  let lines ← updateDisconnections target connected.lines
  return ⟨cleanSlotDecorators target (cleanSignalDecorators target lines),
    emitted.declared || connected.declared⟩

/-- The passes that name classes by their new modules. -/
def convertModules (s : Survey) (p : Progress) (lines : List Text) :
    Except Failure (List Text × Progress) := do
  let (lines, p) ← if s.gui then do
      let (lines, p) ← retarget "QtGui" "QtCore" p lines
      let (lines, p) ← retarget "QtGui" "QtWidgets" p lines
      retarget "QtGui" "QtPrintSupport" p lines
    else pure (lines, p)
  if s.web then retarget "QtWebKit" "QtWebKitWidgets" p lines else return (lines, p)

/-- The passes for single parts of the library. -/
def convertApi (p : Progress) (lines : List Text) : Except Failure (List Text) := do
  let lines ← updateFileDialogs lines
  let lines := updateDirectories lines
  let (lines, p) ← ensureWidgets p lines
  let lines ← noteScript lines
  let lines ← noteXml lines
  let lines ← noteDeclarative lines
  let lines ← noteItemAnimation lines
  let lines ← noteOpenGL lines
  let lines := updateLocalizedTexts lines
  let lines ← updateWheelEvents lines
  let lines := updateLayoutMargins lines
  let (lines, _) ← updateDesktopServices p lines
  let lines := updateDates lines
  let lines ← updateGraphics lines
  let lines ← updateHeaders lines
  let lines := updateInputDialogs lines
  let lines ← updateChars lines
  let lines ← updateStrings lines
  return updateApplication (updateClassNames (updateVariants (updateMessageHandlers lines)))

/-- The unit of indentation of a source: the first character of its first line's indentation, or a
blank. -/
def indentUnit (lines : List Text) : Except Failure Text :=
  (Text.indent lines.flatten).map fun indent => if indent.isEmpty then " " else indent.take 1

/-- The conversion of lines that need one. -/
def runPasses (target : Target) (s : Survey) (indent : Text) (lines : List Text) :
    Run (List Text) := do
  let cfg : Settings := ⟨target, indent⟩
  let lines ← if target == .new then removeConversions lines else pure lines
  let signals ← if s.signals then convertSignals target lines else pure ⟨lines, false⟩
  let p : Progress := { Progress.initial with signalDeclared := signals.declared }
  let (lines, p) ← if target == .new then convertModules s p signals.lines else pure (signals.lines, p)
  let (lines, p) ← updateImports cfg p lines
  if target == .new then convertApi p lines else return lines

/-- **The logical lines of a source, converted**; nothing if no conversion is needed. -/
def convertLines (target : Target) (lines : List Text) : Run (Option (List Text)) := do
  let indent ← indentUnit lines
  let s := survey lines
  if s.isEmpty then return none
  return some (← runPasses target s indent lines)

/-! ## One source -/

/-- Something that a conversion does. -/
inductive Event
  /-- Print a message, and log it. -/
  | say (message : Text)
  /-- Print a text. -/
  | print (text : Text)
  /-- Write the converted source. -/
  | save (bytes : Bytes)
  deriving DecidableEq, Repr

/-- The course of a conversion. -/
structure Conversion where
  events : List Event
  failure : Option Failure

namespace Conversion

/-- The conversion with `events` before its own. -/
def after (events : List Event) (c : Conversion) : Conversion := ⟨events ++ c.events, c.failure⟩

def printed (c : Conversion) : Text :=
  (c.events.map fun
    | .say m => m ++ "\n"
    | .print t => t
    | .save _ => []).flatten

def logged (c : Conversion) : Text :=
  (c.events.map fun
    | .say m => m ++ "\n"
    | _ => []).flatten

/-- What is written, if the conversion came so far. -/
def saved? (c : Conversion) : Option Bytes :=
  c.events.findSome? fun
    | .save b => some b
    | _ => none

end Conversion

def printEvent (text : Text) : List Event := if text.isEmpty then [] else [.print text]

/-- The end of a conversion: the text is written, then the notes are reported. -/
def finish (label : Text) (lines : List Text) : Conversion :=
  let (lines', notes) := collectNotes lines
  match (Codec.ofLabel? label).bind fun codec => codec.encode? lines'.flatten with
  | none => ⟨[], some .unencodable⟩
  | some bytes =>
    ⟨.save bytes :: ((notesReport notes).map Event.say).toList ++ [.say "  File updated.\n"], none⟩

/-- The conversion of logical lines, once they have been read. -/
def convertRead (target : Target) (label : Text) (lines : List Text) : Conversion :=
  match convertLines target lines with
  | ⟨printed, .error f⟩ => ⟨printEvent printed, some f⟩
  | ⟨printed, .ok none⟩ => ⟨printEvent printed ++ [.say "  No changes needed.\n"], none⟩
  | ⟨printed, .ok (some lines')⟩ => (finish label lines').after (printEvent printed)

/-- The message on a source that cannot be read. -/
def unreadableMessage (path reason : Text) : Text :=
  "  Error: Unable to read the file: " ++ path ++ "\n  Reason: " ++ reason ++ "\n"

def announce (path : Text) : Event := .say ("Processing file: `" ++ path ++ "`")

/-- The conversion of one source after its announcement. -/
def convertContent (target : Target) (path : Text) (file : Except FileFault Bytes) : Conversion :=
  let r := readSource path file
  let rest : Conversion := match r.outcome with
    | .error f => ⟨[], some f⟩
    | .ok .unreadable => ⟨[.say (unreadableMessage path r.lastError)], none⟩
    | .ok .unscannable => ⟨[], some .noLogicalLines⟩
    | .ok (.lines lines) => convertRead target (r.encoding.getD []) lines
  rest.after (printEvent r.printed)

/-- **The conversion of one source**, given by its path and what opening it gives. -/
def convertSource (target : Target) (path : Text) (file : Except FileFault Bytes) : Conversion :=
  (convertContent target path file).after [announce path]

end QtMigration
