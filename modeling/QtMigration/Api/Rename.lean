import QtMigration.Catalogue.Discarded
import QtMigration.Line.Kind

/-!
# Api/Rename — names that are replaced throughout the code

Some names are replaced wherever they stand in a line of code.
-/

namespace QtMigration

/-- Replacements on lines of code; other lines are kept. -/
def renameInCode (rules : List (Text × Text)) (lines : List Text) : List Text :=
  lines.map fun line => if line.isCode then line.replaceEach rules else line

/-- **The message handler under its new name.** -/
def updateMessageHandlers : List Text → List Text :=
  renameInCode [("qInstallMsgHandler(", "qInstallMessageHandler(")]

/-- **Variants without their superfluous conversions.** -/
def updateVariants : List Text → List Text :=
  renameInCode (Catalogue.variantMethods.map fun m => ("." ++ m ++ "()", []))

/-- **Classes under their new names.** -/
def updateClassNames : List Text → List Text :=
  renameInCode [("QMatrix", "QTransform"), ("QIconEngineV2", "QIconEngine")]

end QtMigration
