import QtMigration.Catalogue.Discarded
import QtMigration.Line.Indent

/-!
# Api/Notes — notes on what the new library does not have

A line of code that uses something for which there is no replacement gets a note in front of it, at
the line's own indentation.
-/

namespace QtMigration

/-- Each line replaced by the lines that `f` makes of it. -/
def expandLines (f : Text → Except Failure (List Text)) : List Text → Except Failure (List Text)
  | [] => .ok []
  | line :: lines => do
    let here ← f line
    let rest ← expandLines f lines
    return here ++ rest

/-- A line with a note in front of it, if it is code and `concerns` it. -/
def noteLine (note : Text) (concerns : Text → Bool) (line : Text) : Except Failure (List Text) :=
  if line.isCode && concerns line then line.indent.map fun indent => [indent ++ note, line]
  else .ok [line]

/-- The lines with a note before each one that `concerns` selects. -/
def noteLines (note : Text) (concerns : Text → Bool) (lines : List Text) :
    Except Failure (List Text) :=
  expandLines (noteLine note concerns) lines

def noteScript : List Text → Except Failure (List Text) :=
  noteLines "# FIXME$ QtScript and QtScriptTools are no longer supported.\n"
    fun line => line.hasAny ["QtScript", "QScript"]

/-- **Notes on the XML module.** -/
def noteXml : List Text → Except Failure (List Text) :=
  noteLines "# FIXME$ QtXml is no longer supported.\n" fun line => line.has "QtXml"

/-- **Notes on declarative interfaces.** -/
def noteDeclarative : List Text → Except Failure (List Text) :=
  noteLines "# FIXME$ QtDeclarative module is no longer supported.\n"
    fun line => line.hasAny ["QtDeclarative", "QDeclarative", "QPyDeclarative"]

def noteItemAnimation : List Text → Except Failure (List Text) :=
  noteLines "# FIXME$ QGraphicsItemAnimation class is no longer supported.\n"
    fun line => line.has "QGraphicsItemAnimation"

/-- **Notes on OpenGL classes that were dropped.** -/
def noteOpenGL : List Text → Except Failure (List Text) :=
  noteLines "# FIXME$ Only QGLContext, QGLFormat and QGLWidget are supported.\n"
    fun line => line.has "QGL" && line.hasAny Catalogue.droppedOpenGL

end QtMigration
