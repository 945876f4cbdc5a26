import QtMigration.Conversion

/-!
# Workload/Sources — sources of any size, for measuring the passes

Each workload is a family of sources that grows with a number and keeps one group of passes busy.
-/

namespace QtMigration

namespace Workload

/-- The `i`-th of the texts, starting over at the end. -/
def cycle (texts : List Text) (i : Nat) : Text := (texts[i % texts.length]?).getD []

/-! ## Signals -/

/-- One connection, disconnection or emission; the forms follow each other. -/
def signalLine (i : Nat) : Text :=
  let n := Text.ofNat i
  let sender : Text := "self.a" ++ n ++ ", SIGNAL(\"sig" ++ n
  let call : Text := match i % 6 with
    | 0 => "self.connect(" ++ sender ++ "(int, QString)\"), self.cb" ++ n ++ ")"
    | 1 => "self.connect(" ++ sender ++ "(int)\"), self, SLOT(\"slot" ++ n ++ "(int)\"))"
    | 2 => "self.connect(" ++ sender ++ "()\"), self, SIGNAL(\"out" ++ n ++ "()\"))"
    | 3 => "self.disconnect(" ++ sender ++ "(int)\"), self.slot" ++ n ++ ")"
    | 4 => "self.emit(SIGNAL(\"ev" ++ n ++ "(int, int)\"), " ++ n ++ ", " ++ n ++ ")"
    | _ => "self.connect(" ++ sender ++ "(QString)\"), lambda s, i=" ++ n ++ ": fn(\"(x)\", s))"
  "        " ++ call ++ "\n"

/-- A class with `n` connections, disconnections and emissions. -/
def signalSource (n : Nat) : List Text :=
  ["from PyQt4 import QtCore, QtGui\n", "class Klass(QtCore.QObject):\n",
    "    def __init__(self):\n"].map String.toList ++ (List.range n).map signalLine

/-- The passes for signals on `n` of them. -/
def convertSignalSource (n : Nat) : Run (List Text) :=
  return (← convertSignals .new (signalSource n)).lines

/-! ## Modules -/

/-- Classes of which some stay in their module and some move to another one. -/
def mixedClasses : List Text :=
  ["QWidget", "QPushButton", "QPrinter", "QSound", "QStringListModel", "QColor", "QItemSelection",
    "QVBoxLayout", "QPixmap", "QPainter"]

/-- A source with `n` references to classes. -/
def moduleSource (n : Nat) : List Text :=
  "from PyQt4 import QtGui\n".toList :: (List.range n).map fun i =>
    "obj" ++ Text.ofNat i ++ " = QtGui." ++ cycle mixedClasses i ++ "()\n"

/-- The passes for modules on `n` references. -/
def convertModuleSource (n : Nat) : Run (List Text) :=
  return (← convertModules ⟨true, false, true, false⟩ .initial (moduleSource n)).1

/-! ## Imports -/

def importedClasses (n : Nat) : List Text :=
  (Catalogue.core ++ Catalogue.gui ++ Catalogue.widgets ++ Catalogue.printSupport ++
    Catalogue.multimedia).take n

/-- A source with every form of import, two of them with `n` classes, one on a row. -/
def importSource (n : Nat) : List Text :=
  let names := Text.join ",\n    " (importedClasses n)
  [("from PyQt4 import QtCore, QtGui, QtWebKit\n" : String).toList,
    "from PyQt4.QtCore import QObject, SIGNAL, SLOT, QString\n".toList,
    "from PyQt4.QtCore import SIGNAL\n".toList,
    "from PyQt4.QtGui import (" ++ names ++ ")\n",
    "from PyQt4.Qt import (" ++ names ++ ")\n",
    "from PyQt4.QtWebKit import (QWebView,\n    QWebPage,\n    QWebSettings,\n    )\n".toList,
    "x = 1\n".toList,
    "# comment\n".toList]

/-- The progress after which every import has something added to it. -/
def fullProgress : Progress :=
  ⟨["QtGui", "QtWidgets", "QtWebKit", "QtWebKitWidgets", "QtMultimedia", "QSound", "QtCore",
    "QtPrintSupport", "QStandardPaths"], true, false⟩

/-- The pass for imports on two times `n` classes, for the new library and then for the old one. -/
def convertImportSource (n : Nat) : Run (List Text) := do
  let new ← updateImports ⟨.new, " "⟩ fullProgress (importSource n)
  let old ← updateImports ⟨.old, " "⟩ .initial (importSource n)
  return new.1 ++ old.1

/-! ## Graphics items -/

/-- The right sides of the assignments of items. -/
def itemCalls : List Text :=
  ["QGraphicsRectItem(0, 0, 10, 10, parent, scene)", "QGraphicsEllipseItem(rect, parent, self.scene)",
    "QGraphicsLineItem(line)", "QGraphicsPixmapItem(pix, parent)",
    "QGraphicsTextItem(parent=p, scene=s)", "QGraphicsPathItem()", "QGraphicsPolygonItem(a, b)",
    "QGraphicsSimpleTextItextItem(None, scene)", "QGraphicsItem(a, b, c, d, e, f, g)",
    "QAbstractGraphicsShapeItem(*args, **kwargs)"]

/-- A class of items, one row after the other. -/
def itemClass (name base init call : Text) : List Text :=
  ["class " ++ name ++ "(" ++ base ++ "):\n", "    def __init__(" ++ init ++ "):\n",
    "        " ++ call ++ "\n", "\n".toList]

def baseItemClass (name base init args : Text) : List Text :=
  itemClass name base init (base ++ ".__init__(" ++ args ++ ")")

/-- Classes of items with every form of initializer. -/
def itemClasses : List Text :=
  itemClass "MyItem" "QGraphicsRectItem" "self, parent=None, scene=None"
      "super(MyItem, self).__init__(parent, scene)" ++
    ["class MyItem2(QGraphicsEllipseItem):\n", "    # comment before init\n",
      "    def __init__(self, parent, scene):\n", "        x = 1\n",
      "        QGraphicsEllipseItem.__init__(self, parent, scene)\n", "\n"].map String.toList ++
    baseItemClass "MyItem3" "QGraphicsLineItem" "self, a, b, c, d, e, f, g"
      "self, a, b, c, d, e, f, g" ++
    baseItemClass "MyItem4" "QGraphicsTextItem" "self, *args, **kwargs" "self, *args, **kwargs" ++
    baseItemClass "MyItem5" "QGraphicsPathItem" "self, a, b, c" "self, a, b, c" ++
    baseItemClass "MyItem6" "QGraphicsPixmapItem" "self, obj, parent=None" "self, obj, parent=p" ++
    baseItemClass "MyItem7" "QGraphicsPolygonItem" "self, a, b, c, d" "self, a, b, c, d" ++
    baseItemClass "MyItem8" "QGraphicsSimpleTextItem" "self, a, b, c, d, e, f"
      "self, a, b, c, d, e, f" ++
    baseItemClass "MyItem9" "QGraphicsItem" "self, p, s" "self, None, s" ++
    baseItemClass "MyItemA" "QGraphicsItem" "self, parent=None, s=None"
      "self, parent=parent, scene=s" ++
    baseItemClass "MyItemB" "QGraphicsItem" "self, p" "self, p" ++
    baseItemClass "MyItemC" "QAbstractGraphicsShapeItem" "self" "self, a, b, c, d, e, f, g, h"

def otherClasses : List Text :=
  ["class MyItemD(QGraphicsPixmapItem):\n", "    def __init__(self):\n", "        pass\n",
    "    def other(self):\n", "        pass\n", "\n", "done = True\n", "\n", "class MyDate(QDate):\n",
    "    def __init__(self):\n", "        self.setYMD(2000, 1, 1)\n", "\n", "class Plain:\n",
    "    pass\n"].map String.toList

/-- A source with `n` items and a class of items of every form. -/
def itemSource (n : Nat) : List Text :=
  let items := (List.range n).map fun i =>
    "    item" ++ Text.ofNat i ++ " = " ++ cycle itemCalls i ++ "\n"
  "from PyQt4 import QtGui\n".toList :: items ++ itemClasses ++ otherClasses

/-- The pass for graphics items on `n` of them. -/
def convertItemSource (n : Nat) : Run (List Text) := return ← updateGraphics (itemSource n)

end Workload

end QtMigration
