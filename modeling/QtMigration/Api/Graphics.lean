import QtMigration.Line.At
import QtMigration.Line.Indent
import QtMigration.Text.Between

/-!
# Api/Graphics — graphics items and their scene

A graphics item is no longer given its scene when it is made; it is added to the scene afterwards.
-/

namespace QtMigration

/-! ## Arguments -/

/-- The pieces between the commas of a list in parentheses, trimmed; the first and the last character
are taken for the parentheses. -/
def listArguments (s : Text) : List Text :=
  (Text.splitOn ((s.trim.drop 1).dropLast) ",").map Text.trim

/-- The argument is given under this keyword. -/
def givesKeyword (keyword arg : Text) : Bool :=
  arg.startsWithAny [keyword ++ "=", keyword ++ " ="]

/-- The argument is a variable or an attribute of this name. -/
def namesKeyword (keyword arg : Text) : Bool := arg == keyword || arg == "self." ++ keyword

/-- The value of the first argument of this name, and the other arguments. -/
def takeKeyword (keyword : Text) : List Text → Option Text × List Text
  | [] => (none, [])
  | arg :: args =>
    if givesKeyword keyword arg then (some (Text.trim ((arg.splitOn "=")[1]?.getD [])), args)
    else if namesKeyword keyword arg then (some arg, args)
    else
      let r := takeKeyword keyword args
      (r.1, arg :: r.2)

/-- The position of the first argument of this name. -/
def keywordIndex? (keyword : Text) (args : List Text) : Option Nat :=
  args.findIdx? fun arg => givesKeyword keyword arg || namesKeyword keyword arg

/-! ## Which argument is the scene -/

/-- What is to be done about the scene. -/
inductive SceneChoice
  /-- There is none among the arguments. -/
  | none
  /-- It cannot be told. -/
  | unclear
  /-- This is the scene; the other arguments stay. -/
  | scene (scene : Text) (args : List Text)
  deriving DecidableEq, Repr

def lastIsScene (args : List Text) : SceneChoice :=
  .scene (args.getLast?.getD []) args.dropLast

/-- All positional and all keyword arguments are passed on. -/
def passesAll (first second : Text) : Bool :=
  (first == "*args" || first == "* args") && (second == "**kwargs" || second == "** kwargs")

/-- Two arguments behind the first `skip`: an object and a parent, or a parent and a scene. -/
def chooseOfTwo (skip : Nat) (args : List Text) : SceneChoice :=
  let first := args[skip]?.getD []
  let second := args[skip + 1]?.getD []
  if passesAll first second then .none
  else if first == "None" then lastIsScene args
  else
    match keywordIndex? "parent" args with
    | some i => if i == skip then lastIsScene args else if i == skip + 1 then .none else .unclear
    | none => .unclear

/-- The scene by the number of arguments behind the first `skip`: it is the last of three, when an
object and a parent come first, and of six, when four coordinates and a parent do. -/
def chooseByCount (skip : Nat) (args : List Text) : SceneChoice :=
  let n := args.length - skip
  if n ≤ 1 then .none
  else if n == 2 then chooseOfTwo skip args
  else if n == 3 || n == 6 then lastIsScene args
  else if n == 4 || n == 5 then .none
  else .unclear

/-- **The scene among the arguments.** -/
def chooseScene (skip : Nat) (args : List Text) : SceneChoice :=
  match takeKeyword "scene" args with
  | (some (c :: cs), rest) => .scene (c :: cs) rest
  | (_, rest) => chooseByCount skip rest

/-- The arguments in parentheses, at the end of a line. -/
def argumentTail (args : List Text) : Text := "(" ++ Text.commaList args ++ ")\n"

/-! ## Classes derived from an item -/

/-- The name of the class that a line opens. -/
def className? (line : Text) : Option Text :=
  (Text.between? "class " (fun rest => rest.head?.any fun c => c == '(' || c == ':') line).map
    Text.trim

/-- The note on a base class whose scene cannot be told. -/
def subclassNote : Text :=
  "# FIXME$ Can't identify the QGraphicsScene in arguments of the QGraphicsItem\n"

/-- The text behind the first `__init__` of a line. -/
def initTail? (line : Text) : Option Text := (line.splitOn "__init__")[1]?

/-- The lines that the initialisation of the base class becomes. -/
def initLines (line : Text) : Except Failure (List Text) := do
  let indent ← line.indent
  match initTail? line with
  | none => .error .pieceMissing
  | some tail =>
    match chooseScene 1 (listArguments tail) with
    | .none => return [line]
    | .unclear => return [indent ++ subclassNote, line]
    | .scene scene args =>
      let line' := line.replaceAll tail (argumentTail args)
      if scene == "None" then return [line']
      else return [line', indent ++ "if " ++ scene ++ " is not None: " ++ scene ++ ".addItem(self)\n"]

/-- What became of the lines of a class body: those that were gone through, as they are now, and how
many they were; `ended` says that the lines came to their end. -/
structure ClassBody where
  lines : List Text
  count : Nat
  ended : Bool
  deriving DecidableEq, Repr

/-- The body with one more line in front. -/
def ClassBody.cons (line : Text) (b : ClassBody) : ClassBody :=
  ⟨line :: b.lines, b.count + 1, b.ended⟩

/-- The body of a class derived from `item`, up to the initialisation of the base class or to a line of code that
leaves the class. -/
def classBody (super item indent : Text) : List Text → Except Failure ClassBody
  | [] => .ok ⟨[], 0, true⟩
  | line :: lines =>
    if !line.isCode then (classBody super item indent lines).map (.cons line)
    else if line.trimLeft.startsWith "def __init__" then do
      let indent' ← line.indent
      (classBody super item indent' lines).map (.cons line)
    else if line.trimLeft.startsWith super || line.has (item ++ ".__init__") then
      (initLines line).map fun ls => ⟨ls, 1, false⟩
    else do
      let here ← line.indent
      if here.lt indent then return ⟨[line], 1, false⟩
      else (classBody super item indent lines).map (.cons line)

/-- The call of the base class in a class of this name. -/
def superCall (name : Option Text) : Text := "super(" ++ name.getD "None"

/-- The body of the class that `line` opens. -/
def subclassBody (item line : Text) (lines : List Text) : Except Failure ClassBody :=
  classBody (superCall (className? line)) item [] lines

/-- The lines with the line at a signed position replaced by `new`: by one line, or by it and a note
before it, or by one line and another one behind it. -/
def replaceAt (lines : List Text) (p : Int) (old : Text) (new : List Text) : List Text :=
  match new with
  | [line] => (setAt? lines p line).getD lines
  | [first, second] =>
    if second == old then insertAt lines p first
    else insertAt ((setAt? lines p first).getD lines) (p + 1) second
  | _ => lines

/-- **The class at a signed position, adapted**: the lines, and the position behind what was gone through. -/
def updateSubclassAt (lines : List Text) (i : Int) (item : Text) :
    Except Failure (List Text × Int) :=
  match lineAt? lines i with
  | none => .error .pieceMissing
  | some line => do
    let ahead := if i + 1 < 0 then linesFrom lines (i + 1) ++ lines else linesFrom lines (i + 1)
    let b ← subclassBody item line ahead
    let last := i + b.count
    if b.ended then return (lines, last + 2)
    let new := b.lines.drop (b.count - 1)
    return (replaceAt lines last ((ahead[b.count - 1]?).getD []) new, last + new.length)

/-! ## Items where they are made -/

/-- The note on an item whose scene cannot be told. -/
def itemNote : Text :=
  "# FIXME$ Can't identify the QGraphicsScene in the arguments of the QGraphicsItem\n"

/-- The text before and behind the first occurrence of an item's name, up to the next. -/
def aroundItem (line item : Text) : Text × Text :=
  match line.splitOn item with
  | before :: after :: _ => (before, after)
  | before :: _ => (before, [])
  | [] => ([], [])

/-- The lines that the making of an item becomes, given the text before and behind its name. -/
def itemLines (line before after : Text) : Except Failure (List Text) :=
  if !after.trimLeft.startsWith "(" || !before.has "=" then .ok [line]
  else do
    let indent ← line.indent
    match chooseScene 0 (listArguments after) with
    | .none => return [line]
    | .unclear => return [indent ++ itemNote, line]
    | .scene scene args =>
      let line' := line.replaceAll after (argumentTail args)
      if scene.isEmpty || scene == "None" then return [line']
      else
        return [line', indent ++ scene ++ ".addItem(" ++ (before.firstPiece "=").trim ++ ")\n"]

/-- The name of an item as a line has it: a group of items has a longer name, which is used from then
on. -/
def itemName (item line : Text) : Text :=
  if (aroundItem line item).2.startsWith "Group" then item ++ "Group" else item

/-- Walk of `updateItems`: `skip` lines belong to a class body that has been gone through. -/
def updateItemsGo : Nat → Text → List Text → Except Failure (List Text)
  | _, _, [] => .ok []
  | skip + 1, item, _ :: lines => updateItemsGo skip item lines
  | 0, item, line :: lines =>
    if !line.isCode || line.isImport || !line.has item then
      (updateItemsGo 0 item lines).map (line :: ·)
    else if line.isClass then do
      let b ← subclassBody item line lines
      (updateItemsGo b.count item lines).map (line :: b.lines ++ ·)
    else if item.isEmpty then .error .emptySeparator
    else do
      let item' := itemName item line
      let (before, after) := aroundItem line item'
      let here ← itemLines line before after
      (updateItemsGo 0 item' lines).map (here ++ ·)

/-- **Items of one class**, where they are made and where they are derived from. -/
def updateItems (item : Text) (lines : List Text) : Except Failure (List Text) :=
  updateItemsGo 0 item lines

def itemClasses : List Text :=
  ["QAbstractGraphicsShapeItem", "QGraphicsEllipseItem", "QGraphicsItem", "QGraphicsLineItem",
   "QGraphicsPathItem", "QGraphicsPixmapItem", "QGraphicsPolygonItem", "QGraphicsRectItem",
   "QGraphicsSimpleTextItem", "QGraphicsTextItem"]

/-- **Graphics items of all classes.** -/
def updateGraphics (lines : List Text) : Except Failure (List Text) :=
  itemClasses.foldlM (fun ls item => updateItems item ls) lines

end QtMigration
