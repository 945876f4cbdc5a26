import QtMigration.Proofs.Import.Renewed

/-!
# Proofs/Import/Answered — where the update of import statements breaks off

A statement is taken apart at `import `, and the statements made from it are laid out. **The update breaks off
exactly at a statement that has no `import ` with a blank, at one that names the character class without listing
it, and at one whose parts are too wide for a row and do not have `import ` once** (`updateImports_returns_iff`).
-/

namespace QtMigration

open List Text

variable {α β : Type} {x : Except Failure α} {p : Progress} {head line names s start : Text} {rest : List Text}

/-! ## Statements -/

/-- The statement is too wide for a row, and `import ` does not stand in it once. -/
def unlaid (statement : Text × List Text) : Bool :=
  let text := statement.1 ++ commaList statement.2
  !statement.2.isEmpty && (rowWidth < text.length && (text.splitOn "import ").length != 2)

/-- **The statements that take the place of one**, each with its names. -/
def madeFrom (p : Progress) (start head names : Text) : List (Text × List Text) :=
  if start.startsWith "from PyQt4 import " then
    [(head.replaceAll "PyQt4" "PyQt5" ++ "import ", sortedNames (neededModules p (listedModules names)))]
  else if start.startsWith "from PyQt4.Qt import " then
    let s := sortAllNames names
    let to_ (module : Text) := head.replaceAll "PyQt4.Qt " ("PyQt5." ++ module ++ " import ")
    [(to_ "QtCore", s.core), (to_ "QtGui", s.gui), (to_ "QtWidgets", s.widgets), (to_ "QtPrintSupport", s.printing),
      (to_ "QtMultimedia", s.media), (to_ "QtOpenGL", s.openGL)]
  else if start.startsWith "from PyQt4.QtGui " then
    Home.all.map fun home => (homeHead head home, (sortNames names).at home)
  else
    [(head.replaceAll "PyQt4" "PyQt5" ++ "import ", (sortWebNames names).1),
      (head.replaceAll "PyQt4.QtWebKit" "PyQt5.QtWebKitWidgets" ++ "import ", (sortWebNames names).2)]

def LaidOut (statements : List (Text × List Text)) : Prop :=
  ∀ st ∈ statements, ∃ lines, importNames " " st.1 st.2 = .ok lines

theorem not_exists_error {e : Failure} : ¬ ∃ a : α, .error e = Except.ok a := by
  rintro ⟨_, h⟩
  cases h

theorem exists_map_eq_ok {f : α → β} : (∃ b, x.map f = .ok b) ↔ ∃ a, x = .ok a := by
  cases x with
  | error e => exact iff_of_false not_exists_error not_exists_error
  | ok a => exact iff_of_true ⟨_, rfl⟩ ⟨a, rfl⟩

theorem exists_bind_eq_ok {f : α → Except Failure β} :
    (∃ b, (x >>= f) = .ok b) ↔ ∃ a, x = .ok a ∧ ∃ b, f a = .ok b := by
  simp only [bind_eq_ok]
  constructor
  · rintro ⟨b, a, hx, hf⟩
    exact ⟨a, hx, b, hf⟩
  · rintro ⟨a, hx, b, hf⟩
    exact ⟨b, a, hx, hf⟩

theorem exists_pure_eq_ok (a : α) : ∃ b, (pure a : Except Failure α) = .ok b := ⟨a, rfl⟩

theorem layoutImport_answers_iff : (∃ text, layoutImport " " line = .ok text) ↔
    (rowWidth < line.length && (line.splitOn "import ").length != 2) = false := by
  rw [layoutImport]
  split
  next h => exact iff_of_true ⟨_, rfl⟩ (by rw [decide_eq_false (Nat.not_lt.mpr h), Bool.false_and])
  next h =>
  rw [decide_eq_true (Nat.lt_of_not_le h), Bool.true_and, importSides]
  split
  next hs => exact iff_of_true ⟨_, rfl⟩ (by rw [hs]; rfl)
  next hs =>
    refine iff_of_false not_exists_error fun hl => ?_
    obtain ⟨a, b, hab⟩ := length_eq_two.mp (by simpa using hl)
    exact hs a b hab

theorem laidOut_iff (statements : List (Text × List Text)) :
    LaidOut statements ↔ statements.any unlaid = false := by
  rw [any_eq_false]
  refine forall₂_congr fun st _ => ?_
  rw [importNames, unlaid]
  split
  next h =>
    rw [h]
    exact iff_of_true ⟨_, rfl⟩ Bool.false_ne_true
  next h =>
    rw [Bool.not_eq_true] at h ⊢
    rw [h, Bool.not_false, Bool.true_and, ← layoutImport_answers_iff, exists_map_eq_ok]

section Builders

variable (h : s.splitOn "import " = head :: names :: rest)

include h

theorem modulesImport_answers_iff (hm : start.startsWith "from PyQt4 import ") :
    (∃ r, modulesImport ⟨.new, " "⟩ p s = .ok r) ↔ LaidOut (madeFrom p start head names) := by
  rw [madeFrom, if_pos hm, LaidOut, forall_mem_singleton, modulesImport, importModules, h, importNames]
  dsimp only
  cases (sortedNames (neededModules p (listedModules names))).isEmpty with
  | true => exact iff_of_true ⟨_, rfl⟩ ⟨_, rfl⟩
  | false =>
    simp only [exists_bind_eq_ok, Except.ok.injEq, exists_eq_left', Bool.false_eq_true, if_false,
      exists_pure_eq_ok, and_true, exists_map_eq_ok]

theorem allImport_answers_iff (hm : ¬ start.startsWith "from PyQt4 import ")
    (ha : start.startsWith "from PyQt4.Qt import ") :
    (∃ r, allImport ⟨.new, " "⟩ p s = .ok r) ↔ LaidOut (madeFrom p start head names) := by
  rw [madeFrom, if_neg hm, if_pos ha, LaidOut, allImport, headAndNames, h]
  generalize sortAllNames = sorted
  simp only [exists_bind_eq_ok, exists_pure_eq_ok, forall_mem_cons, not_mem_nil, false_implies, implies_true,
    Except.ok.injEq, exists_eq_left', exists_and_right, and_true]

theorem guiImport_answers_iff (hm : ¬ start.startsWith "from PyQt4 import ")
    (ha : ¬ start.startsWith "from PyQt4.Qt import ") (hg : start.startsWith "from PyQt4.QtGui ") :
    (∃ r, guiImport ⟨.new, " "⟩ p s = .ok r) ↔ LaidOut (madeFrom p start head names) := by
  rw [madeFrom, if_neg hm, if_neg ha, if_pos hg, LaidOut, guiImport, headAndNames, h]
  simp only [exists_bind_eq_ok, exists_pure_eq_ok, forall_mem_map, Home.all, forall_mem_cons, not_mem_nil,
    false_implies, implies_true, Except.ok.injEq, exists_eq_left', exists_and_right, and_true]
  rfl

theorem webImport_answers_iff (hm : ¬ start.startsWith "from PyQt4 import ")
    (ha : ¬ start.startsWith "from PyQt4.Qt import ") (hg : ¬ start.startsWith "from PyQt4.QtGui ") :
    (∃ lines, webImport ⟨.new, " "⟩ s = .ok lines) ↔ LaidOut (madeFrom p start head names) := by
  rw [madeFrom, if_neg hm, if_neg ha, if_neg hg, LaidOut, webImport, headAndNames, h]
  simp only [exists_bind_eq_ok, exists_pure_eq_ok, forall_mem_cons, not_mem_nil, false_implies, implies_true,
    Except.ok.injEq, exists_eq_left', exists_and_right, and_true]

end Builders

/-! ## One line -/

/-- The heads of the statements that are taken apart. -/
def takenHeads : List Text := ["from PyQt4 import ", "from PyQt4.Qt import ", "from PyQt4.QtGui ", "from PyQt4.QtWebKit "]

/-- The statement has no `import `, or one of its parts cannot be laid out. -/
def fallsApart (p : Progress) (start s : Text) : Bool :=
  match s.splitOn "import " with
  | head :: names :: _ => (madeFrom p start head names).any unlaid
  | _ => true

/-- **The cleaned statement `s` breaks the update off**; `start` is the line as it was. -/
def halts (p : Progress) (start s : Text) : Bool :=
  if start.startsWith "from PyQt4.QtCore " && p.uses "QStandardPaths" then false
  else if start.startsWith "from PyQt4.QtCore " && s.has "QChar" then
    !((splitOn (s.drop 25) ",").map trim).contains "QChar"
  else start.startsWithAny takenHeads && fallsApart p start s

theorem taken_answers_iff {answers : Prop} (hh : head ∈ takenHeads) (hs : start.startsWith head)
    (hn : headAndNames s = .error .pieceMissing → importModules p s = .error .pieceMissing → ¬ answers)
    (hy : ∀ {head names rest}, s.splitOn "import " = head :: names :: rest →
      (answers ↔ LaidOut (madeFrom p start head names))) :
    answers ↔ (start.startsWithAny takenHeads && fallsApart p start s) = false := by
  have ht : start.startsWithAny takenHeads := any_eq_true.mpr ⟨head, hh, hs⟩
  rw [ht, Bool.true_and, fallsApart]
  split
  next h => rw [hy h, laidOut_iff]
  next h =>
    refine iff_of_false (hn ?_ ?_) Bool.true_eq_false.mp
    on_goal 1 => rw [headAndNames]
    on_goal 2 => rw [importModules]
    all_goals
      split
      next hs => exact absurd hs (h _ _ _)
      next => rfl

theorem newLibraryLine_answers_iff :
    (∃ r, newLibraryLine ⟨.new, " "⟩ p start s = .ok r) ↔ halts p start s = false := by
  rw [newLibraryLine, halts]
  split
  · exact iff_of_true ⟨_, rfl⟩ rfl
  split
  · rw [exists_map_eq_ok, coreWithoutChar]
    dsimp only
    split
    next hc => exact iff_of_true ⟨_, rfl⟩ (by rw [hc]; rfl)
    next hc => exact iff_of_false not_exists_error (by rw [Bool.eq_false_iff.mpr hc]; decide)
  split
  next hm =>
    refine taken_answers_iff (by decide) hm (fun _ h => ?_) fun h => modulesImport_answers_iff h hm
    rw [modulesImport, h]
    exact not_exists_error
  next hm =>
  split
  next ha =>
    refine taken_answers_iff (by decide) ha (fun h _ => ?_) fun h => allImport_answers_iff h hm ha
    rw [allImport, h]
    exact not_exists_error
  next ha =>
  split
  next hg =>
    refine taken_answers_iff (by decide) hg (fun h _ => ?_) fun h => guiImport_answers_iff h hm ha hg
    rw [guiImport, h]
    exact not_exists_error
  next hg =>
  split
  next hw =>
    rw [exists_map_eq_ok]
    refine taken_answers_iff (by decide) hw (fun h _ => ?_) fun h => webImport_answers_iff h hm ha hg
    rw [webImport, h]
    exact not_exists_error
  next hw =>
  refine iff_of_true ⟨_, rfl⟩ (Bool.and_eq_false_iff.mpr (.inl (any_eq_false.mpr ?_)))
  simp only [takenHeads, forall_mem_cons, not_mem_nil, false_implies, implies_true, and_true]
  exact ⟨hm, ha, hg, hw⟩

/-- **The update for the new library stops at the line.** -/
def stops (p : Progress) (line : Text) : Bool :=
  line.isImport && (!importsNothing (cleanImport .new p.signalDeclared line) &&
    halts p line.trimLeft (cleanImport .new p.signalDeclared line))

theorem halts_of_not_isImport (h : line.isImport = false) : halts p line.trimLeft s = false := by
  have hn : ∀ {head : Text}, ("from " : Text) <+: head → ¬ line.trimLeft.startsWith head = true := fun hh hs => by
    rw [isImport_of_startsWith hh hs] at h
    cases h
  have hc : line.trimLeft.startsWith "from PyQt4.QtCore " = false := Bool.eq_false_iff.mpr (hn (by decide))
  have ht : line.trimLeft.startsWithAny takenHeads = false := any_eq_false.mpr fun head hm =>
    hn ((by decide : ∀ head ∈ takenHeads, ("from " : Text) <+: head) head hm)
  rw [halts, hc, ht]
  rfl

theorem importLine_answers_iff : (∃ r, importLine ⟨.new, " "⟩ p line = .ok r) ↔ stops p line = false := by
  rw [importLine, stops]
  cases hi : line.isImport with
  | false =>
    simp only [Bool.false_and, Bool.false_eq_true, if_false, iff_true]
    split
    · exact ⟨_, rfl⟩
    · exact newLibraryLine_answers_iff.mpr (halts_of_not_isImport hi)
  | true =>
    simp only [isCode_of_isImport hi, Bool.not_true, Bool.false_eq_true, if_false, if_true, Bool.true_and]
    cases importsNothing (cleanImport .new p.signalDeclared line) with
    | true => exact iff_of_true ⟨_, rfl⟩ rfl
    | false => exact newLibraryLine_answers_iff

/-! ## The run -/

theorem updateImports_answers_iff {cfg : Settings} {p : Progress} {lines : List Text} :
    (∃ r, updateImports cfg p lines = .ok r) ↔ ∀ before line behind r, lines = before ++ line :: behind →
      updateImports cfg p before = .ok r → ∃ here, importLine cfg r.2 line = .ok here := by
  induction lines generalizing p with
  | nil => exact iff_of_true ⟨_, rfl⟩ fun _ _ _ _ h => absurd h (by simp)
  | cons first lines ih =>
    rw [updateImports]
    simp only [exists_bind_eq_ok, exists_pure_eq_ok, and_true, ih]
    constructor
    · rintro ⟨here, hh, hl⟩ before line behind r he hr
      cases before with
      | nil =>
        obtain ⟨rfl, -⟩ := cons.inj he
        obtain rfl := Except.ok.inj hr
        exact ⟨here, hh⟩
      | cons line' before =>
        obtain ⟨rfl, hlines⟩ := cons.inj he
        obtain ⟨here', hh', hr⟩ := bind_eq_ok.mp hr
        obtain rfl := Except.ok.inj (hh.symm.trans hh')
        obtain ⟨rest, hrest, hr⟩ := bind_eq_ok.mp hr
        obtain rfl := Except.ok.inj hr
        exact hl before line behind rest hlines hrest
    · intro h
      obtain ⟨here, hh⟩ := h [] first lines ([], p) rfl rfl
      refine ⟨here, hh, fun before line behind r he hr => ?_⟩
      exact h (first :: before) line behind (here.1 ++ r.1, r.2) (congrArg (first :: ·) he)
        (bind_eq_ok.mpr ⟨here, hh, bind_eq_ok.mpr ⟨r, hr, rfl⟩⟩)

/-- **Where the update of import statements breaks off**: never for the old library, and for the new one
exactly at the first line that stops it. -/
theorem updateImports_returns_iff (p : Progress) (lines : List Text) :
    (∃ r, updateImports ⟨.old, " "⟩ p lines = .ok r) ∧
      ((∃ r, updateImports ⟨.new, " "⟩ p lines = .ok r) ↔ ∀ before line behind r, lines = before ++ line :: behind →
        updateImports ⟨.new, " "⟩ p before = .ok r → stops r.2 line = false) := by
  constructor
  · refine updateImports_answers_iff.mpr fun before line behind r _ _ => ?_
    rw [importLine]
    split
    · exact ⟨_, rfl⟩
    · dsimp only
      split <;> split <;> exact ⟨_, rfl⟩
  · simp only [updateImports_answers_iff, importLine_answers_iff]

/-- Two statements that stop it: one without a blank behind `import`, and one with a class whose name begins
like the one that is left out. -/
theorem updateImports_stops :
    (¬ ∃ r, updateImports ⟨.new, " "⟩ .initial ["from PyQt4.QtGui import(QWidget)\n"] = .ok r) ∧
      ¬ ∃ r, updateImports ⟨.new, " "⟩ .initial ["from PyQt4.QtCore import QCharRef\n"] = .ok r := by
  have hn : ∀ {line}, stops .initial line = true → ¬ ∃ r, updateImports ⟨.new, " "⟩ .initial [line] = .ok r := by
    rintro line hs ⟨r, hr⟩
    obtain ⟨here, hh, -⟩ := bind_eq_ok.mp hr
    rw [importLine_answers_iff.mp ⟨_, hh⟩] at hs
    cases hs
  exact ⟨hn (by decide +kernel), hn (by decide +kernel)⟩

end QtMigration
