import QtMigration.Api.Widgets
import QtMigration.Proofs.Import.Modules

/-!
# Proofs/Import/Widgets — what it means that the widgets have been imported

**The note is true, unless a statement misleads** (`widgets_note_truthful`): one of the graphics module
that lists a class of the core module and no widget, one whose head is lost when it is cleaned, or
an import of modules with a comment or another statement behind it.
-/

namespace QtMigration

open List

open Text (words)

variable {r : List Text × Progress} {cfg : Settings} {rest stem : Text}

/-! ## Importing the widgets -/

def statementText (line : Text) : Text := line.takeWhile fun c => c != '#' && c != ';'

/-- **The line imports the widgets module, or names of it.** -/
def importsWidgets (line : Text) : Bool :=
  line.trimLeft.startsWith "from PyQt5.QtWidgets import " ||
    (line.trimLeft.startsWith "from PyQt5 import " && (words (statementText line)).contains "QtWidgets")

theorem statementText_of_plain {line : Text} (h : ∀ c ∈ line, c ≠ '#' ∧ c ≠ ';') : statementText line = line := by
  refine takeWhile_eq_self_iff.mpr fun c hc => ?_
  simpa using h c hc

theorem startsWith_of_isPrefix {front text : Text} (hfront : front.all Text.isBlank) {c : Char}
    (hc : Text.isBlank c = false) (h : front ++ c :: stem <+: text) :
    text.trimLeft.startsWith (c :: stem) := by
  obtain ⟨rest, rfl⟩ := h
  rw [append_assoc, cons_append, trimLeft_blank_append hfront hc, Text.startsWith, isPrefixOf_iff_prefix]
  exact prefix_append _ rest

theorem widgetsImported_pathsImport (p : Progress) (head : Text) :
    (pathsImport p head).2.widgetsImported = p.widgetsImported := by
  rw [pathsImport]
  split <;> rfl

section Statements

variable {front : Text} (hfront : front.all Text.isBlank = true)

include hfront

theorem has_import_head {module : Text} (hi : 'i' ∉ module) {tail : Text} (ht : tail.has "import " = false) :
    (front ++ ("from " ++ (module ++ tail))).has "import " = false := by
  have himport : (("import " : String).toList : Text) = 'i' :: ("mport " : Text) := by decide
  have hn : 'i' ∉ front ++ (("from " : Text) ++ module) := notMem_front hfront (by decide) (by
    rw [mem_append, not_or]
    exact ⟨by decide, hi⟩)
  have ha : front ++ (("from " : String).toList ++ (module ++ tail)) =
      front ++ (("from " : Text) ++ module) ++ tail := by simp only [append_assoc]
  rw [himport] at ht ⊢
  rw [ha]
  exact Text.has_append_of_notMem ht hn

theorem importsWidgets_of_importNames {unit more : Text} {names lines : List Text} (hn : names ≠ [])
    (h : importNames unit (front ++ ("from PyQt5.QtWidgets import " ++ more)) names = .ok lines) :
    ∃ l ∈ lines, importsWidgets l := by
  rw [importNames, if_neg (by simpa using hn)] at h
  obtain ⟨text, ht, rfl⟩ := map_eq_ok.mp h
  refine ⟨text, mem_cons_self, ?_⟩
  have hh : (front ++ ("from " ++ (("PyQt5.QtW" : Text) ++ ("idgets " : Text)))).has "import " = false :=
    has_import_head hfront (by decide) (by decide)
  have ha : front ++ (("from PyQt5.QtWidgets import " : String).toList ++ more) ++ Text.commaList names =
      (front ++ (("from " : Text) ++ (("PyQt5.QtW" : Text) ++ ("idgets " : Text)))) ++
        (("import " : Text) ++ (more ++ Text.commaList names)) := by simp
  rw [ha] at ht
  have hp := import_prefix_layoutImport hh ht
  have hs : front ++ ('f' :: ("rom PyQt5.QtWidgets import " : Text)) <+: text := by
    simpa using hp
  rw [importsWidgets, Bool.or_eq_true]
  exact .inl (startsWith_of_isPrefix hfront (by decide) hs)

theorem importsWidgets_of_allImport {p : Progress} {line : Text} (hli : line = front ++ ("from PyQt4.Qt " ++ rest))
    (h : allImport cfg p line = .ok r) (hp : p.widgetsImported = false) (hr : r.2.widgetsImported) :
    ∃ l ∈ r.1, importsWidgets l := by
  have hi : 'i' ∉ front ++ ("from PyQt4.Qt " : Text) := notMem_front hfront (by decide) (by decide)
  rw [allImport] at h
  obtain ⟨⟨head, names⟩, hh, h⟩ := bind_eq_ok.mp h
  rw [hli, ← append_assoc] at hh
  obtain ⟨more, rfl⟩ := exists_of_headAndNames (not_pair_of_notMem hi rest) hh
  dsimp only at h
  generalize sortAllNames names = sorted at h
  obtain ⟨core, -, h⟩ := bind_eq_ok.mp h
  obtain ⟨gui, -, h⟩ := bind_eq_ok.mp h
  obtain ⟨widgets, hw, h⟩ := bind_eq_ok.mp h
  obtain ⟨printing, -, h⟩ := bind_eq_ok.mp h
  obtain ⟨media, -, h⟩ := bind_eq_ok.mp h
  obtain ⟨openGL, -, h⟩ := bind_eq_ok.mp h
  obtain rfl := Except.ok.inj h
  dsimp only at hr
  rw [widgetsImported_pathsImport] at hr
  have hn : sorted.widgets ≠ [] := by
    rintro hnil
    rw [hnil, isEmpty_nil, if_pos rfl, hp] at hr
    cases hr
  have hm := replaceAll_behind_from hfront "yQt4.Qt " "PyQt5.QtWidgets import " more
  have ht : Text.replaceAll (front ++ ("from PyQt4.Qt " : Text) ++ more) "PyQt4.Qt "
      ("PyQt5." ++ "QtWidgets" ++ " import ") = front ++ ("from PyQt5.QtWidgets import " ++
        more.replaceAll "PyQt4.Qt " "PyQt5.QtWidgets import ") := by
    simpa using hm
  rw [ht] at hw
  obtain ⟨l, hl, himports⟩ := importsWidgets_of_importNames hfront hn hw
  refine ⟨l, ?_, himports⟩
  simp [hl]

/-- **A statement that imports whole modules imports the widgets module, if it notes so**, and neither a
comment nor another statement comes behind it. -/
theorem importsWidgets_of_modulesImport {p : Progress}
    (h : modulesImport cfg p (front ++ ("from PyQt4 import " ++ rest)) = .ok r)
    (hplain : ∀ c ∈ rest, c ≠ '#' ∧ c ≠ ';') (hp : p.widgetsImported = false)
    (hr : r.2.widgetsImported) : ∃ l ∈ r.1, importsWidgets l := by
  rw [modulesImport, importModules_head hfront] at h
  obtain ⟨⟨line', q⟩, hm, h⟩ := bind_eq_ok.mp h
  obtain ⟨hl', hq⟩ := Prod.mk.inj (Except.ok.inj hm)
  have hf : r.2.widgetsImported = q.widgetsImported := by
    cases line' with
    | none => rw [← Except.ok.inj h]
    | some line' =>
      obtain ⟨text, -, h⟩ := bind_eq_ok.mp h
      rw [← Except.ok.inj h]
      exact widgetsImported_pathsImport q _
  have hu : p.uses "QtWidgets" := by
    by_contra hno
    rw [if_neg hno] at hq
    rw [hf, ← hq, hp] at hr
    cases hr
  have hmem : ("QtWidgets" : Text) ∈ newModules p rest :=
    mem_newModules_iff.mpr (.inr ⟨by decide, hu⟩)
  rw [if_neg (by simpa using ne_nil_of_mem hmem)] at hl'
  subst hl'
  obtain ⟨text, ht, h⟩ := bind_eq_ok.mp h
  refine ⟨text, by rw [← Except.ok.inj h]; exact mem_cons_self, ?_⟩
  have hk : front ++ (("from PyQt5 import " : String).toList ++ Text.commaList (newModules p rest)) =
      (front ++ (("from " : Text) ++ (("PyQt5 " : Text) ++ []))) ++
        (("import " : Text) ++ Text.commaList (newModules p rest)) := by simp
  have hs : front ++ ('f' :: ("rom PyQt5 import " : Text)) <+: text := by
    rw [hk] at ht
    have hpr := import_prefix_layoutImport (has_import_head hfront (by decide) (by decide)) ht
    simpa using hpr
  have hpl : ∀ c ∈ text, c ≠ '#' ∧ c ≠ ';' := by
    have hb : ∀ c ∈ front, c ≠ '#' ∧ c ≠ ';' := fun c hc => by
      have hb := all_eq_true.mp hfront c hc
      constructor <;> (rintro rfl; exact absurd hb (by decide))
    refine forall_mem_layoutImport ht (by simp) (forall_mem_append.mpr ⟨hb,
      forall_mem_append.mpr ⟨by simp, Text.forall_mem_commaList (by decide) (by decide) ?_⟩⟩)
    exact forall_mem_newModules (by simp [addableModules]) hplain
  have hw : ("QtWidgets" : Text) ∈ words text := by
    have hbo := Text.words_append_border (a := front ++ ("from PyQt5 import " : Text))
      (.inr ⟨front ++ "from PyQt5 import", ' ', by simp, by decide⟩) (Text.commaList (newModules p rest))
    rw [words_layoutImport ht, ← append_assoc, hbo, words_commaList]
    refine mem_append_right _ (mem_flatMap.mpr ⟨_, hmem, ?_⟩)
    rw [Text.words_of_isWord (by decide) (by decide)]
    exact mem_cons_self
  rw [importsWidgets, Bool.or_eq_true, Bool.and_eq_true, statementText_of_plain hpl]
  exact .inr ⟨startsWith_of_isPrefix hfront (by decide) hs, by simpa using hw⟩

end Statements

/-! ## Statements of the graphics module -/

/-- The statement of the graphics module lists a name whose home is one of these. -/
def listsHome (line : Text) (home : Home) : Bool :=
  match headAndNames line with
  | .ok (_, names) => (listedNames names).any fun n => homeOf n == home
  | .error _ => false

theorem listsHome_iff {line head names : Text} (h : headAndNames line = .ok (head, names)) (home : Home) :
    listsHome line home ↔ (sortNames names).at home ≠ [] := by
  rw [listsHome, h, at_sortNames, any_eq_true, Ne, map_eq_nil_iff, filter_eq_nil_iff]
  simp

/-- **When a statement of the graphics module notes that the widgets are imported**: it lists a widget, or a
class of the core module. -/
theorem widgetsImported_guiImport {p : Progress} {line : Text} (h : guiImport cfg p line = .ok r) :
    r.2.widgetsImported = (p.widgetsImported || (listsHome line .core || listsHome line .widgets)) := by
  obtain ⟨⟨head, names⟩, hh, -⟩ := bind_eq_ok.mp h
  obtain ⟨parts, -, rfl⟩ := (guiImport_eq_ok_iff hh).mp h
  rw [widgetsImported_pathsImport, afterSorting]
  have hco := listsHome_iff hh .core
  have hwi := listsHome_iff hh .widgets
  change _ ↔ (sortNames names).core ≠ [] at hco
  change _ ↔ (sortNames names).widgets ≠ [] at hwi
  cases hc : (sortNames names).core <;> cases hw : (sortNames names).widgets <;>
    simp_all [Progress.withWidgets]

/-- **The statement of the graphics module imports its widgets**, as long as the blank behind the module is
there. -/
theorem importsWidgets_of_guiImport {p : Progress} {front line : Text}
    (hfront : front.all Text.isBlank) (hline : line = front ++ ("from PyQt4.QtGui " ++ rest))
    (h : guiImport cfg p line = .ok r) (hli : listsHome line .widgets) :
    ∃ l ∈ r.1, importsWidgets l := by
  obtain ⟨head, names, parts, others, hh, hp, hr, -, -⟩ := exists_of_guiImport h
  have hn := (listsHome_iff hh .widgets).mp hli
  have hs : front ++ (("from PyQt4.QtGui " : String).toList ++ rest) =
      ((front ++ ("from PyQt4.QtGu" : Text)) ++ ['i', ' ']) ++ rest := by simp
  have hi : 'i' ∉ front ++ ("from PyQt4.QtGu" : Text) := notMem_front hfront (by decide) (by decide)
  rw [hline, hs] at hh
  obtain ⟨more, rfl⟩ := exists_of_headAndNames (not_pair_behind hi (by decide) (by decide) rest) hh
  have ht : homeHead ((front ++ ("from PyQt4.QtGu" : Text)) ++ ['i', ' '] ++ more) .widgets =
      front ++ ("from PyQt5.QtWidgets import " ++ more.replaceAll "PyQt4.QtGui " "PyQt5.QtWidgets import ") := by
    have hm := replaceAll_behind_from hfront "yQt4.QtGui " "PyQt5.QtWidgets import " more
    have hho : ("PyQt5." : Text) ++ Home.module .widgets ++ (" import " : Text) = "PyQt5.QtWidgets import " := by
      decide
    rw [homeHead, if_neg (by decide), hho]
    simpa using hm
  have hw := hp .widgets (by decide)
  rw [ht] at hw
  obtain ⟨l, hl, himports⟩ := importsWidgets_of_importNames hfront hn hw
  refine ⟨l, ?_, himports⟩
  rw [hr]
  exact mem_append_left _ (mem_flatMap.mpr ⟨.widgets, by decide, hl⟩)

/-! ## All lines -/

/-- The statement of the graphics module, when it has been cleaned, lists a class of the core module and no
widget. -/
def namesCore (cleaned : Text) : Bool := listsHome cleaned .core && !listsHome cleaned .widgets

/-- **The statement misleads**: it may note that the widgets have been imported where they are not. -/
def misleads (declared : Bool) (line : Text) : Bool :=
  let cleaned := cleanImport .new declared line
  (line.trimLeft.startsWith "from PyQt4.QtGui " &&
      (!cleaned.trimLeft.startsWith "from PyQt4.QtGui " || namesCore cleaned)) ||
    (line.trimLeft.startsWith "from PyQt4 import " &&
      (!cleaned.trimLeft.startsWith "from PyQt4 import " || cleaned.any fun c => c == '#' || c == ';'))

section Lines

variable {unit : Text} {p : Progress} {line : Text}

theorem exists_of_startsWith {s : Text} (h : s.trimLeft.startsWith stem) :
    ∃ front rest, front.all Text.isBlank ∧ s = front ++ (stem ++ rest) := by
  obtain ⟨rest, hr⟩ := isPrefixOf_iff_prefix.mp h
  refine ⟨s.takeWhile Text.isBlank, rest, all_takeWhile, ?_⟩
  rw [hr]
  exact takeWhile_append_dropWhile.symm

theorem newLibraryLine_widgets {cleaned : Text}
    (hcleaned : line.isImport → cleaned = cleanImport .new p.signalDeclared line)
    (h : newLibraryLine ⟨.new, unit⟩ p line.trimLeft cleaned = .ok r)
    (hp : p.widgetsImported = false) (hr : r.2.widgetsImported) :
    (∃ l ∈ r.1, importsWidgets l) ∨ misleads p.signalDeclared line := by
  have hco : ∀ {q : Progress}, q.widgetsImported = p.widgetsImported → r.2 = q → False := by
    intro q hq hrq
    rw [hrq, hq, hp] at hr
    cases hr
  rw [newLibraryLine] at h
  split at h
  · exact (hco (show (p.forget "QStandardPaths").widgetsImported = _ from rfl) (by
      rw [← Except.ok.inj h]; rfl)).elim
  split at h
  · obtain ⟨lines, -, rfl⟩ := map_eq_ok.mp h
    exact (hco rfl rfl).elim
  split at h
  next hmo =>
    have hcl := hcleaned (isImport_of_startsWith (by decide) hmo)
    refine Decidable.or_iff_not_imp_right.mpr fun hm => ?_
    rw [misleads, ← hcl, hmo, Bool.true_and, Bool.or_eq_true, not_or, Bool.or_eq_true, not_or,
      Bool.not_eq_true', Bool.not_eq_false] at hm
    obtain ⟨-, hh, hpl⟩ := hm
    obtain ⟨front, rest, hfront, rfl⟩ := exists_of_startsWith hh
    refine importsWidgets_of_modulesImport hfront h (fun c hc => ?_) hp hr
    have hc' := any_eq_false.mp (Bool.eq_false_iff.mpr hpl) c (by simp [hc])
    simpa using hc'
  split at h
  next ha =>
    have hcl := hcleaned (isImport_of_startsWith (by decide) ha)
    obtain ⟨front, c, rest, hfront, -, hl⟩ :=
      hcl ▸ @headed_cleanImport line "from PyQt4.Qt import" (by decide) ha p.signalDeclared
    have hh : cleaned = front ++ (("from PyQt4.Qt " : Text) ++ (("import" : Text) ++ c :: rest)) := by
      rw [hl]
      simp
    exact .inl (importsWidgets_of_allImport hfront hh h hp hr)
  split at h
  next hg =>
    have hcl := hcleaned (isImport_of_startsWith (by decide) hg)
    refine Decidable.or_iff_not_imp_right.mpr fun hm => ?_
    rw [misleads, ← hcl, hg, Bool.true_and, Bool.or_eq_true, not_or, Bool.or_eq_true, not_or,
      Bool.not_eq_true', Bool.not_eq_false] at hm
    obtain ⟨⟨hh, hcore⟩, -⟩ := hm
    obtain ⟨front, rest, hfront, hl⟩ := exists_of_startsWith hh
    refine importsWidgets_of_guiImport hfront hl h ?_
    rw [widgetsImported_guiImport h, hp, Bool.false_or, Bool.or_eq_true] at hr
    rw [namesCore, Bool.and_eq_true, not_and, Bool.not_eq_true', Bool.not_eq_false] at hcore
    exact hr.elim hcore id
  next hg =>
  split at h
  · obtain ⟨lines, -, rfl⟩ := map_eq_ok.mp h
    exact (hco rfl rfl).elim
  · exact (hco rfl (by rw [← Except.ok.inj h])).elim

theorem importLine_widgets (h : importLine ⟨.new, unit⟩ p line = .ok r)
    (hp : p.widgetsImported = false) (hr : r.2.widgetsImported) :
    (∃ l ∈ r.1, importsWidgets l) ∨ misleads p.signalDeclared line := by
  have hs : r.2 ≠ p := fun heq => by
    rw [heq, hp] at hr
    cases hr
  rw [importLine] at h
  split at h
  · exact absurd (by rw [← Except.ok.inj h]) hs
  · dsimp only at h
    split at h
    next hi =>
      rw [hi, Bool.true_and] at h
      split at h
      · exact absurd (by rw [← Except.ok.inj h]) hs
      · exact newLibraryLine_widgets (fun _ => rfl) h hp hr
    next hi =>
      rw [Bool.eq_false_iff.mpr hi, Bool.false_and, if_neg (by decide)] at h
      exact newLibraryLine_widgets (fun h => absurd h hi) h hp hr

theorem widgetsImported_modulesImport (h : modulesImport cfg p line = .ok r) :
    r.2.widgetsImported = (p.widgetsImported || p.uses "QtWidgets") := by
  have hn : (if p.uses "QtWidgets" then p.withWidgets else p).widgetsImported =
      (p.widgetsImported || p.uses "QtWidgets") := by
    split <;> simp_all [Progress.withWidgets]
  rw [modulesImport] at h
  obtain ⟨⟨line', q⟩, hm, h⟩ := bind_eq_ok.mp h
  obtain rfl : (if p.uses "QtWidgets" then p.withWidgets else p) = q := by
    rw [importModules] at hm
    split at hm
    · exact (Prod.mk.inj (Except.ok.inj hm)).2
    · cases hm
  rw [← hn]
  cases line' with
  | none => rw [← Except.ok.inj h]
  | some line' =>
    obtain ⟨text, -, h⟩ := bind_eq_ok.mp h
    rw [← Except.ok.inj h]
    exact widgetsImported_pathsImport _ _

theorem widgetsImported_allImport
    (h : allImport cfg p line = .ok r) (hp : p.widgetsImported) : r.2.widgetsImported := by
  rw [allImport] at h
  obtain ⟨⟨head, names⟩, -, h⟩ := bind_eq_ok.mp h
  dsimp only at h
  obtain ⟨core, -, h⟩ := bind_eq_ok.mp h
  obtain ⟨gui, -, h⟩ := bind_eq_ok.mp h
  obtain ⟨widgets, -, h⟩ := bind_eq_ok.mp h
  obtain ⟨printing, -, h⟩ := bind_eq_ok.mp h
  obtain ⟨media, -, h⟩ := bind_eq_ok.mp h
  obtain ⟨openGL, -, h⟩ := bind_eq_ok.mp h
  rw [← Except.ok.inj h]
  dsimp only
  rw [widgetsImported_pathsImport]
  split
  · exact hp
  · rfl

theorem widgetsImported_importLine (h : importLine ⟨.new, unit⟩ p line = .ok r)
    (hp : p.widgetsImported) : r.2.widgetsImported := by
  have hl : ∀ {start cleaned : Text}, newLibraryLine ⟨.new, unit⟩ p start cleaned = .ok r →
      r.2.widgetsImported := by
    intro start cleaned h
    rw [newLibraryLine] at h
    split at h
    · rw [← Except.ok.inj h]
      exact hp
    split at h
    · obtain ⟨lines, -, rfl⟩ := map_eq_ok.mp h
      exact hp
    split at h
    · rw [widgetsImported_modulesImport h, hp, Bool.true_or]
    split at h
    · exact widgetsImported_allImport h hp
    split at h
    · rw [widgetsImported_guiImport h, hp, Bool.true_or]
    split at h
    · obtain ⟨lines, -, rfl⟩ := map_eq_ok.mp h
      exact hp
    · rw [← Except.ok.inj h]
      exact hp
  rw [importLine] at h
  split at h
  · rw [← Except.ok.inj h]
    exact hp
  · dsimp only at h
    generalize (if line.isImport then cleanImport .new p.signalDeclared line else line) = cleaned at h
    split at h
    · rw [← Except.ok.inj h]
      exact hp
    · exact hl h

/-- The line is a statement of the graphics module that lists a class of the core module, when it has been
cleaned. -/
def listsCore (declared : Bool) (line : Text) : Bool :=
  let cleaned := cleanImport .new declared line
  line.trimLeft.startsWith "from PyQt4.QtGui " && (!importsNothing cleaned && listsHome cleaned .core)

theorem newLibraryLine_gui (hg : line.trimLeft.startsWith "from PyQt4.QtGui ") (cleaned : Text) :
    newLibraryLine ⟨.new, unit⟩ p line.trimLeft cleaned = guiImport ⟨.new, unit⟩ p cleaned := by
  have ho : ∀ {head : Text}, ¬ ("from PyQt4.QtGui " : Text) <+: head → ¬ head <+: ("from PyQt4.QtGui " : Text) →
      ¬ line.trimLeft.startsWith head := fun hh hh' hs => by
    rw [not_graphics_of_startsWith hs hh hh'] at hg
    cases hg
  have hc : line.trimLeft.startsWith "from PyQt4.QtCore " = false :=
    Bool.eq_false_iff.mpr (ho (by decide) (by decide))
  rw [newLibraryLine, hc, Bool.false_and, Bool.false_and, if_neg (by decide), if_neg (by decide),
    if_neg (ho (by decide) (by decide)), if_neg (ho (by decide) (by decide)), if_pos hg]

theorem widgetsImported_of_listsCore (h : importLine ⟨.new, unit⟩ p line = .ok r)
    (hc : listsCore p.signalDeclared line) : r.2.widgetsImported := by
  simp only [listsCore, Bool.and_eq_true, Bool.not_eq_true'] at hc
  obtain ⟨hg, hn, hc⟩ := hc
  have hi : line.isImport := isImport_of_startsWith (by decide) hg
  rw [importLine, if_neg (by rw [Text.isCode_of_isImport hi]; decide)] at h
  dsimp only at h
  rw [if_pos hi, hn, Bool.and_false, if_neg (by decide), newLibraryLine_gui hg] at h
  rw [widgetsImported_guiImport h, hc, Bool.true_or, Bool.or_true]

/-! ## The whole source -/

theorem widgetsImported_of_ensureWidgets {q : Progress} {out : List Text}
    (h : ensureWidgets q out = .ok (out, q)) (hu : out.any usesWidget) : q.widgetsImported := by
  by_contra hn
  rw [ensureWidgets, Bool.eq_false_iff.mpr hn, Bool.false_or, hu, if_neg (by decide)] at h
  obtain ⟨lines, -, hq⟩ := map_eq_ok.mp h
  rw [← (Prod.mk.inj hq).2] at hn
  exact hn rfl

theorem widgetsImported_updateImports : ∀ {p : Progress} {lines out : List Text} {q : Progress},
    updateImports ⟨.new, unit⟩ p lines = .ok (out, q) → p.widgetsImported = false → q.widgetsImported →
      (∃ l ∈ out, importsWidgets l) ∨ ∃ line ∈ lines, misleads p.signalDeclared line
  | p, [], out, q, h, hp, hq => by
    cases h
    rw [hp] at hq
    cases hq
  | p, line :: lines, out, q, h, hp, hq => by
    rw [updateImports] at h
    obtain ⟨⟨here, p'⟩, hh, h⟩ := bind_eq_ok.mp h
    obtain ⟨⟨rest, q'⟩, hr, h⟩ := bind_eq_ok.mp h
    cases h
    cases hp' : p'.widgetsImported with
    | true =>
      obtain ⟨l, hl, hi⟩ | hmisleads := importLine_widgets hh hp hp'
      · exact .inl ⟨l, mem_append_left _ hl, hi⟩
      · exact .inr ⟨line, mem_cons_self, hmisleads⟩
    | false =>
      obtain ⟨l, hl, hi⟩ | ⟨l, hl, hmisleads⟩ := widgetsImported_updateImports hr hp' hq
      · exact .inl ⟨l, mem_append_right _ hl, hi⟩
      · rw [(renewed_importLine_iff hh).2] at hmisleads
        exact .inr ⟨l, mem_cons_of_mem _ hl, hmisleads⟩

theorem widgetsImported_updateImports_of_listsCore : ∀ {p : Progress} {lines out : List Text} {q : Progress},
    updateImports ⟨.new, unit⟩ p lines = .ok (out, q) →
      (p.widgetsImported ∨ ∃ line ∈ lines, listsCore p.signalDeclared line) →
      q.widgetsImported
  | p, [], out, q, h, hn => by
    cases h
    exact hn.elim id fun ⟨_, hm, _⟩ => absurd hm not_mem_nil
  | p, line :: lines, out, q, h, hn => by
    rw [updateImports] at h
    obtain ⟨⟨here, p'⟩, hh, h⟩ := bind_eq_ok.mp h
    obtain ⟨⟨rest, q'⟩, hr, h⟩ := bind_eq_ok.mp h
    cases h
    refine widgetsImported_updateImports_of_listsCore hr ?_
    rw [(renewed_importLine_iff hh).2]
    obtain hp | ⟨l, hl, hc⟩ := hn
    · exact .inl (widgetsImported_importLine hh hp)
    · rcases mem_cons.mp hl with rfl | hl
      · exact .inl (widgetsImported_of_listsCore hh hc)
      · exact .inr ⟨l, hl, hc⟩

/-- **The note that the widgets are imported is true unless a statement misleads**, so with no such statement
they are left as they are only where they are imported; and a class of the core module makes the note. -/
theorem widgets_note_truthful {p q : Progress} {lines out : List Text}
    (h : updateImports ⟨.new, unit⟩ p lines = .ok (out, q)) (hp : p.widgetsImported = false) :
    (q.widgetsImported = true → (∃ l ∈ out, importsWidgets l = true) ∨
      ∃ line ∈ lines, misleads p.signalDeclared line = true) ∧
    (ensureWidgets q out = .ok (out, q) → out.any usesWidget = true → (∃ l ∈ out, importsWidgets l = true) ∨
      ∃ line ∈ lines, misleads p.signalDeclared line = true) ∧
    ((∃ line ∈ lines, listsCore p.signalDeclared line = true) → q.widgetsImported = true) := by
  refine ⟨widgetsImported_updateImports h hp, fun hleft hused => ?_, fun hcore =>
    widgetsImported_updateImports_of_listsCore h (.inr hcore)⟩
  exact widgetsImported_updateImports h hp (widgetsImported_of_ensureWidgets hleft hused)

end Lines

/-- A source whose widgets have been moved to their own module. -/
def widgetsSource : List Text := ["from PyQt4 import QtGui, QtCore\n", "w = QtWidgets.QWidget()\n"]

theorem widgets_note_truthful_widgetsSource : widgetsSource.any (misleads false) = false ∧ ∃ out q,
      updateImports ⟨.new, " "⟩ (Progress.initial.note "QtWidgets") widgetsSource = .ok (out, q) ∧
        q.widgetsImported = true ∧ ensureWidgets q out = .ok (out, q) ∧ ∃ l ∈ out, importsWidgets l = true := by
  have hplain : widgetsSource.any (misleads false) = false := by decide
  have h : updateImports ⟨.new, " "⟩ (Progress.initial.note "QtWidgets") widgetsSource =
      .ok (["from PyQt5 import QtCore, QtWidgets\n", "w = QtWidgets.QWidget()\n"],
        (Progress.initial.note "QtWidgets").withWidgets) := by decide
  obtain ⟨hnote, -, -⟩ := widgets_note_truthful h rfl
  refine ⟨hplain, _, _, h, rfl, rfl, (hnote rfl).resolve_right fun ⟨line, hline, hmisleads⟩ => ?_⟩
  exact List.any_eq_false.mp hplain line hline hmisleads

/-- **A class of the core module alone**: the widgets are taken for imported, and a source that uses one is left
without its import. -/
theorem widgets_note_of_core_class :
    updateImports ⟨.new, " "⟩ .initial ["from PyQt4.QtGui import QAbstractProxyModel\n", "w = QWidget()\n"] =
        .ok (["from PyQt5.QtCore import QAbstractProxyModel\n", "w = QWidget()\n"], Progress.initial.withWidgets) ∧
      ensureWidgets Progress.initial.withWidgets
        ["from PyQt5.QtCore import QAbstractProxyModel\n", "w = QWidget()\n"] =
        .ok (["from PyQt5.QtCore import QAbstractProxyModel\n", "w = QWidget()\n"], Progress.initial.withWidgets) ∧
      importsWidgets "from PyQt5.QtCore import QAbstractProxyModel\n" = false ∧
      importsWidgets "w = QWidget()\n" = false := by
  refine ⟨by decide, rfl, by decide, by decide⟩

end QtMigration
