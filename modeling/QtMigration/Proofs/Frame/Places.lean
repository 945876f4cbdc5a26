import QtMigration.Proofs.Frame.AtRest
import QtMigration.Proofs.Frame.Words
import QtMigration.Proofs.Retarget.Noted

/-!
# Proofs/Frame/Places — the class of standard places and its import

**The class is imported by the statements that imported it before** (`paths_imports_as_written`), whatever
has been rewritten.
-/

namespace QtMigration

open List Text

variable {lines out : List Text} {p : Progress} {line : Text}

def importsPaths (line : Text) : Bool := line.isImport && line.has "QStandardPaths"

/-- **The line is an import or asks for a place, not both**: no pass looks for it, or nothing is taken out
of it and it has the words of one of them only. -/
def ImportOrPlace (line : Text) : Prop :=
  line.hasAny editPieces = false ∨
    line.hasAny gluePieces = false ∧ (line.hasAny importWords = false ∨ line.hasAny placeWords = false)

instance : DecidablePred ImportOrPlace := fun line =>
  inferInstanceAs (Decidable (line.hasAny editPieces = false ∨
    line.hasAny gluePieces = false ∧ (line.hasAny importWords = false ∨ line.hasAny placeWords = false)))

/-- What a conversion has come to when the import statements are written. -/
def beforeImports (s : Survey) (lines : List Text) : Run (List Text × Progress) := do
  let st ← beforeModules s lines
  retargetAll (modulePasses s) (signalProgress st) st.lines

def importsWritten (lines : List Text) : Run (List Text × Progress) := do
  let indent ← indentUnit lines
  let r ← beforeImports (survey lines) lines
  updateImports ⟨.new, indent⟩ r.2 r.1

/-! ## The passes behind the import statements -/

theorem lacks_placePieces (h : line.hasAny placeWords = false) : line.hasAny placePieces = false := by
  have hp : ∀ piece ∈ placePieces, piece.hasAny placeWords := by decide
  refine hasAny_eq_false_iff.mpr fun piece hpi => ?_
  obtain ⟨word, hw, hs⟩ := any_eq_true.mp (hp piece hpi)
  exact has_eq_false_of_subneedle (hasAny_eq_false_iff.mp h word hw) ( has_iff_infix.mp hs)

theorem Edit.importOrPlace {line' : Text} (h : Edit line line') (hli : line.hasAny gluePieces = false ∧
      (line.hasAny importWords = false ∨ line.hasAny placeWords = false)) :
    line'.hasAny gluePieces = false ∧
      (line'.hasAny importWords = false ∨ line'.hasAny placeWords = false) := by
  obtain ⟨hg, hwo⟩ := hli
  have hq : ∀ {words : List Text}, words ⊆ gluePieces ++ importWords → line.hasAny words = false →
      line'.hasAny words = false := fun hs hl =>
    hasAny_eq_false_iff.mpr fun word hw =>
      h.lacks_quiet hg (hs hw) (hasAny_eq_false_iff.mp hl word hw)
  refine ⟨hq (subset_append_left _ _) hg, hwo.imp (hq (subset_append_right _ _)) ?_⟩
  intro hp
  exact hasAny_eq_false_iff.mpr fun word hw =>
    h.lacks_place hg hw (lacks_placePieces hp) (hasAny_eq_false_iff.mp hp word hw)

theorem Fresh.importOrPlace (h : Fresh line) :
    line.hasAny gluePieces = false ∧ (line.hasAny importWords = false ∨ line.hasAny placeWords = false) := by
  cases h with
  | widgets indent hi =>
    have hl := hasAny_eq_false_iff.mp (widgetsImport_lacks hi)
    exact ⟨hasAny_eq_false_iff.mpr fun piece hp =>
        hl piece (mem_append_left _ (mem_editPieces_of_glue hp)),
      .inr (hasAny_eq_false_iff.mpr fun word hw => hl word (mem_append_right _ hw))⟩
  | definition hd =>
    have hl : ∀ {words : List Text}, words ⊆ gluePieces ++ importWords → line.hasAny words = false :=
      fun hs => hasAny_eq_false_iff.mpr fun word hw => lacks_of_definition hd
        (.inl (mem_append_left _ (mem_append_left _ (hs hw))))
    exact ⟨hl (subset_append_left _ _), .inl (hl (subset_append_right _ _))⟩

theorem Text.hasAny_of_isImport (h : line.isImport) : line.hasAny importWords := by
  have hp : ∀ head ∈ (["import ", "from "] : List Text), head.hasAny importWords := by decide
  rw [isImport, startsWithAny, any_eq_true] at h
  obtain ⟨head, hh, hs⟩ := h
  rw [startsWith, isPrefixOf_iff_prefix] at hs
  obtain ⟨word, hw, hsub⟩ := any_eq_true.mp (hp head hh)
  refine hasAny_of_has hw ( has_iff_infix.mpr (( has_iff_infix.mp hsub).trans ?_))
  exact hs.isInfix.trans (dropWhile_suffix _).isInfix

/-- **The passes for parts of the library neither write nor lose an import of the class of standard
places.** -/
theorem convertApi_importsPaths
    (hli : ∀ line ∈ lines, InCode ImportOrPlace line) (h : convertApi p lines = .ok out)
    (hp : importsPaths line) : line ∈ out ↔ line ∈ lines := by
  rw [importsPaths, Bool.and_eq_true] at hp
  obtain ⟨himport, hp⟩ := hp
  have hco := isCode_of_isImport himport
  -- a line with the class that can be an import is one that no pass looks for
  have hc : ¬ (line.hasAny importWords = false ∨ line.hasAny placeWords = false) := by
    have hpl : line.hasAny placeWords := hasAny_of_has mem_cons_self hp
    simp [hasAny_of_isImport himport, hpl]
  constructor
  · intro ho
    have hi := convertApi_inCode (P := fun l => (l ∈ lines ∧ l.hasAny editPieces = false) ∨
        (l.hasAny gluePieces = false ∧ (l.hasAny importWords = false ∨ l.hasAny placeWords = false)))
      (fun l l' hl he => ?_) (fun l hl => .inr hl.importOrPlace)
      (fun l hl hlc => (hli l hl hlc).imp_left fun hla => ⟨hl, hla⟩) h line ho hco
    · rcases hi with ⟨hm, -⟩ | ⟨-, hw⟩
      · exact hm
      · exact absurd hw hc
    · rcases hl with ⟨-, hla⟩ | hl
      · rw [he.sought] at hla
        cases hla
      · exact .inr (he.importOrPlace hl)
  · intro hm
    rcases hli line hm hco with hla | ⟨-, hw⟩
    · exact mem_convertApi_of_lacks h hla hm
    · exact absurd hw hc

/-! ## The note -/

theorem not_uses_paths {s : Survey} {named : List Text}
    (h : (beforeImports s lines).outcome = .ok (named, p)) : p.uses "QStandardPaths" = false := by
  obtain ⟨st, -, hn⟩ := Run.bind_eq_ok.mp h
  refine retargetAll_notes_only rfl ?_ hn
  rw [modulePasses]
  cases s.gui <;> cases s.web <;> decide

/-! ## A whole conversion -/

theorem mem_collectNotes_of_isImport (h : line.isImport) : line ∈ (collectNotes out).1 ↔ line ∈ out := by
  have hn : ∀ l : Text, isNote l → (unmarked l).isCode = false := fun l hl => by
    rw [unmarked, if_pos hl, isCode_replaceAll (by decide) (by decide)]
    rw [isNote, Bool.and_eq_true] at hl
    rw [Text.isCode, hl.1, Bool.or_true, Bool.true_or, Bool.true_or, Bool.not_true]
  have hc := isCode_of_isImport h
  rw [collectNotes, mem_map]
  constructor
  · rintro ⟨l, hl, rfl⟩
    cases hm : isNote l with
    | true => rw [hn l hm] at hc; cases hc
    | false => rwa [unmarked, hm, if_neg Bool.false_ne_true]
  · intro hli
    refine ⟨line, hli, ?_⟩
    cases hm : isNote line with
    | true =>
      rw [isNote, Bool.and_eq_true] at hm
      rw [Text.isCode, hm.1, Bool.or_true, Bool.true_or, Bool.true_or, Bool.not_true] at hc
      cases hc
    | false => rw [unmarked, hm, if_neg Bool.false_ne_true]

theorem convertApi_importsWritten {written : List Text} {q : Progress}
    (hr : (convertLines .new lines).outcome = .ok (some out))
    (hw : (importsWritten lines).outcome = .ok (written, q)) : convertApi q written = .ok out := by
  rw [importsWritten] at hw
  obtain ⟨indent, hi, hw⟩ := Run.bind_eq_ok.mp hw
  obtain ⟨named, hb, hw⟩ := Run.bind_eq_ok.mp hw
  rw [Run.outcome_lift] at hw
  rw [convertLines] at hr
  obtain ⟨indent', hi', hr⟩ := Run.bind_eq_ok.mp hr
  obtain rfl := Except.ok.inj (hi.symm.trans hi')
  dsimp only at hr
  split at hr
  · cases hr
  obtain ⟨out', ho, hr⟩ := Run.bind_eq_ok.mp hr
  obtain rfl := Option.some.inj (Except.ok.inj hr)
  obtain ⟨st, named', p, written', q', hst, hn, hw', ha⟩ := runPasses_stages ho
  obtain rfl := Except.ok.inj (hb.symm.trans (Run.bind_eq_ok.mpr ⟨st, hst, hn⟩))
  obtain ⟨rfl, rfl⟩ := Prod.mk.inj (Except.ok.inj (hw.symm.trans hw'))
  exact ha

/-- **A conversion imports the class of standard places exactly where the import statements have it when they
are written**, and then nothing is known of a request for a place: what the passes behind them find out is not
told to them. -/
theorem paths_imports_as_written {lines out written : List Text} {q : Progress}
    (hrun : (convertLines .new lines).outcome = .ok (some out))
    (hwritten : (importsWritten lines).outcome = .ok (written, q))
    (hlines : ∀ line ∈ written, InCode ImportOrPlace line) :
    (∀ named p, (beforeImports (survey lines) lines).outcome = .ok (named, p) → p.uses "QStandardPaths" = false) ∧
    ∀ line, importsPaths line = true → (line ∈ (collectNotes out).1 ↔ line ∈ written) := by
  refine ⟨fun named p => not_uses_paths, fun line hpaths => ?_⟩
  have himport : line.isImport = true := (Bool.and_eq_true_iff.mp hpaths).1
  rw [mem_collectNotes_of_isImport himport]
  exact convertApi_importsPaths hlines (convertApi_importsWritten hrun hwritten) hpaths

def placeLines : List Text :=
  ["from PyQt4.QtCore import Qt  # QAbstractButton\n", "home = QDesktopServices().storageLocation(Qt.Home)\n"]

/-- The same source for the new library: the widgets are imported, the class of places is not. -/
def placeOut : List Text :=
  ["from PyQt5.QtCore import Qt  # QAbstractButton\n", "from PyQt5.QtWidgets import *\n",
   "home = QStandardPaths.writableLocation(QStandardPaths.Home)\n"]

theorem convertLines_placeLines : (convertLines .new placeLines).outcome = .ok (some placeOut) := by
  decide +kernel

theorem importsWritten_placeLines : (importsWritten placeLines).outcome =
    .ok (["from PyQt5.QtCore import Qt  # QAbstractButton\n", "home = QDesktopServices().storageLocation(Qt.Home)\n"],
      .initial) := by
  decide +kernel

theorem paths_imports_as_written_placeLines :
    (∀ named p, (beforeImports (survey placeLines) placeLines).outcome = .ok (named, p) →
      p.uses "QStandardPaths" = false) ∧
    ∀ line, importsPaths line = true → (line ∈ (collectNotes placeOut).1 ↔
      line ∈ (["from PyQt5.QtCore import Qt  # QAbstractButton\n",
        "home = QDesktopServices().storageLocation(Qt.Home)\n"] : List Text)) := by
  have happart : ∀ line ∈ (["from PyQt5.QtCore import Qt  # QAbstractButton\n",
      "home = QDesktopServices().storageLocation(Qt.Home)\n"] : List Text), ImportOrPlace line := by
    decide +kernel
  exact paths_imports_as_written convertLines_placeLines importsWritten_placeLines fun line hline _ =>
    happart line hline

/-- **Rewriting a request for a place imports nothing**: behind the conversion the class is used, and no
statement imports it. -/
theorem place_without_import : (convertLines .new placeLines).outcome = .ok (some placeOut) ∧
      placeOut.any (·.has "= QStandardPaths.") = true ∧ placeOut.any importsPaths = false :=
  ⟨convertLines_placeLines, by decide +kernel, by decide +kernel⟩

end QtMigration
