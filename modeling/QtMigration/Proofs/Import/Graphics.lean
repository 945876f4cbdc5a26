import QtMigration.Proofs.Import.Cleaned
import QtMigration.Proofs.Import.Written

/-!
# Proofs/Import/Graphics — the statement that imports names from the graphics module

In any layout, the statement loses its empty rows and nothing else, and **what its rows list is sorted**
(`exists_importLine`).
-/

namespace QtMigration

open List Text

theorem importsNothing_eq_false {line : Text} (h : (words line).getLast? ≠ some ("import" : Text)) :
    importsNothing line = false := by
  have hi : words (("import" : String).toList : Text) = [("import" : Text)] := by decide
  rw [importsNothing, Bool.or_eq_false_iff]
  constructor
  · rw [beq_eq_false_iff_ne]
    intro ht
    refine h ?_
    rw [← words_trim, ht, hi, getLast?_singleton]
  · rw [Text.endsWith, ← Bool.not_eq_true, isSuffixOf_iff_suffix]
    rintro ⟨front, hf⟩
    obtain ⟨blank, hb, ha⟩ := exists_trimRight line
    refine h ?_
    rw [hb, words_append_gap _ (isGap_of_isBlank ha), ← hf,
      show ((" import" : String).toList : Text) = ' ' :: ("import" : Text) by decide,
      words_append_cons (by decide), hi, getLast?_concat]

def graphicsHead (indent : Text) : Text := indent ++ "from PyQt4.QtGui import "

def graphicsWords : List Text := ["from", "PyQt4", "QtGui", "import"]

section Head

variable {indent : Text} (hindent : indent.all isRowBlank = true)

include hindent

theorem indent_isBlank : indent.all Text.isBlank := all_eq_true.mpr fun c hc =>
  isBlank_of_isRowBlank (all_eq_true.mp hindent c hc)

theorem notMem_indent {c : Char} (hc : isRowBlank c = false) : c ∉ indent := fun hm => by
  simp [all_eq_true.mp hindent c hm] at hc

theorem trimLeft_indent (s : Text) : Text.trimLeft (indent ++ s) = Text.trimLeft s := by
  have hb : Text.trimLeft indent = [] := by
    rw [Text.trimLeft, Text.trimLeftWhile, dropWhile_eq_nil_iff]
    exact all_eq_true.mp (indent_isBlank hindent)
  rw [trimLeft_append, hb]
  rfl

theorem words_graphicsHead (s : Text) : words (graphicsHead indent ++ s) = graphicsWords ++ words s := by
  have hh : (("from PyQt4.QtGui import " : String).toList : Text) =
      ("from PyQt4.QtGui import" : Text) ++ [' '] := by decide
  have hw : words (("from PyQt4.QtGui import" : String).toList : Text) = graphicsWords := by
    decide
  rw [graphicsHead, hh, append_assoc, append_assoc,
    words_gap_append (isGap_of_isBlank (indent_isBlank hindent)), singleton_append,
    words_append_cons (by decide), hw]

theorem trimLeft_graphicsHead (s : Text) :
    Text.trimLeft (graphicsHead indent ++ s) = ("from PyQt4.QtGui import " : Text) ++ s := by
  rw [graphicsHead, append_assoc, trimLeft_indent hindent]
  exact trimLeft_cons (by decide) _

theorem isFilled_graphicsHead : isFilled (graphicsHead indent) := by
  have h := trimLeft_graphicsHead hindent []
  rw [append_nil] at h
  rw [isFilled, trim_isEmpty, h]
  decide

theorem newline_notMem_graphicsHead : '\n' ∉ graphicsHead indent := by
  rw [graphicsHead, mem_append, not_or]
  exact ⟨notMem_indent hindent (by decide), by decide⟩

theorem headAndNames_graphics {s : Text} (hs : s.has "import " = false) :
    headAndNames (graphicsHead indent ++ s) = .ok (indent ++ "from PyQt4.QtGui ", s) := by
  have hsp : graphicsHead indent ++ s = (indent ++ ("from PyQt4.QtGui " : Text)) ++ (("import " : Text) ++ s) := by
    rw [graphicsHead, show (("from PyQt4.QtGui import " : String).toList : Text) =
      ("from PyQt4.QtGui " : Text) ++ ("import " : Text) by decide]
    simp only [append_assoc]
  have hl : (indent ++ ("from PyQt4.QtGui " : Text)).has "import " = false := by
    refine has_eq_false_of_notMem (c := 'p') (by decide) ?_
    rw [mem_append, not_or]
    exact ⟨notMem_indent hindent (by decide), by decide⟩
  rw [headAndNames, hsp, splitOn_import hl hs]

theorem newLibraryLine_graphics (unit : Text) (p : Progress) (s line : Text) :
    newLibraryLine ⟨.new, unit⟩ p (Text.trimLeft (graphicsHead indent ++ s)) line =
      guiImport ⟨.new, unit⟩ p line := by
  have hs := startsWith_append_eq_false ("from PyQt4.QtGui import " : Text)
  have hg : Text.startsWith (("from PyQt4.QtGui import " : Text) ++ s) "from PyQt4.QtGui " :=
    isPrefixOf_iff_prefix.mpr (.trans (by decide) (prefix_append _ s))
  rw [trimLeft_graphicsHead hindent, newLibraryLine, hs "from PyQt4.QtCore " s (by decide) (by decide),
    hs "from PyQt4 import " s (by decide) (by decide),
    hs "from PyQt4.Qt import " s (by decide) (by decide), hg]
  rfl

end Head

theorem statement_graphics (indent : Text) (L : Layout) (names : List Text) :
    statement indent "PyQt4.QtGui" L names = graphicsHead indent ++ (L.render names ++ ['\n']) := by
  rw [statement, graphicsHead, show (("from PyQt4.QtGui import " : String).toList : Text) =
    ("from " : Text) ++ (("PyQt4.QtGui" : Text) ++ (" import " : Text)) by decide]
  simp only [append_assoc]

section Statement

variable {indent : Text} {L : Layout} {names : List Text} (hindent : indent.all isRowBlank = true)
  (hfits : L.Fits names) (hnames : ∀ n ∈ names, isImportable n = true ∧ n ∉ retiredNames)

include hfits hnames

theorem words_render_importable : words (L.render names) = names :=
  Layout.words_render hfits fun n hn => (isImportable_iff.mp (hnames n hn).1).1

theorem exists_trimRight_render : ∃ front d, Text.trimRight (L.render names) = front ++ [d] ∧ d ≠ ',' := by
  obtain ⟨front, behind, hr, hc, hb⟩ :=
    L.exists_render_end hfits fun n hn => (isImportable_iff.mp (hnames n hn).1).1
  obtain ⟨last, d, hl⟩ := (eq_nil_or_concat _).resolve_left hb
  rw [concat_eq_append] at hl
  refine ⟨front ++ last, d, ?_, fun hd => hc ?_⟩
  · rw [hr, trimRight_append_of_ne_nil front hb, hl, append_assoc]
  · exact (trimRight_isPrefix behind).subset (by rw [hl, hd]; simp)

include hindent

theorem exists_cleaned (declared : Bool) : ∃ s,
    cleanImport .new declared (statement indent "PyQt4.QtGui" L names) = graphicsHead indent ++ s ∧
      words s = names ∧ listedNames s = listedNames (L.render names) := by
  have hw := words_render_importable hfits hnames
  obtain ⟨front, d, he, hd⟩ := exists_trimRight_render hfits hnames
  obtain ⟨blank, hb, hall⟩ := exists_trimRight (L.render names)
  have ht : Text.trimRight (statement indent "PyQt4.QtGui" L names) ++ ['\n'] =
      graphicsHead indent ++ (Text.trimRight (L.render names) ++ ['\n']) := by
    rw [statement_graphics, ← append_assoc, trimRight_append_blank (by decide),
      trimRight_append_of_ne_nil _ (by rw [he]; simp), append_assoc]
  have hr : ∀ old ∈ retiredNames, old ∉ words (statement indent "PyQt4.QtGui" L names) := by
    intro old ho hm
    rw [statement_graphics, words_graphicsHead hindent, words_append_gap _ (by decide), hw, mem_append] at hm
    rcases hm with hm | hm
    · have ha : ∀ old ∈ retiredNames, old ∉ graphicsWords := by decide
      exact ha old ho hm
    · exact (hnames old hm).2 ho
  have hl : listedNames (Text.trimRight (L.render names) ++ ['\n']) = listedNames (L.render names) := by
    have hc : (Text.trimRight (L.render names)).getLast? ≠ some ',' := by
      rw [he, getLast?_concat]
      simpa using hd
    rw [listedNames_append_blank (by decide) hc]
    conv_rhs => rw [hb, listedNames_append_blank hall hc]
  obtain ⟨s, hs, hn⟩ := exists_dropEmptyRows_append (newline_notMem_graphicsHead hindent)
    (isFilled_graphicsHead hindent) (Text.trimRight (L.render names) ++ ['\n'])
  refine ⟨s, ?_, ?_, hn.trans hl⟩
  · rw [cleanImport_of_no_retired declared hr, ht, hs]
  · have hk := words_dropEmptyRows (graphicsHead indent ++ (Text.trimRight (L.render names) ++ ['\n']))
    rw [hs, words_graphicsHead hindent, words_graphicsHead hindent, words_append_gap _ (by decide)] at hk
    have hsa := append_cancel_left hk
    rw [hsa, ← words_append_gap (Text.trimRight (L.render names)) (isGap_of_isBlank hall), ← hb, hw]

theorem exists_importLine (unit : Text) (p : Progress) : ∃ s,
    importLine ⟨.new, unit⟩ p (statement indent "PyQt4.QtGui" L names) =
        guiImport ⟨.new, unit⟩ p (graphicsHead indent ++ s) ∧
      words s = names ∧ listedNames s = listedNames (L.render names) := by
  obtain ⟨s, hc, hw, hli⟩ := exists_cleaned hindent hfits hnames p.signalDeclared
  have hs := trimLeft_graphicsHead hindent (L.render names ++ ['\n'])
  have hco : Text.isCode (statement indent "PyQt4.QtGui" L names) := by
    rw [statement_graphics, isCode_eq_head, hs]
    rfl
  have hi : Text.isImport (statement indent "PyQt4.QtGui" L names) := by
    rw [statement_graphics, Text.isImport, hs]
    rfl
  have hlists : importsNothing (graphicsHead indent ++ s) = false := by
    obtain ⟨front, n, hl⟩ := (eq_nil_or_concat names).resolve_left (ne_nil_of_length_eq_add_one hfits)
    rw [concat_eq_append] at hl
    refine importsNothing_eq_false fun h => ?_
    rw [words_graphicsHead hindent, hw, hl, ← append_assoc, getLast?_concat] at h
    exact (isImportable_iff.mp (hnames n (by rw [hl]; simp)).1).2 (Option.some.inj h ▸ suffix_refl _)
  refine ⟨s, ?_, hw, hli⟩
  rw [importLine, hco, hi]
  simp only [Bool.not_true, Bool.false_eq_true, if_false, if_true, Bool.true_and, hc, hlists]
  rw [statement_graphics, newLibraryLine_graphics hindent]

end Statement

end QtMigration
