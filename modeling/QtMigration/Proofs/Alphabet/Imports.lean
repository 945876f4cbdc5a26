import QtMigration.Proofs.Alphabet.Basic
import QtMigration.Proofs.Frame.Pipeline
import QtMigration.Proofs.Import.Modules

/-!
# Proofs/Alphabet/Imports — naming modules and importing stays within an alphabet

Retargeting puts the names of modules between pieces of a line, and import statements are built from the names
they had and from names of modules.
-/

namespace QtMigration

open List

variable {out : List Text} {r : List Text × Progress} {p : Progress} {cfg : Settings}
  {head line names s unit : Text}

namespace Alphabet

variable {A : Alphabet}

/-! ## Retargeting -/

section Retarget

variable {old new : Text}

theorem moduleOf_spells (hold : A.Spells old) (hnew : A.Spells new) (classes : List Text) (p : Progress)
    (name : Text) :
    A.Spells (moduleOf old new classes p name).1 := by
  rw [moduleOf]
  split
  · exact A.spells_of_isPlain (by decide : isPlain "QtMultimedia")
  split
  · exact A.spells_of_isPlain (by decide : isPlain "QtCore")
  split
  · exact hnew
  · exact hold

variable {choose : Progress → Text → Text × Progress} (hchoose : ∀ p name, A.Spells (choose p name).1)

include hchoose

theorem next_spells {r : Retargeting} (h : A.Spells r.written) : A.Spells (r.next choose).written := by
  rw [Retargeting.next]
  split
  · exact h
  · exact h.append (hchoose _ _)

theorem pieces_spells : ∀ (r : Retargeting) (ps : List Text), A.Spells r.written → A.SpellsAll ps →
    A.Spells (r.pieces choose ps).written
  | r, [], h, _ => h
  | r, [last], h, hps => h.append (spellsAll_singleton.mp hps)
  | r, piece :: next :: rest, h, hps => by
    obtain ⟨hp, hr⟩ := spellsAll_cons.mp hps
    rw [Retargeting.pieces]
    · split
      · exact pieces_spells r (next :: rest) h hr
      · exact pieces_spells _ (next :: rest) (next_spells hchoose (h.append hp)) hr
    · simp

end Retarget

section Lines

variable {old new : Text} {classes : List Text} (hold : A.Spells old) (hnew : A.Spells new)

include hold hnew

theorem retargetNames_spells {names : List Text} {r : Retargeted}
    (hl : A.Spells line) (h : retargetNames old new classes p line names = .ok r) :
    A.SpellsAll r.lines := by
  have hchoose := moduleOf_spells hold hnew classes
  have hst : A.Spells (if line.startsWith old then
      (⟨names, [], 0, p⟩ : Retargeting).next (moduleOf old new classes)
      else ⟨names, [], 0, p⟩).written := by
    split
    · exact next_spells hchoose A.spells_nil
    · exact A.spells_nil
  have hw := pieces_spells hchoose _ _ hst (hl.splitOn old)
  rw [retargetNames] at h
  dsimp only at h
  generalize Retargeting.pieces (moduleOf old new classes) (if line.startsWith old then
    (⟨names, [], 0, p⟩ : Retargeting).next (moduleOf old new classes) else ⟨names, [], 0, p⟩)
    (line.splitOn old) = pieces at h hw
  split at h
  · obtain rfl := Except.ok.inj h
    exact spellsAll_singleton.mpr hw
  · obtain ⟨indent, hi, hpu⟩ := bind_eq_ok.mp h
    obtain rfl := Except.ok.inj hpu
    refine spellsAll_append.mpr ⟨fun s hs => ?_, spellsAll_singleton.mpr hw⟩
    -- every note is the same pair of lines
    obtain ⟨pair, hp, hs⟩ := mem_flatten.mp hs
    rw [eq_of_mem_replicate hp] at hs
    have hn : A.SpellsAll [indent ++ retargetNote, line] := spellsAll_cons.mpr
      ⟨(A.spells_indent hi).append_plain (by decide), spellsAll_singleton.mpr hl⟩
    exact hn s hs

theorem retargetLine_spells {r : Retargeted} (hl : A.Spells line)
    (h : retargetLine old new classes p line = .ok r) : A.SpellsAll r.lines := by
  rw [retargetLine] at h
  split at h
  · obtain rfl := Except.ok.inj h
    exact spellsAll_singleton.mpr hl
  split at h
  · cases h
  split at h
  · obtain rfl := Except.ok.inj h
    exact spellsAll_singleton.mpr hl
  · exact retargetNames_spells hold hnew hl h

theorem retargetGo_spells : ∀ (skip : Nat) (p : Progress) (lines : List Text) {r : List Text × Progress},
    A.SpellsAll lines → retargetGo old new classes skip p lines = .ok r → A.SpellsAll r.1
  | _, _, [], r, _, h => by
    obtain rfl := Except.ok.inj h
    exact A.spellsAll_nil
  | skip + 1, p, _ :: lines, r, hl, h =>
    retargetGo_spells skip p lines (spellsAll_cons.mp hl).2 h
  | 0, p, line :: lines, r, hl, h => by
    obtain ⟨hli, hl⟩ := spellsAll_cons.mp hl
    rw [retargetGo] at h
    obtain ⟨here, hh, h⟩ := bind_eq_ok.mp h
    obtain ⟨rest, hr, h⟩ := bind_eq_ok.mp h
    obtain rfl := Except.ok.inj h
    exact spellsAll_append.mpr ⟨retargetLine_spells hold hnew hli hh, retargetGo_spells _ _ lines hl hr⟩

end Lines

theorem retargetAll_spells : ∀ (passes : List (Text × Text)) (p : Progress) (lines : List Text)
    {r : List Text × Progress}, (passes.all fun pass => isPlain pass.1 && isPlain pass.2) →
      A.SpellsAll lines → retargetAll passes p lines = .ok r → A.SpellsAll r.1
  | [], _, _, r, _, hl, h => by
    obtain rfl := Except.ok.inj h
    exact hl
  | (old, new) :: passes, p, lines, r, hp, hl, h => by
    rw [all_cons, Bool.and_eq_true, Bool.and_eq_true] at hp
    rw [retargetAll] at h
    obtain ⟨⟨lines', p'⟩, hr, h⟩ := bind_eq_ok.mp h
    refine retargetAll_spells passes p' lines' hp.2 ?_ h
    rw [retarget] at hr
    split at hr
    · cases hr
    · exact retargetGo_spells (A.spells_of_isPlain hp.1.1) (A.spells_of_isPlain hp.1.2)
        0 p lines hl hr

theorem modulePasses_isPlain (s : Survey) :
    ((modulePasses s).all fun pass => isPlain pass.1 && isPlain pass.2) := by
  rw [modulePasses]
  cases s.gui <;> cases s.web <;> decide

/-! ## Names of an import -/

theorem dropEmptyRows_spells (h : A.Spells s) : A.Spells (dropEmptyRows s) :=
  ((h.rows.filter _).join (A.spells_of_isPlain (by decide))).append_plain (by decide)

theorem nameBorders_isPlain : (nameBorders.all fun b => isPlain b.1 && isPlain b.2.1 && isPlain b.2.2) =
    true := by decide

theorem replaceName_spells {new : Text} (old : Text) (hl : A.Spells line) (hnew : A.Spells new) :
    A.Spells (replaceName line old new) := by
  refine dropEmptyRows_spells (hl.replaceEach fun rule hr => ?_)
  obtain ⟨b, hb, rfl⟩ := mem_map.mp hr
  have hbo := all_eq_true.mp nameBorders_isPlain b hb
  rw [Bool.and_eq_true, Bool.and_eq_true] at hbo
  exact ((A.spells_of_isPlain hbo.1.1).append hnew).append_plain hbo.1.2

theorem removeName_spells (old : Text) (hl : A.Spells line) : A.Spells (removeName line old) := by
  refine dropEmptyRows_spells (hl.replaceEach fun rule hr => ?_)
  obtain ⟨b, hb, rfl⟩ := mem_map.mp hr
  have hbo := all_eq_true.mp nameBorders_isPlain b hb
  rw [Bool.and_eq_true] at hbo
  exact A.spells_of_isPlain hbo.2

theorem cleanImport_spells {target : Target} {declared : Bool} (hl : A.Spells line) :
    A.Spells (cleanImport target declared line) := by
  have he : A.Spells (line.trimRight ++ "\n") := hl.trimRight.append_plain (by decide)
  have hs : A.Spells (if declared then replaceName (line.trimRight ++ "\n") "SIGNAL" "pyqtSignal"
      else removeName (line.trimRight ++ "\n") "SIGNAL") := by
    split
    · exact replaceName_spells _ he (A.spells_of_isPlain (by decide))
    · exact removeName_spells _ he
  unfold cleanImport
  cases target with
  | new => exact removeName_spells _ (removeName_spells _ (removeName_spells _ hs))
  | old => exact removeName_spells _ hs

/-! ## Sorting -/

def sorted (s : SortedNames) : List Text :=
  s.core ++ s.gui ++ s.widgets ++ s.printing ++ s.media ++ s.openGL ++ s.comments

theorem insert_spells {s : SortedNames} {name : Text} (hs : A.SpellsAll (sorted s))
    (hn : A.Spells name) : A.SpellsAll (sorted (s.insert name)) := by
  have hp : A.Spells (presentName name) := by
    rw [presentName]
    split
    · exact A.spells_of_isPlain (by decide)
    split
    · exact A.spells_of_isPlain (by decide)
    · exact hn
  simp only [sorted, spellsAll_append] at hs ⊢
  rw [SortedNames.insert]
  split <;> simp only [spellsAll_append, spellsAll_singleton] <;> tauto

theorem rowName_spells (row : Text) (h : A.Spells row) : A.Spells (rowName row) :=
  ((h.trimOf _).replaceEach_plain (by decide)).trim

theorem sortNames_spells (h : A.Spells names) : A.SpellsAll (sorted (sortNames names)) := by
  have hr : A.SpellsAll ((names.rows.map rowName).filter fun n => !n.isEmpty) :=
    (h.rows.map rowName_spells).filter _
  rw [sortNames]
  generalize (names.rows.map rowName).filter (fun n => !n.isEmpty) = rows at hr
  have he : A.SpellsAll (sorted .empty) := A.spellsAll_nil
  generalize SortedNames.empty = start at he ⊢
  induction rows generalizing start with
  | nil => exact he
  | cons row rows ih =>
    obtain ⟨hrow, hr⟩ := spellsAll_cons.mp hr
    exact ih hr (start.insert row) (insert_spells he hrow)

theorem sortAllNames_spells (h : A.Spells names) : A.SpellsAll (sorted (sortAllNames names)) := by
  have hs := sortNames_spells h
  simp only [sorted, sortAllNames, spellsAll_append] at hs ⊢
  obtain ⟨⟨⟨⟨⟨⟨hco, hg⟩, hw⟩, hp⟩, hm⟩, -⟩, hc⟩ := hs
  exact ⟨⟨⟨⟨⟨⟨hco, hg.filter _⟩, hw⟩, hp⟩, hm⟩, hg.filter _⟩, hc⟩

theorem sortWebNames_spells (h : A.Spells names) :
    A.SpellsAll (sortWebNames names).1 ∧ A.SpellsAll (sortWebNames names).2 := by
  have hc : ∀ piece, A.Spells piece → A.Spells (commaName piece) := fun piece hp =>
    (hp.replaceAll "\\" A.spells_nil).trim.replaceEach_plain (by decide)
  have ha := ((h.splitOn ",").map hc).filter fun n => !n.isEmpty
  exact ⟨ha.filter _, ha.filter _⟩

/-! ## Statements -/

theorem fillRows_spells {indent : Text} (hi : A.Spells indent) : ∀ (row : Text) (names : List Text),
    A.Spells row → A.SpellsAll names → A.Spells (fillRows indent row names)
  | row, [], hr, _ => hr
  | row, name :: names, hr, h => by
    obtain ⟨hna, hn⟩ := spellsAll_cons.mp h
    have hitem : A.Spells (name.trimRight ++ ",") := hna.trimRight.append_plain (by decide)
    rw [fillRows]
    split
    · exact fillRows_spells hi _ names (hr.append hitem) hn
    · exact (hr.append_plain (by decide)).append (fillRows_spells hi _ names (hi.append hitem) hn)

theorem layoutImport_spells {text : Text} (hl : A.Spells line)
    (h : layoutImport unit line = .ok text) : A.Spells text := by
  rw [layoutImport] at h
  split at h
  · obtain rfl := Except.ok.inj h
    exact hl.append_plain (by decide)
  · obtain ⟨⟨head, names⟩, hs, h⟩ := bind_eq_ok.mp h
    obtain ⟨indent, hi, h⟩ := bind_eq_ok.mp h
    obtain rfl := Except.ok.inj h
    have hp := hl.splitOn "import "
    rw [importSides] at hs
    split at hs
    next front behind hsp =>
      obtain ⟨rfl, rfl⟩ := Prod.mk.inj (Except.ok.inj hs)
      rw [hsp, spellsAll_cons, spellsAll_singleton] at hp
      rw [alignment] at hi
      split at hi
      · obtain rfl := Except.ok.inj hi
        have hfi : A.Spells (front ++ "import (") := hp.1.append_plain (by decide)
        have hi := A.spells_replicate (c := ' ') (by decide) (List.length (front ++ ("import (" : Text)) - 1)
        have hf := fillRows_spells hi _ _ hfi (hp.2.trimLeft.splitOn ",")
        exact (hf.dropEnd 1).append_plain (by decide)
      · cases hi
    · cases hs

theorem importNames_spells {names : List Text} (hh : A.Spells head)
    (hn : A.SpellsAll names) (h : importNames unit head names = .ok out) : A.SpellsAll out := by
  rw [importNames] at h
  split at h
  · obtain rfl := Except.ok.inj h
    exact A.spellsAll_nil
  · obtain ⟨text, ht, rfl⟩ := map_eq_ok.mp h
    exact spellsAll_singleton.mpr (layoutImport_spells (hh.append hn.commaList) ht)

theorem commentRows_spells {comments : List Text} (h : A.SpellsAll comments) :
    A.SpellsAll (commentRows comments) := by
  rw [commentRows]
  split
  · exact A.spellsAll_nil
  · exact spellsAll_singleton.mpr ((h.join (A.spells_of_isPlain (by decide))).append_plain (by decide))

theorem newLibrary_spells (h : A.Spells s) : A.Spells (s.replaceAll "PyQt4" "PyQt5") :=
  h.replaceAll _ (A.spells_of_isPlain (by decide))

theorem pathsImport_spells (p : Progress) (h : A.Spells head) : A.SpellsAll (pathsImport p head).1 := by
  rw [pathsImport]
  split
  · exact spellsAll_singleton.mpr ((newLibrary_spells h).append_plain (by decide))
  · exact A.spellsAll_nil

theorem importModules_spells {r : Option Text × Progress}
    (hli : A.Spells line) (h : importModules p line = .ok r) : ∀ line' ∈ r.1, A.Spells line' := by
  have hp := hli.splitOn "import "
  rw [importModules] at h
  split at h
  next head names _ hsp =>
    rw [hsp, spellsAll_cons, spellsAll_cons] at hp
    obtain rfl := Except.ok.inj h
    have hl : A.SpellsAll (listedModules names) :=
      (((hp.2.1.replaceEach_plain (by decide)).splitOn ",").map fun _ hs => hs.trim).filter _
    have ha : A.SpellsAll addableModules := A.spellsAll_of_isPlain (by decide)
    have hne : A.SpellsAll (neededModules p (listedModules names)) :=
      spellsAll_append.mpr ⟨hl.filter _, ha.filter _⟩
    have hm := hne.of_subset fun _ hn => mem_sortedNames_iff.mp hn
    dsimp only
    split
    · simp
    · rintro line' ⟨rfl⟩
      exact ((newLibrary_spells hp.1).append_plain (by decide)).append hm.commaList
  · cases h

section Statements

variable (hl : A.Spells line)
include hl

theorem headAndNames_spells {r : Text × Text} (h : headAndNames line = .ok r) : A.Spells r.1 ∧ A.Spells r.2 := by
  have hp := hl.splitOn "import "
  rw [headAndNames] at h
  split at h
  next hs =>
    obtain rfl := Except.ok.inj h
    rw [hs, spellsAll_cons, spellsAll_cons] at hp
    exact ⟨hp.1, hp.2.1⟩
  · cases h

theorem modulesImport_spells (h : modulesImport cfg p line = .ok r) : A.SpellsAll r.1 := by
  rw [modulesImport] at h
  obtain ⟨⟨line', q⟩, hi, h⟩ := bind_eq_ok.mp h
  have hl' := importModules_spells hl hi
  cases line' with
  | none =>
    obtain rfl := Except.ok.inj h
    exact A.spellsAll_nil
  | some line' =>
    obtain ⟨text, ht, h⟩ := bind_eq_ok.mp h
    obtain rfl := Except.ok.inj h
    exact spellsAll_cons.mpr ⟨layoutImport_spells (hl' line' rfl) ht,
      pathsImport_spells q ((hl' line' rfl).firstPiece _)⟩

theorem allImport_spells (h : allImport cfg p line = .ok r) : A.SpellsAll r.1 := by
  rw [allImport] at h
  obtain ⟨⟨head, names⟩, hh, h⟩ := bind_eq_ok.mp h
  obtain ⟨hh, hn⟩ := headAndNames_spells hl hh
  have hto : ∀ module : Text, isPlain module →
      A.Spells (head.replaceAll "PyQt4.Qt " ("PyQt5." ++ module ++ " import ")) := fun module hm =>
    hh.replaceAll _ (((A.spells_of_isPlain (by decide : isPlain "PyQt5.")).append_plain hm).append_plain
      (by decide))
  have hs := sortAllNames_spells hn
  simp only [sorted, spellsAll_append] at hs
  obtain ⟨⟨⟨⟨⟨⟨hc, hg⟩, hw⟩, hp⟩, hme⟩, ho⟩, hco⟩ := hs
  obtain ⟨core, hc', h⟩ := bind_eq_ok.mp h
  obtain ⟨gui, hg', h⟩ := bind_eq_ok.mp h
  obtain ⟨widgets, hw', h⟩ := bind_eq_ok.mp h
  obtain ⟨printing, hp', h⟩ := bind_eq_ok.mp h
  obtain ⟨media, hme', h⟩ := bind_eq_ok.mp h
  obtain ⟨openGL, ho', h⟩ := bind_eq_ok.mp h
  dsimp only at h
  generalize hpa : pathsImport _ _ = paths at h
  have hpa : A.SpellsAll paths.1 := by
    rw [← hpa]
    exact pathsImport_spells _ (hl.firstPiece ".Qt")
  obtain rfl := Except.ok.inj h
  have hc := importNames_spells (hto "QtCore" (by decide)) hc hc'
  have hg := importNames_spells (hto "QtGui" (by decide)) hg hg'
  have hw := importNames_spells (hto "QtWidgets" (by decide)) hw hw'
  have hp := importNames_spells (hto "QtPrintSupport" (by decide)) hp hp'
  have hme := importNames_spells (hto "QtMultimedia" (by decide)) hme hme'
  have ho := importNames_spells (hto "QtOpenGL" (by decide)) ho ho'
  simp only [spellsAll_append]
  exact ⟨⟨⟨⟨⟨⟨⟨hc, hg⟩, hw⟩, hp⟩, hme⟩, ho⟩, commentRows_spells hco⟩, hpa⟩

theorem guiImport_spells (h : guiImport cfg p line = .ok r) : A.SpellsAll r.1 := by
  obtain ⟨⟨head, names⟩, hh, -⟩ := bind_eq_ok.mp h
  obtain ⟨parts, hp, rfl⟩ := (guiImport_eq_ok_iff hh).mp h
  obtain ⟨hh, hn⟩ := headAndNames_spells hl hh
  have hs := sortNames_spells hn
  simp only [sorted, spellsAll_append] at hs
  have ha : ∀ home : Home, A.SpellsAll ((sortNames names).at home) ∧ A.Spells (homeHead head home) := fun home => by
    have hm : isPlain ("PyQt5." ++ home.module ++ " import ") := by cases home <;> decide
    constructor
    · cases home <;> simp only [SortedNames.at, hs]
    · rw [homeHead]
      split
      · exact (newLibrary_spells hh).append_plain (by decide)
      · exact hh.replaceAll _ (A.spells_of_isPlain hm)
  refine spellsAll_append.mpr ⟨fun l hm => ?_, spellsAll_append.mpr ⟨commentRows_spells (ha .comment).1,
    pathsImport_spells _ (hl.firstPiece ".QtGui")⟩⟩
  obtain ⟨home, hho, hm⟩ := mem_flatMap.mp hm
  exact importNames_spells (ha home).2 (ha home).1 (hp home hho) l hm

theorem webImport_spells (h : webImport cfg line = .ok out) : A.SpellsAll out := by
  rw [webImport] at h
  obtain ⟨⟨head, names⟩, hh, h⟩ := bind_eq_ok.mp h
  obtain ⟨hh, hn⟩ := headAndNames_spells hl hh
  obtain ⟨hs, hw⟩ := sortWebNames_spells hn
  obtain ⟨stay, hs', h⟩ := bind_eq_ok.mp h
  obtain ⟨widgets, hw', h⟩ := bind_eq_ok.mp h
  obtain rfl := Except.ok.inj h
  have hm := hh.replaceAll "PyQt4.QtWebKit"
    (A.spells_of_isPlain (by decide : isPlain "PyQt5.QtWebKitWidgets"))
  exact spellsAll_append.mpr ⟨importNames_spells ((newLibrary_spells hh).append_plain (by decide)) hs hs',
      importNames_spells (hm.append_plain (by decide)) hw hw'⟩

theorem coreWithoutChar_spells (h : coreWithoutChar line = .ok out) : A.SpellsAll out := by
  have hn : A.SpellsAll ((Text.splitOn (line.drop 25) ",").map Text.trim) :=
    ((hl.drop 25).splitOn ",").map fun _ hs => hs.trim
  rw [coreWithoutChar] at h
  split at h
  · obtain rfl := Except.ok.inj h
    split
    · exact A.spellsAll_nil
    · have hr := hn.of_subset (erase_subset (a := ("QChar" : Text)))
      exact spellsAll_singleton.mpr (((A.spells_of_isPlain (by decide : isPlain "from PyQt5.QtCore import " =
        true)).append hr.commaList).append_plain (by decide))
  · cases h

theorem newLibraryLine_spells {start : Text} (h : newLibraryLine cfg p start line = .ok r) : A.SpellsAll r.1 := by
  rw [newLibraryLine] at h
  split at h
  · obtain rfl := Except.ok.inj h
    exact spellsAll_singleton.mpr ((newLibrary_spells hl).trimRight.append_plain (by decide))
  split at h
  · obtain ⟨out, ho, rfl⟩ := map_eq_ok.mp h
    exact coreWithoutChar_spells hl ho
  split at h
  · exact modulesImport_spells hl h
  split at h
  · exact allImport_spells hl h
  split at h
  · exact guiImport_spells hl h
  split at h
  · obtain ⟨out, ho, rfl⟩ := map_eq_ok.mp h
    exact webImport_spells hl ho
  · obtain rfl := Except.ok.inj h
    exact spellsAll_singleton.mpr (newLibrary_spells hl)

theorem importLine_spells (h : importLine cfg p line = .ok r) : A.SpellsAll r.1 := by
  have hc : A.Spells (if line.isImport then cleanImport cfg.target p.signalDeclared line else line) := by
    split
    · exact cleanImport_spells hl
    · exact hl
  rw [importLine] at h
  split at h
  · obtain rfl := Except.ok.inj h
    exact spellsAll_singleton.mpr hl
  · dsimp only at h
    generalize (if line.isImport then cleanImport cfg.target p.signalDeclared line else line) = line' at h hc
    split at h
    · obtain rfl := Except.ok.inj h
      exact A.spellsAll_nil
    split at h
    · obtain rfl := Except.ok.inj h
      exact spellsAll_singleton.mpr hc
    · exact newLibraryLine_spells hc h

end Statements

theorem updateImports_spells {cfg : Settings} {p : Progress} {lines : List Text} {r : List Text × Progress}
    (hl : A.SpellsAll lines) (h : updateImports cfg p lines = .ok r) : A.SpellsAll r.1 := by
  refine (updateImports_expands p lines h).forall_mem hl ?_
  rintro line here ⟨q, q', hh⟩ hli
  exact importLine_spells hli hh

end Alphabet

end QtMigration
