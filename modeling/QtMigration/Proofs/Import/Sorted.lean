import QtMigration.Proofs.Import.Graphics
import QtMigration.Proofs.Import.Homes

/-!
# Proofs/Import/Sorted — when names imported from the graphics module find their new modules

The names are read off the rows, so the replacement imports the names that were imported, from the right
modules, for every choice of names **exactly if every comma of the statement stands at the beginning or at the
end of its row, and rows can be aligned** (`sortsNames_iff`).
-/

namespace QtMigration

open List

open Text (words isGap)

variable {L : Layout} {names : List Text} {line n unit : Text}

/-! ## Import statements and what they import -/

def ImportsFrom (part : Text × List Text) (line : Text) : Prop :=
  ∃ indent L, indent.all isRowBlank = true ∧ Layout.Fits L part.2 ∧ line = statement indent part.1 L part.2

/-- **The lines are import statements, and import these names from these modules**, each as often as it is
listed. -/
def Imports (lines : List Text) (places : List (Text × Text)) : Prop :=
  ∃ parts, List.Forall₂ ImportsFrom parts lines ∧
    (parts.flatMap fun part => part.2.map (part.1, ·)).Perm places

namespace Imports

variable {lines lines' : List Text} {places places' : List (Text × Text)}

theorem nil : Imports [] [] := ⟨[], .nil, .nil⟩

theorem single (part : Text × List Text) (h : ImportsFrom part line) : Imports [line] (part.2.map (part.1, ·)) :=
  ⟨[part], .cons h .nil, by simp⟩

theorem append (h : Imports lines places) (h' : Imports lines' places') :
    Imports (lines ++ lines') (places ++ places') := by
  obtain ⟨parts, hl, hp⟩ := h
  obtain ⟨parts', hl', hp'⟩ := h'
  refine ⟨parts ++ parts', rel_append hl hl', ?_⟩
  rw [flatMap_append]
  exact hp.append hp'

theorem perm (h : Imports lines places) (hpe : places.Perm places') : Imports lines places' := by
  obtain ⟨parts, hl, hp⟩ := h
  exact ⟨parts, hl, hp.trans hpe⟩

theorem flatMap {α : Type} {f : α → List Text} {g : α → List (Text × Text)}
    (h : ∀ a, Imports (f a) (g a)) : ∀ as : List α, Imports (as.flatMap f) (as.flatMap g)
  | [] => nil
  | a :: as => by
    rw [flatMap_cons, flatMap_cons]
    exact (h a).append (flatMap h as)

theorem exists_of_mem (h : Imports lines places) (hl : line ∈ lines) :
    ∃ indent module rest, indent.all isRowBlank ∧
      line = indent ++ ("from " ++ (module ++ (" import " ++ rest))) ∧ ∃ n, (module, n) ∈ places := by
  obtain ⟨parts, hli, hp⟩ := h
  obtain ⟨part, hpa, hi⟩ : ∃ part ∈ parts, ImportsFrom part line := by
    clear hp
    induction hli with
    | nil => cases hl
    | cons hi _ ih =>
      rcases mem_cons.mp hl with rfl | hl
      · exact ⟨_, mem_cons_self, hi⟩
      · obtain ⟨part, hpa, hi⟩ := ih hl
        exact ⟨part, mem_cons_of_mem _ hpa, hi⟩
  obtain ⟨indent, L, hindent, hf, rfl⟩ := hi
  obtain ⟨n, names, hn⟩ := exists_cons_of_length_eq_add_one hf
  refine ⟨indent, part.1, _, hindent, rfl, n, hp.subset ?_⟩
  exact mem_flatMap.mpr ⟨part, hpa, mem_map.mpr ⟨n, by rw [hn]; simp, rfl⟩⟩

end Imports

/-! ## One statement for each module -/

def newHead (indent : Text) (home : Home) : Text :=
  indent ++ ("from " ++ (("PyQt5." ++ home.module) ++ (" import " : Text)))

def wantedPaths (p : Progress) : List (Text × Text) :=
  if p.uses "QStandardPaths" then [("PyQt5.QtCore", "QStandardPaths")] else []

def afterSorting (s : Text) (p : Progress) : Progress :=
  if (sortNames s).core.isEmpty && (sortNames s).widgets.isEmpty then p else p.withWidgets

/-- The head of the statement for one of the modules that names of the graphics module are in now. -/
def homeHead (head : Text) (home : Home) : Text :=
  if home = .gui then head.replaceAll "PyQt4" "PyQt5" ++ "import "
  else head.replaceAll "PyQt4.QtGui " ("PyQt5." ++ home.module ++ " import ")

/-- **What the statement of the graphics module becomes**: a statement for each home with names, the comments
and what is added for standard paths. -/
theorem guiImport_eq_ok_iff {cfg : Settings} {p : Progress} {line head names : Text} {r : List Text × Progress}
    (hh : headAndNames line = .ok (head, names)) : guiImport cfg p line = .ok r ↔ ∃ parts : Home → List Text,
      (∀ home ∈ Home.all, importNames cfg.indent (homeHead head home) ((sortNames names).at home) =
        .ok (parts home)) ∧
      r = (Home.all.flatMap parts ++ (commentRows ((sortNames names).at .comment) ++
            (pathsImport (afterSorting names p) (line.firstPiece ".QtGui")).1),
          (pathsImport (afterSorting names p) (line.firstPiece ".QtGui")).2) := by
  rw [guiImport, hh, afterSorting]
  -- what is written at each step does not matter here, only the order of the steps
  generalize pathsImport = paths, sortNames = sorted
  constructor
  · intro h
    obtain ⟨_, ⟨⟩, h⟩ := bind_eq_ok.mp h
    obtain ⟨core, hc, h⟩ := bind_eq_ok.mp h
    obtain ⟨gui, hg, h⟩ := bind_eq_ok.mp h
    obtain ⟨widgets, hw, h⟩ := bind_eq_ok.mp h
    obtain ⟨printing, hpr, h⟩ := bind_eq_ok.mp h
    obtain ⟨media, hme, h⟩ := bind_eq_ok.mp h
    refine ⟨Home.lists core gui widgets printing media, fun home hh => ?_, ?_⟩
    · cases home with
      | core => exact hc
      | gui => exact hg
      | widgets => exact hw
      | printing => exact hpr
      | media => exact hme
      | comment => exact absurd hh (by decide)
    · rw [← Except.ok.inj h]
      simp only [Home.all, flatMap_cons, flatMap_nil, append_nil, append_assoc]
      rfl
  · rintro ⟨parts, hp, rfl⟩
    refine bind_eq_ok.mpr ⟨_, rfl, bind_eq_ok.mpr ⟨_, hp .core (by decide), bind_eq_ok.mpr ⟨_, hp .gui (by decide),
      bind_eq_ok.mpr ⟨_, hp .widgets (by decide), bind_eq_ok.mpr ⟨_, hp .printing (by decide), bind_eq_ok.mpr
        ⟨_, hp .media (by decide), ?_⟩⟩⟩⟩⟩⟩
    simp only [Home.all, flatMap_cons, flatMap_nil, append_nil, append_assoc]
    rfl

section Sorting

variable {indent s : Text} (hindent : indent.all isRowBlank = true)

include hindent

theorem replaceAll_head (cs new : Text) {rest : Text} (hr : 'P' ∉ rest) :
    Text.replaceAll (indent ++ ("from " ++ ('P' :: cs ++ rest))) ('P' :: cs) new =
      indent ++ ("from " ++ (new ++ rest)) := by
  have hf : 'P' ∉ indent ++ ("from " : Text) := by
    rw [mem_append, not_or]
    exact ⟨notMem_indent hindent (by decide), by decide⟩
  have hl : rest.has ('P' :: cs) = false := Text.has_eq_false_of_notMem (by simp) hr
  rw [← append_assoc, Text.replaceAll_append_of_notMem _ hf, Text.replaceAll_self_append (by simp),
    Text.replaceAll_of_not_has hl, append_assoc]

theorem replaceAll_graphics (module : Text) :
    Text.replaceAll (indent ++ "from PyQt4.QtGui ") "PyQt4.QtGui " ("PyQt5." ++ module ++ " import ") =
      indent ++ ("from " ++ (("PyQt5." ++ module) ++ (" import " : Text))) := by
  have h := replaceAll_head hindent "yQt4.QtGui " ("PyQt5." ++ module ++ " import ") not_mem_nil
  rw [append_nil, append_nil] at h
  exact h

theorem replaceAll_graphics_stay :
    Text.replaceAll (indent ++ "from PyQt4.QtGui ") "PyQt4" "PyQt5" ++ ("import " : Text) =
      newHead indent .gui := by
  have h := replaceAll_head hindent "yQt4" "PyQt5" (show 'P' ∉ ((".QtGui " : String).toList : Text) by decide)
  have ho : indent ++ (("from PyQt4.QtGui " : String).toList : Text) =
      indent ++ ("from " ++ ('P' :: ("yQt4" : Text) ++ (".QtGui " : Text))) := rfl
  rw [ho]
  refine (congrArg (· ++ ("import " : Text)) h).trans ?_
  rw [newHead]
  simp only [append_assoc]
  rfl

theorem firstPiece_graphics : (graphicsHead indent ++ s).firstPiece ".QtGui" = indent ++ "from PyQt4" := by
  have hs : graphicsHead indent ++ s =
      (indent ++ ("from PyQt4" : Text)) ++ (((".QtGu" : Text) ++ ['i']) ++ ((" import " : Text) ++ s)) := by
    rw [graphicsHead, append_assoc, append_assoc]
    rfl
  have hl : (indent ++ ("from PyQt4" : Text)).has ((".QtGu" : Text) ++ ['i']) = false := by
    refine Text.has_eq_false_of_notMem (c := 'i') (by simp) ?_
    rw [mem_append, not_or]
    exact ⟨notMem_indent hindent (by decide), by decide⟩
  rw [hs]
  exact Text.firstPiece_append (by decide) hl

theorem imports_paths (p : Progress) :
    Imports (pathsImport p ((graphicsHead indent ++ s).firstPiece ".QtGui")).1 (wantedPaths p) := by
  rw [firstPiece_graphics hindent, pathsImport, wantedPaths]
  split
  · have h := replaceAll_head hindent "yQt4" "PyQt5" not_mem_nil
    refine Imports.single (("PyQt5.QtCore" : Text), [("QStandardPaths" : Text)]) ⟨indent, .onRow 0, hindent, rfl, ?_⟩
    rw [append_nil, append_nil] at h
    refine (congrArg (· ++ (".QtCore import QStandardPaths\n" : Text)) h).trans ?_
    have hr : (Layout.onRow 0).render [("QStandardPaths" : Text)] = ("QStandardPaths" : Text) := by decide
    show _ = statement indent "PyQt5.QtCore" (.onRow 0) ["QStandardPaths"]
    rw [statement, hr]
    simp only [append_assoc]
    rfl
  · exact .nil

theorem homeHead_graphics (home : Home) : homeHead (indent ++ "from PyQt4.QtGui ") home = newHead indent home := by
  rw [homeHead]
  split
  next h => exact h ▸ replaceAll_graphics_stay hindent
  next h => exact replaceAll_graphics hindent home.module

theorem has_import_newHead (home : Home) :
    (indent ++ ("from " ++ (("PyQt5." ++ home.module) ++ " "))).has "import " = false := by
  have hh : Text.has (("from " : Text) ++ (("PyQt5." ++ home.module) ++ (" " : Text))) "import " = false := by
    cases home <;> decide
  have hs : (("import " : String).toList : Text) = 'i' :: ("mport " : Text) := by decide
  rw [hs] at hh ⊢
  exact Text.has_append_of_notMem hh (notMem_indent hindent (by decide))

theorem exists_importNames (home : Home) (hn : ∀ n ∈ names, isImportable n) :
    ∃ lines, importNames " " (newHead indent home) names = .ok lines ∧
      Imports lines (names.map (("PyQt5." ++ home.module : Text), ·)) := by
  rw [importNames]
  split
  next he =>
    rw [List.isEmpty_iff.mp he]
    exact ⟨[], rfl, .nil⟩
  next he =>
    have hne : names ≠ [] := by simpa using he
    obtain ⟨L, hf, hl⟩ := exists_layoutImport (has_import_newHead hindent home) hne hn
    refine ⟨_, map_eq_ok.mpr ⟨_, ?_, rfl⟩, .single (_, names) ⟨indent, L, hindent, hf, rfl⟩⟩
    rw [← hl, newHead]
    simp only [append_assoc]

end Sorting

/-! ## The names of a statement -/

theorem at_sortNames (s : Text) (home : Home) :
    (sortNames s).at home = ((listedNames s).filter fun n => homeOf n = home).map home.kept := by
  have he : SortedNames.empty.at home = [] := by cases home <;> rfl
  rw [sortNames_eq_foldl, SortedNames.at_foldl, he, nil_append]

theorem isImportable_presentName (h : isImportable n) : isImportable (presentName n) := by
  rw [presentName]
  split
  · decide
  split
  · decide
  · exact h

theorem isComment_eq_false (h : '#' ∉ n) : n.isComment = false := by
  rw [Text.isComment, beq_eq_false_iff_ne]
  exact fun hh => h ((Text.trimLeft_suffix n).subset (mem_of_mem_head? hh))

theorem isComment_of_isImportable (h : isImportable n) : n.isComment = false :=
  isComment_eq_false (notMem_of_isWord (isImportable_iff.mp h).1.2 (by decide))

theorem wantedPaths_afterSorting (s : Text) (p : Progress) : wantedPaths (afterSorting s p) = wantedPaths p := by
  rw [afterSorting]
  split
  · rfl
  · rfl

theorem exists_guiImport {indent s : Text} (hindent : indent.all isRowBlank) (p : Progress)
    (hs : s.has "import " = false) (hna : ∀ n ∈ listedNames s, isImportable n) :
    ∃ here q, guiImport ⟨.new, " "⟩ p (graphicsHead indent ++ s) = .ok (here, q) ∧
      Imports here ((listedNames s).map newPlace ++ wantedPaths p) := by
  have hk : ∀ home : Home, ∀ n ∈ (sortNames s).at home, isImportable n := by
    intro home n hn
    rw [at_sortNames] at hn
    obtain ⟨m, hm, rfl⟩ := mem_map.mp hn
    rw [Home.kept]
    split
    · exact isImportable_presentName (hna m (mem_of_mem_filter hm))
    · exact hna m (mem_of_mem_filter hm)
  have hco : ∀ n ∈ listedNames s, homeOf n ≠ .comment := fun n hn =>
    homeOf_ne_comment (isComment_of_isImportable (hna n hn))
  choose parts hpa hi using fun home => exists_importNames hindent home (hk home)
  refine ⟨_, _, (guiImport_eq_ok_iff (headAndNames_graphics hindent hs)).mpr ⟨parts, fun home _ => ?_, rfl⟩, ?_⟩
  · rw [homeHead_graphics hindent]
    exact hpa home
  have hc : (sortNames s).at .comment = [] := by
    rw [at_sortNames, map_eq_nil_iff, filter_eq_nil_iff]
    simpa using hco
  have hpl : Home.all.flatMap (fun home => ((sortNames s).at home).map (("PyQt5." ++ home.module : Text), ·)) =
      Home.all.flatMap fun home => ((listedNames s).filter fun n => homeOf n = home).map newPlace := by
    refine flatMap_congr fun home _ => ?_
    rw [at_sortNames, map_map]
    refine map_congr_left fun n hn => ?_
    obtain ⟨hl, hh⟩ := mem_filter.mp hn
    obtain rfl : homeOf n = home := by simpa using hh
    rw [newPlace_eq, Function.comp_apply, kept_homeOf, module_homeOf (isComment_of_isImportable (hna n hl))]
  have hp := imports_paths (s := s) hindent (afterSorting s p)
  have hso := Imports.flatMap hi Home.all
  rw [hpl] at hso
  rw [wantedPaths_afterSorting] at hp
  rw [hc, show commentRows [] = [] from rfl, nil_append]
  exact (hso.perm (perm_homes newPlace hco)).append hp

/-! ## Which layouts are sorted -/

theorem updateImports_insert {cfg : Settings} {line : Text} {here : List Text} {q q' : Progress}
    (hl : importLine cfg q line = .ok (here, q')) (after : List Text) :
    ∀ {before done : List Text} {p : Progress}, updateImports cfg p before = .ok (done, q) →
      updateImports cfg p (before ++ line :: after) =
        (updateImports cfg q' after).map fun r => (done ++ (here ++ r.1), r.2)
  | [], done, p, h => by
    cases h
    rw [nil_append, updateImports, hl]
    show (updateImports cfg q' after >>= fun r => pure (here ++ r.1, r.2)) = _
    cases updateImports cfg q' after with
    | error e => rfl
    | ok r => rfl
  | first :: before, done, p, h => by
    obtain ⟨⟨here', p'⟩, hf, h⟩ := bind_eq_ok.mp h
    obtain ⟨⟨done', p''⟩, hb, h⟩ := bind_eq_ok.mp h
    cases h
    have ih := updateImports_insert hl after hb
    rw [cons_append, updateImports, hf]
    show (updateImports cfg p' (before ++ line :: after) >>= fun r => pure (here' ++ r.1, r.2)) = _
    rw [ih]
    cases updateImports cfg q' after with
    | error e => rfl
    | ok r =>
      show Except.ok (here' ++ (done' ++ (here ++ r.1)), r.2) = Except.ok (here' ++ done' ++ (here ++ r.1), r.2)
      rw [append_assoc]

/-- **Every statement in this layout is replaced by statements that import its names from the modules they
are in now**, each under its present name and as often as it was listed; the class of standard paths is
imported with them when it is wanted. -/
def SortsNames (cfg : Settings) (L : Layout) : Prop :=
  ∀ indent names, indent.all isRowBlank = true → L.Fits names →
    (∀ n ∈ names, isImportable n = true ∧ n ∉ retiredNames) →
    ∀ p before done q, updateImports cfg p before = .ok (done, q) →
      ∃ here q', Imports here (names.map newPlace ++ wantedPaths q) ∧
        ∀ after, updateImports cfg p (before ++ statement indent "PyQt4.QtGui" L names :: after) =
          (updateImports cfg q' after).map fun r => (done ++ (here ++ r.1), r.2)

theorem sortsNames_of_tidy (ht : L.tidy) : SortsNames ⟨.new, " "⟩ L := by
  intro indent names hindent hf hna p before done q hb
  obtain ⟨s, hli, hw, hl⟩ := exists_importLine hindent hf hna " " q
  have hnamed : listedNames s = names := by
    rw [hl, Layout.listedNames_render ht hf fun n hn => (isImportable_iff.mp (hna n hn).1).1]
  have hs : s.has "import " = false := has_import_eq_false fun n hn =>
    (isImportable_iff.mp (hna n (hw ▸ hn)).1).2
  obtain ⟨here, q', hg, hi⟩ := exists_guiImport hindent q hs fun n hn => (hna n (hnamed ▸ hn)).1
  rw [hnamed] at hi
  exact ⟨here, q', hi, fun after => updateImports_insert (hli.trans hg) after hb⟩

theorem guiImport_of_sortsNames (h : SortsNames ⟨.new, unit⟩ L) (hf : L.Fits names)
    (hn : ∀ n ∈ names, isImportable n ∧ n ∉ retiredNames) :
    ∃ s here q, guiImport ⟨.new, unit⟩ .initial (graphicsHead [] ++ s) = .ok (here, q) ∧ words s = names ∧
      listedNames s = listedNames (L.render names) ∧ Imports here (names.map newPlace) := by
  obtain ⟨here, q, hi, hrun⟩ := h [] names rfl hf hn .initial [] [] .initial rfl
  have hindent : ([] : Text).all isRowBlank := rfl
  obtain ⟨s, hli, hw, hl⟩ := exists_importLine hindent hf hn unit .initial
  refine ⟨s, here, q, ?_, hw, hl, ?_⟩
  · obtain ⟨⟨here', q'⟩, hh, hr⟩ := bind_eq_ok.mp (hrun [])
    obtain ⟨hh', rfl⟩ := Prod.mk.inj (Except.ok.inj hr)
    have hs : here' = here := by simpa using hh'
    rw [← hli, hh, hs]
  · have hno : wantedPaths .initial = [] := rfl
    rwa [hno, append_nil] at hi

theorem newPlace_widget : newPlace "QWidget" = (("PyQt5.QtWidgets" : Text), ("QWidget" : Text)) := by
  have hmem : (("QWidget" : String).toList : Text) ∈ Catalogue.widgets := by
    rw [Catalogue.widgets]
    apply mem_map_of_mem
    repeat first | exact mem_cons_self | apply mem_cons_of_mem
  have hm := newModule_of_mem (.tail _ (.head _)) hmem
  rw [newPlace_eq, hm]
  decide

theorem homeOf_of_comma (hna : ∀ n ∈ names, isImportable n ∧ n ∉ retiredNames) {r : Text}
    (hr : r ∈ listedNames (L.render names)) (hc : ',' ∈ r) : homeOf r = .gui := by
  have hh : '#' ∉ L.render names := Layout.notMem_render (by decide) (by decide) fun n hn =>
    notMem_of_isWord (isImportable_iff.mp (hna n hn).1).1.2 (by decide)
  have hco := isComment_eq_false fun hmem => hh (mem_of_mem_listedNames hr hmem)
  exact homeOf_of_notMem hco fun hm => Catalogue.comma_notMem_of_mem hm hc

theorem not_prefix_statement {indent : Text} (hindent : indent.all isRowBlank) (rest : Text) :
    ¬ (("from PyQt5.QtGui " : String).toList : Text) <+:
      indent ++ ("from " ++ (("PyQt5.QtWidgets" : Text) ++ rest)) := by
  cases indent with
  | cons c indent =>
    intro h
    rw [all_cons, Bool.and_eq_true] at hindent
    obtain ⟨rest', hr'⟩ := h
    obtain rfl : 'f' = c := (cons.inj hr').1
    exact absurd hindent.1 (by decide)
  | nil =>
    intro h
    have ho : (("from PyQt5.QtWidgets" : String).toList : Text) <+:
        [] ++ (("from " : Text) ++ (("PyQt5.QtWidgets" : Text) ++ rest)) := ⟨rest, rfl⟩
    exact absurd (prefix_of_prefix_length_le h ho (by decide)) (by decide)

theorem tidy_of_sortsNames (h : SortsNames ⟨.new, unit⟩ L) : L.tidy := by
  by_contra hti
  have hf : L.Fits (List.replicate (L.gaps.length + 1) ("QWidget" : Text)) := length_replicate
  have hna : ∀ n ∈ List.replicate (L.gaps.length + 1) ("QWidget" : Text),
      isImportable n ∧ n ∉ retiredNames := by
    intro n hn
    rw [eq_of_mem_replicate hn]
    decide
  obtain ⟨s, here, q, hg, hw, hli, hi⟩ := guiImport_of_sortsNames h hf hna
  have hs : s.has "import " = false := has_import_eq_false fun n hn =>
    (isImportable_iff.mp (hna n (hw ▸ hn)).1).2
  obtain ⟨parts, hpa, hh⟩ := (guiImport_eq_ok_iff (headAndNames_graphics rfl hs)).mp hg
  -- the graphics module gets what is listed with a comma in it
  obtain ⟨r, hr, hc⟩ := Layout.exists_listed_comma_of_not_tidy (Bool.eq_false_iff.mpr hti) hf
    fun n hn => (isImportable_iff.mp (hna n hn).1).1
  have hstay : presentName r ∈ (sortNames s).at .gui := by
    rw [at_sortNames, hli]
    exact mem_map.mpr ⟨r, mem_filter.mpr ⟨hr, by simp [homeOf_of_comma hna hr hc]⟩, rfl⟩
  have hst := hpa .gui (by decide)
  rw [homeHead_graphics rfl, importNames, if_neg (by simpa using ne_nil_of_mem hstay)] at hst
  obtain ⟨text, ht, hpart⟩ := map_eq_ok.mp hst
  have hl : layoutImport unit (("from PyQt5.QtGui " : Text) ++
      (("import " : Text) ++ Text.commaList ((sortNames s).at .gui))) = .ok text := ht
  have hb := prefix_of_layoutImport (by decide) hl
  have hm : text ∈ here := by
    have hg : text ∈ Home.all.flatMap parts :=
      mem_flatMap.mpr ⟨.gui, by decide, hpart ▸ mem_singleton.mpr rfl⟩
    rw [(Prod.mk.inj hh).1]
    exact mem_append_left _ hg
  obtain ⟨indent, module, rest, hindent, hline, n, hp⟩ := hi.exists_of_mem hm
  rw [map_replicate, newPlace_widget] at hp
  obtain ⟨rfl, -⟩ := Prod.mk.inj (eq_of_mem_replicate hp)
  exact not_prefix_statement hindent _ (hline ▸ hb)

theorem length_le_commaList (n : Text) (names : List Text) : n.length ≤ (Text.commaList (n :: names)).length := by
  cases names with
  | nil => exact Nat.le_refl _
  | cons m names =>
    rw [Text.commaList_cons_cons, length_append]
    exact Nat.le_add_right _ _

def wideName : Text := 'Q' :: 't' :: List.replicate rowWidth 'x'

theorem isImportable_wideName : isImportable wideName := by
  refine isImportable_iff.mpr ⟨⟨by decide, ?_⟩, by decide⟩
  rw [wideName, all_cons, all_cons, all_replicate]
  decide

theorem homeOf_wideName : homeOf wideName = .gui :=
  homeOf_of_notMem (by decide) fun hm =>
    Catalogue.not_suffix_of_mem hm (m := wideName) (by decide) (by decide) suffix_rfl

theorem aligned_of_sortsNames (h : SortsNames ⟨.new, unit⟩ L) : unit = " " := by
  by_contra hu
  have hindent : ([] : Text).all isRowBlank := rfl
  have hfi : L.Fits (List.replicate (L.gaps.length + 1) wideName) := length_replicate
  have hna : ∀ n ∈ List.replicate (L.gaps.length + 1) wideName, isImportable n ∧ n ∉ retiredNames := by
    intro n hn
    rw [eq_of_mem_replicate hn]
    exact ⟨isImportable_wideName, by decide⟩
  obtain ⟨s, here, q, hg, hw, hl, -⟩ := guiImport_of_sortsNames h hfi hna
  have hs : s.has "import " = false := has_import_eq_false fun n hn =>
    (isImportable_iff.mp (hna n (hw ▸ hn)).1).2
  obtain ⟨parts, hp, -⟩ := (guiImport_eq_ok_iff (headAndNames_graphics rfl hs)).mp hg
  -- all names stay, and their statement is too wide
  have hstay : (sortNames s).at .gui = List.replicate (L.gaps.length + 1) wideName := by
    rw [at_sortNames, hl, Layout.listedNames_render (tidy_of_sortsNames h) hfi
      fun n hn => (isImportable_iff.mp (hna n hn).1).1, filter_replicate, if_pos (by simp [homeOf_wideName]),
      map_replicate]
    rfl
  have hwi : rowWidth < (Text.commaList (List.replicate (L.gaps.length + 1) wideName)).length :=
    Nat.lt_of_lt_of_le (by decide) (length_le_commaList wideName (List.replicate L.gaps.length wideName))
  have hst := hp .gui (by decide)
  rw [homeHead_graphics hindent, importNames, hstay, if_neg (by simp)] at hst
  obtain ⟨text, ht, -⟩ := map_eq_ok.mp hst
  have hf := layoutImport_of_wide (has_import_newHead hindent .gui) (by simp)
    (fun n hn => (hna n hn).1) hu hwi
  rw [newHead] at ht
  simp only [append_assoc] at hf ht
  rw [hf] at ht
  cases ht

/-- **Names find their new modules, whichever they are, exactly if every comma of the statement stands at
the beginning or at the end of its row and rows can be aligned.** -/
theorem sortsNames_iff (unit : Text) (L : Layout) : SortsNames ⟨.new, unit⟩ L ↔ L.tidy = true ∧ unit = " " := by
  constructor
  · intro h
    exact ⟨tidy_of_sortsNames h, aligned_of_sortsNames h⟩
  · rintro ⟨htidy, rfl⟩
    exact sortsNames_of_tidy htidy

theorem sortsNames_overRows : statement [] "PyQt4.QtGui" (.filled 1 false [true]) ["QWidget", "QColor"] =
        "from PyQt4.QtGui import (QWidget,\n  QColor)\n" ∧
      SortsNames ⟨.new, " "⟩ (.filled 1 false [true]) :=
  ⟨by decide, (sortsNames_iff " " (.filled 1 false [true])).mpr ⟨rfl, rfl⟩⟩

theorem guiImport_together {s row text : Text} (hi : Text.has s "import " = false)
    (hl : listedNames s = [row]) (hh : homeOf row = .gui)
    (hwr : importNames " " (newHead [] .gui) [presentName row] = .ok [text]) :
    guiImport ⟨.new, " "⟩ .initial (graphicsHead [] ++ s) = .ok ([text], .initial) := by
  have hindent : ([] : Text).all isRowBlank := rfl
  have hs : ∀ home, (sortNames s).at home = if home = .gui then [presentName row] else [] := by
    intro home
    rw [at_sortNames, hl, filter_singleton, hh]
    cases home with
    | gui | core | widgets | printing | media | comment => rfl
  have ha : afterSorting s .initial = .initial := by
    have hc : (sortNames s).core = [] := hs .core
    have hw : (sortNames s).widgets = [] := hs .widgets
    rw [afterSorting, hc, hw]
    rfl
  have hp : ∀ head, pathsImport .initial head = ([], .initial) := fun _ => rfl
  refine (guiImport_eq_ok_iff (headAndNames_graphics hindent hi)).mpr
    ⟨fun home => if home = .gui then [text] else [], ?_, ?_⟩
  · intro home _
    rw [hs, homeHead_graphics hindent]
    cases home with
    | gui => exact hwr
    | core | widgets | printing | media | comment => rfl
  · rw [hs, ha, hp]
    rfl

/-- **On one row, a class that has moved is still imported from the graphics module**, if it is not the
only name: the two names are listed as one. -/
theorem widget_beside_color_stays : newPlace "QWidget" = (("PyQt5.QtWidgets" : Text), ("QWidget" : Text)) ∧
      updateImports ⟨.new, " "⟩ .initial ["from PyQt4.QtGui import QWidget, QColor\n"] =
        .ok (["from PyQt5.QtGui import QWidget, QColor\n"], .initial) ∧
      ¬ SortsNames ⟨.new, " "⟩ (.onRow 1) := by
  refine ⟨newPlace_widget, ?_, fun h => absurd (tidy_of_sortsNames h) (by decide)⟩
  have hindent : ([] : Text).all isRowBlank = true := rfl
  have hnames : ∀ n ∈ [("QWidget" : Text), ("QColor" : Text)], isImportable n = true ∧ n ∉ retiredNames := by
    decide
  have hstatement : (("from PyQt4.QtGui import QWidget, QColor\n" : String).toList : Text) =
      statement [] "PyQt4.QtGui" (.onRow 1) ["QWidget", "QColor"] := by decide
  have hrow : listedNames ((Layout.onRow 1).render ["QWidget", "QColor"]) = ["QWidget, QColor"] := by
    decide
  have hhome : homeOf "QWidget, QColor" = .gui :=
    homeOf_of_notMem (by decide) fun hmoved => Catalogue.comma_notMem_of_mem hmoved (by decide)
  have hwritten : importNames " " (newHead [] .gui) [presentName "QWidget, QColor"] =
      .ok ["from PyQt5.QtGui import QWidget, QColor\n"] := by decide
  have hfits : (Layout.onRow 1).Fits [("QWidget" : Text), ("QColor" : Text)] := rfl
  obtain ⟨s, hline, hwords, hlisted⟩ := exists_importLine hindent hfits hnames " " .initial
  have himport : Text.has s "import " = false := has_import_eq_false fun n hn =>
    (isImportable_iff.mp (hnames n (hwords ▸ hn)).1).2
  rw [hstatement]
  exact bind_eq_ok.mpr ⟨_, hline.trans (guiImport_together himport (hlisted.trans hrow) hhome hwritten), rfl⟩

end QtMigration
