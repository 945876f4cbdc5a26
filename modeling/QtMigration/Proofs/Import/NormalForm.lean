import Mathlib.Data.Char
import Mathlib.Data.List.Sort
import QtMigration.Proofs.Import.Modules

/-!
# Proofs/Import/NormalForm — the one way in which modules are imported

**So the new statement depends on the head and on the set of the names alone** (`modules_import_normal`).
-/

namespace QtMigration

open List

/-! ## The order of names -/

namespace Text

theorem lt_self : ∀ s : Text, lt s s = false
  | [] => rfl
  | c :: s => by rw [lt, if_pos (beq_self_eq_true c), lt_self s]

theorem lt_trans : ∀ {s t u : Text}, lt s t → lt t u → lt s u
  | _, [], [], _, h => by simp [lt] at h
  | [], [], _ :: _, _, h => h
  | _ :: _, [], _, h, _ => by simp [lt] at h
  | [], _ :: _, [], _, h => by simp [lt] at h
  | [], _ :: _, _ :: _, _, _ => rfl
  | _ :: _, _ :: _, [], _, h => by simp [lt] at h
  | a :: s, b :: t, c :: u, hst, htu => by
    simp only [lt, beq_iff_eq] at hst htu ⊢
    by_cases hab : a = b
    · subst hab
      rw [if_pos rfl] at hst
      by_cases hac : a = c
      · rw [if_pos hac] at htu ⊢
        exact lt_trans hst htu
      · rwa [if_neg hac] at htu ⊢
    · rw [if_neg hab, decide_eq_true_eq] at hst
      by_cases hbc : b = c
      · subst hbc
        rwa [if_neg hab, decide_eq_true_eq]
      · rw [if_neg hbc, decide_eq_true_eq] at htu
        have hac : a < c := Char.lt_trans hst htu
        rwa [if_neg (Char.ne_of_lt hac), decide_eq_true_eq]

theorem lt_of_not_lt : ∀ {s t : Text}, lt s t = false → s ≠ t → lt t s
  | [], [], _, hne => absurd rfl hne
  | [], _ :: _, h, _ => by simp [lt] at h
  | _ :: _, [], _, _ => rfl
  | a :: s, b :: t, h, hne => by
    simp only [lt, beq_iff_eq] at h ⊢
    by_cases hab : a = b
    · subst hab
      rw [if_pos rfl] at h ⊢
      exact lt_of_not_lt h fun hst => hne (hst ▸ rfl)
    · rw [if_neg hab, decide_eq_false_iff_not] at h
      rw [if_neg (Ne.symm hab), decide_eq_true_eq]
      exact lt_of_le_of_ne (Char.not_lt.mp h) (Ne.symm hab)

end Text

def Increasing (names : List Text) : Prop := names.Pairwise fun a b => Text.lt a b = true

theorem increasing_insertName {name : Text} : ∀ {names : List Text}, Increasing names →
    Increasing (insertName name names)
  | [], _ => pairwise_singleton _ _
  | m :: ms, h => by
    obtain ⟨hm, hms⟩ := pairwise_cons.mp h
    rw [insertName]
    split
    · exact h
    next hne =>
    split
    next hlt =>
      refine pairwise_cons.mpr ⟨forall_mem_cons.mpr ⟨hlt, fun n hn => ?_⟩, h⟩
      exact Text.lt_trans hlt (hm n hn)
    next hlt =>
      refine pairwise_cons.mpr ⟨fun n hn => ?_, increasing_insertName hms⟩
      rcases mem_insertName_iff.mp hn with rfl | hn
      · exact Text.lt_of_not_lt (Bool.eq_false_iff.mpr hlt) (by simpa using hne)
      · exact hm n hn

theorem increasing_sortedNames (names : List Text) : Increasing (sortedNames names) := by
  induction names with
  | nil => exact .nil
  | cons _ _ ih => exact increasing_insertName ih

theorem Increasing.eq_of_mem_iff {names names' : List Text} (h : Increasing names) (h' : Increasing names')
    (hm : ∀ n, n ∈ names ↔ n ∈ names') : names = names' := by
  have hi : Std.Irrefl fun a b : Text => Text.lt a b := ⟨fun a => by simp [Text.lt_self a]⟩
  have ha : Std.Antisymm fun a b : Text => Text.lt a b := ⟨fun a b hab hba => by
    have hs := Text.lt_trans hab hba
    rw [Text.lt_self] at hs
    cases hs⟩
  exact List.Pairwise.eq_of_mem_iff h h' hm

/-! ## Lists of modules -/

theorem rowName_gap_append {s : Text} (hs : ',' ∉ s) : ∀ {gap : Text}, gap.all isSpacing →
    rowName (gap ++ s) = rowName s
  | [], _ => rfl
  | c :: gap, hg => by
    rw [all_cons, Bool.and_eq_true] at hg
    have hc : ',' ∉ gap ++ s := by
      rw [mem_append, not_or]
      exact ⟨comma_notMem_of_isSpacing hg.2, hs⟩
    rw [cons_append, rowName_spacing_cons hg.1 hc, rowName_gap_append hs hg.2]

theorem rowName_append_gap : ∀ {gap s : Text}, ',' ∉ s → gap.all isSpacing → rowName (s ++ gap) = rowName s
  | [], s, _, _ => by rw [append_nil]
  | c :: gap, s, hs, hg => by
    rw [all_cons, Bool.and_eq_true] at hg
    have hc : ',' ∉ s ++ [c] := by simp [hs, (ne_comma_of_isSpacing hg.1).symm]
    rw [append_cons, rowName_append_gap hc hg.2, rowName_append_spacing hg.1 hs]

/-- **An entry of a list of modules**: a name, which may be missing, among white space, parentheses and
backslashes. -/
structure Entry where
  before : Text
  name : Text
  behind : Text
  before_spacing : before.all isSpacing = true
  /-- The name is in one piece, and no comma divides it. -/
  name_solid : ∀ c ∈ name, isSpacing c = false ∧ c ≠ ','
  behind_spacing : behind.all isSpacing = true

namespace Entry

theorem solid_of_all {name : Text} (h : name.all (fun c => !isSpacing c && c != ',')) :
    ∀ c ∈ name, isSpacing c = false ∧ c ≠ ',' := by
  simpa using h

def render (e : Entry) : Text := e.before ++ (e.name ++ e.behind)

def list (entries : List Entry) : Text := Text.join "," (entries.map render)

/-- The names that are listed; they may come in any order and more than once. -/
def names (entries : List Entry) : List Text := (entries.map name).filter fun n => !n.isEmpty

theorem comma_notMem_render (e : Entry) : ',' ∉ e.render := by
  rw [render, mem_append, mem_append, not_or, not_or]
  exact ⟨comma_notMem_of_isSpacing e.before_spacing, fun hm => (e.name_solid _ hm).2 rfl,
    comma_notMem_of_isSpacing e.behind_spacing⟩

theorem rowName_render (e : Entry) : rowName e.render = e.name := by
  have hn : ',' ∉ e.name := fun hm => (e.name_solid _ hm).2 rfl
  have hr : ',' ∉ e.name ++ e.behind := by
    rw [mem_append, not_or]
    exact ⟨hn, comma_notMem_of_isSpacing e.behind_spacing⟩
  rw [render, rowName_gap_append hr e.before_spacing, rowName_append_gap hn e.behind_spacing]
  by_cases hnil : e.name = []
  · rw [hnil]
    rfl
  · exact rowName_eq_self hnil hn fun c hc => (e.name_solid c hc).1

end Entry

theorem listedModules_eq (s : Text) : listedModules s =
    ((Text.splitOn (s.filter fun c => !isFrame c) ",").map Text.trim).filter fun n => !n.isEmpty := by
  have hn : (("" : String).toList : Text) = [] := rfl
  have hf : s.replaceEach [("(", ""), (")", ""), ("\\", "")] = s.filter fun c => !isFrame c := by
    simp only [Text.replaceEach, foldl_cons, foldl_nil, hn,
      show (("(" : String).toList : Text) = ['('] from String.toList_ofList,
      show ((")" : String).toList : Text) = [')'] from String.toList_ofList,
      show (("\\" : String).toList : Text) = ['\\'] from String.toList_ofList, Text.replaceAll_singleton,
      filter_filter]
    refine filter_congr fun c _ => ?_
    simp only [isFrame, bne]
    cases c == '\\' <;> cases c == '(' <;> cases c == ')' <;> rfl
  rw [listedModules, hf]

theorem listedModules_of_no_comma {s : Text} (h : ',' ∉ s) :
    listedModules s = [rowName s].filter fun n => !n.isEmpty := by
  have hp : Text.splitOn (s.filter fun c => !isFrame c) "," = [s.filter fun c => !isFrame c] :=
    Text.splitOn_of_not_has (Text.has_eq_false_of_notMem (c := ',') (by decide)
      fun hm => h (mem_of_mem_filter hm))
  rw [listedModules_eq, hp, rowName_of_no_comma h]
  rfl

theorem listedModules_append_comma {a : Text} (ha : ',' ∉ a) (b : Text) :
    listedModules (a ++ ',' :: b) = listedModules a ++ listedModules b := by
  have hf : (a ++ ',' :: b).filter (fun c => !isFrame c) =
      (a.filter fun c => !isFrame c) ++ ',' :: b.filter fun c => !isFrame c := by
    rw [filter_append, filter_cons_of_pos (by decide)]
  have hc : ',' ∉ a.filter fun c => !isFrame c := fun hm => ha (mem_of_mem_filter hm)
  have hs : Text.splitOn (a.filter fun c => !isFrame c) "," = [a.filter fun c => !isFrame c] :=
    Text.splitOn_of_not_has (Text.has_eq_false_of_notMem (c := ',') (by decide) hc)
  rw [listedModules_eq, listedModules_eq, listedModules_eq, hf, splitOn_append_comma hc, hs,
    ← filter_append, ← map_append, singleton_append]

theorem listedModules_list : ∀ entries : List Entry, listedModules (Entry.list entries) = Entry.names entries
  | [] => rfl
  | [e] => by
    rw [Entry.list, map_singleton, Text.join, listedModules_of_no_comma e.comma_notMem_render, e.rowName_render]
    rfl
  | e :: f :: entries => by
    have hs : Entry.list (e :: f :: entries) = e.render ++ ',' :: Entry.list (f :: entries) := by
      rw [Entry.list, map_cons, map_cons, Text.join, append_assoc,
        show (("," : String).toList : Text) = [','] from String.toList_ofList]
      rfl
    rw [hs, listedModules_append_comma e.comma_notMem_render, listedModules_list (f :: entries),
      listedModules_of_no_comma e.comma_notMem_render, e.rowName_render, Entry.names, ← filter_append]
    rfl

/-! ## The new statement -/

/-- **The modules to import**: a listed one, unless it is a module of the old library that the code no longer
uses; and a module that has got classes of it, if the code uses it. -/
def IsNeeded (p : Progress) (listed : List Text) (name : Text) : Prop :=
  (name ∈ listed ∧ (name = "QtGui" → p.uses "QtGui" = true) ∧ (name = "QtWebKit" → p.uses "QtWebKit" = true)) ∨
    (name ∈ (["QtCore", "QtWidgets", "QtWebKitWidgets", "QtMultimedia", "QtPrintSupport"] : List Text) ∧
      p.uses name = true)

theorem mem_neededModules_iff {p : Progress} {listed : List Text} {n : Text} :
    n ∈ neededModules p listed ↔ IsNeeded p listed n := by
  have hd : (!droppableModules.contains n || p.uses n) ↔
      (n = "QtGui" → p.uses "QtGui") ∧ (n = "QtWebKit" → p.uses "QtWebKit") := by
    rw [Bool.or_eq_true, Bool.not_eq_true', ← Bool.not_eq_true, contains_iff_mem, ← Decidable.imp_iff_not_or,
      droppableModules, mem_cons, mem_singleton, or_imp]
    refine and_congr (imp_congr_right ?_) (imp_congr_right ?_) <;> rintro rfl <;> exact Iff.rfl
  rw [neededModules, mem_append, mem_filter, mem_filter, hd]
  exact Iff.rfl

theorem importModules_list {head : Text} {entries : List Entry} (hh : head.has "import " = false)
    (hl : (Entry.list entries).has "import " = false) (p : Progress) :
    importModules p (head ++ ("import " ++ Entry.list entries)) =
      .ok (if (sortedNames (neededModules p (Entry.names entries))).isEmpty then none
        else some (head.replaceAll "PyQt4" "PyQt5" ++ "import " ++
          Text.commaList (sortedNames (neededModules p (Entry.names entries)))),
        if p.uses "QtWidgets" then p.withWidgets else p) := by
  rw [importModules, splitOn_import hh hl]
  dsimp only
  rw [listedModules_list]

/-- **The import of whole modules has a normal form.** -/
theorem modules_import_normal (p : Progress) {head : Text} {entries : List Entry}
    (hhead : head.has "import " = false) (hlist : (Entry.list entries).has "import " = false) :
    ∃ modules result p', importModules p (head ++ ("import " ++ Entry.list entries)) = .ok (result, p') ∧
      Increasing modules ∧ (∀ m, m ∈ modules ↔ IsNeeded p (Entry.names entries) m) ∧
      (result = none ↔ ∀ m, ¬ IsNeeded p (Entry.names entries) m) ∧
      (∀ statement, result = some statement →
        statement = head.replaceAll "PyQt4" "PyQt5" ++ ("import " ++ Text.commaList modules)) ∧
      ∀ entries' : List Entry, (Entry.list entries').has "import " = false →
        (∀ m, m ∈ Entry.names entries' ↔ m ∈ Entry.names entries) →
        importModules p (head ++ ("import " ++ Entry.list entries')) = .ok (result, p') := by
  have hmem : ∀ {entries : List Entry} (m : Text), m ∈ sortedNames (neededModules p (Entry.names entries)) ↔
      IsNeeded p (Entry.names entries) m := fun m => mem_sortedNames_iff.trans mem_neededModules_iff
  refine ⟨_, _, _, importModules_list hhead hlist p, increasing_sortedNames _, hmem, ?_, ?_, ?_⟩
  · rw [ite_eq_left_iff, List.isEmpty_iff]
    simp only [reduceCtorEq, imp_false, Decidable.not_not]
    rw [List.eq_nil_iff_forall_not_mem]
    exact forall_congr' fun m => not_congr (hmem m)
  · intro statement hstatement
    split at hstatement
    · cases hstatement
    · rw [← Option.some.inj hstatement, List.append_assoc]
  · intro entries' hlist' hnames
    have hsame : sortedNames (neededModules p (Entry.names entries')) =
        sortedNames (neededModules p (Entry.names entries)) := by
      refine (increasing_sortedNames _).eq_of_mem_iff (increasing_sortedNames _) fun m => ?_
      rw [hmem, hmem, IsNeeded, IsNeeded, hnames]
    rw [importModules_list hhead hlist' p, hsame]

/-- A list in parentheses, with a module twice and an empty entry at its end. -/
def crowdedModules : List Entry :=
  [⟨"(", "QtGui", "", by decide, Entry.solid_of_all (by decide), by decide⟩,
    ⟨" \\\n  ", "QtCore", " ", by decide, Entry.solid_of_all (by decide), by decide⟩,
    ⟨"", "QtGui", "\n", by decide, Entry.solid_of_all (by decide), by decide⟩,
    ⟨"", "", ")\n", by decide, Entry.solid_of_all (by decide), by decide⟩]

def plainModules : List Entry :=
  [⟨"", "QtCore", "", by decide, Entry.solid_of_all (by decide), by decide⟩,
    ⟨" ", "QtGui", "\n", by decide, Entry.solid_of_all (by decide), by decide⟩]

theorem modules_import_normal_crowdedModules :
    Text.has "from PyQt4 " "import " = false ∧ (Entry.list crowdedModules).has "import " = false ∧
      ("from PyQt4 " : Text) ++ ("import " ++ Entry.list crowdedModules) =
        "from PyQt4 import (QtGui, \\\n  QtCore ,QtGui\n,)\n" ∧
      importModules (Progress.initial.note "QtWidgets") ("from PyQt4 " ++ ("import " ++ Entry.list crowdedModules)) =
        .ok (some "from PyQt5 import QtCore, QtWidgets", (Progress.initial.note "QtWidgets").withWidgets) ∧
      importModules (Progress.initial.note "QtWidgets") ("from PyQt4 " ++ ("import " ++ Entry.list plainModules)) =
        importModules (Progress.initial.note "QtWidgets")
          ("from PyQt4 " ++ ("import " ++ Entry.list crowdedModules)) := by
  have hhead : Text.has "from PyQt4 " "import " = false := by decide
  have hlist : (Entry.list crowdedModules).has "import " = false := by decide
  obtain ⟨modules, result, p', hresult, -, -, -, -, hsame⟩ :=
    modules_import_normal (Progress.initial.note "QtWidgets") hhead hlist
  refine ⟨hhead, hlist, by decide, by decide, (hsame plainModules (by decide) fun m => ?_).trans hresult.symm⟩
  have hnames : Entry.names plainModules = (["QtCore", "QtGui"] : List Text) := by decide
  have hnames' : Entry.names crowdedModules = (["QtGui", "QtCore", "QtGui"] : List Text) := by decide
  rw [hnames, hnames']
  simp only [List.mem_cons, List.not_mem_nil, or_false]
  constructor
  · rintro (rfl | rfl) <;> simp
  · rintro (rfl | rfl | rfl) <;> simp

end QtMigration
