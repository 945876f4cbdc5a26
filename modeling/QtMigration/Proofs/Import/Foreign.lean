import QtMigration.Proofs.Failure
import QtMigration.Proofs.Import.Cleaned
import QtMigration.Proofs.Text.Border

/-!
# Proofs/Import/Foreign — imports that have nothing to do with the library

**It stays as it is exactly if no retired name stands in it between separators** and it does list a name
at all (`foreign_import_kept_iff`).
-/

namespace QtMigration

open List Text

variable {line s : Text}

/-! ## Capital letters -/

def capitals (s : Text) : Nat := s.countP Char.isUpper

theorem capitals_append (s t : Text) : capitals (s ++ t) = capitals s + capitals t := countP_append

def TakesCapitals (rules : List (Text × Text)) : Prop := ∀ rule ∈ rules, capitals rule.2 < capitals rule.1

instance (rules : List (Text × Text)) : Decidable (TakesCapitals rules) :=
  inferInstanceAs (Decidable (∀ rule ∈ rules, capitals rule.2 < capitals rule.1))

/-! ## Rows -/

theorem capitals_join : ∀ rows : List Text, capitals (Text.join "\n" rows) = capitals rows.flatten
  | [] => rfl
  | [row] => by rw [Text.join, flatten_singleton]
  | row :: next :: rest => by
    rw [join_cons _ _ (cons_ne_nil next rest), flatten_cons, capitals_append, capitals_append,
      capitals_append, capitals_join (next :: rest)]
    rfl

theorem capitals_filter_le (keep : Text → Bool) (rows : List Text) :
    capitals (rows.filter keep).flatten ≤ capitals rows.flatten := by
  induction rows with
  | nil => exact Nat.le_refl _
  | cons row rows hr =>
    rw [filter_cons, flatten_cons, capitals_append]
    split
    · rw [flatten_cons, capitals_append]
      exact Nat.add_le_add_left hr _
    · exact Nat.le_trans hr (Nat.le_add_left _ _)

theorem capitals_dropEmptyRows_le (s : Text) : capitals (dropEmptyRows s) ≤ capitals s := by
  have hr : capitals s = capitals s.rows.flatten := by rw [← capitals_join, join_rows]
  rw [dropEmptyRows_eq, capitals_append, capitals_join, hr]
  exact capitals_filter_le isFilled s.rows

theorem dropEmptyRows_of_isFilled (h : ∀ row ∈ s.rows, isFilled row) :
    dropEmptyRows (s ++ ['\n']) = s ++ ['\n'] := by
  rw [dropEmptyRows_eq, rows_append_newline, filter_append, filter_eq_self.mpr h,
    show (Text.rows []).filter isFilled = [] from rfl, append_nil, join_rows]

/-! ## Cleaning as a walk over the names -/

def retiredFor : Target → List Text
  | .new => retiredNames
  | .old => ["SIGNAL", "SLOT"]

/-- The rules by which a statement is cleaned, name by name. -/
def cleaningRules (target : Target) (declared : Bool) : List (List (Text × Text)) :=
  let signal := if declared then renameRules "SIGNAL" "pyqtSignal" else removeRules "SIGNAL"
  match target with
  | .new => [signal, removeRules "SLOT", removeRules "QStringList", removeRules "QString"]
  | .old => [signal, removeRules "SLOT"]

/-- The statement with the rules carried out, and without the rows that are empty then. -/
def cleanBy (s : Text) (rules : List (List (Text × Text))) : Text :=
  rules.foldl (fun s rules => dropEmptyRows (s.replaceEach rules)) s

theorem cleanImport_eq_cleanBy (target : Target) (declared : Bool) (line : Text) :
    cleanImport target declared line = cleanBy (line.trimRight ++ ['\n']) (cleaningRules target declared) := by
  rw [show ['\n'] = (("\n" : String).toList : Text) by decide]
  cases target <;> cases declared <;> rfl

/-- The name stands in the statement, with a separator on either side. -/
def listsName (s old : Text) : Bool := nameBorders.any fun b => s.has (b.1 ++ old ++ b.2.1)

theorem any_cleaningRules (target : Target) (declared : Bool) (s : Text) :
    ((cleaningRules target declared).any fun rules => rules.any fun rule => s.has rule.1) =
      (retiredFor target).any (listsName s) := by
  cases target <;> cases declared <;>
    simp only [cleaningRules, retiredFor, retiredNames, renameRules, removeRules, any_cons, any_nil,
      any_map, listsName] <;> rfl

theorem takesCapitals_cleaningRules (target : Target) (declared : Bool) :
    ∀ rules ∈ cleaningRules target declared, TakesCapitals rules := by
  cases target <;> cases declared <;> decide

theorem capitals_cleanBy_le : ∀ {rules : List (List (Text × Text))}, (∀ group ∈ rules, TakesCapitals group) →
    ∀ s : Text, capitals (cleanBy s rules) ≤ capitals s
  | [], _, _ => Nat.le_refl _
  | group :: rules, h, s => by
    obtain ⟨hg, hr⟩ := forall_mem_cons.mp h
    calc capitals (cleanBy s (group :: rules))
        ≤ capitals (dropEmptyRows (s.replaceEach group)) := capitals_cleanBy_le hr _
      _ ≤ capitals (s.replaceEach group) := capitals_dropEmptyRows_le _
      _ ≤ capitals s := countP_replaceEach_le (fun rule hru => Nat.le_of_lt (hg rule hru)) s

theorem capitals_cleanBy_lt : ∀ {rules : List (List (Text × Text))}, (∀ group ∈ rules, TakesCapitals group) →
    ∀ {s : Text}, dropEmptyRows s = s → (rules.any fun group => group.any fun rule => s.has rule.1) →
      capitals (cleanBy s rules) < capitals s
  | group :: rules, h, s, hs, ha => by
    obtain ⟨hg, hr⟩ := forall_mem_cons.mp h
    cases hf : group.any fun rule => s.has rule.1 with
    | true =>
      calc capitals (cleanBy s (group :: rules))
          ≤ capitals (dropEmptyRows (s.replaceEach group)) := capitals_cleanBy_le hr _
        _ ≤ capitals (s.replaceEach group) := capitals_dropEmptyRows_le _
        _ < capitals s := countP_replaceEach_lt hg hf
    | false =>
      have hsa : s.replaceEach group = s := replaceEach_of_not_has fun rule hru =>
        Bool.eq_false_iff.mpr (any_eq_false.mp hf rule hru)
      rw [any_cons, hf, Bool.false_or] at ha
      rw [cleanBy, foldl_cons, hsa, hs]
      exact capitals_cleanBy_lt hr hs ha

theorem cleanBy_of_not_has : ∀ {rules : List (List (Text × Text))} {s : Text}, dropEmptyRows s = s →
    (rules.any fun group => group.any fun rule => s.has rule.1) = false → cleanBy s rules = s
  | [], _, _, _ => rfl
  | group :: rules, s, hs, hn => by
    rw [any_cons, Bool.or_eq_false_iff] at hn
    have hsa : s.replaceEach group = s := replaceEach_of_not_has fun rule hr =>
      Bool.eq_false_iff.mpr (any_eq_false.mp hn.1 rule hr)
    rw [cleanBy, foldl_cons, hsa, hs]
    exact cleanBy_of_not_has hs hn.2

/-! ## Statements without the library -/

theorem updateImports_split {cfg : Settings} {back : List Text} {q : Progress} :
    ∀ {front out : List Text} {p : Progress}, updateImports cfg p (front ++ line :: back) = .ok (out, q) →
      ∃ done p₁ here p₂ rest, updateImports cfg p front = .ok (done, p₁) ∧
        importLine cfg p₁ line = .ok (here, p₂) ∧ updateImports cfg p₂ back = .ok (rest, q) ∧
        out = done ++ (here ++ rest)
  | [], out, p, h => by
    obtain ⟨⟨here, p₂⟩, hl, h⟩ := bind_eq_ok.mp h
    obtain ⟨⟨rest, q'⟩, hr, h⟩ := bind_eq_ok.mp h
    cases h
    exact ⟨[], p, here, p₂, rest, rfl, hl, hr, rfl⟩
  | first :: front, out, p, h => by
    obtain ⟨⟨here', p'⟩, hf, h⟩ := bind_eq_ok.mp h
    obtain ⟨⟨out', q'⟩, ho, h⟩ := bind_eq_ok.mp h
    cases h
    obtain ⟨done, p₁, here, p₂, rest, hd, hl, hr, rfl⟩ := updateImports_split ho
    refine ⟨here' ++ done, p₁, here, p₂, rest, ?_, hl, hr, by rw [append_assoc]⟩
    rw [updateImports, hf]
    show (updateImports cfg p' front >>= fun r => pure (here' ++ r.1, r.2)) = _
    rw [hd]
    rfl

theorem startsWith_library (h : line.has "PyQt4" = false) {head : Text}
    (hh : head.has "PyQt4") : line.trimLeft.startsWith head = false := by
  rw [Text.startsWith, ← Bool.not_eq_true, isPrefixOf_iff_prefix]
  intro hp
  refine has_eq_false_iff.mp h ?_
  exact (( has_iff_infix.mp hh).trans hp.isInfix).trans (trimLeft_suffix line).isInfix

theorem newLibraryLine_foreign (cfg : Settings) (p : Progress) (h : line.has "PyQt4" = false)
    (cleaned : Text) :
    newLibraryLine cfg p line.trimLeft cleaned = .ok ([cleaned.replaceAll "PyQt4" "PyQt5"], p) := by
  have hc : line.trimLeft.startsWith "from PyQt4.QtCore " = false := startsWith_library h (by decide)
  have hm : line.trimLeft.startsWith "from PyQt4 import " = false := startsWith_library h (by decide)
  have ha : line.trimLeft.startsWith "from PyQt4.Qt import " = false := startsWith_library h (by decide)
  have hg : line.trimLeft.startsWith "from PyQt4.QtGui " = false := startsWith_library h (by decide)
  have hw : line.trimLeft.startsWith "from PyQt4.QtWebKit " = false := startsWith_library h (by decide)
  simp only [newLibraryLine, hc, hm, ha, hg, hw, Bool.false_and, Bool.false_eq_true, if_false]

/-- The text with the library's new name, for a target that has one. -/
def renamedFor : Target → Text → Text
  | .old, s => s
  | .new, s => s.replaceAll "PyQt4" "PyQt5"

theorem renamedFor_of_not_has (target : Target) (h : s.has "PyQt4" = false) : renamedFor target s = s := by
  cases target with
  | old => rfl
  | new => exact replaceAll_of_not_has h

theorem capitals_renamedFor_le (target : Target) (s : Text) : capitals (renamedFor target s) ≤ capitals s := by
  cases target with
  | old => exact Nat.le_refl _
  | new => exact countP_replaceGo_le (by decide) 0 s

theorem importLine_foreign (cfg : Settings) (p : Progress) (hi : line.isImport)
    (h : line.has "PyQt4" = false) :
    importLine cfg p line = .ok (if importsNothing (cleanImport cfg.target p.signalDeclared line) then []
        else [renamedFor cfg.target (cleanImport cfg.target p.signalDeclared line)], p) := by
  rw [importLine, isCode_of_isImport hi, hi, if_neg (by decide)]
  dsimp only
  rw [Bool.true_and, if_pos rfl]
  split
  · rfl
  · cases cfg.target with
    | old => rfl
    | new => exact newLibraryLine_foreign cfg p h _

def losesNames (target : Target) (line : Text) : Bool :=
  (retiredFor target).any (listsName (line.trimRight ++ ['\n'])) || importsNothing (line.trimRight ++ ['\n'])

/-- **A foreign import stays as it is, up to white space at its end, exactly if it loses no names.**  The
lines around it are converted on their own. -/
theorem foreign_import_kept_iff {cfg : Settings} {p q : Progress} {front back out : List Text} {line : Text}
    (h : updateImports cfg p (front ++ line :: back) = .ok (out, q)) (himport : line.isImport = true)
    (hforeign : line.has "PyQt4" = false) (hrows : ∀ row ∈ line.trimRight.rows, isFilled row = true) :
    ∃ done p' here rest, updateImports cfg p front = .ok (done, p') ∧
      updateImports cfg p' back = .ok (rest, q) ∧ out = done ++ (here ++ rest) ∧
      (losesNames cfg.target line = false → here = [line.trimRight ++ ['\n']]) ∧
      (losesNames cfg.target line = true → ∀ kept ∈ here, kept.trimRight ≠ line.trimRight) := by
  obtain ⟨done, p', here, p₂, rest, hdone, hline, hrest, rfl⟩ := updateImports_split h
  rw [importLine_foreign cfg p' himport hforeign] at hline
  cases hline
  have hwhole := dropEmptyRows_of_isFilled hrows
  have hlacks : Text.has (line.trimRight ++ ['\n']) "PyQt4" = false := by
    have htrimmed : line.trimRight.has (("PyQt" : Text) ++ ['4']) = false := Text.has_eq_false_iff.mpr fun hin =>
      Text.has_eq_false_iff.mp hforeign (hin.trans (Text.trimRight_isPrefix line).isInfix)
    exact Text.has_append_eq_false htrimmed (by decide)
  refine ⟨done, p', _, rest, hdone, hrest, rfl, fun hkeeps => ?_, fun hloses kept hkept heq => ?_⟩
  · rw [losesNames, Bool.or_eq_false_iff, ← any_cleaningRules cfg.target p'.signalDeclared] at hkeeps
    rw [cleanImport_eq_cleanBy, cleanBy_of_not_has hwhole hkeeps.1, hkeeps.2, renamedFor_of_not_has _ hlacks]
    rfl
  · obtain ⟨hnames, hkept⟩ := List.mem_ite_nil_left.mp hkept
    rw [losesNames, ← any_cleaningRules cfg.target p'.signalDeclared] at hloses
    rw [cleanImport_eq_cleanBy] at hnames hkept
    cases hfound : (cleaningRules cfg.target p'.signalDeclared).any fun group =>
        group.any fun rule => Text.has (line.trimRight ++ ['\n']) rule.1 with
    | false =>
      rw [hfound, Bool.false_or] at hloses
      rw [cleanBy_of_not_has hwhole hfound] at hnames
      exact hnames hloses
    | true =>
      have hlt := capitals_cleanBy_lt (takesCapitals_cleaningRules cfg.target p'.signalDeclared) hwhole hfound
      have hle := capitals_renamedFor_le cfg.target
        (cleanBy (line.trimRight ++ ['\n']) (cleaningRules cfg.target p'.signalDeclared))
      have htrim : capitals kept.trimRight ≤ capitals kept := (Text.trimRight_isPrefix kept).sublist.countP_le
      rw [← List.mem_singleton.mp hkept] at hle
      have hsame : capitals kept.trimRight = capitals line.trimRight := congrArg capitals heq
      rw [capitals_append, show capitals ['\n'] = 0 from rfl] at hlt
      omega

/-- A foreign import with a retired name inside a longer one, and blanks at its end. -/
def foreignLine : Text := "from a import QString_  \n"

theorem foreign_import_kept_iff_foreignLine : losesNames .new foreignLine = false ∧
      ∃ done p' here rest, updateImports ⟨.new, " "⟩ .initial ["import os\n"] = .ok (done, p') ∧
        updateImports ⟨.new, " "⟩ p' [] = .ok (rest, .initial) ∧
        (["import os\n", "from a import QString_\n"] : List Text) = done ++ (here ++ rest) ∧
        (losesNames .new foreignLine = false → here = [foreignLine.trimRight ++ ['\n']]) ∧
        (losesNames .new foreignLine = true → ∀ kept ∈ here, kept.trimRight ≠ foreignLine.trimRight) := by
  have h : updateImports ⟨.new, " "⟩ .initial ([("import os\n" : Text)] ++ [foreignLine]) =
      .ok (["import os\n", "from a import QString_\n"], .initial) := by decide +kernel
  exact ⟨by decide, foreign_import_kept_iff h (by decide) (by decide) (by decide)⟩

/-- **A foreign import that loses a name**, and one that is dropped with its only name. -/
theorem foreign_import_loses_names :
    updateImports ⟨.new, " "⟩ .initial ["from a import QString, b\n", "from numpy import SIGNAL\n"] =
      .ok (["from a import b\n"], .initial) := by
  decide +kernel

end QtMigration
