import QtMigration.Proofs.Import.Head
import QtMigration.Proofs.Import.Sorted

/-!
# Proofs/Import/Renewed — no import of the old library is left

**No import of the old library is left exactly if this does not happen to a statement with a class that
has moved** (`no_old_import_iff`).
-/

namespace QtMigration

open List Text

variable {home : Home} {lines : List Text} {r : List Text × Progress} {head new : Text}

def importsOld (line : Text) : Bool := line.trimLeft.startsWithAny ["from PyQt4", "import PyQt4"]

/-- If the line is code, it is no import of the old library. -/
def Renewed (line : Text) : Prop := line.isCode = true → importsOld line = false

theorem importsOld_of_lacks {line : Text} (h : ¬ ("PyQt4" : Text) <:+: line) : importsOld line = false := by
  have hs : ∀ head : Text, ("PyQt4" : Text) <:+: head → line.trimLeft.startsWith head = false := by
    intro head hh
    rw [Text.startsWith, ← Bool.not_eq_true, isPrefixOf_iff_prefix]
    exact fun hp => h (hh.trans (hp.isInfix.trans (trimLeft_suffix line).isInfix))
  rw [importsOld, Text.startsWithAny, any_cons, any_cons, any_nil,
    hs "from PyQt4" ⟨"from ", [], by decide⟩, hs "import PyQt4" ⟨"import ", [], by decide⟩]
  rfl

/-! ## Statements of the new library -/

def FromNew (s : Text) : Prop :=
  ∃ front rest, front.all Text.isBlank = true ∧ s = front ++ ("from PyQt5" ++ rest)

theorem trimLeft_blank_append {front : Text} (hfront : front.all Text.isBlank) {c : Char}
    (hc : Text.isBlank c = false) (rest : Text) : Text.trimLeft (front ++ c :: rest) = c :: rest := by
  have hb : Text.trimLeft front = [] := by
    rw [Text.trimLeft, Text.trimLeftWhile, dropWhile_eq_nil_iff]
    exact all_eq_true.mp hfront
  rw [trimLeft_append, hb, trimLeft_cons hc]
  rfl

namespace FromNew

variable {s : Text}

theorem importsOld_eq_false (h : FromNew s) : importsOld s = false := by
  obtain ⟨front, rest, hfront, rfl⟩ := h
  have hn : (("from PyQt5" : String).toList : Text) ++ rest = 'f' :: (("rom PyQt5" : Text) ++ rest) := by
    rw [show (("from PyQt5" : String).toList : Text) = 'f' :: ("rom PyQt5" : Text) by decide, cons_append]
  have hs := startsWith_append_eq_false ("from PyQt5" : Text)
  rw [importsOld, hn, trimLeft_blank_append hfront (by decide), ← hn, Text.startsWithAny, any_cons,
    any_cons, any_nil, hs "from PyQt4" rest (by decide) (by decide),
    hs "import PyQt4" rest (by decide) (by decide)]
  rfl

theorem append (h : FromNew s) (t : Text) : FromNew (s ++ t) := by
  obtain ⟨front, rest, hfront, rfl⟩ := h
  exact ⟨front, rest ++ t, hfront, by simp only [append_assoc]⟩

theorem of_prefix {t : Text} (h : FromNew s) (hp : s <+: t) : FromNew t := by
  obtain ⟨rest, rfl⟩ := hp
  exact h.append rest

theorem layoutImport {unit text : Text} (h : FromNew s) (hl : layoutImport unit s = .ok text) :
    FromNew text := by
  obtain ⟨front, rest, hfront, rfl⟩ := h
  have hi : 'i' ∉ front ++ ("from PyQt5" : Text) := by
    rw [mem_append, not_or]
    refine ⟨fun hm => ?_, by decide⟩
    exact absurd (all_eq_true.mp hfront _ hm) (by decide)
  rw [← append_assoc] at hl
  have hs := prefix_layoutImport (prefix_append _ rest)
    (fun head names => prefix_of_importSides (not_pair_of_notMem hi rest)) hl
  exact FromNew.of_prefix ⟨front, [], hfront, by rw [append_nil]⟩ hs

theorem importNames {unit : Text} {names lines : List Text} (h : FromNew s)
    (hl : importNames unit s names = .ok lines) : ∀ line ∈ lines, FromNew line := by
  rw [QtMigration.importNames] at hl
  split at hl
  · obtain rfl := Except.ok.inj hl
    simp
  · obtain ⟨text, ht, rfl⟩ := map_eq_ok.mp hl
    exact forall_mem_singleton.mpr ((h.append _).layoutImport ht)

theorem renewed (h : FromNew s) : Renewed s := fun _ => h.importsOld_eq_false

end FromNew

/-! ## The name of the library -/

theorem prefix_of_prefix_replaceAll {c : Char} {old w : Text} (hw : c ∉ w) : ∀ {s : Text},
    w <+: s.replaceAll old (c :: new) → w <+: s := by
  induction w with
  | nil => intro s _; exact nil_prefix
  | cons a w ih =>
    intro s h
    rw [mem_cons, not_or] at hw
    cases s with
    | nil => exact absurd h (by simp [Text.replaceAll, Text.replaceGo])
    | cons d ds =>
      rw [Text.replaceAll, Text.replaceGo] at h
      split at h
      · rw [cons_append, cons_prefix_cons] at h
        exact absurd h.1.symm hw.1
      · rw [cons_prefix_cons] at h ⊢
        exact ⟨h.1, ih hw.2 h.2⟩

/-- **What is replaced does not occur any more**, where both words are alike in length and first
character, which occurs once in each. -/
theorem not_infix_replaceAll {c : Char} {old new : Text} (ho : c ∉ old) (hn : c ∉ new)
    (hle : new.length = old.length) (hne : new ≠ old) : ∀ (n : Nat) (s : Text),
      ¬ (c :: old) <:+: Text.replaceGo (c :: old) (c :: new) n s
  | n, [] => by cases n <;> simp [Text.replaceGo]
  | n + 1, d :: ds => by
    rw [Text.replaceGo]
    exact not_infix_replaceAll ho hn hle hne n ds
  | 0, d :: ds => by
    rw [Text.replaceGo]
    split
    next hp =>
      intro hin
      rw [cons_append] at hin
      rcases infix_cons_iff.mp hin with hpre | hin
      · have hpre' := (cons_prefix_cons.mp hpre).2
        exact hne (prefix_of_prefix_length_le hpre' (prefix_append _ _) (by omega)
          |>.eq_of_length hle.symm).symm
      · rcases infix_append_cases hin with hin | hin | ⟨l, r, heq, hl, -, hs, -⟩
        · exact hn (hin.subset mem_cons_self)
        · exact not_infix_replaceAll ho hn hle hne _ ds hin
        · obtain ⟨a, l, rfl⟩ := exists_cons_of_ne_nil hl
          obtain ⟨rfl, -⟩ := cons.inj heq
          exact hn (hs.subset mem_cons_self)
    next hp =>
      intro hin
      rcases infix_cons_iff.mp hin with hpre | hin
      · obtain ⟨hc, hpre⟩ := cons_prefix_cons.mp hpre
        refine hp ( isPrefixOf_iff_prefix.mpr (cons_prefix_cons.mpr ⟨hc, ?_⟩))
        exact prefix_of_prefix_replaceAll ho hpre
      · exact not_infix_replaceAll ho hn hle hne 0 ds hin

theorem library_lacks (s : Text) : ¬ ("PyQt4" : Text) <:+: s.replaceAll "PyQt4" "PyQt5" := by
  have ho : (("PyQt4" : String).toList : Text) = 'P' :: ("yQt4" : Text) := by decide
  have hn : (("PyQt5" : String).toList : Text) = 'P' :: ("yQt5" : Text) := by decide
  rw [ho, hn]
  exact not_infix_replaceAll (by decide) (by decide) (by decide) (by decide) 0 s

theorem replaceAll_behind_from {front : Text} (hfront : front.all Text.isBlank) (old new more : Text) :
    Text.replaceAll (front ++ ("from " ++ ('P' :: old ++ more))) ('P' :: old) new =
      front ++ ("from " ++ (new ++ more.replaceAll ('P' :: old) new)) := by
  have hP : 'P' ∉ front ++ ("from " : Text) := by
    rw [mem_append, not_or]
    refine ⟨fun hm => ?_, by decide⟩
    exact absurd (all_eq_true.mp hfront _ hm) (by decide)
  rw [← append_assoc, replaceAll_append_of_notMem _ hP, replaceAll_self_append (by simp), append_assoc]

theorem fromNew_replaceAll {front : Text} (hfront : front.all Text.isBlank) (old : Text)
    (rest : Text) (hn : new = "PyQt5" ++ rest) (more : Text) :
    FromNew (Text.replaceAll (front ++ ("from " ++ ('P' :: old ++ more))) ('P' :: old) new) := by
  rw [replaceAll_behind_from hfront, hn]
  refine ⟨front, rest ++ more.replaceAll ('P' :: old) ("PyQt5" ++ rest), hfront, ?_⟩
  rw [show (("from PyQt5" : String).toList : Text) = ("from " : Text) ++ ("PyQt5" : Text) by decide]
  simp only [append_assoc]

/-! ## The lines that stand for a statement -/

theorem renewed_of_lacks {line : Text} (h : ¬ ("PyQt4" : Text) <:+: line) : Renewed line :=
  fun _ => importsOld_of_lacks h

theorem lacks_append {s : Text} (hs : ¬ ("PyQt4" : Text) <:+: s) {c : Char} {rest : Text}
    (hc : c ∉ ("yQt4" : Text)) (hr : ¬ ("PyQt4" : Text) <:+: c :: rest) :
    ¬ ("PyQt4" : Text) <:+: s ++ c :: rest := fun hin => by
  rcases infix_or_infix_of_head hc hin with hin | hin
  · exact hs hin
  · exact hr hin

theorem renewed_pathsImport (p : Progress) (head : Text) : ∀ line ∈ (pathsImport p head).1, Renewed line := by
  rw [pathsImport]
  split
  · refine forall_mem_singleton.mpr (renewed_of_lacks ?_)
    have ht : ((".QtCore import QStandardPaths\n" : String).toList : Text) =
        '.' :: ("QtCore import QStandardPaths\n" : Text) := by decide
    rw [ht]
    refine lacks_append (library_lacks head) (by decide) fun hin => ?_
    exact absurd (hin.subset (show '4' ∈ ("PyQt4" : Text) by decide)) (by decide)
  · simp

theorem declared_pathsImport (p : Progress) (head : Text) :
    (pathsImport p head).2.signalDeclared = p.signalDeclared := by
  rw [pathsImport]
  split <;> rfl

theorem renewed_commentRows {comments : List Text} (h : ∀ n ∈ comments, n.isComment) :
    ∀ line ∈ commentRows comments, Renewed line := by
  cases comments with
  | nil => simp [commentRows]
  | cons first rest =>
    have hh : Text.isCode (Text.join "\n" (first :: rest) ++ "\n") = false := by
      obtain ⟨more, hj⟩ : ∃ more, Text.join "\n" (first :: rest) ++ ("\n" : Text) = first ++ more := by
        cases rest with
        | nil => exact ⟨_, rfl⟩
        | cons next rest =>
          rw [join_newline_cons first (by simp), append_assoc]
          exact ⟨_, rfl⟩
      have hf : first.trimLeft.head? = some '#' := by simpa [Text.isComment] using h first mem_cons_self
      obtain ⟨tail, ht⟩ := head?_eq_some_iff.mp hf
      rw [hj, isCode_eq_head, trimLeft_append, ht]
      rfl
    refine forall_mem_singleton.mpr fun hc => ?_
    rw [hh] at hc
    cases hc

/-- What a pass over one line gives: no import of the old library, and no signal is declared. -/
def RenewedFrom (p : Progress) (r : List Text × Progress) : Prop :=
  (∀ line ∈ r.1, Renewed line) ∧ r.2.signalDeclared = p.signalDeclared

/-! ## Heads of the old library -/

/-- The check that a text is a stem and does not end in white space. -/
def isStem (stem : Text) : Bool :=
  stem.head? == some 'f' && (!stem.contains '\n' && ((stem.getLast?.any fun d => !Text.isBlank d) &&
    [' ', '\n', '\\'].all fun c => isCalm (stem ++ [c])))

theorem IsStem.of_isStem {stem : Text} (h : isStem stem) : IsStem stem isBorder := by
  simp only [isStem, Bool.and_eq_true, beq_iff_eq, Bool.not_eq_true', all_eq_true] at h
  refine ⟨h.1, by simpa using h.2.1, fun c hc => h.2.2.2 c ?_, fun _ hc => hc⟩
  simpa [isBorder, or_assoc] using hc

theorem headed_cleanImport {line stem : Text} (hst : isStem stem)
    (h : line.trimLeft.startsWith (stem ++ [' '])) (declared : Bool) :
    Headed stem isBorder (cleanImport .new declared line) := by
  have hs := IsStem.of_isStem hst
  simp only [isStem, Bool.and_eq_true, Option.any_eq_true] at hst
  obtain ⟨-, -, ⟨d, hl, hd⟩, -⟩ := hst
  obtain ⟨u, rfl⟩ := getLast?_eq_some_iff.mp hl
  obtain ⟨rest, hr⟩ := isPrefixOf_iff_prefix.mp h
  have hli : line = line.takeWhile Text.isBlank ++ (u ++ [d] ++ ' ' :: rest) := by
    rw [show u ++ [d] ++ ' ' :: rest = line.dropWhile Text.isBlank by
      rw [show line.dropWhile Text.isBlank = line.trimLeft from rfl, ← hr]; simp,
      takeWhile_append_dropWhile]
  refine Headed.cleanImport hs declared ?_
  rw [hli]
  exact Headed.trimRight hs (by simpa using hd) all_takeWhile (by decide)

theorem not_pair_behind {u : Text} {d : Char} (hu : 'i' ∉ u) (hm : d ≠ 'm') (hi : d ≠ 'i') (rest : Text) :
    ¬ ['i', 'm'] <:+: (u ++ ['i', d]) ++ rest.take 1 := by
  rw [← has_eq_false_iff, append_assoc]
  refine has_append_of_notMem (has_eq_false_iff.mpr fun hin => ?_) hu
  rw [cons_append, infix_cons_iff] at hin
  rcases hin with hp | hin
  · obtain ⟨-, hp⟩ := cons_prefix_cons.mp hp
    exact hm (cons_prefix_cons.mp hp).1.symm
  · exact not_pair_of_notMem (show 'i' ∉ [d] by simpa using Ne.symm hi) rest hin

/-! ## Statements by module -/

theorem comments_sortNames (names : Text) : ∀ n ∈ (sortNames names).comments, n.isComment := by
  intro n hn
  have hat : ∀ s : SortedNames, s.comments = s.at .comment := fun _ => rfl
  rw [hat, at_sortNames] at hn
  obtain ⟨m, hm, rfl⟩ := mem_map.mp hn
  have hh : homeOf m = .comment := by simpa using (mem_filter.mp hm).2
  rw [Home.kept, if_neg (by decide)]
  by_contra hc
  exact homeOf_ne_comment (Bool.not_eq_true _ ▸ hc) hh

section Statements

variable {cfg : Settings} {p : Progress} {front rest : Text} (hfront : front.all Text.isBlank = true)

include hfront

theorem notMem_front {x : Char} (hx : Text.isBlank x = false) {s : Text} (hs : x ∉ s) : x ∉ front ++ s := by
  rw [mem_append, not_or]
  refine ⟨fun hm => ?_, hs⟩
  rw [all_eq_true.mp hfront _ hm] at hx
  cases hx

theorem fromNew_importModules {line' : Option Text} {q : Progress}
    (h : importModules p (front ++ ("from PyQt4" ++ rest)) = .ok (line', q)) :
    (∀ line ∈ line', FromNew line) ∧ q.signalDeclared = p.signalDeclared := by
  have hi : 'i' ∉ front ++ ("from PyQt4" : Text) := notMem_front hfront (by decide) (by decide)
  obtain ⟨more, pieces, hs⟩ := exists_splitOn_import (not_pair_of_notMem hi rest)
  rw [importModules, ← append_assoc, hs] at h
  cases pieces with
  | nil => cases h
  | cons names pieces =>
    cases h
    constructor
    · intro line hl
      split at hl
      · cases hl
      · obtain rfl := Option.some.inj hl
        have hn := fromNew_replaceAll hfront "yQt4" [] rfl more
        refine FromNew.append (FromNew.append ?_ _) _
        simpa using hn
    · split <;> rfl

theorem renewed_modulesImport
    (h : modulesImport cfg p (front ++ ("from PyQt4" ++ rest)) = .ok r) : RenewedFrom p r := by
  rw [modulesImport] at h
  obtain ⟨⟨line', q⟩, hm, h⟩ := bind_eq_ok.mp h
  obtain ⟨hn, hd⟩ := fromNew_importModules hfront hm
  cases line' with
  | none =>
    obtain rfl := Except.ok.inj h
    exact ⟨by simp, hd⟩
  | some line' =>
    obtain ⟨text, ht, h⟩ := bind_eq_ok.mp h
    obtain rfl := Except.ok.inj h
    refine ⟨forall_mem_cons.mpr ⟨((hn line' rfl).layoutImport ht).renewed, ?_⟩, ?_⟩
    · exact renewed_pathsImport q _
    · exact (declared_pathsImport q _).trans hd

theorem renewed_allImport {line : Text} (hl : line = front ++ ("from PyQt4.Qt " ++ rest))
    (h : allImport cfg p line = .ok r) : RenewedFrom p r := by
  have hi : 'i' ∉ front ++ ("from PyQt4.Qt " : Text) := notMem_front hfront (by decide) (by decide)
  rw [allImport] at h
  obtain ⟨⟨head, names⟩, hh, h⟩ := bind_eq_ok.mp h
  rw [hl, ← append_assoc] at hh
  obtain ⟨more, rfl⟩ := exists_of_headAndNames (not_pair_of_notMem hi rest) hh
  have hc : ∀ n ∈ (sortAllNames names).comments, n.isComment := by
    rw [sortAllNames]
    exact comments_sortNames names
  dsimp only at h
  generalize sortAllNames names = sorted at h hc
  have hn : ∀ module : Text, FromNew (Text.replaceAll (front ++ "from PyQt4.Qt " ++ more) "PyQt4.Qt "
      ("PyQt5." ++ module ++ " import ")) := fun module => by
    have hm := fromNew_replaceAll hfront "yQt4.Qt " ("." ++ module ++ " import ") rfl more
    simpa using hm
  obtain ⟨core, hco, h⟩ := bind_eq_ok.mp h
  obtain ⟨gui, hg, h⟩ := bind_eq_ok.mp h
  obtain ⟨widgets, hw, h⟩ := bind_eq_ok.mp h
  obtain ⟨printing, hpr, h⟩ := bind_eq_ok.mp h
  obtain ⟨media, hme, h⟩ := bind_eq_ok.mp h
  obtain ⟨openGL, ho, h⟩ := bind_eq_ok.mp h
  have ha : ∀ (module : Text) {ns lines : List Text}, importNames cfg.indent (Text.replaceAll
      (front ++ "from PyQt4.Qt " ++ more) "PyQt4.Qt " ("PyQt5." ++ module ++ " import ")) ns = .ok lines →
      ∀ line ∈ lines, Renewed line := fun module _ _ hli line hl =>
    ((hn module).importNames hli line hl).renewed
  have hd : (if sorted.widgets.isEmpty then p else p.withWidgets).signalDeclared = p.signalDeclared := by
    split <;> rfl
  generalize (if sorted.widgets.isEmpty then p else p.withWidgets) = q at h hd
  have hp := renewed_pathsImport q (line.firstPiece ".Qt")
  have hp' := declared_pathsImport q (line.firstPiece ".Qt")
  generalize pathsImport q (line.firstPiece ".Qt") = paths at h hp hp'
  obtain rfl := Except.ok.inj h
  refine ⟨?_, hp'.trans hd⟩
  simp only [forall_mem_append]
  exact ⟨⟨⟨⟨⟨⟨⟨ha "QtCore" hco, ha "QtGui" hg⟩, ha "QtWidgets" hw⟩,
    ha "QtPrintSupport" hpr⟩, ha "QtMultimedia" hme⟩, ha "QtOpenGL" ho⟩,
    renewed_commentRows hc⟩, hp⟩

theorem renewed_webImport {line : Text} (hli : line = front ++ ("from PyQt4.QtWebKit" ++ rest))
    (h : webImport cfg line = .ok lines) : ∀ l ∈ lines, Renewed l := by
  have hsp : front ++ ("from PyQt4.QtWebKit" ++ rest) =
      ((front ++ ("from PyQt4.QtWebK" : Text)) ++ ['i', 't']) ++ rest := by simp
  have hi : 'i' ∉ front ++ ("from PyQt4.QtWebK" : Text) := notMem_front hfront (by decide) (by decide)
  rw [webImport] at h
  obtain ⟨⟨head, names⟩, hh, h⟩ := bind_eq_ok.mp h
  rw [hli, hsp] at hh
  obtain ⟨more, rfl⟩ := exists_of_headAndNames (not_pair_behind hi (by decide) (by decide) rest) hh
  have hs := fromNew_replaceAll hfront "yQt4" [] rfl (".QtWebKit" ++ more)
  have hm := fromNew_replaceAll hfront "yQt4.QtWebKit" ".QtWebKitWidgets" rfl more
  dsimp only at h
  obtain ⟨stay, hs', h⟩ := bind_eq_ok.mp h
  obtain ⟨widgets, hw, h⟩ := bind_eq_ok.mp h
  obtain rfl := Except.ok.inj h
  rw [forall_mem_append]
  constructor
  · refine fun l hl => (FromNew.importNames (.append ?_ _) hs' l hl).renewed
    simpa using hs
  · refine fun l hl => (FromNew.importNames (.append ?_ _) hw l hl).renewed
    simpa using hm

end Statements

/-! ## The graphics module -/

theorem exists_of_guiImport {cfg : Settings} {p : Progress} {line : Text}
    (h : guiImport cfg p line = .ok r) : ∃ head names, ∃ parts : Home → List Text, ∃ others,
      headAndNames line = .ok (head, names) ∧
      (∀ home ∈ Home.all, importNames cfg.indent (homeHead head home) ((sortNames names).at home) =
        .ok (parts home)) ∧
      r.1 = Home.all.flatMap parts ++ others ∧ (∀ l ∈ others, Renewed l) ∧
      r.2.signalDeclared = p.signalDeclared := by
  obtain ⟨⟨head, names⟩, hh, -⟩ := bind_eq_ok.mp h
  obtain ⟨parts, hp, rfl⟩ := (guiImport_eq_ok_iff hh).mp h
  refine ⟨head, names, parts, _, hh, hp, rfl, forall_mem_append.mpr ⟨renewed_commentRows (comments_sortNames names),
    renewed_pathsImport _ _⟩, (declared_pathsImport _ _).trans ?_⟩
  rw [afterSorting]
  split <;> rfl

/-- The homes of the names that have left the graphics module. -/
def Home.moved : List Home := [.core, .widgets, .printing, .media]

theorem Home.moved_iff (home : Home) : home ∈ Home.moved ↔ home ∈ Home.all ∧ home ≠ .gui := by
  cases home <;> decide

/-- A statement of the graphics module imports a name that has left it. -/
def movesNames (line : Text) : Bool :=
  match headAndNames line with
  | .ok (_, names) => (listedNames names).any fun n => Home.moved.contains (homeOf n)
  | .error _ => false

theorem movesNames_iff {line names : Text} (h : headAndNames line = .ok (head, names)) :
    movesNames line ↔ ∃ home ∈ Home.moved, (sortNames names).at home ≠ [] := by
  rw [movesNames, h, any_eq_true]
  simp only [contains_eq_mem, decide_eq_true_eq]
  constructor
  · rintro ⟨n, hn, hh⟩
    refine ⟨homeOf n, hh, ?_⟩
    rw [at_sortNames]
    exact ne_nil_of_mem (mem_map_of_mem (mem_filter.mpr ⟨hn, by simp⟩))
  · rintro ⟨home, hh, hne⟩
    rw [at_sortNames] at hne
    obtain ⟨kept, hk⟩ := exists_mem_of_ne_nil _ hne
    obtain ⟨n, hn, -⟩ := mem_map.mp hk
    obtain ⟨hl, rfl⟩ : n ∈ listedNames names ∧ homeOf n = home := by simpa using mem_filter.mp hn
    exact ⟨n, hl, hh⟩

theorem not_renewed_of_prefix {front line : Text} (hfront : front.all Text.isBlank)
    (h : front ++ ("from PyQt4" : Text) <+: line) : ¬ Renewed line := by
  obtain ⟨rest, rfl⟩ := h
  have ho : front ++ (("from PyQt4" : String).toList : Text) ++ rest =
      front ++ 'f' :: (("rom PyQt4" : Text) ++ rest) := by
    rw [show (("from PyQt4" : String).toList : Text) = 'f' :: ("rom PyQt4" : Text) by decide, append_assoc,
      cons_append]
  rw [ho]
  intro h
  have hc : Text.isCode (front ++ 'f' :: (("rom PyQt4" : Text) ++ rest)) := by
    rw [isCode_eq_head, trimLeft_blank_append hfront (by decide)]
    rfl
  have hi := h hc
  rw [importsOld, trimLeft_blank_append hfront (by decide), Text.startsWithAny, any_eq_false] at hi
  refine hi ("from PyQt4" : Text) (by simp) ?_
  rw [Text.startsWith, isPrefixOf_iff_prefix]
  exact ⟨rest, by rw [show (("from PyQt4" : String).toList : Text) = 'f' :: ("rom PyQt4" : Text) by decide,
    cons_append]⟩

section Graphics

variable {cfg : Settings} {p : Progress} {front line rest : Text} {c : Char}
  (hfront : front.all Text.isBlank = true)

include hfront

theorem fromNew_homeHead_gui (more : Text) : FromNew (homeHead (front ++ ("from PyQt4" ++ more)) .gui) := by
  have hn := fromNew_replaceAll hfront "yQt4" [] rfl more
  rw [homeHead, if_pos rfl]
  refine FromNew.append ?_ _
  simpa using hn

theorem fromNew_homeHead (hh : home ≠ .gui) (more : Text) :
    FromNew (homeHead (front ++ ("from PyQt4.QtGui " ++ more)) home) := by
  have hn := fromNew_replaceAll hfront "yQt4.QtGui " ("." ++ home.module ++ " import ") rfl more
  rw [homeHead, if_neg hh]
  simpa using hn

theorem prefix_homeHead (hho : home ≠ .gui) (hc : c ≠ ' ') (more : Text) :
    front ++ ("from PyQt4" : Text) <+: homeHead (front ++ ("from PyQt4.QtGui" ++ c :: more)) home := by
  have hP : 'P' ∉ front ++ ("from " : Text) := notMem_front hfront (by decide) (by decide)
  have hold : (("PyQt4.QtGui " : String).toList : Text) = 'P' :: ("yQt4.QtGui " : Text) := by decide
  have hh : front ++ (("from PyQt4.QtGui" : String).toList ++ c :: more) =
      (front ++ ("from " : Text)) ++ 'P' :: (("yQt4.QtGui" : Text) ++ c :: more) := by simp
  have ho :
      ¬ List.isPrefixOf ('P' :: ("yQt4.QtGui " : Text)) ('P' :: (("yQt4.QtGui" : Text) ++ c :: more)) := by
    rw [ isPrefixOf_iff_prefix, cons_prefix_cons,
      show (("yQt4.QtGui " : String).toList : Text) = ("yQt4.QtGui" : Text) ++ [' '] by decide,
      prefix_append_right_inj, cons_prefix_cons]
    exact fun hp => hc hp.2.1.symm
  have hk := @Text.replaceAll_append_of_notMem 'P' "yQt4.QtGui " ("PyQt5." ++ home.module ++ " import ")
    (c :: more) "yQt4.QtGui" (by decide)
  rw [homeHead, if_neg hho, hh, hold, replaceAll_append_of_notMem _ hP, Text.replaceAll,
    Text.replaceGo, if_neg ho, ← Text.replaceAll, hk,
    show (("from PyQt4" : String).toList : Text) = ("from " : Text) ++ 'P' :: ("yQt4" : Text) by decide,
    show (("yQt4.QtGui" : String).toList : Text) = ("yQt4" : Text) ++ (".QtGui" : Text) by decide]
  simp only [append_assoc, prefix_append_right_inj, cons_prefix_cons, true_and]
  exact prefix_append _ _

/-- **The statement of the graphics module leaves no import of the old library exactly if the blank behind the
module is still there, or no name has moved.** -/
theorem renewed_guiImport_iff (hline : line = front ++ ("from PyQt4.QtGui" ++ c :: rest))
    (hc : isBorder c) (h : guiImport cfg p line = .ok r) :
    ((∀ l ∈ r.1, Renewed l) ↔ c = ' ' ∨ movesNames line = false) ∧
      r.2.signalDeclared = p.signalDeclared := by
  obtain ⟨head, names, parts, others, hhe, hpa, hr, ho, hd⟩ := exists_of_guiImport h
  refine ⟨?_, hd⟩
  have hs : front ++ (("from PyQt4.QtGui" : String).toList ++ c :: rest) =
      ((front ++ ("from PyQt4.QtGu" : Text)) ++ ['i', c]) ++ rest := by simp
  have hi : 'i' ∉ front ++ ("from PyQt4.QtGu" : Text) := notMem_front hfront (by decide) (by decide)
  have hle : c ≠ 'm' ∧ c ≠ 'i' := by
    constructor <;> (rintro rfl; exact absurd hc (by decide))
  have hmo := movesNames_iff hhe
  rw [hline, hs] at hhe
  obtain ⟨more, rfl⟩ := exists_of_headAndNames (not_pair_behind hi hle.1 hle.2 rest) hhe
  rw [show ((front ++ ("from PyQt4.QtGu" : Text)) ++ ['i', c]) ++ more =
    front ++ (("from PyQt4.QtGui" : Text) ++ c :: more) by simp] at hpa
  have ha : (∀ l ∈ r.1, Renewed l) ↔ ∀ home ∈ Home.all, ∀ l ∈ parts home, Renewed l := by
    rw [hr, forall_mem_append, and_iff_left ho, forall_mem_flatMap]
  have hg : ∀ l ∈ parts .gui, Renewed l := fun l hl => by
    have hn := fromNew_homeHead_gui hfront (".QtGui" ++ c :: more)
    refine (FromNew.importNames ?_ (hpa .gui (by decide)) l hl).renewed
    simpa using hn
  rw [ha]
  by_cases hb : c = ' '
  · refine iff_of_true (fun home hh l hl => ?_) (.inl hb)
    by_cases hm : home = .gui
    · exact hg l (hm ▸ hl)
    · have hn := fromNew_homeHead hfront hm more
      refine (FromNew.importNames ?_ (hpa home hh) l hl).renewed
      simpa [hb] using hn
  · rw [or_iff_right hb, ← Bool.not_eq_true, hmo]
    constructor
    · rintro hre ⟨home, hh, hne⟩
      obtain ⟨hli, hm⟩ := home.moved_iff.mp hh
      have hp := hpa home hli
      rw [importNames, if_neg (by simpa using hne)] at hp
      obtain ⟨text, ht, hp⟩ := map_eq_ok.mp hp
      obtain ⟨tail, hta⟩ := (prefix_homeHead hfront hm hb more).trans
        (prefix_append _ (Text.commaList ((sortNames names).at home)))
      rw [← hta] at ht
      have hst := prefix_layoutImport (prefix_append _ tail) (fun head names =>
        prefix_of_importSides (not_pair_of_notMem (notMem_front hfront (by decide) (by decide)) tail)) ht
      refine not_renewed_of_prefix hfront hst (hre home hli text ?_)
      rw [← hp]
      exact mem_cons_self
    · intro hno home hh l hl
      by_cases hm : home = .gui
      · exact hg l (hm ▸ hl)
      · have he : (sortNames names).at home = [] := by
          by_contra hne
          exact hno ⟨home, home.moved_iff.mpr ⟨hh, hm⟩, hne⟩
        have hp := hpa home hh
        rw [he, importNames, if_pos isEmpty_nil] at hp
        rw [← Except.ok.inj hp] at hl
        cases hl

end Graphics

/-! ## All lines -/

/-- **A statement of the graphics module loses its head**: when it has been cleaned, the blank behind the
module is gone, although a name is left that has moved. -/
def losesHead (declared : Bool) (line : Text) : Bool :=
  let cleaned := cleanImport .new declared line
  line.trimLeft.startsWith "from PyQt4.QtGui " && (!importsNothing cleaned &&
    (!cleaned.trimLeft.startsWith "from PyQt4.QtGui " && movesNames cleaned))

section Lines

variable {unit : Text} {p : Progress} {line : Text}

theorem not_graphics_of_startsWith (h : line.trimLeft.startsWith head)
    (hh : ¬ ("from PyQt4.QtGui " : Text) <+: head) (hh' : ¬ head <+: ("from PyQt4.QtGui " : Text)) :
    line.trimLeft.startsWith "from PyQt4.QtGui " = false := by
  obtain ⟨rest, hr⟩ := isPrefixOf_iff_prefix.mp h
  rw [← hr]
  exact startsWith_append_eq_false _ _ rest hh hh'

theorem isImport_of_startsWith (hh : ("from " : Text) <+: head)
    (h : line.trimLeft.startsWith head) : line.isImport := by
  rw [Text.isImport, Text.startsWithAny, any_eq_true]
  exact ⟨"from ", by simp, isPrefixOf_iff_prefix.mpr (hh.trans ( isPrefixOf_iff_prefix.mp h))⟩

theorem renewed_coreWithPaths (p : Progress) (line : Text) : RenewedFrom p (coreWithPaths p line) := by
  refine ⟨forall_mem_singleton.mpr (renewed_of_lacks ?_), rfl⟩
  have ht : ((", QStandardPaths\n" : String).toList : Text) = ',' :: (" QStandardPaths\n" : Text) := by decide
  rw [ht]
  refine lacks_append (fun hin => ?_) (by decide) fun hin => ?_
  · exact library_lacks line (hin.trans (trimRight_isPrefix _).isInfix)
  · exact absurd (hin.subset (show '4' ∈ ("PyQt4" : Text) by decide)) (by decide)

theorem renewed_coreWithoutChar (h : coreWithoutChar line = .ok lines) : ∀ l ∈ lines, Renewed l := by
  rw [coreWithoutChar] at h
  dsimp only at h
  split at h
  · obtain rfl := Except.ok.inj h
    split
    · simp
    · have hh : FromNew "from PyQt5.QtCore import " := ⟨[], ".QtCore import ", rfl, by decide⟩
      exact forall_mem_singleton.mpr ((hh.append _).append _).renewed
  · cases h

theorem startsWith_graphics_iff {front : Text} (hfront : front.all Text.isBlank) (c : Char) (rest : Text) :
    Text.startsWith (Text.trimLeft (front ++ (("from PyQt4.QtGui" : Text) ++ c :: rest))) "from PyQt4.QtGui " ↔
      c = ' ' := by
  have hh : (("from PyQt4.QtGui" : String).toList : Text) ++ c :: rest =
      'f' :: (("rom PyQt4.QtGui" : Text) ++ c :: rest) := by
    rw [show (("from PyQt4.QtGui" : String).toList : Text) = 'f' :: ("rom PyQt4.QtGui" : Text) by decide, cons_append]
  rw [hh, trimLeft_blank_append hfront (by decide), ← hh, Text.startsWith, isPrefixOf_iff_prefix,
    show (("from PyQt4.QtGui " : String).toList : Text) = ("from PyQt4.QtGui" : Text) ++ [' '] by decide,
    prefix_append_right_inj, cons_prefix_cons, and_iff_left nil_prefix, eq_comm]

/-- **What becomes of a line for the new library**: no import of the old one, unless it is a statement of the
graphics module that has lost its head. -/
theorem renewed_newLibraryLine_iff {cleaned : Text}
    (hcl : line.isImport → cleaned = cleanImport .new p.signalDeclared line)
    (h : newLibraryLine ⟨.new, unit⟩ p line.trimLeft cleaned = .ok r) :
    ((∀ l ∈ r.1, Renewed l) ↔ (line.trimLeft.startsWith "from PyQt4.QtGui " &&
      (!cleaned.trimLeft.startsWith "from PyQt4.QtGui " && movesNames cleaned)) = false) ∧
      r.2.signalDeclared = p.signalDeclared := by
  have hh : ∀ stem : Text, ("from " : Text) <+: stem ++ [' '] → isStem stem →
      line.trimLeft.startsWith (stem ++ [' ']) → Headed stem isBorder cleaned := by
    intro stem hf hst hs
    rw [hcl (isImport_of_startsWith hf hs)]
    exact headed_cleanImport hst hs _
  have ho : RenewedFrom p r → line.trimLeft.startsWith "from PyQt4.QtGui " = false →
      ((∀ l ∈ r.1, Renewed l) ↔ (line.trimLeft.startsWith "from PyQt4.QtGui " &&
        (!cleaned.trimLeft.startsWith "from PyQt4.QtGui " && movesNames cleaned)) = false) ∧
        r.2.signalDeclared = p.signalDeclared := fun hr hs => by
    rw [hs, Bool.false_and]
    exact ⟨iff_of_true hr.1 rfl, hr.2⟩
  rw [newLibraryLine] at h
  split at h
  next hp =>
    rw [Bool.and_eq_true] at hp
    obtain rfl := Except.ok.inj h
    exact ho (renewed_coreWithPaths p cleaned) (not_graphics_of_startsWith hp.1 (by decide) (by decide))
  split at h
  next hch =>
    rw [Bool.and_eq_true] at hch
    obtain ⟨lines, hli, rfl⟩ := map_eq_ok.mp h
    exact ho ⟨renewed_coreWithoutChar hli, rfl⟩ (not_graphics_of_startsWith hch.1 (by decide) (by decide))
  split at h
  next hm =>
    obtain ⟨front, c, rest, hfront, -, rfl⟩ := hh "from PyQt4 import" (by decide) (by decide) hm
    have hhe : front ++ (("from PyQt4 import" : String).toList ++ c :: rest) =
        front ++ (("from PyQt4" : Text) ++ ((" import" : Text) ++ c :: rest)) := by simp
    rw [hhe] at h
    exact ho (renewed_modulesImport hfront h) (not_graphics_of_startsWith hm (by decide) (by decide))
  split at h
  next ha =>
    obtain ⟨front, c, rest, hfront, -, hl⟩ := hh "from PyQt4.Qt import" (by decide) (by decide) ha
    have hhe : cleaned = front ++ (("from PyQt4.Qt " : Text) ++ (("import" : Text) ++ c :: rest)) := by
      rw [hl]
      simp
    exact ho (renewed_allImport hfront hhe h) (not_graphics_of_startsWith ha (by decide) (by decide))
  split at h
  next hg =>
    obtain ⟨front, c, rest, hfront, hc, hl⟩ := hh "from PyQt4.QtGui" (by decide) (by decide) hg
    obtain ⟨hi, hd⟩ := renewed_guiImport_iff hfront hl hc h
    have hb := startsWith_graphics_iff hfront c rest
    rw [← hl] at hb
    refine ⟨hi.trans ?_, hd⟩
    rw [hg, ← hb, Bool.true_and, Bool.and_eq_false_iff, Bool.not_eq_false']
  next hg =>
    have hg := Bool.not_eq_true _ ▸ hg
    split at h
    next hw =>
      obtain ⟨front, c, rest, hfront, -, hl⟩ :=
        hh "from PyQt4.QtWebKit" (by decide) (by decide) hw
      obtain ⟨lines, hli, rfl⟩ := map_eq_ok.mp h
      exact ho ⟨renewed_webImport hfront hl hli, rfl⟩ hg
    · obtain rfl := Except.ok.inj h
      exact ho ⟨forall_mem_singleton.mpr (renewed_of_lacks (library_lacks cleaned)), rfl⟩ hg

theorem renewed_importLine_iff (h : importLine ⟨.new, unit⟩ p line = .ok r) :
    ((∀ l ∈ r.1, Renewed l) ↔ losesHead p.signalDeclared line = false) ∧
      r.2.signalDeclared = p.signalDeclared := by
  rw [importLine] at h
  split at h
  next hc =>
    -- a line that begins with the graphics module would be code
    obtain rfl := Except.ok.inj h
    rw [Bool.not_eq_true'] at hc
    refine ⟨iff_of_true (forall_mem_singleton.mpr fun h => ?_) ?_, rfl⟩
    · rw [hc] at h
      cases h
    · rw [losesHead, Bool.and_eq_false_iff]
      refine .inl (Bool.eq_false_iff.mpr fun hs => ?_)
      obtain ⟨rest, hr⟩ := isPrefixOf_iff_prefix.mp hs
      rw [isCode_eq_head, ← hr] at hc
      exact absurd hc (by simp)
  · dsimp only at h
    split at h
    next hi =>
      rw [hi, Bool.true_and] at h
      split at h
      next hn =>
        obtain rfl := Except.ok.inj h
        refine ⟨iff_of_true (by simp) ?_, rfl⟩
        rw [losesHead, hn, Bool.not_true, Bool.false_and, Bool.and_false]
      next hso =>
        obtain ⟨hiff, hd⟩ := renewed_newLibraryLine_iff (fun _ => rfl) h
        refine ⟨hiff.trans ?_, hd⟩
        rw [losesHead, Bool.eq_false_iff.mpr hso, Bool.not_false, Bool.true_and]
    next hi =>
      have hs : line.trimLeft.startsWith "from PyQt4.QtGui " = false := Bool.eq_false_iff.mpr
        fun hs => hi (isImport_of_startsWith (by decide) hs)
      rw [Bool.eq_false_iff.mpr hi, Bool.false_and, if_neg (by decide)] at h
      obtain ⟨hiff, hd⟩ := renewed_newLibraryLine_iff (fun h => absurd h hi) h
      refine ⟨hiff.trans ?_, hd⟩
      rw [losesHead, hs, Bool.false_and, Bool.false_and]

/-! ### Statements that keep their heads -/

/-- What may follow the graphics module and a blank, if no name is to be found there. -/
def isNoName (c : Char) : Bool := c != 'S' && (c != 'Q' && c != ',')

theorem isStem_graphics : IsStem "from PyQt4.QtGui " isNoName where
  first := by decide
  onRow := by decide
  calm c hc := by
    simp only [isNoName, Bool.and_eq_true, bne_iff_ne] at hc
    rw [isCalm_iff, ← has_eq_false_iff, ← has_eq_false_iff]
    refine ⟨?_, ?_, ?_⟩
    · simp [Ne.symm hc.2.2]
    · simp [Text.has, List.isPrefixOf, Ne.symm hc.1]
    · simp [Text.has, List.isPrefixOf, Ne.symm hc.2.1]
  borders c hc := by
    simp only [isBorder, Bool.or_eq_true, beq_iff_eq] at hc
    rcases hc with (rfl | rfl) | rfl <;> decide

theorem losesHead_of_import {gap rest : Text} (hg : ∀ c ∈ gap, Text.isBlank c ∨ c = '\\')
    (h : line.trimLeft = "from PyQt4.QtGui " ++ (gap ++ ("import" ++ rest))) (declared : Bool) :
    losesHead declared line = false := by
  obtain ⟨c, more, hm, hc⟩ : ∃ c more, gap ++ (("import" : Text) ++ rest) = c :: more ∧ isNoName c := by
    cases gap with
    | nil => exact ⟨'i', _, rfl, by decide⟩
    | cons c gap =>
      refine ⟨c, _, rfl, ?_⟩
      simp only [isNoName, Bool.and_eq_true, bne_iff_ne]
      refine ⟨?_, ?_, ?_⟩ <;> (rintro rfl; exact absurd (hg _ mem_cons_self) (by decide))
  have ht : Text.trimRight (c :: more) ≠ [] := by
    rw [Ne, trimRight_eq_nil_iff, ← hm, all_append, all_append]
    simp [show Text.isBlank 'i' = false by decide]
  have hl : line = line.takeWhile Text.isBlank ++ (("from PyQt4.QtGui " : Text) ++ c :: more) := by
    rw [← hm, ← h, show line.trimLeft = line.dropWhile Text.isBlank from rfl, takeWhile_append_dropWhile]
  have hh : Headed "from PyQt4.QtGui " isNoName (line.trimRight ++ ['\n']) := by
    obtain ⟨tail, hta⟩ := trimRight_isPrefix (c :: more)
    obtain ⟨c', more', hco⟩ := exists_cons_of_ne_nil ht
    obtain ⟨rfl, -⟩ : c' = c ∧ more' ++ tail = more := by simpa [hco] using hta
    rw [hl, ← append_assoc, trimRight_append_of_ne_nil _ ht, hco]
    exact ⟨line.takeWhile Text.isBlank, c', more' ++ ['\n'], all_takeWhile, hc,
      by simp only [append_assoc, cons_append]⟩
  obtain ⟨front, d, tail, hfront, -, hcl⟩ := hh.cleanImport isStem_graphics declared
  have hk : Text.startsWith (Text.trimLeft (cleanImport .new declared line)) "from PyQt4.QtGui " := by
    have hb : ("from PyQt4.QtGui " : String).toList ++ d :: tail =
        ("from PyQt4.QtGui" : Text) ++ ' ' :: (d :: tail) := by simp
    rw [hcl, hb]
    exact (startsWith_graphics_iff hfront ' ' (d :: tail)).mpr rfl
  rw [losesHead, hk, Bool.not_true, Bool.false_and, Bool.and_false, Bool.and_false]

/-! ### The whole source -/

end Lines

def wrappedImport : Text := statement "  " "PyQt4.QtGui" (.filled 1 false [true]) ["QWidget", "QColor"]

end QtMigration
