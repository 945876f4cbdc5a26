import QtMigration.Import.Layout
import QtMigration.Proofs.Failure
import QtMigration.Proofs.Import.Layout
import QtMigration.Proofs.Text.Traces

/-!
# Proofs/Import/Written — import statements as they are written

A statement is written on one row if it fits, and otherwise in parentheses, with as many names on a row as
fit. **Only a converter whose unit of indentation is one blank can write every list**
(`layoutImport_of_wide`).
-/

namespace QtMigration

open List Text

variable {head line n rest s text unit : Text}

/-- **An import statement**: the names are imported from `module`. -/
def statement (indent module : Text) (L : Layout) (names : List Text) : Text :=
  indent ++ ("from " ++ (module ++ (" import " ++ (L.render names ++ ['\n']))))

def isImportable (n : Text) : Bool := !n.isEmpty && n.all Text.isWord && !n.endsWith "import"

theorem isImportable_iff : isImportable n ↔
    (n ≠ [] ∧ n.all Text.isWord) ∧ ¬ (("import" : String).toList : Text) <:+ n := by
  rw [isImportable, Bool.and_eq_true, Bool.and_eq_true, Bool.not_eq_true', Bool.not_eq_true',
    isEmpty_eq_false_iff, Text.endsWith, ← Bool.not_eq_true, isSuffixOf_iff_suffix]

/-- A text that may stand in a list of names as it is: without white space and commas. -/
def IsListable (n : Text) : Prop := n ≠ [] ∧ ∀ c ∈ n, Text.isBlank c = false ∧ c ≠ ','

theorem isListable_of_isWord (hne : n ≠ []) (hw : n.all Text.isWord) : IsListable n :=
  ⟨hne, fun c hc => ⟨isBlank_of_isWord (all_eq_true.mp hw c hc), by
    rintro rfl
    exact notMem_of_isWord hw (by decide) hc⟩⟩

theorem IsListable.comma_notMem (h : IsListable n) : ',' ∉ n := fun hm => (h.2 _ hm).2 rfl

/-! ## Splitting at the keyword -/

theorem has_import_eq_false
    (h : ∀ n ∈ words s, ¬ (("import" : String).toList : Text) <:+ n) : s.has "import " = false := by
  refine has_eq_false_iff.mpr fun hi => ?_
  have hsp : (("import " : String).toList : Text) = ("import" : Text) ++ [' '] := by decide
  rw [hsp] at hi
  obtain ⟨n, hn, hs⟩ := exists_word_of_infix (by decide) (by decide) (by decide) hi
  exact h n hn hs

theorem splitOn_import (hhead : head.has "import " = false) (hs : s.has "import " = false) :
    Text.splitOn (head ++ ("import " ++ s)) "import " = [head, s] := by
  have hsp : (("import " : String).toList : Text) = ("import" : Text) ++ [' '] := by decide
  rw [hsp] at hhead hs ⊢
  rw [Text.splitOn, splitGo_append (by simp) s head fun k hk =>
    not_prefix_drop_of_not_has (by decide) hhead hk, splitGo_of_not_has hs]

theorem importSides_eq (hhead : head.has "import " = false) (hs : s.has "import " = false) :
    importSides (head ++ ("import " ++ s)) = .ok (head, s) := by
  rw [importSides, splitOn_import hhead hs]

/-! ## On one row -/

namespace Layout

def onRow (count : Nat) : Layout where
  setting := .row
  lead := []
  first := []
  gaps := List.replicate count ([], [' '])
  trailing := none
  last := []
  tail := []
  lead_blank := rfl
  first_space := rfl
  gaps_space := all_eq_true.mpr fun g hg => by
    rw [eq_of_mem_replicate hg]
    rfl
  trailing_space := rfl
  last_space := rfl
  tail_blank := rfl

theorem spread_replicate : ∀ (names : List Text) (n : Text),
    spread (List.replicate names.length ([], [' '])) (n :: names) = Text.commaList (n :: names)
  | [], _ => rfl
  | m :: names, n => by
    rw [length_cons, replicate_succ, spread, spread_replicate names m, commaList_cons_cons]
    rfl

theorem render_onRow (n : Text) (names : List Text) :
    (onRow names.length).render (n :: names) = Text.commaList (n :: names) := by
  rw [render_eq, show (onRow names.length).ending = [] from rfl, append_nil]
  exact spread_replicate names n

/-! ## On several rows -/

/-- The beginning of a row at a column, if a row begins here. -/
def startRow (column : Nat) (begins : Bool) : Text :=
  if begins then '\n' :: List.replicate column ' ' else []

theorem isSpace_startRow (column : Nat) (begins : Bool) (s : Text) (hs : spaceOverRows true s) :
    spaceOverRows true (startRow column begins ++ s) := by
  cases begins with
  | false => exact hs
  | true =>
    rw [startRow, if_pos rfl, cons_append]
    induction column with
    | zero => exact hs
    | succ column ih => exact ih

/-- Names in parentheses, with new rows where `begins` and `later` say so. -/
def filled (column : Nat) (begins : Bool) (later : List Bool) : Layout where
  setting := .parentheses
  lead := []
  first := startRow column begins
  gaps := later.map fun b => ([], startRow column b ++ [' '])
  trailing := none
  last := []
  tail := []
  lead_blank := rfl
  first_space := by
    have h := isSpace_startRow column begins [] rfl
    rwa [append_nil] at h
  gaps_space := all_eq_true.mpr fun g hg => by
    obtain ⟨b, -, rfl⟩ := mem_map.mp hg
    exact isSpace_startRow column b [' '] rfl
  trailing_space := rfl
  last_space := rfl
  tail_blank := rfl

theorem exists_fillRows (column : Nat) : ∀ (items : List Text) (row : Text),
    ∃ later : List Bool, later.length = items.length ∧ fillRows (List.replicate column ' ') row items =
        row ++ (List.zipWith (fun b item => startRow column b ++ (item.trimRight ++ [','])) later items).flatten
  | [], row => ⟨[], rfl, (append_nil row).symm⟩
  | item :: items, row => by
    rw [fillRows, show (("," : String).toList : Text) = [','] from String.toList_ofList]
    split
    · obtain ⟨later, hl, hf⟩ := exists_fillRows column items (row ++ (item.trimRight ++ [',']))
      exact ⟨false :: later, by simp [hl], by rw [hf]; simp [startRow]⟩
    · obtain ⟨later, hl, hf⟩ :=
        exists_fillRows column items (List.replicate column ' ' ++ (item.trimRight ++ [',']))
      exact ⟨true :: later, by simp [hl], by rw [hf]; simp [startRow]⟩

theorem trimRight_append_listable (front : Text) (h : IsListable n) : Text.trimRight (front ++ n) = front ++ n := by
  obtain ⟨init, x, rfl⟩ := (eq_nil_or_concat n).resolve_left h.1
  rw [concat_eq_append] at h ⊢
  rw [← append_assoc, trimRight_concat (h.2 x (by simp)).1]

theorem flatten_filled (column : Nat) : ∀ (later : List Bool) (names : List Text) (begins : Bool)
    (front n : Text), later.length = names.length → (∀ m ∈ n :: names, IsListable m) →
    (List.zipWith (fun b item => startRow column b ++ (Text.trimRight item ++ [','])) (begins :: later)
      ((front ++ n) :: names.map (' ' :: ·))).flatten =
      startRow column begins ++ (front ++
        (spread (later.map fun b => ([], startRow column b ++ [' '])) (n :: names) ++ [',']))
  | [], [], begins, front, n, _, hnames => by
    rw [zipWith_cons_cons, flatten_cons, trimRight_append_listable front (hnames n mem_cons_self)]
    simp [spread]
  | b :: later, m :: names, begins, front, n, hl, hnames => by
    obtain ⟨hn, hnames⟩ := forall_mem_cons.mp hnames
    have ih := flatten_filled column later names b [' '] m (by simpa using hl) hnames
    rw [singleton_append] at ih
    rw [map_cons, zipWith_cons_cons, flatten_cons, trimRight_append_listable front hn, ih]
    simp [spread]

end Layout

/-! ## Writing -/

theorem splitOn_append_comma {a : Text} (ha : ',' ∉ a) (b : Text) :
    Text.splitOn (a ++ ',' :: b) "," = a :: Text.splitOn b "," := by
  have hs : (("," : String).toList : Text) = [','] := String.toList_ofList
  rw [hs, Text.splitOn, Text.splitOn, show a ++ ',' :: b = a ++ ([','] ++ b) from rfl,
    splitGo_append (by simp) b a fun k hk hp => ?_]
  rw [drop_append_of_le_length (Nat.le_of_lt hk), drop_eq_getElem_cons hk] at hp
  obtain ⟨hc, -⟩ := cons_prefix_cons.mp hp
  exact ha (hc ▸ getElem_mem hk)

theorem splitOn_commaList : ∀ (names : List Text) (front n : Text), ',' ∉ front → (∀ m ∈ n :: names, IsListable m) →
    Text.splitOn (front ++ Text.commaList (n :: names)) "," = (front ++ n) :: names.map (' ' :: ·)
  | [], front, n, hf, hnames => by
    refine splitOn_of_not_has (has_eq_false_of_notMem (c := ',') (by decide) ?_)
    rw [mem_append, not_or]
    exact ⟨hf, (hnames n mem_cons_self).comma_notMem⟩
  | m :: names, front, n, hf, hnames => by
    obtain ⟨hn, hnames⟩ := forall_mem_cons.mp hnames
    have ih : Text.splitOn (' ' :: Text.commaList (m :: names)) "," = _ :=
      splitOn_commaList names [' '] m (by decide) hnames
    have hc : ',' ∉ front ++ n := by
      rw [mem_append, not_or]
      exact ⟨hf, hn.comma_notMem⟩
    rw [commaList_cons_cons, ← append_assoc, splitOn_append_comma hc, ih]
    rfl

theorem trimLeft_commaList (names : List Text) (h : IsListable n) :
    Text.trimLeft (Text.commaList (n :: names)) = Text.commaList (n :: names) := by
  obtain ⟨c, n, rfl⟩ := exists_cons_of_ne_nil h.1
  have hc := (h.2 c mem_cons_self).1
  cases names with
  | nil => exact trimLeft_cons hc n
  | cons m names =>
    rw [commaList_cons_cons]
    exact trimLeft_cons hc _

theorem has_import_commaList {names : List Text} (hne : names ≠ [])
    (hnames : ∀ n ∈ names, isImportable n) : (Text.commaList names).has "import " = false := by
  obtain ⟨n, names, rfl⟩ := exists_cons_of_ne_nil hne
  refine has_import_eq_false fun m hm => ?_
  rw [← Layout.render_onRow, Layout.words_render (by simp [Layout.Fits, Layout.onRow])
    fun m hm => (isImportable_iff.mp (hnames m hm)).1] at hm
  exact (isImportable_iff.mp (hnames m hm)).2

theorem exists_filled (first : Text) {names : List Text} (hnames : ∀ m ∈ n :: names, IsListable m) (column : Nat) :
    ∃ begins later, (Layout.filled column begins later).Fits (n :: names) ∧
      (fillRows (List.replicate column ' ') (first ++ ['('])
          ((Text.commaList (n :: names)).trimLeft.splitOn ",")).dropEnd 1 ++ [')'] =
        first ++ (Layout.filled column begins later).render (n :: names) := by
  obtain ⟨later, hl, hf⟩ := Layout.exists_fillRows column (n :: names.map (' ' :: ·)) (first ++ ['('])
  obtain ⟨begins, later, rfl⟩ := exists_cons_of_length_eq_add_one hl
  have hla : later.length = names.length := by simpa using hl
  have hs : Text.splitOn (Text.commaList (n :: names)) "," = n :: names.map (' ' :: ·) :=
    splitOn_commaList names [] n (by simp) hnames
  have hn := Layout.flatten_filled column later names begins [] n hla hnames
  refine ⟨begins, later, by simp [Layout.Fits, Layout.filled, hla], ?_⟩
  rw [trimLeft_commaList names (hnames n mem_cons_self), hs, hf, ← nil_append n, hn]
  have hd : ∀ (s : Text) (c : Char), Text.dropEnd (s ++ [c]) 1 = s := fun s c => by
    simp [Text.dropEnd]
  have hlast : first ++ ['('] ++ (Layout.startRow column begins ++ ([] ++
      (Layout.spread (later.map fun b => ([], Layout.startRow column b ++ [' '])) (n :: names) ++ [',']))) =
      first ++ '(' :: (Layout.startRow column begins ++
        Layout.spread (later.map fun b => ([], Layout.startRow column b ++ [' '])) (n :: names)) ++ [','] := by
    simp
  rw [hlast, hd, Layout.render_eq]
  simp [Layout.filled, Layout.ending, Setting.opening, Setting.closing]

theorem prefix_fillRows (indent : Text) : ∀ (names : List Text) (row : Text), row <+: fillRows indent row names
  | [], row => prefix_refl row
  | name :: names, row => by
    rw [fillRows]
    split
    · exact .trans (prefix_append row _) (prefix_fillRows indent names _)
    · rw [append_assoc]
      exact prefix_append row _

theorem eq_of_importSides {head' names : Text} (hhead : head.has "import " = false)
    (h : importSides (head ++ ("import " ++ rest)) = .ok (head', names)) : head = head' := by
  have hs : (("import " : String).toList : Text) = ("import" : Text) ++ [' '] := by decide
  rw [importSides] at h
  split at h
  next hp =>
    cases h
    rw [hs] at hhead hp
    rw [Text.splitOn, splitGo_append (by simp) rest head fun k hk =>
      not_prefix_drop_of_not_has (by decide) hhead hk] at hp
    exact (cons.inj hp).1
  next => cases h

theorem prefix_layoutImport {start : Text} (hst : start <+: line)
    (hs : ∀ head names, importSides line = .ok (head, names) → start <+: head)
    (h : layoutImport unit line = .ok text) : start <+: text := by
  rw [layoutImport] at h
  split at h
  · rw [← Except.ok.inj h]
    exact hst.trans (prefix_append line _)
  · obtain ⟨⟨head, names⟩, hli, h⟩ := bind_eq_ok.mp h
    obtain ⟨indent, -, h⟩ := bind_eq_ok.mp h
    have hf := prefix_fillRows indent (names.trimLeft.splitOn ",") (head ++ "import (")
    rw [← Except.ok.inj h]
    refine (hs head names hli).trans (.trans ?_ (prefix_append _ _))
    rw [Text.dropEnd, prefix_take_iff]
    refine ⟨.trans (prefix_append _ _) hf, ?_⟩
    have hl := hf.length_le
    rw [length_append, show (("import (" : String).toList : Text).length = 8 by decide] at hl
    exact Nat.le_sub_of_add_le (by omega)

theorem prefix_of_layoutImport (hhead : head.has "import " = false)
    (h : layoutImport unit (head ++ ("import " ++ rest)) = .ok text) : head <+: text :=
  prefix_layoutImport (prefix_append head _) (fun _ _ hs => (eq_of_importSides hhead hs) ▸ prefix_refl _) h

/-! ## What is laid out -/

theorem words_splitOn_comma (s : Text) : (Text.splitOn s ",").flatMap words = words s := by
  have hc : (("," : String).toList : Text) = [','] := by decide
  have ht : ∀ (tails : List Text) (front : Text), words (front ++ (tails.map (("," : Text) ++ ·)).flatten) =
      words front ++ tails.flatMap words := by
    intro tails
    induction tails with
    | nil => intro front; simp
    | cons tail tails ih =>
      intro front
      rw [map_cons, flatten_cons, append_assoc, hc, singleton_append, words_append_cons (by decide)]
      exact congrArg _ (ih tail)
  have hs := flatten_splitOn (by decide) (rfl : Text.splitOn s "," = _ :: _)
  conv_rhs => rw [← hs, ht]
  rfl

theorem words_fillRows {indent : Text} (hi : isGap indent) : ∀ (items : List Text) (row : Text),
    (row = [] ∨ ∃ front c, row = front ++ [c] ∧ Text.isWord c = false) →
      words (fillRows indent row items) = words row ++ items.flatMap words
  | [], row, _ => by rw [fillRows, flatMap_nil, append_nil]
  | item :: items, row, hr => by
    have hc : (("," : String).toList : Text) = [','] := by decide
    have hitem : words (item.trimRight ++ [',']) = words item := by
      rw [words_append_cons (by decide), words_nil, append_nil, words_trimRight]
    rw [fillRows, hc, flatMap_cons]
    split
    · rw [words_fillRows hi items _ (.inr ⟨row ++ item.trimRight, ',', by simp, by decide⟩),
        words_append_border hr, hitem, append_assoc]
    · rw [append_assoc, show (("\n" : String).toList : Text) = ['\n'] by decide, singleton_append,
        words_append_cons (by decide),
        words_fillRows hi items _ (.inr ⟨indent ++ item.trimRight, ',', by simp, by decide⟩),
        words_gap_append hi, hitem]

theorem exists_fillRows_comma (indent : Text) : ∀ (items : List Text) (row : Text), items ≠ [] →
    ∃ s, fillRows indent row items = s ++ [',']
  | [item], row, _ => by
    rw [fillRows, show (("," : String).toList : Text) = [','] by decide]
    split
    · exact ⟨row ++ item.trimRight, by rw [fillRows, append_assoc]⟩
    · exact ⟨row ++ "\n" ++ (indent ++ item.trimRight), by rw [fillRows]; simp⟩
  | item :: next :: items, row, _ => by
    rw [fillRows]
    split
    · exact exists_fillRows_comma indent (next :: items) _ (by simp)
    · obtain ⟨s, hs⟩ := exists_fillRows_comma indent (next :: items) (indent ++ (item.trimRight ++ ",")) (by simp)
      exact ⟨row ++ "\n" ++ s, by rw [hs]; simp only [append_assoc]⟩

theorem forall_mem_fillRows {P : Char → Prop} (hco : P ',') (hn : P '\n') {indent : Text}
    (hi : ∀ c ∈ indent, P c) : ∀ (items : List Text) (row : Text), (∀ c ∈ row, P c) →
      (∀ item ∈ items, ∀ c ∈ item, P c) → ∀ c ∈ fillRows indent row items, P c
  | [], row, hr, _ => hr
  | item :: items, row, hr, hitems => by
    obtain ⟨hitem, hitems⟩ := forall_mem_cons.mp hitems
    have hw : ∀ c ∈ item.trimRight ++ ("," : Text), P c := forall_mem_append.mpr
      ⟨fun c hc => hitem c ((trimRight_isPrefix item).subset hc), by simpa using hco⟩
    rw [fillRows]
    split
    · exact forall_mem_fillRows hco hn hi items _ (forall_mem_append.mpr ⟨hr, hw⟩) hitems
    · refine forall_mem_append.mpr ⟨forall_mem_append.mpr ⟨hr, by simpa using hn⟩, ?_⟩
      exact forall_mem_fillRows hco hn hi items _ (forall_mem_append.mpr ⟨hi, hw⟩) hitems

theorem alignment_eq_ok {indent : Text} {column : Nat} (h : alignment unit column = .ok indent) :
    indent = List.replicate column ' ' := by
  rw [alignment] at h
  split at h
  · exact (Except.ok.inj h).symm
  · cases h

theorem eq_of_importSides_eq_ok {names : Text} (h : importSides line = .ok (head, names)) :
    line = head ++ ("import " ++ names) := by
  rw [importSides] at h
  split at h
  next head' names' hp =>
    cases h
    have hf := flatten_splitOn (by decide) hp
    rw [← hf]
    simp
  · cases h

theorem layoutImport_cases (h : layoutImport unit line = .ok text) :
    text = line ++ ['\n'] ∨ ∃ head names indent filled, importSides line = .ok (head, names) ∧
      indent.all (· == ' ') ∧
      fillRows indent (head ++ ("import " ++ ['('])) (names.trimLeft.splitOn ",") = filled ++ [','] ∧
      text = filled ++ [')', '\n'] := by
  have hn : (("\n" : String).toList : Text) = ['\n'] := by decide
  rw [layoutImport] at h
  split at h
  · rw [hn] at h
    exact .inl (Except.ok.inj h).symm
  · obtain ⟨⟨head, names⟩, hs, h⟩ := bind_eq_ok.mp h
    obtain ⟨indent, hi, h⟩ := bind_eq_ok.mp h
    obtain ⟨filled, hf⟩ := exists_fillRows_comma indent (names.trimLeft.splitOn ",") (head ++ "import (")
      (by rw [Text.splitOn]; simp)
    refine .inr ⟨head, names, indent, filled, hs, ?_, hf, ?_⟩
    · rw [alignment_eq_ok hi, all_replicate]
      simp
    · dsimp only at h
      rw [hf] at h
      rw [← Except.ok.inj h]
      simp [Text.dropEnd]

theorem words_layoutImport (h : layoutImport unit line = .ok text) : words text = words line := by
  rcases layoutImport_cases h with rfl | ⟨head, names, indent, filled, hs, hi, hf, rfl⟩
  · exact words_append_gap _ (by decide)
  · have hg : isGap indent := all_eq_true.mpr fun c hc => by
      rw [beq_iff_eq.mp (all_eq_true.mp hi c hc)]
      decide
    have hk : ∀ s : Text, words (head ++ (("import " : Text) ++ s)) = words (head ++ "import ") ++ words s :=
      fun s => by
        rw [← append_assoc]
        exact words_append_border (.inr ⟨head ++ "import", ' ', by simp, by decide⟩) s
    have hw := words_fillRows hg (names.trimLeft.splitOn ",") (head ++ ("import " ++ ['(']))
      (.inr ⟨head ++ "import ", '(', by simp, by decide⟩)
    rw [hf, words_append_gap _ (by decide), words_splitOn_comma, words_trimLeft, hk,
      words_cons (by decide), words_nil, append_nil] at hw
    rw [words_append_gap _ (by decide), hw, eq_of_importSides_eq_ok hs, hk]

theorem forall_mem_layoutImport {P : Char → Prop} (h : layoutImport unit line = .ok text)
    (hf : ∀ c ∈ [',', '\n', '(', ')', ' '], P c) (hl : ∀ c ∈ line, P c) : ∀ c ∈ text, P c := by
  simp only [forall_mem_cons] at hf
  obtain ⟨hco, hn, ho, hcl, hbl, -⟩ := hf
  rcases layoutImport_cases h with rfl | ⟨head, names, indent, filled, hs, hin, hfi, rfl⟩
  · exact forall_mem_append.mpr ⟨hl, by simpa using hn⟩
  · rw [eq_of_importSides_eq_ok hs] at hl
    obtain ⟨hhead, hre⟩ := forall_mem_append.mp hl
    obtain ⟨hi, hnames⟩ := forall_mem_append.mp hre
    have hb : ∀ c ∈ indent, P c := fun c hc => beq_iff_eq.mp (all_eq_true.mp hin c hc) ▸ hbl
    have hr := forall_mem_fillRows hco hn hb (names.trimLeft.splitOn ",")
      (head ++ ("import " ++ ['('])) ?_ fun item hitem c hc => hnames c
        ((trimLeft_suffix names).subset ((infix_of_mem_splitOn hitem).subset hc))
    · rw [hfi] at hr
      refine forall_mem_append.mpr ⟨(forall_mem_append.mp hr).1, ?_⟩
      simpa using ⟨hcl, hn⟩
    · exact forall_mem_append.mpr ⟨hhead, forall_mem_append.mpr ⟨hi, by simpa using ho⟩⟩

theorem import_prefix_layoutImport (hhead : head.has "import " = false)
    (h : layoutImport unit (head ++ ("import " ++ rest)) = .ok text) : head ++ ("import " : Text) <+: text := by
  rcases layoutImport_cases h with rfl | ⟨head', names, indent, filled, hs, -, hf, rfl⟩
  · exact ⟨rest ++ ['\n'], by simp only [append_assoc]⟩
  · obtain rfl := eq_of_importSides hhead hs
    have hr := prefix_fillRows indent (names.trimLeft.splitOn ",") (head ++ ("import " ++ ['(']))
    rw [hf, ← append_assoc] at hr
    refine .trans ?_ (prefix_append filled _)
    refine prefix_of_prefix_length_le ((prefix_append _ _).trans hr) (prefix_append _ _) ?_
    have hl := hr.length_le
    simp only [length_append, length_singleton] at hl ⊢
    omega

section Statement

variable {indent module : Text} {names : List Text}
  (hhead : (indent ++ ("from " ++ (module ++ " "))).has "import " = false) (hne : names ≠ [])
  (hnames : ∀ n ∈ names, isImportable n = true)

include hhead hne hnames

theorem importSides_statement :
    importSides (indent ++ ("from " ++ (module ++ (" import " ++ Text.commaList names)))) =
      .ok (indent ++ ("from " ++ (module ++ " ")), Text.commaList names) := by
  have h := importSides_eq hhead (has_import_commaList hne hnames)
  rw [← h]
  refine congrArg importSides ?_
  rw [show ((" import " : String).toList : Text) = (" " : Text) ++ ("import " : Text) by decide]
  simp only [append_assoc]

theorem exists_layoutImport : ∃ L : Layout, L.Fits names ∧
    layoutImport " " (indent ++ ("from " ++ (module ++ (" import " ++ Text.commaList names)))) =
      .ok (statement indent module L names) := by
  have hs := importSides_statement hhead hne hnames
  obtain ⟨n, names, rfl⟩ := exists_cons_of_ne_nil hne
  have hw : ∀ m ∈ n :: names, m ≠ [] ∧ m.all Text.isWord := fun m hm =>
    (isImportable_iff.mp (hnames m hm)).1
  rw [layoutImport]
  split
  · refine ⟨.onRow names.length, by simp [Layout.Fits, Layout.onRow], congrArg Except.ok ?_⟩
    rw [statement, Layout.render_onRow]
    simp only [append_assoc]
    rfl
  · generalize hf : indent ++ ("from " ++ (module ++ " ")) ++ (("import (" : String).toList : Text) =
      first
    have ho : indent ++ ("from " ++ (module ++ " import ")) ++ ['('] = first := by
      rw [← hf, show (("import (" : String).toList : Text) = ("import " : Text) ++ ['('] by decide,
        show ((" import " : String).toList : Text) = (" " : Text) ++ ("import " : Text) by decide]
      simp only [append_assoc]
    obtain ⟨begins, later, hfits, hfi⟩ := exists_filled (indent ++ ("from " ++ (module ++ " import ")))
      (fun m hm => isListable_of_isWord (hw m hm).1 (hw m hm).2) (first.length - 1)
    refine ⟨.filled (first.length - 1) begins later, hfits, ?_⟩
    refine bind_eq_ok.mpr ⟨_, hs, bind_eq_ok.mpr ⟨List.replicate (first.length - 1) ' ', ?_, ?_⟩⟩
    · rw [hf]
      rfl
    · rw [hf]
      rw [ho] at hfi
      refine congrArg Except.ok ?_
      rw [show ((")\n" : String).toList : Text) = [')'] ++ ['\n'] by decide, ← append_assoc, hfi, statement]
      simp only [append_assoc]

theorem layoutImport_of_wide (hu : unit ≠ " ") (hw : rowWidth < (Text.commaList names).length) :
    layoutImport unit (indent ++ ("from " ++ (module ++ (" import " ++ Text.commaList names)))) =
      .error .noAlignment := by
  have hl : ¬ (indent ++ ("from " ++ (module ++ (" import " ++ Text.commaList names)))).length ≤
      rowWidth := by
    simp only [length_append]
    omega
  rw [layoutImport, if_neg hl, importSides_statement hhead hne hnames]
  have ho : (unit == ((" " : String).toList : Text)) = false := beq_eq_false_iff_ne.mpr hu
  show (alignment unit _ >>= _) = _
  rw [alignment, ho]
  rfl

end Statement

end QtMigration
