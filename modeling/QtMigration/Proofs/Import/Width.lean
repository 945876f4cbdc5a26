import QtMigration.Proofs.Import.Written

/-!
# Proofs/Import/Width — a statement on rows that are not too wide

Rows are filled from left to right, and a name that does not fit begins a new one. **A statement that is set
on several rows keeps its names and stays within the width** (`wrapped_import_keeps_names`).
-/

namespace QtMigration

open List

/-! ## Blanks and newlines taken out -/

def tight (s : Text) : Text := s.filter fun c => c != '\n' && c != ' '

theorem tight_append (s t : Text) : tight (s ++ t) = tight s ++ tight t := filter_append s t

theorem tight_of_listable {n : Text} (h : IsListable n) : tight n = n := by
  refine filter_eq_self.mpr fun c hc => ?_
  have hb := (h.2 c hc).1
  rw [Bool.and_eq_true, bne_iff_ne, bne_iff_ne]
  constructor <;> rintro rfl <;> exact absurd hb (by decide)

theorem tight_startRow (column : Nat) (begins : Bool) : tight (Layout.startRow column begins) = [] := by
  cases begins with
  | false => rfl
  | true => simp [Layout.startRow, tight]

theorem tight_spread (column : Nat) : ∀ (later : List Bool) (names : List Text) (n : Text),
    later.length = names.length → (∀ m ∈ n :: names, IsListable m) →
    tight (Layout.spread (later.map fun b => ([], Layout.startRow column b ++ [' '])) (n :: names)) =
      Text.join "," (n :: names)
  | [], [], n, _, hnames => tight_of_listable (hnames n mem_cons_self)
  | b :: later, m :: names, n, hl, hnames => by
    obtain ⟨hn, hnames⟩ := forall_mem_cons.mp hnames
    have ih := tight_spread column later names m (by simpa using hl) hnames
    have hg : tight (Layout.startRow column b ++ [' ']) = [] := by
      rw [tight_append, tight_startRow]
      rfl
    rw [map_cons, Layout.spread, nil_append, tight_append, tight_of_listable hn, ← singleton_append,
      tight_append, tight_append, hg, ih, Text.join, append_assoc]
    rfl

theorem splitOn_join_comma : ∀ {names : List Text}, names ≠ [] → (∀ n ∈ names, ',' ∉ n) →
    Text.splitOn (Text.join "," names) "," = names
  | [n], _, h => Text.splitOn_of_not_has (Text.has_eq_false_of_notMem (c := ',') (by decide)
      (h n mem_cons_self))
  | n :: m :: names, _, h => by
    obtain ⟨hn, hnames⟩ := forall_mem_cons.mp h
    rw [Text.join, append_assoc, show (("," : String).toList : Text) = [','] from String.toList_ofList,
      singleton_append, ← show (("," : String).toList : Text) = [','] from String.toList_ofList,
      splitOn_append_comma hn, splitOn_join_comma (by simp) hnames]

/-! ## Widths -/

theorem length_le_of_mem_rows {s r : Text} (h : r ∈ s.rows) : r.length ≤ s.length :=
  (Text.infix_of_mem_rows s r h).length_le

theorem length_le_of_mem_rows_fillRows {indent : Text} : ∀ (items : List Text) (row : Text),
    row.length ≤ rowWidth → (∀ item ∈ items, indent.length + (item.trimRight.length + 1) ≤ rowWidth) →
      ∀ r ∈ (fillRows indent row items).rows, r.length ≤ rowWidth
  | [], _, hrow, _, _, hr => Nat.le_trans (length_le_of_mem_rows hr) hrow
  | item :: items, row, hrow, hi, r, hr => by
    obtain ⟨hitem, hi⟩ := forall_mem_cons.mp hi
    have hc : (item.trimRight ++ ("," : Text)).length = item.trimRight.length + 1 := by simp
    rw [fillRows] at hr
    split at hr
    next hf =>
      exact length_le_of_mem_rows_fillRows items _ (by rwa [length_append]) hi r hr
    · rw [append_assoc, show (("\n" : String).toList : Text) = ['\n'] from String.toList_ofList,
        singleton_append, Text.rows_append_newline] at hr
      rcases mem_append.mp hr with hr | hr
      · exact Nat.le_trans (length_le_of_mem_rows hr) hrow
      · refine length_le_of_mem_rows_fillRows items _ ?_ hi r hr
        rwa [length_append, hc]

theorem length_le_of_mem_rows_closed {s : Text} {c d : Char} (hc : c ≠ '\n') (hd : d ≠ '\n') {k : Nat}
    (h : ∀ r ∈ (s ++ [c]).rows, r.length ≤ k) : ∀ r ∈ (s ++ [d, '\n']).rows, r.length ≤ k := by
  have hl : ∀ last : Text, '\n' ∉ last → ∀ e : Char, e ≠ '\n' → (last ++ [e]).rows = [last ++ [e]] :=
    fun last hno e he => Text.rows_of_no_newline (by simp [hno, Ne.symm he])
  have hend : (s ++ [d, '\n']).rows = (s ++ [d]).rows ++ [[]] := by
    rw [show s ++ [d, '\n'] = (s ++ [d]) ++ '\n' :: [] by simp, Text.rows_append_newline]
    rfl
  intro r hr
  rw [hend, mem_append, mem_singleton] at hr
  rcases hr with hr | rfl
  · obtain ⟨front, last, hno, rfl | rfl⟩ := exists_last_row s
    · rw [hl _ hno d hd, mem_singleton] at hr
      rw [hl _ hno c hc] at h
      subst hr
      simpa using h _ mem_cons_self
    · rw [append_assoc, cons_append, Text.rows_append_newline, hl _ hno d hd, mem_append, mem_singleton] at hr
      rw [append_assoc, cons_append, Text.rows_append_newline, hl _ hno c hc] at h
      rcases hr with hr | rfl
      · exact h r (mem_append_left _ hr)
      · simpa using h (last ++ [c]) (by simp)
  · exact Nat.zero_le _

/-! ## The statement -/

section Wrapped

variable {head n : Text} {names : List Text} (hhead : head.has "import " = false)
  (hnames : ∀ m ∈ n :: names, IsListable m)
  (hwide : rowWidth < (head ++ ("import " ++ Text.commaList (n :: names))).length)

include hhead hnames hwide

theorem layoutImport_eq_fillRows : ∃ filled,
    fillRows (List.replicate (head.length + 7) ' ') (head ++ ("import (" : Text)) (n :: names.map (' ' :: ·)) =
        filled ++ [','] ∧
      layoutImport " " (head ++ ("import " ++ Text.commaList (n :: names))) = .ok (filled ++ [')', '\n']) := by
  have hl : (Text.commaList (n :: names)).has "import " = false := by
    rw [Text.has_commaList (by decide) (by decide) (by decide), any_eq_false]
    intro m hm
    rw [Bool.not_eq_true]
    exact Text.has_eq_false_of_notMem (c := ' ') (by decide) fun hmem => absurd ((hnames m hm).2 ' ' hmem).1 (by decide)
  have hs : Text.splitOn (Text.commaList (n :: names)) "," = n :: names.map (' ' :: ·) :=
    splitOn_commaList names [] n (by simp) hnames
  have hc : (head ++ ("import (" : Text)).length - 1 = head.length + 7 := by
    rw [length_append, show (("import (" : String).toList : Text).length = 8 by decide]
    omega
  obtain ⟨filled, hf⟩ := exists_fillRows_comma (List.replicate (head.length + 7) ' ') (n :: names.map (' ' :: ·))
    (head ++ ("import (" : Text)) (by simp)
  refine ⟨filled, hf, ?_⟩
  rw [layoutImport, if_neg (Nat.not_le.mpr hwide), importSides_eq hhead hl]
  refine bind_eq_ok.mpr ⟨(head, Text.commaList (n :: names)), rfl, bind_eq_ok.mpr
    ⟨List.replicate (head.length + 7) ' ', ?_, ?_⟩⟩
  · rw [hc]
    rfl
  · dsimp only
    rw [trimLeft_commaList names (hnames n mem_cons_self), hs, hf]
    refine congrArg Except.ok ?_
    rw [show ((")\n" : String).toList : Text) = [')', '\n'] from String.toList_ofList]
    simp [Text.dropEnd]

theorem exists_wrapped : ∃ inner, layoutImport " " (head ++ ("import " ++ Text.commaList (n :: names))) =
        .ok (head ++ ("import (" ++ (inner ++ ")\n"))) ∧ (tight inner).splitOn "," = n :: names := by
  obtain ⟨filled, hf, hlayout⟩ := layoutImport_eq_fillRows hhead hnames hwide
  obtain ⟨later, hl, hr⟩ :=
    Layout.exists_fillRows (head.length + 7) (n :: names.map (' ' :: ·)) (head ++ ("import (" : Text))
  obtain ⟨begins, later, rfl⟩ := exists_cons_of_length_eq_add_one hl
  have hla : later.length = names.length := by simpa using hl
  have hn := Layout.flatten_filled (head.length + 7) later names begins [] n hla hnames
  rw [nil_append] at hn
  rw [hf, hn, nil_append, ← append_assoc, ← append_assoc] at hr
  obtain ⟨rfl, -⟩ := append_inj' hr rfl
  refine ⟨Layout.startRow (head.length + 7) begins ++
    Layout.spread (later.map fun b => ([], Layout.startRow (head.length + 7) b ++ [' '])) (n :: names), ?_, ?_⟩
  · rw [hlayout, show ((")\n" : String).toList : Text) = [')', '\n'] from String.toList_ofList]
    simp only [append_assoc]
  · rw [tight_append, tight_startRow, nil_append, tight_spread _ _ _ _ hla hnames]
    exact splitOn_join_comma (by simp) fun m hm => (hnames m hm).comma_notMem

theorem length_le_of_mem_rows_wrapped (hf : ∀ m ∈ n :: names, head.length + 9 + m.length ≤ rowWidth) {text : Text}
    (h : layoutImport " " (head ++ ("import " ++ Text.commaList (n :: names))) = .ok text) :
    ∀ r ∈ text.rows, r.length ≤ rowWidth := by
  obtain ⟨filled, hfi, hl⟩ := layoutImport_eq_fillRows hhead hnames hwide
  obtain rfl := Except.ok.inj (h.symm.trans hl)
  refine length_le_of_mem_rows_closed (c := ',') (by decide) (by decide) ?_
  rw [← hfi]
  obtain ⟨hn, hnames'⟩ := forall_mem_cons.mp hnames
  obtain ⟨hfit, hf⟩ := forall_mem_cons.mp hf
  refine length_le_of_mem_rows_fillRows _ _ ?_ (forall_mem_cons.mpr ⟨?_, fun item hi => ?_⟩)
  · rw [length_append, show (("import (" : String).toList : Text).length = 8 by decide]
    omega
  · have ht := Layout.trimRight_append_listable [] hn
    rw [nil_append] at ht
    rw [ht, length_replicate]
    omega
  · obtain ⟨m, hm, rfl⟩ := mem_map.mp hi
    have ht := Layout.trimRight_append_listable [' '] (hnames' m hm)
    rw [singleton_append] at ht
    rw [ht, length_replicate, length_cons]
    have := hf m hm
    omega

end Wrapped

/-- **Setting a statement on rows keeps its names and the width.** -/
theorem wrapped_import_keeps_names {head : Text} {names : List Text} (hhead : head.has "import " = false)
    (hne : names ≠ []) (hnames : ∀ n ∈ names, n ≠ [] ∧ ∀ c ∈ n, Text.isBlank c = false ∧ c ≠ ',') :
    ∃ text, layoutImport " " (head ++ ("import " ++ Text.commaList names)) = .ok text ∧
      ((head ++ ("import " ++ Text.commaList names)).length ≤ 80 →
        text = head ++ ("import " ++ Text.commaList names) ++ "\n") ∧
      (80 < (head ++ ("import " ++ Text.commaList names)).length → ∃ inner,
        text = head ++ ("import (" ++ (inner ++ ")\n")) ∧
          Text.splitOn (inner.filter fun c => c != '\n' && c != ' ') "," = names) ∧
      ((∀ n ∈ names, head.length + 9 + n.length ≤ 80) → ∀ row ∈ text.rows, row.length ≤ 80) := by
  obtain ⟨n, names, rfl⟩ := List.exists_cons_of_ne_nil hne
  by_cases hwide : rowWidth < (head ++ ("import " ++ Text.commaList (n :: names))).length
  · obtain ⟨inner, hlayout, hinner⟩ := exists_wrapped hhead hnames hwide
    refine ⟨_, hlayout, fun hle => absurd hle (Nat.not_le.mpr hwide), fun _ => ⟨inner, rfl, hinner⟩, fun hfits => ?_⟩
    exact length_le_of_mem_rows_wrapped hhead hnames hwide hfits hlayout
  · have hle := Nat.not_lt.mp hwide
    refine ⟨_, if_pos hle, fun _ => rfl, fun hlong => absurd hle (Nat.not_le.mpr hlong), fun _ row hrow => ?_⟩
    rw [show (("\n" : String).toList : Text) = '\n' :: [] from String.toList_ofList, Text.rows_append_newline,
      List.mem_append] at hrow
    rcases hrow with hrow | hrow
    · exact Nat.le_trans (length_le_of_mem_rows hrow) hle
    · rw [List.mem_singleton.mp (show row ∈ [[]] from hrow)]
      exact Nat.zero_le _

def sixClasses : List Text :=
  ["QAbstractItemModel", "QSortFilterProxyModel", "QItemSelectionModel", "QFileSystemModel", "QStringListModel", "Q"]

theorem wrapped_import_keeps_names_sixClasses : Text.has "from PyQt5.QtCore " "import " = false ∧
      (∀ n ∈ sixClasses, n ≠ [] ∧ ∀ c ∈ n, Text.isBlank c = false ∧ c ≠ ',') ∧
      80 < (("from PyQt5.QtCore " : Text) ++ ("import " ++ Text.commaList sixClasses)).length ∧
      (∀ n ∈ sixClasses, ("from PyQt5.QtCore " : Text).length + 9 + n.length ≤ 80) ∧
      ∃ inner, layoutImport " " ("from PyQt5.QtCore " ++ ("import " ++ Text.commaList sixClasses)) =
          .ok ("from PyQt5.QtCore " ++ ("import (" ++ (inner ++ ")\n"))) ∧
        Text.splitOn (inner.filter fun c => c != '\n' && c != ' ') "," = sixClasses ∧
        ∀ row ∈ Text.rows ("from PyQt5.QtCore " ++ ("import (" ++ (inner ++ ")\n"))), row.length ≤ 80 := by
  have hhead : Text.has "from PyQt5.QtCore " "import " = false := by decide
  have hwords : ∀ n ∈ sixClasses, n ≠ [] ∧ n.all Text.isWord = true := by decide
  have hnames : ∀ n ∈ sixClasses, n ≠ [] ∧ ∀ c ∈ n, Text.isBlank c = false ∧ c ≠ ',' := fun n hn =>
    isListable_of_isWord (hwords n hn).1 (hwords n hn).2
  have hwide : 80 < (("from PyQt5.QtCore " : Text) ++ ("import " ++ Text.commaList sixClasses)).length := by
    simp [sixClasses, Text.commaList, Text.join]
  have hfits : ∀ n ∈ sixClasses, ("from PyQt5.QtCore " : Text).length + 9 + n.length ≤ 80 := by decide
  obtain ⟨text, hlayout, -, hwrapped, hrows⟩ := wrapped_import_keeps_names hhead (by decide) hnames
  obtain ⟨inner, rfl, hinner⟩ := hwrapped hwide
  exact ⟨hhead, hnames, hwide, hfits, inner, hlayout, hinner, hrows hfits⟩

end QtMigration
