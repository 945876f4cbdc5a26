import QtMigration.Import.Update
import QtMigration.Proofs.Import.Listed
import QtMigration.Proofs.Text.Search

/-!
# Proofs/Import/Cleaned — statements that keep all their names

**A statement without retired names only loses its empty rows** (`cleanImport_of_no_retired`), and these
list no names (`listedNames_dropEmptyRows`).
-/

namespace QtMigration

open List Text

/-! ## Rules for one name -/

theorem nameBorders_ends : (nameBorders.all fun b => (b.1.getLast?.any fun c => !Text.isWord c) &&
      (b.2.1.head?.any fun c => !Text.isWord c)) := by
  decide

theorem has_border_eq_false {s old : Text} (hne : old ≠ []) (ho : old.all Text.isWord)
    (h : old ∉ words s) {b : Text × Text × Text} (hb : b ∈ nameBorders) :
    s.has (b.1 ++ old ++ b.2.1) = false := by
  have he := all_eq_true.mp nameBorders_ends b hb
  rw [Bool.and_eq_true, Option.any_eq_true, Option.any_eq_true] at he
  obtain ⟨⟨c, hc, hc'⟩, d, hd, hd'⟩ := he
  obtain ⟨front, hf⟩ := getLast?_eq_some_iff.mp hc
  obtain ⟨rest, hr⟩ := head?_eq_some_iff.mp hd
  refine has_eq_false_iff.mpr fun hi => h ?_
  refine mem_words_of_infix hne ho (by simpa using hc') (by simpa using hd') (.trans ?_ hi)
  exact ⟨front, rest, by rw [hf, hr]; simp⟩

theorem removeName_of_notMem {s old : Text} (hne : old ≠ []) (ho : old.all Text.isWord)
    (h : old ∉ words s) : removeName s old = dropEmptyRows s := by
  refine congrArg dropEmptyRows (replaceEach_of_not_has fun rule hr => ?_)
  obtain ⟨b, hb, rfl⟩ := mem_map.mp hr
  exact has_border_eq_false hne ho h hb

theorem replaceName_of_notMem {s old : Text} (new : Text) (hne : old ≠ [])
    (ho : old.all Text.isWord) (h : old ∉ words s) :
    replaceName s old new = dropEmptyRows s := by
  refine congrArg dropEmptyRows (replaceEach_of_not_has fun rule hr => ?_)
  obtain ⟨b, hb, rfl⟩ := mem_map.mp hr
  exact has_border_eq_false hne ho h hb

/-! ## Empty rows -/

def isFilled (row : Text) : Bool := !row.trim.isEmpty

theorem isFilled_eq_false_iff {row : Text} : isFilled row = false ↔ row.all Text.isBlank := by
  rw [isFilled, Bool.not_eq_false', trim_isEmpty, List.isEmpty_iff, Text.trimLeft,
    Text.trimLeftWhile, dropWhile_eq_nil_iff, all_eq_true]

theorem dropEmptyRows_eq (s : Text) : dropEmptyRows s = Text.join "\n" (s.rows.filter isFilled) ++ ['\n'] := rfl

theorem filter_isFilled_rows_dropEmptyRows (s : Text) :
    (dropEmptyRows s).rows.filter isFilled = s.rows.filter isFilled := by
  have hno : ∀ row ∈ s.rows.filter isFilled, '\n' ∉ row := fun row hr =>
    newline_notMem_of_mem_rows s row (mem_filter.mp hr).1
  have he : ([[]] : List Text).filter isFilled = [] := rfl
  rw [dropEmptyRows_eq, rows_append_newline, filter_append, show Text.rows [] = [[]] from rfl, he, append_nil]
  by_cases hn : s.rows.filter isFilled = []
  · rw [hn]
    rfl
  · rw [rows_join hn hno, filter_filter]
    simp only [Bool.and_self]

theorem dropEmptyRows_dropEmptyRows (s : Text) : dropEmptyRows (dropEmptyRows s) = dropEmptyRows s := by
  rw [dropEmptyRows_eq, filter_isFilled_rows_dropEmptyRows, ← dropEmptyRows_eq]

theorem flatMap_filter_isFilled (rows : List Text) : (rows.filter isFilled).flatMap words = rows.flatMap words := by
  induction rows with
  | nil => rfl
  | cons row rows ih =>
    cases hr : isFilled row with
    | true => rw [filter_cons_of_pos hr, flatMap_cons, flatMap_cons, ih]
    | false =>
      have hg := isGap_of_isBlank (isFilled_eq_false_iff.mp hr)
      have hw : words row = [] := by
        rw [← append_nil row, words_gap_append hg, words_nil]
      rw [filter_cons_of_neg (by simp [hr]), flatMap_cons, hw, ih, nil_append]

theorem words_dropEmptyRows (s : Text) : words (dropEmptyRows s) = words s := by
  rw [dropEmptyRows_eq, words_append_gap _ (by decide), words_join_newline,
    flatMap_filter_isFilled, flatMap_words_rows]

theorem filter_map_rowName (rows : List Text) : ((rows.filter isFilled).map rowName).filter (fun n => !n.isEmpty) =
      (rows.map rowName).filter fun n => !n.isEmpty := by
  induction rows with
  | nil => rfl
  | cons row rows ih =>
    cases hr : isFilled row with
    | true => rw [filter_cons_of_pos hr, map_cons, map_cons, filter_cons,
        filter_cons, ih]
    | false =>
      have hs : row.all isSpacing := all_eq_true.mpr fun c hc => by
        rw [isSpacing, all_eq_true.mp (isFilled_eq_false_iff.mp hr) c hc, Bool.true_or]
      rw [filter_cons_of_neg (by simp [hr]), map_cons, rowName_of_isSpacing hs, ih]
      rfl

theorem exists_dropEmptyRows_append {front : Text} (hno : '\n' ∉ front) (hfr : isFilled front)
    (s : Text) : ∃ s', dropEmptyRows (front ++ s) = front ++ s' ∧ listedNames s' = listedNames s := by
  obtain ⟨row, rest, hro⟩ := exists_rows s
  have hre : ∀ r ∈ row :: rest.filter isFilled, '\n' ∉ r := fun r hr =>
    newline_notMem_of_mem_rows s r (by
      rw [hro]
      exact ((filter_sublist).cons_cons row).subset hr)
  refine ⟨Text.join "\n" (row :: rest.filter isFilled) ++ ['\n'], ?_, ?_⟩
  · have hf : isFilled (front ++ row) := by
      rw [← Bool.not_eq_false, isFilled_eq_false_iff, all_append, Bool.and_eq_true, ← isFilled_eq_false_iff, hfr]
      simp
    rw [dropEmptyRows_eq, rows_append_of_no_newline hno hro, filter_cons_of_pos hf, ← append_assoc]
    cases rest.filter isFilled with
    | nil => rfl
    | cons next rest =>
      rw [join_newline_cons (front ++ row) (by simp), join_newline_cons row (by simp), append_assoc front]
  · rw [listedNames_newline, listedNames_nil, append_nil, listedNames, listedNames, hro,
      rows_join (by simp) hre, map_cons, map_cons, filter_cons, filter_cons,
      filter_map_rowName]

/-! ## Retired names -/

def retiredNames : List Text := ["SIGNAL", "SLOT", "QStringList", "QString"]

theorem retiredNames_isWord : (retiredNames.all fun n => !n.isEmpty && n.all Text.isWord) := by
  decide

theorem cleanImport_of_no_retired {line : Text} (declared : Bool) (h : ∀ old ∈ retiredNames, old ∉ words line) :
    cleanImport .new declared line = dropEmptyRows (line.trimRight ++ ['\n']) := by
  have hwo : words (line.trimRight ++ ['\n']) = words line := by
    rw [words_append_gap _ (by decide), words_trimRight]
  have hr : ∀ old ∈ retiredNames, ∀ s, words s = words line →
      removeName s old = dropEmptyRows s ∧ ∀ new, replaceName s old new = dropEmptyRows s :=
    fun old ho s hs => by
      have hw := all_eq_true.mp retiredNames_isWord old ho
      rw [Bool.and_eq_true] at hw
      have hne : old ≠ [] := by simpa using hw.1
      have hm : old ∉ words s := hs ▸ h old ho
      exact ⟨removeName_of_notMem hne hw.2 hm, fun new => replaceName_of_notMem new hne hw.2 hm⟩
  have hd : words (dropEmptyRows (line.trimRight ++ ['\n'])) = words line :=
    (words_dropEmptyRows _).trans hwo
  obtain ⟨hsi, hsi'⟩ := hr "SIGNAL" (by simp [retiredNames]) _ hwo
  obtain ⟨hsl, -⟩ := hr "SLOT" (by simp [retiredNames]) _ hd
  obtain ⟨hl, -⟩ := hr "QStringList" (by simp [retiredNames]) _ hd
  obtain ⟨hst, -⟩ := hr "QString" (by simp [retiredNames]) _ hd
  rw [cleanImport, show (("\n" : String).toList : Text) = ['\n'] from String.toList_ofList, hsi,
    hsi', ite_self, hsl, dropEmptyRows_dropEmptyRows, hl, dropEmptyRows_dropEmptyRows,
    hst, dropEmptyRows_dropEmptyRows]

end QtMigration
