import QtMigration.Proofs.Text.Border
import QtMigration.Proofs.Text.Rows
import QtMigration.Report

/-!
# Proofs/Report — the notes are listed with the rows of the saved text

The rows are counted in the lines as they are before their marks are removed. Removing a mark moves no
newline, so **a note's number is the physical row on which it begins in the text that is saved**
(`notes_numbered`).
-/

namespace QtMigration

open List Text

/-- **The line at place `i` begins on the physical row `row` of the text**: the rows before are the lines before. -/
def BeginsOnRow (lines : List Text) (i row : Nat) : Prop :=
  ∃ front back, rowsWithEnds lines.flatten = front ++ back ∧ row = front.length + 1 ∧
    front.flatten = (lines.take i).flatten ∧ back.flatten = (lines.drop i).flatten

def notePlaces (lines : List Text) : List Nat :=
  (range lines.length).filter fun i => lines[i]?.any fun line => line.isComment && line.has "FIXME$"

/-! ## Whole rows -/

def Text.Whole (s : Text) : Prop := s = [] ∨ s.getLast? = some '\n'

section Rows

variable {s : Text} {lines : List Text}

theorem rowsWithEnds_append_newline (u : Text) : ∀ s : Text,
    rowsWithEnds (s ++ '\n' :: u) = rowsWithEnds (s ++ ['\n']) ++ rowsWithEnds u ∧
      (rowsWithEnds (s ++ ['\n'])).length = s.count '\n' + 1
  | [] => ⟨rfl, rfl⟩
  | c :: s => by
    obtain ⟨ha, hl⟩ := rowsWithEnds_append_newline u s
    by_cases hc : c = '\n'
    · rw [hc, cons_append, cons_append, rowsWithEnds_newline, rowsWithEnds_newline, ha, count_cons_self,
        length_cons, hl]
      exact ⟨rfl, rfl⟩
    · obtain ⟨row, rest, hr⟩ := exists_rowsWithEnds (s := s ++ ['\n']) (by simp)
      rw [hr] at ha hl
      rw [cons_append, cons_append, rowsWithEnds_cons hc hr, rowsWithEnds_cons hc ha, count_cons_of_ne hc]
      exact ⟨rfl, hl⟩

theorem Text.Whole.rowsWithEnds_append (h : s.Whole) (u : Text) :
    rowsWithEnds (s ++ u) = rowsWithEnds s ++ rowsWithEnds u := by
  rcases h with rfl | h
  · rfl
  · obtain ⟨t, rfl⟩ := getLast?_eq_some_iff.mp h
    rw [append_assoc, singleton_append]
    exact (rowsWithEnds_append_newline u t).1

theorem Text.Whole.length_rowsWithEnds (h : s.Whole) : (rowsWithEnds s).length = s.count '\n' := by
  rcases h with rfl | h
  · rfl
  · obtain ⟨t, rfl⟩ := getLast?_eq_some_iff.mp h
    rw [(rowsWithEnds_append_newline [] t).2, count_append]
    rfl

theorem Text.Whole.flatten (h : ∀ line ∈ lines, line.Whole) : Text.Whole lines.flatten := by
  induction lines with
  | nil => exact .inl rfl
  | cons line lines ih =>
    obtain ⟨hli, hl⟩ := forall_mem_cons.mp h
    rcases ih hl with hn | hla
    · rwa [flatten_cons, hn, append_nil]
    · refine .inr ?_
      rw [flatten_cons, getLast?_append, hla]
      rfl

theorem beginsOnRow_count (h : ∀ line ∈ lines, line.Whole) (i : Nat) :
    BeginsOnRow lines i ((lines.take i).flatten.count '\n' + 1) := by
  have hf : Text.Whole (lines.take i).flatten := .flatten fun line hl => h line (mem_of_mem_take hl)
  refine ⟨rowsWithEnds (lines.take i).flatten, rowsWithEnds (lines.drop i).flatten, ?_, ?_,
    flatten_rowsWithEnds _, flatten_rowsWithEnds _⟩
  · rw [← hf.rowsWithEnds_append, ← flatten_append, take_append_drop]
  · rw [hf.length_rowsWithEnds]

end Rows

/-! ## Marks -/

section Marks

variable {line : Text}

theorem count_unmarked (line : Text) : (unmarked line).count '\n' = line.count '\n' := by
  rw [unmarked]
  split
  · exact Nat.modEq_zero_iff.mp
      (modEq_replaceAll (f := fun s => s.count '\n') (fun _ _ => count_append) (by decide) (by decide) line)
  · rfl

theorem Text.Whole.unmarked (h : line.Whole) : (QtMigration.unmarked line).Whole := by
  rw [QtMigration.unmarked]
  split
  · rcases h with rfl | h
    · exact .inl rfl
    · obtain ⟨s, rfl⟩ := getLast?_eq_some_iff.mp h
      have hc : replaceEach (s ++ '\n' :: []) [(noteMark, "FIXME")] = _ := replaceEach_append_cons (by decide) s []
      refine .inr ((congrArg getLast? hc).trans ?_)
      exact getLast?_concat
  · exact h

theorem count_take_unmarked (i : Nat) : ∀ lines : List Text,
    ((lines.map unmarked).take i).flatten.count '\n' = (lines.take i).flatten.count '\n' := by
  intro lines
  rw [← map_take]
  induction lines.take i with
  | nil => rfl
  | cons line lines ih => rw [map_cons, flatten_cons, flatten_cons, count_append, count_append, ih, count_unmarked]

end Marks

/-! ## The list of notes -/

theorem notePlaces_cons (line : Text) (lines : List Text) : notePlaces (line :: lines) =
    (if isNote line then [0] else []) ++ (notePlaces lines).map (· + 1) := by
  rw [notePlaces, length_cons, range_succ_eq_map, filter_cons, filter_map]
  change (if isNote line = true then _ else _) = _
  split <;> rfl

theorem noteEntries_eq : ∀ (lines : List Text) (row : Nat), noteEntries row lines = (notePlaces lines).map fun i =>
    noteEntry (row + (lines.take i).flatten.count '\n') (lines.getD i [])
  | [], _ => rfl
  | line :: lines, row => by
    have hr : noteEntries (row + line.count '\n') lines = ((notePlaces lines).map (· + 1)).map fun i =>
        noteEntry (row + ((line :: lines).take i).flatten.count '\n') ((line :: lines).getD i []) := by
      rw [noteEntries_eq lines, map_map]
      refine map_congr_left fun i _ => ?_
      simp [count_append, Nat.add_assoc]
    rw [noteEntries, notePlaces_cons, map_append, hr]
    split <;> rfl

/-- **The list of notes.** -/
theorem notes_numbered {lines : List Text} (h : ∀ line ∈ lines, line = [] ∨ line.getLast? = some '\n') :
    (collectNotes lines).1 = lines.map (fun line =>
      if line.isComment && line.has "FIXME$" then line.replaceAll "FIXME$" "FIXME" else line) ∧
    ∃ row : Nat → Nat, (∀ i, BeginsOnRow (collectNotes lines).1 i (row i)) ∧
      (collectNotes lines).2 = (notePlaces lines).map fun i => noteEntry (row i) (lines.getD i []) := by
  refine ⟨rfl, fun i => ((lines.map unmarked).take i).flatten.count '\n' + 1, beginsOnRow_count ?_, ?_⟩
  · exact forall_mem_map.mpr fun line hline => Text.Whole.unmarked (h line hline)
  · rw [collectNotes, noteEntries_eq]
    refine map_congr_left fun i _ => ?_
    dsimp only
    rw [count_take_unmarked, Nat.add_comm]

/-- A note behind a statement of two rows and an empty line. -/
theorem notes_numbered_two : ∃ row : Nat → Nat,
    (∀ i, BeginsOnRow ["f(\n1)\n", "", "# FIXME Look at f.\n", "# FIXME And g.\n"] i (row i)) ∧
      (collectNotes ["f(\n1)\n", "", "# FIXME$ Look at f.\n", "# FIXME$ And g.\n"]).2 =
        [noteEntry (row 2) "# FIXME$ Look at f.\n", noteEntry (row 3) "# FIXME$ And g.\n"] :=
  (@notes_numbered ["f(\n1)\n", "", "# FIXME$ Look at f.\n", "# FIXME$ And g.\n"] (by decide)).2

end QtMigration
