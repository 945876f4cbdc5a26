import QtMigration.Source.Reading
import QtMigration.Proofs.Failure
import QtMigration.Proofs.Token.Scan

/-!
# Proofs/Source/Lossless — logical lines are the rows of the source, cut and nothing else

The logical lines are slices of the physical rows, cut at the rows at which some of the tokens stop.
-/

namespace QtMigration

open List Text

variable {bytes : Bytes} {lines : List Text} {label path printed s : Text}

/-! ## Cutting at numbers that never decrease -/

theorem exists_blocks_cutAt (rows : List Text) : ∀ (count : Nat) (ends : List Nat),
    (count :: ends).Pairwise (· ≤ ·) → rows.length ≤ (count :: ends).getLast (by simp) → ∃ blocks : List (List Text),
        cutAt rows count ends = blocks.map List.flatten ∧ blocks.flatten = rows.drop count
  | count, [], _, hl => ⟨[], rfl, (drop_eq_nil_of_le hl).symm⟩
  | count, n :: ends, hp, hl => by
    obtain ⟨hle, ht⟩ := pairwise_cons.mp hp
    obtain ⟨blocks, hc, hf⟩ := exists_blocks_cutAt rows n ends ht hl
    have hn : count ≤ n := hle n mem_cons_self
    refine ⟨(rows.take n).drop count :: blocks, ?_, ?_⟩
    · rw [cutAt, hc, map_cons]
    · rw [flatten_cons, hf, drop_take]
      calc (rows.drop count).take (n - count) ++ rows.drop n
          = (rows.drop count).take (n - count) ++ (rows.drop count).drop (n - count) := by
            rw [drop_drop, Nat.add_sub_cancel' hn]
        _ = rows.drop count := take_append_drop _ _

/-! ## The rows at which logical lines end -/

theorem LineMarks.step_row (m : LineMarks) (t : Token) : (m.step t).2.toList.Sublist [t.stop.row] := by
  have hs : (some t.stop.row).toList.Sublist [t.stop.row] := List.Sublist.refl _
  have hn : (none : Option Nat).toList.Sublist [t.stop.row] := nil_sublist _
  rw [LineMarks.step]
  split
  · exact hs
  · exact hs
  · split
    · exact hs
    · exact hn
  · split
    · exact hn
    split
    · exact hs
    · exact hn
  · exact hn

theorem lineEndsGo_sublist (reason : Option Text) : ∀ (m : LineMarks) (seen : Option Token)
    (ts : List Token), (lineEndsGo reason m seen ts).rows.Sublist (ts.map fun t => t.stop.row)
  | _, _, [] => nil_sublist _
  | m, seen, t :: ts => by
    rw [lineEndsGo]
    split
    · exact nil_sublist _
    · exact (m.step_row t).append (lineEndsGo_sublist reason (m.step t).1 (some t) ts)

theorem reason_eq_none_of_complete (reason : Option Text) : ∀ (m : LineMarks) (seen : Option Token) (ts : List Token),
    (lineEndsGo reason m seen ts).stop = .complete → reason = none
  | _, seen, [], h => by
    cases reason with
    | none => rfl
    | some why => cases seen <;> simp [lineEndsGo, lineEndsStop] at h
  | m, seen, t :: ts, h => by
    rw [lineEndsGo] at h
    split at h
    · simp at h
    · exact reason_eq_none_of_complete reason _ _ ts h

theorem rows_of_complete (reason : Option Text) {last : Token} (hl : last.kind = .finish) :
    ∀ (m : LineMarks) (seen : Option Token) (front : List Token),
      (lineEndsGo reason m seen (front ++ [last])).stop = .complete →
        ∃ ends, (lineEndsGo reason m seen (front ++ [last])).rows = ends ++ [last.stop.row]
  | m, seen, [], _ => by
    have hs : (last.kind == TokenKind.stray) = false := by rw [hl]; rfl
    have hst : m.step last = (m, some last.stop.row) := by rw [LineMarks.step, hl]
    refine ⟨[], ?_⟩
    rw [nil_append, lineEndsGo, hs, if_neg (by decide), hst]
    rfl
  | m, seen, t :: front, h => by
    rw [cons_append, lineEndsGo] at h ⊢
    split at h
    · simp at h
    next hs =>
      obtain ⟨ends, he⟩ := rows_of_complete reason hl (m.step t).1 (some t) front h
      rw [if_neg hs]
      exact ⟨(m.step t).2.toList ++ ends, by
        rw [append_assoc, ← he]⟩

/-- **The line ends of a text never decrease and reach its last row**, when the search for them came to
its end. -/
theorem textLineEnds_of_complete (h : (textLineEnds s).stop = .complete) :
    (0 :: (textLineEnds s).rows).Pairwise (· ≤ ·) ∧
      s.rowsWithEnds.length ≤ (0 :: (textLineEnds s).rows).getLast (by simp) := by
  have hf : (scan s).fault = none := by
    simpa using reason_eq_none_of_complete _ _ _ _ h
  obtain ⟨front, last, ht, hk, hle⟩ := exists_finish hf
  have hs := lineEndsGo_sublist ((scan s).fault.map ScanFault.message) .initial none (scan s).tokens
  obtain ⟨ends, he⟩ : ∃ ends, (textLineEnds s).rows = ends ++ [last.stop.row] := by
    rw [textLineEnds, lineEnds, ht] at h ⊢
    exact rows_of_complete _ hk _ _ front h
  refine ⟨pairwise_cons.mpr ⟨fun n _ => Nat.zero_le n, ?_⟩, ?_⟩
  · exact (pairwise_stop_row s).sublist hs
  · simp only [he, ← cons_append, getLast_concat]
    exact hle

/-! ## The rows of a content -/

theorem dropEmptyLast_cons (row : Text) {rows : List Text} (h : rows ≠ []) :
    dropEmptyLast (row :: rows) = row :: dropEmptyLast rows := by
  obtain ⟨next, rest, rfl⟩ := exists_cons_of_ne_nil h
  rw [dropEmptyLast, dropEmptyLast, getLast?_cons_cons]
  split <;> rfl

theorem map_dropEmptyLast_rows (s : Text) :
    (dropEmptyLast s.rows).map (· ++ ("\n" : Text)) = s.ended.rowsWithEnds := by
  induction s using Text.rowInduction with
  | nil => rfl
  | newline s ih =>
    obtain ⟨row, rest, hro⟩ := exists_rows s
    rw [rows_newline, dropEmptyLast_cons _ (by rw [hro]; simp), map_cons, ih, ended_newline, rowsWithEnds_newline]
    rfl
  | single c hc =>
    rw [ended_singleton hc, rowsWithEnds_cons hc (rowsWithEnds_newline []), rows_cons hc (s := []) rfl]
    rfl
  | cons c s hc hs ih =>
    obtain ⟨row, rest, hro⟩ := exists_rows s
    rw [ended_cons hs, rows_cons hc hro]
    rw [hro] at ih
    cases rest with
    | nil =>
      -- the one row of a text that is not empty is not empty
      have hrow : row ≠ [] := fun h => hs (rows_eq_singleton_nil (h ▸ hro))
      have hk : ∀ r : Text, r ≠ [] → dropEmptyLast [r] = [r] := fun r hr => by
        simp [dropEmptyLast, hr]
      rw [hk row hrow] at ih
      rw [hk (c :: row) (by simp)]
      exact (rowsWithEnds_cons hc ih.symm).symm
    | cons next rest =>
      rw [dropEmptyLast_cons _ (by simp), map_cons] at ih ⊢
      exact (rowsWithEnds_cons hc ih.symm).symm

/-! ## Reading -/

theorem LineEnds.complete_of_report {e : LineEnds} (hf : e.report.failure = none)
    (hb : e.report.broken = false) : e.stop = .complete ∧ e.report.rows = e.rows := by
  cases h : e.stop with
  | complete => exact ⟨rfl, by rw [LineEnds.report, h]⟩
  | broken reason stop line => simp [LineEnds.report, h] at hb
  | brokenAtOnce => simp [LineEnds.report, h] at hf

/-- **The logical lines of a text**: none if it has no rows, or else its rows, cut where a search that came
to its end says. -/
theorem readText_eq_lines (h : (readText printed label s).outcome = .ok (.lines lines)) :
    (s.ended.rowsWithEnds = [] ∧ lines = []) ∨
      ((textLineEnds s).stop = .complete ∧ lines = cutAt s.ended.rowsWithEnds 0 (textLineEnds s).rows) := by
  rw [readText] at h
  split at h
  next he =>
    obtain rfl : [] = lines := by simpa using h
    refine .inl ⟨?_, rfl⟩
    rw [← map_dropEmptyLast_rows, List.isEmpty_iff.mp he]
    rfl
  · dsimp only at h
    split at h
    · cases h
    next hf =>
    split at h
    · cases h
    next hb =>
      obtain ⟨hs, hr⟩ := LineEnds.complete_of_report hf (Bool.eq_false_iff.mpr hb)
      obtain rfl : (logicalLines s).2 = lines := by simpa using h
      exact .inr ⟨hs, by rw [logicalLines, hr, map_dropEmptyLast_rows]⟩

theorem readText_blocks (h : (readText printed label s).outcome = .ok (.lines lines)) :
    ∃ blocks : List (List Text), lines = blocks.map List.flatten ∧
      blocks.flatten = s.ended.rowsWithEnds := by
  rcases readText_eq_lines h with ⟨hr, rfl⟩ | ⟨hs, rfl⟩
  · exact ⟨[], rfl, hr.symm⟩
  · obtain ⟨hp, hl⟩ := textLineEnds_of_complete hs
    exact exists_blocks_cutAt s.ended.rowsWithEnds 0 (textLineEnds s).rows hp
      (by rw [s.length_rowsWithEnds_ended]; exact hl)

theorem readText_encoding (printed label s : Text) : (readText printed label s).encoding = some label := by
  rw [readText]
  split <;> rfl

theorem exists_readText (h : (readSource path (.ok bytes)).outcome = .ok (.lines lines)) :
    ∃ printed label content, (encodingOf bytes).outcome = .ok label ∧
      (readSource path (.ok bytes)).encoding = some label ∧ decodeSource label bytes = .ok (.ok content) ∧
      (readText printed label content).outcome = .ok (.lines lines) := by
  rw [readSource] at h ⊢
  split at h
  · cases h
  next printed label hl =>
  split at h
  · cases h
  · cases h
  next content hc =>
    exact ⟨printed, label, content, by rw [hl], readText_encoding printed label content, hc, h⟩

theorem decodeSource_eq_ok {content : Text} (h : decodeSource label bytes = .ok (.ok content)) : ∃ codec decoded,
      Codec.ofLabel? label = some codec ∧ codec.decode bytes = .ok decoded ∧
        universalNewlines decoded = content := by
  rw [decodeSource] at h
  split at h
  · cases h
  next codec hc =>
    have h := Except.ok.inj h
    cases hd : codec.decode bytes with
    | error fault => rw [hd] at h; cases h
    | ok decoded =>
      rw [hd] at h
      exact ⟨codec, decoded, hc, hd, Except.ok.inj h⟩

theorem exists_decoded_of_readSource (h : (readSource path (.ok bytes)).outcome = .ok (.lines lines)) :
    ∃ label codec decoded, (encodingOf bytes).outcome = .ok label ∧
      (readSource path (.ok bytes)).encoding = some label ∧ Codec.ofLabel? label = some codec ∧
      codec.decode bytes = .ok decoded ∧ lines.flatten = (universalNewlines decoded).ended := by
  obtain ⟨printed, label, content, hl, he, hc, hr⟩ := exists_readText h
  obtain ⟨blocks, rfl, hf⟩ := readText_blocks hr
  obtain ⟨codec, decoded, hco, hd, rfl⟩ := decodeSource_eq_ok hc
  refine ⟨label, codec, decoded, hl, he, hco, hd, ?_⟩
  rw [← flatten_flatten, hf, flatten_rowsWithEnds]

/-- **Splitting into logical lines loses nothing.** -/
theorem readSource_lossless {path : Text} {bytes : Bytes} {lines : List Text}
    (h : (readSource path (.ok bytes)).outcome = .ok (.lines lines)) :
    ∃ label content, (readSource path (.ok bytes)).encoding = some label ∧
      decodeSource label bytes = .ok (.ok content) ∧
      lines.flatten = content.ended ∧
      ∃ blocks : List (List Text), lines = blocks.map List.flatten ∧
        blocks.flatten = content.ended.rowsWithEnds := by
  obtain ⟨printed, label, content, -, hencoding, hcontent, hread⟩ := exists_readText h
  obtain ⟨blocks, rfl, hflat⟩ := readText_blocks hread
  refine ⟨label, content, hencoding, hcontent, ?_, blocks, rfl, hflat⟩
  rw [← List.flatten_flatten, hflat, Text.flatten_rowsWithEnds]

/-- A comment line, a statement over two rows, an empty row and a last row that is not ended: the
bytes of `#c⏎f(1,⏎2)⏎⏎x`. -/
def unendedSource : Bytes := [35, 99, 10, 102, 40, 49, 44, 10, 50, 41, 10, 10, 120]

def unendedLines : List Text := ["#c\n", "f(1,\n2)\n", "\n", "x\n", ""]

theorem readSource_lossless_unendedSource :
    (readSource "m.py" (.ok unendedSource)).outcome = .ok (.lines unendedLines) ∧
      ∃ label content, (readSource "m.py" (.ok unendedSource)).encoding = some label ∧
        decodeSource label unendedSource = .ok (.ok content) ∧
        unendedLines.flatten = content.ended ∧
        ∃ blocks : List (List Text), unendedLines = blocks.map List.flatten ∧
          blocks.flatten = content.ended.rowsWithEnds := by
  have h : (readSource "m.py" (.ok unendedSource)).outcome = .ok (.lines unendedLines) := by
    decide
  exact ⟨h, readSource_lossless h⟩

end QtMigration
