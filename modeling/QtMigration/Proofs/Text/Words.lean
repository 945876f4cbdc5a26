import Mathlib.Data.List.Induction
import QtMigration.Proofs.Text.Rows
import QtMigration.Proofs.Text.Trim

/-!
# Proofs/Text/Words — the words of a text

The words are the longest runs of word characters. In the other direction **a run of word characters that ends
in a text is the end of one of its words** (`exists_word_of_infix`), and one that also begins there is the
word (`mem_words_of_infix`).
-/

namespace QtMigration

open List

namespace Text

variable {s a b w gap : Text} {c : Char}

def words (s : Text) : List Text := (s.splitOnP fun c => !isWord c).filter fun w => !w.isEmpty

def isGap (s : Text) : Bool := s.all fun c => !isWord c

theorem words_nil : words [] = [] := by simp [words]

theorem words_append_cons (hc : isWord c = false) (a b : Text) : words (a ++ c :: b) = words a ++ words b := by
  rw [words, splitOnP_append_cons _ _ (by simp [hc]), filter_append]
  rfl

theorem words_cons (hc : isWord c = false) (s : Text) : words (c :: s) = words s := by
  have h := words_append_cons hc [] s
  rwa [words_nil, nil_append, nil_append] at h

theorem words_append_border (h : a = [] ∨ ∃ front c, a = front ++ [c] ∧ isWord c = false) (b : Text) :
    words (a ++ b) = words a ++ words b := by
  rcases h with rfl | ⟨front, c, rfl, hc⟩
  · rw [words_nil, nil_append, nil_append]
  · rw [append_assoc, singleton_append, words_append_cons hc, words_append_cons hc, words_nil, append_nil]

theorem words_of_isWord (hne : w ≠ []) (hw : w.all isWord) : words w = [w] := by
  have hs : (w.splitOnP fun c => !isWord c) = [w] :=
    splitOnP_eq_singleton fun c hc => by simp [all_eq_true.mp hw c hc]
  rw [words, hs, filter_cons_of_pos (by simpa using hne), filter_nil]

theorem words_gap_append (hg : isGap gap) (s : Text) : words (gap ++ s) = words s := by
  induction gap with
  | nil => rfl
  | cons c gap ih =>
    rw [isGap, all_cons, Bool.and_eq_true, Bool.not_eq_true'] at hg
    rw [cons_append, words_cons hg.1, ih hg.2]

theorem words_append_gap (s : Text) (hg : isGap gap) : words (s ++ gap) = words s := by
  cases gap with
  | nil => rw [append_nil]
  | cons c gap =>
    rw [isGap, all_cons, Bool.and_eq_true, Bool.not_eq_true'] at hg
    have hr : words gap = [] := by
      rw [← append_nil gap, words_gap_append hg.2, words_nil]
    rw [words_append_cons hg.1, hr, append_nil]

theorem words_word_append (hne : w ≠ []) (hw : w.all isWord) (hg : isGap gap)
    (hgne : gap ≠ []) (s : Text) : words (w ++ (gap ++ s)) = w :: words s := by
  obtain ⟨c, gap, rfl⟩ := exists_cons_of_ne_nil hgne
  rw [isGap, all_cons, Bool.and_eq_true, Bool.not_eq_true'] at hg
  rw [cons_append, words_append_cons hg.1, words_of_isWord hne hw, words_gap_append hg.2]
  rfl

/-! ## Finding words -/

theorem exists_last_gap (s : Text) : ∃ front run, s = front ++ run ∧ run.all isWord ∧
    (front = [] ∨ ∃ before c, front = before ++ [c] ∧ isWord c = false) := by
  induction s using List.reverseRecOn with
  | nil => exact ⟨[], [], rfl, rfl, .inl rfl⟩
  | append_singleton s d ih =>
    cases hd : isWord d with
    | false => exact ⟨s ++ [d], [], (append_nil _).symm, rfl, .inr ⟨s, d, rfl, hd⟩⟩
    | true =>
      obtain ⟨front, run, rfl, hr, hf⟩ := ih
      exact ⟨front, run ++ [d], append_assoc .., by simp [hr, hd], hf⟩

theorem exists_words_append (hne : w ≠ []) (hw : w.all isWord) (s : Text) :
    ∃ others run, words (s ++ w) = others ++ [run ++ w] ∧ run <:+ s := by
  obtain ⟨front, run, rfl, hr, hf⟩ := exists_last_gap s
  have hl : words (run ++ w) = [run ++ w] := words_of_isWord (by simp [hne]) (by simp [hr, hw])
  rcases hf with rfl | ⟨before, c, rfl, hc⟩
  · exact ⟨[], run, hl, suffix_refl run⟩
  · refine ⟨words before, run, ?_, suffix_append _ _⟩
    rw [append_assoc, append_assoc, singleton_append, words_append_cons hc, hl]

theorem words_append_cons_append (hc : isWord c = false) (front w rest : Text) :
    words (front ++ (w ++ [c]) ++ rest) = words (front ++ w) ++ words rest := by
  rw [append_assoc, append_assoc, singleton_append, ← append_assoc, words_append_cons hc]

theorem exists_word_of_infix (hne : w ≠ []) (hw : w.all isWord) (hc : isWord c = false)
    (h : w ++ [c] <:+: s) : ∃ v ∈ words s, w <:+ v := by
  obtain ⟨front, rest, rfl⟩ := h
  obtain ⟨others, run, hwo, -⟩ := exists_words_append hne hw front
  refine ⟨run ++ w, ?_, suffix_append _ _⟩
  rw [words_append_cons_append hc, hwo]
  simp

theorem mem_words_of_infix {d : Char} (hne : w ≠ []) (hw : w.all isWord)
    (hd : isWord d = false) (hc : isWord c = false) (h : d :: (w ++ [c]) <:+: s) : w ∈ words s := by
  obtain ⟨front, rest, rfl⟩ := h
  have hs : front ++ d :: (w ++ [c]) ++ rest = front ++ d :: (w ++ c :: rest) := by simp
  rw [hs, words_append_cons hd, words_append_cons hc, words_of_isWord hne hw]
  simp

/-! ## Words and white space -/

def asciiBlanks : List Nat := [0x09, 0x0A, 0x0B, 0x0C, 0x0D, 0x1C, 0x1D, 0x1E, 0x1F, 0x20]

/-- The white space beyond ASCII, as closed intervals of code points. -/
def blankRanges : List (Nat × Nat) :=
  [(0x85, 0x85), (0xA0, 0xA0), (0x1680, 0x1680), (0x2000, 0x200A), (0x2028, 0x2029), (0x202F, 0x202F),
   (0x205F, 0x205F), (0x3000, 0x3000)]

theorem asciiBlanks_isWord : (asciiBlanks.all fun n => !isWord (Char.ofNat n)) := by decide

theorem blankRanges_apart : (wordRanges.all fun r => blankRanges.all fun b => r.2 < b.1 || b.2 < r.1) := by
  decide +kernel

theorem isWord_of_mem_blankRanges {b : Nat × Nat} (hb : b ∈ blankRanges) (hlo : b.1 ≤ c.toNat)
    (hhi : c.toNat ≤ b.2) : isWord c = false := by
  have hascii : ∀ b ∈ blankRanges, 0x80 ≤ b.1 := by decide
  have hbe : ¬ c.toNat < 0x80 := Nat.not_lt.mpr (Nat.le_trans (hascii b hb) hlo)
  rw [isWord, if_neg hbe, inRanges, any_eq_false]
  intro r hr hin
  have ha := all_eq_true.mp (all_eq_true.mp blankRanges_apart r hr) b hb
  simp only [Bool.and_eq_true, Bool.or_eq_true, decide_eq_true_eq] at hin ha
  omega

theorem isWord_of_isBlank (h : isBlank c) : isWord c = false := by
  have ha : ∀ n ∈ asciiBlanks, c.toNat = n → isWord c = false := fun n hn hc => by
    have hco := all_eq_true.mp asciiBlanks_isWord n hn
    rwa [← hc, Char.ofNat_toNat, Bool.not_eq_true'] at hco
  have hr : ∀ b ∈ blankRanges, b.1 ≤ c.toNat ∧ c.toNat ≤ b.2 → isWord c = false :=
    fun b hb hin => isWord_of_mem_blankRanges hb hin.1 hin.2
  simp only [asciiBlanks, blankRanges, forall_mem_cons] at ha hr
  simp only [isBlank, Bool.or_eq_true, Bool.and_eq_true, decide_eq_true_eq, beq_iff_eq] at h
  grind

theorem isBlank_of_isWord (h : isWord c) : isBlank c = false :=
  Bool.eq_false_iff.mpr fun hb => by simp [isWord_of_isBlank hb] at h

theorem isGap_of_isBlank (h : s.all isBlank) : isGap s :=
  all_eq_true.mpr fun c hc => by
    rw [isWord_of_isBlank (all_eq_true.mp h c hc)]
    rfl

theorem words_trimRight (s : Text) : words s.trimRight = words s := by
  obtain ⟨blank, hs, hb⟩ := exists_trimRight s
  conv_rhs => rw [hs, words_append_gap _ (isGap_of_isBlank hb)]

theorem words_trimLeft (s : Text) : words s.trimLeft = words s := by
  conv_rhs => rw [← takeWhile_append_dropWhile (p := isBlank) (l := s)]
  exact (words_gap_append (isGap_of_isBlank all_takeWhile) _).symm

theorem words_trim (s : Text) : words (trim s) = words s := by
  rw [trim, words_trimRight, words_trimLeft]

/-! ## Words and rows -/

theorem words_join_newline : ∀ rs : List Text, words (join "\n" rs) = rs.flatMap words
  | [] => words_nil
  | [row] => by rw [flatMap_singleton]; rfl
  | row :: next :: rest => by
    rw [join_newline_cons _ (by simp), words_append_cons (by decide), words_join_newline (next :: rest)]
    rfl

theorem flatMap_words_rows (s : Text) : s.rows.flatMap words = words s := by
  rw [← words_join_newline, join_rows]

end Text

end QtMigration
