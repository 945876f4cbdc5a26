import QtMigration.Proofs.Import.Cleaned
import QtMigration.Proofs.Import.Written

/-!
# Proofs/Import/Head — the head of an import statement

The rules that remove names from a statement look for a comma, or for a blank and the first letter of a
retired name.
-/

namespace QtMigration

open List

variable {x y : Char} {k : Nat} {front head names passed rest : Text} {rule : Text × Text}

/-! ## Places where nothing can begin -/

theorem not_prefix_drop_of_pair {more : Text} (h : ¬ [x, y] <:+: passed ++ rest.take 1) (hk : k < passed.length) :
    ¬ x :: y :: more <+: (passed ++ rest).drop k := by
  intro hp
  rw [drop_append_of_le_length (Nat.le_of_lt hk), drop_eq_getElem_cons hk, cons_append, cons_prefix_cons] at hp
  obtain ⟨hx, hp⟩ := hp
  have hpa : [x, y] <+: (passed ++ rest.take 1).drop k := by
    rw [drop_append_of_le_length (Nat.le_of_lt hk), drop_eq_getElem_cons hk, cons_append, cons_prefix_cons]
    refine ⟨hx, ?_⟩
    cases hd : passed.drop (k + 1) with
    | nil =>
      rw [hd, nil_append] at hp
      obtain ⟨t, ht⟩ := hp
      rw [← ht]
      simp
    | cons d t =>
      rw [hd, cons_append, cons_prefix_cons] at hp
      rw [hp.1]
      simp
  exact h (hpa.isInfix.trans (drop_suffix _ _).isInfix)

theorem exists_splitOn_import (h : ¬ ['i', 'm'] <:+: passed ++ rest.take 1) :
    ∃ more pieces, Text.splitOn (passed ++ rest) "import " = (passed ++ more) :: pieces := by
  have hi : (("import " : String).toList : Text) = 'i' :: 'm' :: ("port " : Text) := by decide
  rw [Text.splitOn, hi, Text.splitGo_pass passed fun k hk => not_prefix_drop_of_pair h hk]
  exact ⟨_, _, rfl⟩

theorem exists_of_headAndNames (hp : ¬ ['i', 'm'] <:+: passed ++ rest.take 1)
    (h : headAndNames (passed ++ rest) = .ok (head, names)) : ∃ more, head = passed ++ more := by
  obtain ⟨more, pieces, hs⟩ := exists_splitOn_import hp
  rw [headAndNames, hs] at h
  cases pieces with
  | nil => cases h
  | cons names' pieces =>
    cases h
    exact ⟨more, rfl⟩

theorem prefix_of_importSides (hp : ¬ ['i', 'm'] <:+: passed ++ rest.take 1)
    (h : importSides (passed ++ rest) = .ok (head, names)) : passed <+: head := by
  obtain ⟨more, pieces, hs⟩ := exists_splitOn_import hp
  rw [importSides, hs] at h
  split at h
  next heq =>
    cases h
    rw [← (cons.inj heq).1]
    exact prefix_append _ _
  next => cases h

theorem not_pair_of_notMem (h : x ∉ passed) (rest : Text) : ¬ [x, y] <:+: passed ++ rest.take 1 := by
  intro hin
  rcases infix_append_cases hin with hin | hin | ⟨l, r, heq, hl, -, hs, -⟩
  · exact h (hin.subset (by simp))
  · have hle := hin.length_le
    rw [length_take, length_cons, length_singleton] at hle
    omega
  · obtain ⟨a, l, rfl⟩ := exists_cons_of_ne_nil hl
    obtain ⟨rfl, -⟩ := cons.inj heq
    exact h (hs.subset mem_cons_self)

/-! ## Rules that leave a head alone -/

/-- **Nothing in the text is looked for by a rule**: neither a comma, nor a blank before the first letter of
a retired name. -/
def isCalm (s : Text) : Bool := !s.contains ',' && (!s.has [' ', 'S'] && !s.has [' ', 'Q'])

theorem isCalm_iff {s : Text} : isCalm s ↔ ',' ∉ s ∧ ¬ [' ', 'S'] <:+: s ∧ ¬ [' ', 'Q'] <:+: s := by
  simp only [isCalm, Bool.and_eq_true, Bool.not_eq_true', Text.has_eq_false_iff]
  rw [← Bool.not_eq_true, contains_eq_mem, decide_eq_true_eq]

theorem isCalm_blank_append {s : Text} (hfr : front.all Text.isBlank)
    (hs : isCalm s) (hf : s.head? = some 'f') : isCalm (front ++ s) := by
  obtain ⟨hc, hS, hQ⟩ := isCalm_iff.mp hs
  have ho : ∀ {d : Char}, Text.isBlank d = false → d ∉ front := fun hd hm => by
    rw [all_eq_true.mp hfr _ hm] at hd
    cases hd
  have hp : ∀ d, Text.isBlank d = false → d ≠ 'f' → ¬ [' ', d] <:+: s → ¬ [' ', d] <:+: front ++ s := by
    intro d hd hne hin h
    rcases infix_append_cases h with h | h | ⟨l, r, heq, hl, hr, -, hpre⟩
    · exact ho hd (h.subset (by simp))
    · exact hin h
    · obtain ⟨rest, rfl⟩ := head?_eq_some_iff.mp hf
      obtain ⟨a, l, rfl⟩ := exists_cons_of_ne_nil hl
      obtain ⟨b, r, rfl⟩ := exists_cons_of_ne_nil hr
      obtain ⟨rfl, -⟩ := cons_prefix_cons.mp hpre
      cases l with
      | nil =>
        obtain ⟨hd, -⟩ : d = 'f' ∧ r = [] := by simpa using (cons.inj heq).2
        exact hne hd
      | cons _ _ => exact absurd (congrArg List.length heq) (by simp)
  rw [isCalm_iff, mem_append, not_or]
  exact ⟨⟨ho (by decide), hc⟩, hp 'S' (by decide) (by decide) hS, hp 'Q' (by decide) (by decide) hQ⟩

/-- What a blank may become: a blank, a line end or a continuation. -/
def isBorder (c : Char) : Bool := c == ' ' || c == '\n' || c == '\\'

/-- **A rule for a name**: it looks for a comma, or for a blank and the first letter of a retired name, and
puts a border in the place of the blank. -/
def isNameRule : Text × Text → Bool
  | (x :: y :: _, z :: _) => x == ',' || (x == ' ' && (y == 'S' || y == 'Q') && isBorder z)
  | _ => false

theorem isNameRule_cleaning : (removeRules "SIGNAL" ++ (renameRules "SIGNAL" "pyqtSignal" ++ (removeRules "SLOT" ++
      (removeRules "QStringList" ++ removeRules "QString")))).all isNameRule := by
  decide

theorem not_prefix_of_isNameRule (hr : isNameRule rule)
    (hca : isCalm (passed ++ rest.take 1)) (hk : k < passed.length) :
    ¬ rule.1 <+: (passed ++ rest).drop k := by
  obtain ⟨hc, hS, hQ⟩ := isCalm_iff.mp hca
  match rule, hr with
  | (x :: y :: more, z :: more'), hr =>
    simp only [isNameRule, Bool.or_eq_true, Bool.and_eq_true, beq_iff_eq] at hr
    refine not_prefix_drop_of_pair (fun hin => ?_) hk
    rcases hr with rfl | ⟨⟨rfl, rfl | rfl⟩, -⟩
    · exact hc (hin.subset (by simp))
    · exact hS hin
    · exact hQ hin

/-! ## Empty rows around a head -/

theorem dropEmptyRows_blank_append {blank : Text} (hb : blank.all Text.isBlank) (s : Text) :
    dropEmptyRows (blank ++ '\n' :: s) = dropEmptyRows s := by
  have hr : blank.rows.filter isFilled = [] := filter_eq_nil_iff.mpr fun row hrow => by
    rw [Bool.not_eq_true, isFilled_eq_false_iff, all_eq_true]
    exact fun c hc => all_eq_true.mp hb c ((Text.infix_of_mem_rows blank row hrow).subset hc)
  rw [dropEmptyRows_eq, dropEmptyRows_eq, Text.rows_append_newline, filter_append, hr, nil_append]

theorem exists_dropEmptyRows_newline {row : Text} (hno : '\n' ∉ row) (hr : isFilled row) (s : Text) :
    ∃ s', dropEmptyRows (row ++ '\n' :: s) = row ++ '\n' :: s' := by
  rw [dropEmptyRows_eq, Text.rows_append_newline, Text.rows_of_no_newline hno, singleton_append,
    filter_cons_of_pos hr]
  cases s.rows.filter isFilled with
  | nil => exact ⟨[], rfl⟩
  | cons next rest =>
    rw [Text.join_newline_cons row (by simp), append_assoc, cons_append]
    exact ⟨_, rfl⟩

/-! ## Statements with a head -/

/-- The text is a stem, behind white space and before a character that may follow it. -/
def Headed (stem : Text) (next : Char → Bool) (s : Text) : Prop :=
  ∃ front c rest, front.all Text.isBlank = true ∧ next c = true ∧ s = front ++ (stem ++ c :: rest)

/-- **A stem that no rule changes**, whichever of the characters that may follow it does. -/
structure IsStem (stem : Text) (next : Char → Bool) : Prop where
  first : stem.head? = some 'f'
  onRow : '\n' ∉ stem
  calm : ∀ c, next c = true → isCalm (stem ++ [c]) = true
  borders : ∀ c, isBorder c = true → next c = true

namespace Headed

variable {stem s : Text} {next : Char → Bool} (hstem : IsStem stem next)

include hstem

theorem replaceAll (hr : isNameRule rule) (h : Headed stem next s) :
    Headed stem next (s.replaceAll rule.1 rule.2) := by
  obtain ⟨front, c, rest, hf, hc, rfl⟩ := h
  have hca := hstem.calm c hc
  have hpa : isCalm ((front ++ stem) ++ (c :: rest).take 1) := by
    obtain ⟨more, hm⟩ := head?_eq_some_iff.mp hstem.first
    rw [append_assoc]
    exact isCalm_blank_append hf (by simpa using hca) (by rw [hm]; rfl)
  have hpass := Text.replaceAll_pass rule.2 (front ++ stem)
    fun k hk => not_prefix_of_isNameRule hr hpa hk
  rw [← append_assoc, hpass, append_assoc]
  match rule, hr with
  | (x :: y :: more, z :: more'), hr =>
    rw [Text.replaceAll, Text.replaceGo]
    split
    next hp =>
      obtain ⟨rfl, -⟩ := cons_prefix_cons.mp ( isPrefixOf_iff_prefix.mp hp)
      simp only [isNameRule, Bool.or_eq_true, Bool.and_eq_true, beq_iff_eq] at hr
      rcases hr with rfl | ⟨-, hz⟩
      · exact absurd (by simp) (isCalm_iff.mp hca).1
      · exact ⟨front, z, _, hf, hstem.borders z hz, by rw [cons_append]⟩
    next => exact ⟨front, c, _, hf, hc, rfl⟩

theorem replaceEach : ∀ {rules : List (Text × Text)} {s : Text}, (∀ rule ∈ rules, isNameRule rule) →
    Headed stem next s → Headed stem next (s.replaceEach rules)
  | [], _, _, h => h
  | rule :: rules, s, hr, h => by
    obtain ⟨hru, hr⟩ := forall_mem_cons.mp hr
    rw [Text.replaceEach, foldl_cons]
    exact replaceEach hr (replaceAll hstem hru h)

theorem dropEmptyRows (h : Headed stem next s) : Headed stem next (dropEmptyRows s) := by
  obtain ⟨front, c, rest, hf, hc, rfl⟩ := h
  obtain ⟨before, last, hl, hro⟩ := exists_last_row front
  have hd : QtMigration.dropEmptyRows (front ++ (stem ++ c :: rest)) =
      QtMigration.dropEmptyRows ((last ++ stem) ++ c :: rest) := by
    rcases hro with rfl | rfl
    · rw [append_assoc]
    · rw [all_append, Bool.and_eq_true] at hf
      rw [append_assoc, cons_append, dropEmptyRows_blank_append hf.1, append_assoc]
  have hb : last.all Text.isBlank := by
    rcases hro with rfl | rfl
    · exact hf
    · rw [all_append, Bool.and_eq_true, all_cons, Bool.and_eq_true] at hf
      exact hf.2.2
  have ho : '\n' ∉ last ++ stem := by
    rw [mem_append, not_or]
    exact ⟨hl, hstem.onRow⟩
  obtain ⟨more, hm⟩ := head?_eq_some_iff.mp hstem.first
  have hfi : ∀ t, isFilled (last ++ stem ++ t) := fun t => by
    rw [← Bool.not_eq_false, isFilled_eq_false_iff, hm]
    simp [show Text.isBlank 'f' = false by decide]
  rw [hd]
  by_cases hn : c = '\n'
  · obtain ⟨rest', hr⟩ := exists_dropEmptyRows_newline ho (by simpa using hfi []) rest
    exact ⟨last, '\n', rest', hb, hn ▸ hc, by rw [hn, hr, append_assoc]⟩
  · have ho' : '\n' ∉ last ++ stem ++ [c] := by simp [hl, hstem.onRow, Ne.symm hn]
    obtain ⟨rest', hr, -⟩ := exists_dropEmptyRows_append ho' (hfi [c]) rest
    refine ⟨last, c, rest', hb, hc, ?_⟩
    simpa using hr

theorem cleanImport {line : Text} (declared : Bool) (h : Headed stem next (line.trimRight ++ ['\n'])) :
    Headed stem next (cleanImport .new declared line) := by
  have hr := isNameRule_cleaning
  simp only [all_append, Bool.and_eq_true, all_eq_true] at hr
  obtain ⟨hre, hrename, hsl, hl, hst⟩ := hr
  have hn : ∀ {rules : List (Text × Text)} {s : Text}, (∀ rule ∈ rules, isNameRule rule) →
      Headed stem next s → Headed stem next (QtMigration.dropEmptyRows (s.replaceEach rules)) :=
    fun hr h => dropEmptyRows hstem (replaceEach hstem hr h)
  have hs : Headed stem next (if declared then replaceName (line.trimRight ++ "\n") "SIGNAL" "pyqtSignal"
      else removeName (line.trimRight ++ "\n") "SIGNAL") := by
    split
    · exact hn hrename h
    · exact hn hre h
  exact hn hst (hn hl (hn hsl hs))

omit hstem in
theorem trimRight {u : Text} {c d : Char} (hstem : IsStem (u ++ [d]) next)
    (hd : Text.isBlank d = false) (hf : front.all Text.isBlank) (hc : next c) :
    Headed (u ++ [d]) next (Text.trimRight (front ++ (u ++ [d] ++ c :: rest)) ++ ['\n']) := by
  have htr : Text.trimRight (front ++ (u ++ [d] ++ c :: rest)) =
      front ++ (u ++ [d] ++ Text.trimRight (c :: rest)) := by
    have h := Text.trimRight_append hd (front ++ u) (c :: rest)
    simpa only [append_assoc] using h
  rw [htr, append_assoc, append_assoc]
  cases hr : Text.trimRight (c :: rest) with
  | nil => exact ⟨front, '\n', [], hf, hstem.borders _ (by decide), rfl⟩
  | cons c' rest' =>
    obtain ⟨t, ht⟩ := Text.trimRight_isPrefix (c :: rest)
    rw [hr, cons_append] at ht
    obtain ⟨rfl, -⟩ := cons.inj ht
    exact ⟨front, c', rest' ++ ['\n'], hf, hc, rfl⟩

end Headed

end QtMigration
