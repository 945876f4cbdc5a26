import QtMigration.Import.Sorting
import QtMigration.Proofs.Text.Words

/-!
# Proofs/Import/Listed — the names that are read off the rows of an import statement

The names behind `import` are read row by row: a row gives what is left of it without the commas at its two
ends, parentheses, backslashes and white space.
-/

namespace QtMigration

open List Text

variable {c x y : Char} {name row s : Text}

/-- **The names that are read off the rows behind `import`.** -/
def listedNames (s : Text) : List Text := (s.rows.map rowName).filter fun n => !n.isEmpty

theorem sortNames_eq_foldl (s : Text) : sortNames s = (listedNames s).foldl SortedNames.insert .empty := rfl

/-! ## Rows -/

def isFrame (c : Char) : Bool := c == '\\' || c == '(' || c == ')'

/-- What may stand around the names of a statement, apart from commas. -/
def isSpacing (c : Char) : Bool := Text.isBlank c || isFrame c

theorem Text.replaceAll_singleton (c : Char) (s : Text) : s.replaceAll [c] [] = s.filter (· != c) := by
  rw [Text.replaceAll]
  induction s with
  | nil => rfl
  | cons d s ih =>
    rw [Text.replaceGo]
    by_cases hd : c = d
    · rw [if_pos (by simp [hd]), filter_cons_of_neg (by simp [hd])]
      exact ih
    · rw [if_neg (by simp [hd]), filter_cons_of_pos (by simp [Ne.symm hd]), ih]

theorem rowName_eq (row : Text) : rowName row = Text.trim ((row.trimOf ",").filter fun c => !isFrame c) := by
  have hb : (("\\" : String).toList : Text) = ['\\'] := String.toList_ofList
  have ho : (("(" : String).toList : Text) = ['('] := String.toList_ofList
  have hc : ((")" : String).toList : Text) = [')'] := String.toList_ofList
  have hn : (("" : String).toList : Text) = [] := rfl
  rw [rowName, Text.replaceEach, hb, ho, hc, hn]
  simp only [foldl_cons, foldl_nil, replaceAll_singleton, filter_filter]
  refine congrArg Text.trim (filter_congr fun c _ => ?_)
  simp only [isFrame, bne]
  cases c == '\\' <;> cases c == '(' <;> cases c == ')' <;> rfl

theorem contains_comma (c : Char) : List.contains (("," : String).toList : Text) c = (c == ',') := by
  rw [show (("," : String).toList : Text) = [','] from String.toList_ofList]
  simp [Bool.beq_eq_decide_eq]

theorem trimOf_comma (s : Text) : s.trimOf "," = Text.trimRightWhile (s.dropWhile (· == ',')) (· == ',') := by
  rw [Text.trimOf, Text.trimRightOf, Text.trimLeftOf, Text.trimLeftWhile]
  simp only [funext contains_comma]

theorem rowName_comma_cons (row : Text) : rowName (',' :: row) = rowName row := by
  rw [rowName_eq, rowName_eq, trimOf_comma, trimOf_comma, dropWhile_cons_of_pos rfl]

theorem rowName_append_comma (row : Text) : rowName (row ++ [',']) = rowName row := by
  have ht : ∀ s : Text, Text.trimRightWhile (s ++ [',']) (· == ',') = Text.trimRightWhile s (· == ',') :=
    fun s => by
      rw [Text.trimRightWhile, Text.trimRightWhile, reverse_append, reverse_singleton,
        singleton_append, dropWhile_cons_of_pos rfl]
  rw [rowName_eq, rowName_eq, trimOf_comma, trimOf_comma, dropWhile_append]
  split
  next he => rw [List.isEmpty_iff.mp he]; rfl
  · rw [ht]

theorem trimOf_comma_of_notMem (h : ',' ∉ s) : s.trimOf "," = s := by
  have hk : ∀ t : Text, ',' ∉ t → t.dropWhile (· == ',') = t := fun t ht => by
    cases t with
    | nil => rfl
    | cons c t => exact dropWhile_cons_of_neg (by simpa using fun hc => ht (by simp [hc]))
  rw [trimOf_comma, hk s h, Text.trimRightWhile, hk _ (by simpa using h), reverse_reverse]

theorem rowName_of_no_comma (h : ',' ∉ row) : rowName row = Text.trim (row.filter fun c => !isFrame c) := by
  rw [rowName_eq, trimOf_comma_of_notMem h]

theorem ne_comma_of_isSpacing (hc : isSpacing c) : c ≠ ',' := by
  rintro rfl
  exact absurd hc (by decide)

theorem isBlank_of_isSpacing (hc : isSpacing c) (hf : isFrame c = false) : Text.isBlank c := by
  rwa [isSpacing, hf, Bool.or_false] at hc

theorem rowName_spacing_cons (hc : isSpacing c) (h : ',' ∉ row) : rowName (c :: row) = rowName row := by
  rw [rowName_of_no_comma h, rowName_of_no_comma (by simp [(ne_comma_of_isSpacing hc).symm, h])]
  cases hf : isFrame c with
  | true => rw [filter_cons_of_neg (by simp [hf])]
  | false =>
    rw [filter_cons_of_pos (by simp [hf])]
    exact trim_cons_blank (isBlank_of_isSpacing hc hf) _

theorem rowName_append_spacing (hc : isSpacing c) (h : ',' ∉ row) : rowName (row ++ [c]) = rowName row := by
  rw [rowName_of_no_comma h, rowName_of_no_comma (by simp [(ne_comma_of_isSpacing hc).symm, h]), filter_append]
  cases hf : isFrame c with
  | true => rw [filter_cons_of_neg (by simp [hf]), filter_nil, append_nil]
  | false =>
    rw [filter_cons_of_pos (by simp [hf]), filter_nil]
    exact trim_append_blank (isBlank_of_isSpacing hc hf) _

theorem rowName_of_isSpacing : ∀ {row : Text}, row.all isSpacing → rowName row = []
  | [], _ => rfl
  | c :: row, h => by
    rw [all_cons, Bool.and_eq_true] at h
    have hc : ',' ∉ row := fun hm => ne_comma_of_isSpacing (all_eq_true.mp h.2 _ hm) rfl
    rw [rowName_spacing_cons h.1 hc, rowName_of_isSpacing h.2]

theorem exists_last_row (s : Text) : ∃ front last, '\n' ∉ last ∧ (s = last ∨ s = front ++ '\n' :: last) := by
  induction s with
  | nil => exact ⟨[], [], by simp, .inl rfl⟩
  | cons c s ih =>
    obtain ⟨front, last, hl, rfl | rfl⟩ := ih
    · by_cases hc : c = '\n'
      · exact ⟨[], s, hl, .inr (by rw [hc]; rfl)⟩
      · exact ⟨[], c :: s, by simp [Ne.symm hc, hl], .inl rfl⟩
    · exact ⟨c :: front, last, hl, .inr rfl⟩

/-! ## Listing -/

theorem listedNames_newline (a b : Text) : listedNames (a ++ '\n' :: b) = listedNames a ++ listedNames b := by
  rw [listedNames, rows_append_newline, map_append, filter_append]
  rfl

theorem listedNames_nil : listedNames [] = [] := by decide

theorem listedNames_row (h : '\n' ∉ row) : listedNames row = [rowName row].filter fun n => !n.isEmpty := by
  rw [listedNames, rows_of_no_newline h]
  rfl

theorem listedNames_cons (hc : c ≠ '\n')
    (h : ∀ row ∈ s.rows, rowName (c :: row) = rowName row) : listedNames (c :: s) = listedNames s := by
  obtain ⟨row, rest, hr⟩ := exists_rows s
  rw [hr] at h
  rw [listedNames, listedNames, rows_cons hc hr, hr, map_cons, map_cons, h row mem_cons_self]

theorem listedNames_concat (hc : c ≠ '\n') (h : ∀ row, row <:+ s → rowName (row ++ [c]) = rowName row) :
    listedNames (s ++ [c]) = listedNames s := by
  obtain ⟨front, last, hl, hs⟩ := exists_last_row s
  have hr : listedNames (last ++ [c]) = listedNames last := by
    have hsu : last <:+ s := by
      rcases hs with rfl | rfl
      · exact suffix_refl _
      · exact ⟨front ++ ['\n'], by simp⟩
    rw [listedNames_row hl, listedNames_row (by simp [hl, Ne.symm hc]), h last hsu]
  rcases hs with rfl | rfl
  · exact hr
  · rw [append_assoc, cons_append, listedNames_newline, listedNames_newline, hr]

theorem listedNames_comma {a b : Text} (h : a.getLast? = some '\n' ∨ b.head? = some '\n') :
    listedNames (a ++ ',' :: b) = listedNames a ++ listedNames b := by
  rcases h with h | h
  · obtain ⟨a, rfl⟩ := getLast?_eq_some_iff.mp h
    rw [append_assoc, singleton_append, listedNames_newline, listedNames_newline, listedNames_nil, append_nil,
      listedNames_cons (by decide) fun row _ => rowName_comma_cons row]
  · obtain ⟨b, rfl⟩ := head?_eq_some_iff.mp h
    rw [← singleton_append, ← append_assoc, listedNames_newline,
      listedNames_concat (by decide) fun row _ => rowName_append_comma row,
      show listedNames ('\n' :: b) = _ from listedNames_newline [] b, listedNames_nil,
      nil_append]

/-! ## One name and its surroundings -/

theorem listedNames_spacing_append : ∀ {gap s : Text}, gap.all isSpacing → ',' ∉ s →
    listedNames (gap ++ s) = listedNames s
  | [], _, _, _ => rfl
  | c :: gap, s, hg, hs => by
    rw [all_cons, Bool.and_eq_true] at hg
    have hco : ',' ∉ gap ++ s := by
      rw [mem_append, not_or]
      exact ⟨fun hm => ne_comma_of_isSpacing (all_eq_true.mp hg.2 _ hm) rfl, hs⟩
    rw [cons_append, ← listedNames_spacing_append hg.2 hs]
    by_cases hc : c = '\n'
    · rw [hc, show listedNames ('\n' :: (gap ++ s)) = _ from listedNames_newline [] (gap ++ s),
        listedNames_nil, nil_append]
    · exact listedNames_cons hc fun row hr =>
        rowName_spacing_cons hg.1 fun hm =>
          hco ((infix_of_mem_rows _ row hr).subset hm)

theorem listedNames_append_spacing : ∀ {gap s : Text}, ',' ∉ s → gap.all isSpacing →
    listedNames (s ++ gap) = listedNames s
  | [], s, _, _ => by rw [append_nil]
  | c :: gap, s, hs, hg => by
    rw [all_cons, Bool.and_eq_true] at hg
    have hco : ',' ∉ s ++ [c] := by
      simp [hs, (ne_comma_of_isSpacing hg.1).symm]
    rw [← singleton_append, ← append_assoc, listedNames_append_spacing hco hg.2]
    by_cases hc : c = '\n'
    · rw [hc, listedNames_newline, listedNames_nil, append_nil]
    · exact listedNames_concat hc fun row hr =>
        rowName_append_spacing hg.1 fun hm => hs (hr.subset hm)

theorem listedNames_spacing {gap : Text} (hg : gap.all isSpacing) : listedNames gap = [] := by
  rw [← append_nil gap, listedNames_spacing_append hg (by simp), listedNames_nil]

theorem notMem_of_isWord (hw : name.all Text.isWord)
    (hc : Text.isWord c = false) : c ∉ name := fun hm => by
  simp [all_eq_true.mp hw c hm] at hc

theorem rowName_eq_self (hne : name ≠ []) (hco : ',' ∉ name)
    (hs : ∀ c ∈ name, isSpacing c = false) : rowName name = name := by
  have hch : ∀ c ∈ name, Text.isBlank c = false ∧ isFrame c = false := fun c hc =>
    Bool.or_eq_false_iff.mp (hs c hc)
  have hf : (name.filter fun c => !isFrame c) = name :=
    filter_eq_self.mpr fun c hc => by rw [(hch c hc).2]; rfl
  have ht := trim_append hne (fun c hc => (hch c hc).1) []
  rw [append_nil, show Text.trimRight [] = [] from rfl, append_nil] at ht
  rw [rowName_of_no_comma hco, hf, ht]

theorem rowName_of_isWord (hne : name ≠ []) (hw : name.all Text.isWord) : rowName name = name := by
  refine rowName_eq_self hne (notMem_of_isWord hw (by decide)) fun c hc => ?_
  have hdi : ∀ d, Text.isWord d = false → (c == d) = false := fun d hd => by
    simpa using fun h : c = d => notMem_of_isWord hw hd (h ▸ hc)
  rw [isSpacing, isBlank_of_isWord (all_eq_true.mp hw c hc), isFrame,
    hdi '\\' (by decide), hdi '(' (by decide), hdi ')' (by decide)]
  rfl

theorem listedNames_word {front behind : Text} (hne : name ≠ [])
    (hw : name.all Text.isWord) (hf : front.all isSpacing)
    (hb : behind.all isSpacing) : listedNames (front ++ (name ++ behind)) = [name] := by
  have hc : ',' ∉ name := notMem_of_isWord hw (by decide)
  have hc' : ',' ∉ name ++ behind := by
    rw [mem_append, not_or]
    exact ⟨hc, fun hm => ne_comma_of_isSpacing (all_eq_true.mp hb _ hm) rfl⟩
  rw [listedNames_spacing_append hf hc', listedNames_append_spacing hc hb,
    listedNames_row (notMem_of_isWord hw (by decide)), rowName_of_isWord hne hw,
    filter_cons_of_pos (by simpa using hne), filter_nil]

/-! ## Commas inside a row -/

theorem Text.mem_trim_of_not_blank (hm : c ∈ s) (hc : Text.isBlank c = false) : c ∈ s.trim := by
  have hd : ∀ t : Text, c ∈ t → c ∈ t.dropWhile Text.isBlank := fun t ht => by
    have h := takeWhile_append_dropWhile (p := Text.isBlank) (l := t)
    rw [← h, mem_append] at ht
    rcases ht with ht | ht
    · have := mem_takeWhile_imp ht
      rw [hc] at this
      cases this
    · exact ht
  rw [Text.trim, Text.trimRight, Text.trimRightWhile, mem_reverse]
  exact hd _ (mem_reverse.mpr (hd s hm))

theorem dropWhile_comma_append (hx : x ≠ ',') (front behind : Text) :
    (front ++ x :: behind).dropWhile (· == ',') = front.dropWhile (· == ',') ++ x :: behind := by
  rw [dropWhile_append]
  split
  next he => rw [List.isEmpty_iff.mp he, dropWhile_cons_of_neg (by simpa using hx)]; rfl
  · rfl

theorem comma_mem_rowName (hx : x ≠ ',') (hy : y ≠ ',') (front behind : Text) :
    ',' ∈ rowName (front ++ x :: ',' :: y :: behind) := by
  have hr : ∀ u : Text, (u ++ x :: ',' :: y :: behind).reverse =
      behind.reverse ++ y :: ',' :: x :: u.reverse := fun u => by simp
  rw [rowName_eq, trimOf_comma, dropWhile_comma_append hx, Text.trimRightWhile, hr, dropWhile_comma_append hy]
  exact mem_trim_of_not_blank (mem_filter.mpr ⟨by simp, by decide⟩) (by decide)

theorem exists_listed_comma (hx : x ≠ ',') (hy : y ≠ ',') (hx' : x ≠ '\n') (hy' : y ≠ '\n')
    (front behind : Text) : ∃ r ∈ listedNames (front ++ x :: ',' :: y :: behind), ',' ∈ r := by
  obtain ⟨row, rest, hro⟩ := exists_rows behind
  have hl : ∀ last : Text, '\n' ∉ last →
      ∃ r ∈ listedNames (last ++ x :: ',' :: y :: behind), ',' ∈ r := fun last hl => by
    have hm := comma_mem_rowName hx hy last row
    have hs : (last ++ x :: ',' :: y :: behind).rows = (last ++ x :: ',' :: y :: row) :: rest :=
      rows_append_of_no_newline hl (rows_cons hx' (rows_cons (by decide) (rows_cons hy' hro)))
    refine ⟨_, mem_filter.mpr ⟨?_, ?_⟩, hm⟩
    · rw [hs, map_cons]
      exact mem_cons_self
    · simpa using ne_nil_of_mem hm
  obtain ⟨before, last, hno, rfl | rfl⟩ := exists_last_row front
  · exact hl _ hno
  · obtain ⟨r, hr, hm⟩ := hl last hno
    rw [append_assoc, cons_append, listedNames_newline]
    exact ⟨r, mem_append_right _ hr, hm⟩

/-! ## White space at the end -/

theorem trimOf_comma_concat {d : Char} (hd : d ≠ ',') (front : Text) :
    Text.trimOf (front ++ [d]) "," = front.dropWhile (· == ',') ++ [d] := by
  rw [trimOf_comma, dropWhile_comma_append hd, Text.trimRightWhile, reverse_append,
    reverse_singleton, singleton_append, dropWhile_cons_of_neg (by simpa using hd),
    reverse_cons, reverse_reverse]

theorem rowName_append_blank (hc : Text.isBlank c)
    (h : row.getLast? ≠ some ',') : rowName (row ++ [c]) = rowName row := by
  have hs : isSpacing c := by rw [isSpacing, hc, Bool.true_or]
  rcases eq_nil_or_concat row with rfl | ⟨front, d, rfl⟩
  · exact rowName_spacing_cons hs (by simp)
  · rw [concat_eq_append] at h ⊢
    rw [getLast?_concat] at h
    have hd : d ≠ ',' := fun hd => h (by rw [hd])
    have hf : isFrame c = false := by
      rw [Bool.eq_false_iff, isFrame]
      simp only [ne_eq, Bool.or_eq_true, beq_iff_eq]
      rintro ((rfl | rfl) | rfl) <;> exact absurd hc (by decide)
    rw [rowName_eq, rowName_eq, trimOf_comma_concat (ne_comma_of_isSpacing hs),
      trimOf_comma_concat hd, dropWhile_comma_append hd, filter_append _ [c],
      filter_cons_of_pos (by simp [hf]), filter_nil, trim_append_blank hc]

theorem mem_of_mem_listedNames {n : Text} (hn : n ∈ listedNames s) (hc : c ∈ n) : c ∈ s := by
  obtain ⟨row, hr, rfl⟩ := mem_map.mp (mem_filter.mp hn).1
  rw [rowName_eq] at hc
  have hm := (mem_filter.mp (( trim_infix _).subset hc)).1
  rw [trimOf_comma, Text.trimRightWhile, mem_reverse] at hm
  have hm' := mem_reverse.mp ((dropWhile_suffix _).subset hm)
  exact (infix_of_mem_rows s row hr).subset ((dropWhile_suffix _).subset hm')

theorem listedNames_append_blank : ∀ {blank s : Text}, blank.all Text.isBlank →
    s.getLast? ≠ some ',' → listedNames (s ++ blank) = listedNames s
  | [], s, _, _ => by rw [append_nil]
  | c :: blank, s, hb, hs => by
    rw [all_cons, Bool.and_eq_true] at hb
    have hc : (s ++ [c]).getLast? ≠ some ',' := by
      rw [getLast?_concat]
      rintro ⟨rfl⟩
      exact absurd hb.1 (by decide)
    rw [← singleton_append, ← append_assoc, listedNames_append_blank hb.2 hc]
    by_cases hn : c = '\n'
    · rw [hn, listedNames_newline, listedNames_nil, append_nil]
    · refine listedNames_concat hn fun row hr => rowName_append_blank hb.1 fun hl => hs ?_
      obtain ⟨front, rfl⟩ := hr
      rw [getLast?_append, hl, Option.some_or]

end QtMigration
