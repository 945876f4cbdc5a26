import QtMigration.Proofs.Import.Cleaned
import QtMigration.Proofs.Import.Layout

/-!
# Proofs/Import/Grammar — statements that import names from a module

A list of names has a text **before** each name and a text **behind** it, which are made of the names around
it, commas and white space (`Before`, `Behind`). **A statement stays one when its empty rows are dropped**
(`ImportsNames.dropEmptyRows`).
-/

namespace QtMigration

open List Text

variable {rest : List Text} {before behind n row space tail : Text}

/-- White space as it may stand before a comma and behind the last name. -/
def Setting.isClose : Setting → Text → Bool
  | .parentheses, s => spaceOverRows true s
  | _, s => s.all isRowBlank

/-- **What stands before a name**, with the names before it. -/
inductive Before (S : Setting) : List Text → Text → Prop
  | first {lead space : Text} : lead.all isRowBlank = true → S.isSpace space = true →
      lead ++ (S.opening ++ space) ≠ [] → Before S [] (lead ++ (S.opening ++ space))
  | comma {names : List Text} {n front close space : Text} : Before S names front → S.isClose close = true →
      S.isSpace space = true → Before S (names ++ [n]) (front ++ (n ++ (close ++ ',' :: space)))

/-- **What stands behind a name**, with the names behind it. -/
inductive Behind (S : Setting) : List Text → Text → Prop
  | ends {close tail : Text} : S.isClose close = true → tail.all isRowBlank = true →
      Behind S [] (close ++ (S.closing ++ tail))
  | trailing {close space tail : Text} : S = .parentheses → S.isClose close = true → S.isSpace space = true →
      tail.all isRowBlank = true → Behind S [] (close ++ ',' :: (space ++ (S.closing ++ tail)))
  | comma {names : List Text} {n rest close space : Text} : S.isClose close = true → S.isSpace space = true →
      Behind S names rest → Behind S (n :: names) (close ++ ',' :: (space ++ (n ++ rest)))

def importHead (indent origin : Text) : Text := indent ++ ("from " ++ (origin ++ " import"))

/-- **The text is a statement that imports these names from the module.** -/
def ImportsNames (origin : Text) (names : List Text) (s : Text) : Prop :=
  ∃ indent S ns n ms before behind, indent.all isRowBlank = true ∧ names = ns ++ n :: ms ∧ Before S ns before ∧
    Behind S ms behind ∧ s = importHead indent origin ++ (before ++ (n ++ behind)) ++ ['\n']

/-! ## White space -/

section Space

variable {bare : Bool} {S : Setting} {c : Char} {s t : Text}

theorem spaceOverRows_cons (hc : c ≠ '\\') (s : Text) :
    spaceOverRows bare (c :: s) = ((isRowBlank c || (bare && c == '\n')) && spaceOverRows bare s) := by
  rw [spaceOverRows]
  exact fun _ h => absurd h hc

theorem ne_backslash_of_isRowBlank (h : isRowBlank c) : c ≠ '\\' := by
  rintro rfl
  exact absurd h (by decide)

theorem spaceOverRows_induction {motive : Text → Prop} (nil : motive [])
    (mark : ∀ s, spaceOverRows bare s → motive s → motive ('\\' :: '\n' :: s))
    (newline : ∀ s, bare → spaceOverRows bare s → motive s → motive ('\n' :: s))
    (blank : ∀ c s, isRowBlank c → spaceOverRows bare s → motive s → motive (c :: s)) :
    ∀ s, spaceOverRows bare s → motive s := by
  intro s h
  induction s using spaceOverRows.induct with
  | case1 s ih =>
    rw [spaceOverRows] at h
    exact mark s h (ih h)
  | case2 c s hne ih =>
    rw [spaceOverRows, Bool.and_eq_true, Bool.or_eq_true, Bool.and_eq_true, beq_iff_eq] at h
    · obtain ⟨hc | ⟨hb, rfl⟩, hs⟩ := h
      · exact blank c s hc hs (ih hs)
      · exact newline s hb hs (ih hs)
    · exact hne
  | case3 => exact nil

theorem spaceOverRows_of_blank (h : s.all isRowBlank) : spaceOverRows bare s := by
  induction s with
  | nil => rfl
  | cons c s ih =>
    rw [all_cons, Bool.and_eq_true] at h
    rw [spaceOverRows_cons (ne_backslash_of_isRowBlank h.1), h.1, ih h.2]
    rfl

theorem spaceOverRows_append (hs : spaceOverRows bare s) (ht : spaceOverRows bare t) :
    spaceOverRows bare (s ++ t) := by
  refine spaceOverRows_induction (motive := fun s => spaceOverRows bare (s ++ t)) ht ?_ ?_ ?_ s hs
  · exact fun _ _ ih => ih
  · intro s hb _ ih
    rw [cons_append, spaceOverRows_cons (by decide), ih, hb]
    rfl
  · intro c s hc _ ih
    rw [cons_append, spaceOverRows_cons (ne_backslash_of_isRowBlank hc), ih, hc]
    rfl

theorem exists_of_spaceOverRows_backslash (h : spaceOverRows bare ('\\' :: s)) :
    ∃ s', s = '\n' :: s' ∧ spaceOverRows bare s' := by
  cases s with
  | nil => cases bare <;> cases h
  | cons c s =>
    by_cases hc : c = '\n'
    · subst hc
      exact ⟨s, rfl, h⟩
    · rw [spaceOverRows] at h
      · cases bare <;> simp [isRowBlank] at h
      · exact fun _ _ hs => hc (cons.inj hs).1

theorem spaceOverRows_of_append_blank : ∀ {s : Text}, spaceOverRows bare (s ++ [' ']) →
    spaceOverRows bare s
  | [], _ => rfl
  | c :: s, h => by
    by_cases hc : c = '\\'
    · subst hc
      obtain ⟨s', hs, h'⟩ := exists_of_spaceOverRows_backslash h
      cases s with
      | nil => simp at hs
      | cons d s =>
        obtain ⟨rfl, rfl⟩ := cons.inj hs
        exact spaceOverRows_of_append_blank (s := s) h'
    · rw [cons_append, spaceOverRows_cons hc, Bool.and_eq_true] at h
      rw [spaceOverRows_cons hc, h.1, spaceOverRows_of_append_blank h.2]
      rfl

theorem all_isRowBlank_append (hs : s.all isRowBlank) (ht : t.all isRowBlank) :
    (s ++ t).all isRowBlank := by
  rw [all_append, hs, ht]
  rfl

theorem Setting.isSpace_of_isClose (h : S.isClose s) : S.isSpace s := by
  cases S with
  | row => exact h
  | parentheses => exact h
  | continued => exact spaceOverRows_of_blank h

theorem Setting.isSpace_append (hs : S.isSpace s) (ht : S.isSpace t) : S.isSpace (s ++ t) := by
  cases S with
  | row => exact all_isRowBlank_append hs ht
  | parentheses => exact spaceOverRows_append hs ht
  | continued => exact spaceOverRows_append hs ht

theorem Setting.isClose_append (hs : S.isClose s) (ht : S.isClose t) : S.isClose (s ++ t) := by
  cases S with
  | parentheses => exact spaceOverRows_append hs ht
  | row => exact all_isRowBlank_append hs ht
  | continued => exact all_isRowBlank_append hs ht

theorem Setting.isSpace_tail (h : S.isSpace (' ' :: s)) : S.isSpace s := by
  cases S with
  | row => exact h
  | parentheses => exact h
  | continued => exact h

end Space

/-! ## Empty rows -/

def keepFilled (s : Text) : Text := Text.join "\n" (s.rows.take 1 ++ (s.rows.drop 1).filter isFilled)

section Kept

variable {S : Setting} {bare : Bool} {s front x : Text} {c : Char}

theorem keepFilled_of_rows (h : s.rows = row :: rest) :
    keepFilled s = Text.join "\n" (row :: rest.filter isFilled) := by
  rw [keepFilled, h]
  rfl

theorem keepFilled_append (hf : '\n' ∉ front) (s : Text) : keepFilled (front ++ s) = front ++ keepFilled s := by
  obtain ⟨row, rest, hr⟩ := exists_rows s
  rw [keepFilled_of_rows hr, keepFilled_of_rows (rows_append_of_no_newline hf hr)]
  cases rest.filter isFilled with
  | nil => rfl
  | cons next rest =>
    rw [join_newline_cons (front ++ row) (by simp), join_newline_cons row (by simp), append_assoc]

theorem keepFilled_cons (hc : c ≠ '\n') (s : Text) : keepFilled (c :: s) = c :: keepFilled s :=
  keepFilled_append (fun h => hc (mem_singleton.mp h).symm) s

theorem keepFilled_newline (h : s.rows = row :: rest) (hr : isFilled row) :
    keepFilled ('\n' :: s) = '\n' :: keepFilled s := by
  rw [keepFilled_of_rows h, keepFilled_of_rows (rows_newline s), h, filter_cons_of_pos hr,
    join_newline_cons _ (by simp)]
  rfl

theorem keepFilled_newline_eq {t row' : Text} (hs : s.rows = row :: rest) (ht : t.rows = row' :: rest)
    (hr : isFilled row = false) (hr' : isFilled row' = false) : keepFilled ('\n' :: s) = keepFilled ('\n' :: t) := by
  rw [keepFilled_of_rows (rows_newline s), keepFilled_of_rows (rows_newline t), hs, ht,
    filter_cons_of_neg (by simp [hr]), filter_cons_of_neg (by simp [hr'])]

theorem dropEmptyRows_append (hno : '\n' ∉ front) (hfr : isFilled front) (s : Text) :
    dropEmptyRows (front ++ s) = front ++ keepFilled s ++ ['\n'] := by
  obtain ⟨row, rest, hr⟩ := exists_rows s
  have hf : isFilled (front ++ row) := by
    rw [← Bool.not_eq_false, isFilled_eq_false_iff, all_append, Bool.and_eq_true, ← isFilled_eq_false_iff, hfr]
    simp
  rw [dropEmptyRows_eq, ← keepFilled_append hno, keepFilled_of_rows (rows_append_of_no_newline hno hr),
    rows_append_of_no_newline hno hr, filter_cons_of_pos hf]

/-- The text begins with a character that is not white space. -/
def Solid (s : Text) : Prop := ∃ c rest, s = c :: rest ∧ Text.isBlank c = false

theorem isFilled_of_mem (hc : c ∈ row) (h : Text.isBlank c = false) : isFilled row := by
  rw [← Bool.not_eq_false, isFilled_eq_false_iff, all_eq_true]
  intro ha
  rw [ha c hc] at h
  cases h

theorem isFilled_cons (hc : Text.isBlank c) (row : Text) : isFilled (c :: row) = isFilled row := by
  refine Bool.eq_iff_iff.mpr ?_
  rw [← Bool.not_eq_false, ← Bool.not_eq_false, isFilled_eq_false_iff, isFilled_eq_false_iff, all_cons, hc,
    Bool.true_and]

theorem Solid.exists_rows (h : Solid s) : ∃ row rest, s.rows = row :: rest ∧ isFilled row := by
  obtain ⟨c, s, rfl, hc⟩ := h
  obtain ⟨row, rest, hr⟩ := exists_rows s
  have hne : c ≠ '\n' := by
    rintro rfl
    exact absurd hc (by decide)
  exact ⟨c :: row, rest, rows_cons hne hr, isFilled_of_mem mem_cons_self hc⟩

theorem ne_newline_of_isRowBlank (h : isRowBlank c) : c ≠ '\n' := by
  rintro rfl
  exact absurd h (by decide)

theorem spaceOverRows_kept (hx : Solid x) (hs : spaceOverRows bare s) :
    (∃ s', spaceOverRows bare s' ∧ (s ≠ [] → s' ≠ []) ∧ keepFilled (s ++ x) = s' ++ keepFilled x) ∧
      ∃ s', spaceOverRows bare s' ∧ keepFilled ('\n' :: (s ++ x)) = '\n' :: (s' ++ keepFilled x) := by
  refine spaceOverRows_induction (motive := fun s =>
    (∃ s', spaceOverRows bare s' ∧ (s ≠ [] → s' ≠ []) ∧ keepFilled (s ++ x) = s' ++ keepFilled x) ∧
      ∃ s', spaceOverRows bare s' ∧ keepFilled ('\n' :: (s ++ x)) = '\n' :: (s' ++ keepFilled x)) ?_ ?_ ?_ ?_ s hs
  · obtain ⟨row, rest, hr, hrow⟩ := hx.exists_rows
    exact ⟨⟨[], rfl, fun h => absurd rfl h, rfl⟩, [], rfl, keepFilled_newline hr hrow⟩
  · rintro s - ⟨-, s', hs', hk⟩
    have hm : keepFilled ('\\' :: '\n' :: s ++ x) = '\\' :: '\n' :: s' ++ keepFilled x :=
      (keepFilled_cons (by decide) _).trans (congrArg ('\\' :: ·) hk)
    obtain ⟨row, rest, hr⟩ := exists_rows ('\n' :: s ++ x)
    refine ⟨⟨'\\' :: '\n' :: s', hs', by simp, hm⟩, '\\' :: '\n' :: s', hs', ?_⟩
    rw [cons_append, keepFilled_newline (rows_cons (by decide) hr) (isFilled_of_mem mem_cons_self (by decide))]
    exact congrArg ('\n' :: ·) hm
  · rintro s hb - ⟨-, s', hs', hk⟩
    refine ⟨⟨'\n' :: s', ?_, by simp, hk⟩, s', hs', ?_⟩
    · rw [spaceOverRows_cons (by decide), hs', hb]
      rfl
    · -- the row between the two line ends is empty
      rw [cons_append, keepFilled_of_rows (rows_newline _), rows_newline,
        filter_cons_of_neg (by decide), ← keepFilled_of_rows (rows_newline _)]
      exact hk
  · rintro c s hc - ⟨⟨s', hs', -, hk⟩, s₂, hs₂, hk₂⟩
    have hsp : spaceOverRows bare (c :: s') := by
      rw [spaceOverRows_cons (ne_backslash_of_isRowBlank hc), hs', hc]
      rfl
    have hco : keepFilled (c :: s ++ x) = c :: s' ++ keepFilled x :=
      (keepFilled_cons (ne_newline_of_isRowBlank hc) _).trans (congrArg (c :: ·) hk)
    refine ⟨⟨c :: s', hsp, by simp, hco⟩, ?_⟩
    obtain ⟨row, rest, hr⟩ := exists_rows (s ++ x)
    have hr' : Text.rows (c :: s ++ x) = (c :: row) :: rest := rows_cons (ne_newline_of_isRowBlank hc) hr
    have hsa := isFilled_cons (isBlank_of_isRowBlank hc) row
    cases hrow : isFilled row with
    | true =>
      refine ⟨c :: s', hsp, ?_⟩
      rw [keepFilled_newline hr' (hsa.trans hrow), hco]
    | false =>
      refine ⟨s₂, hs₂, ?_⟩
      rw [keepFilled_newline_eq hr' hr (hsa.trans hrow) hrow, hk₂]

theorem newline_notMem_of_blank (h : s.all isRowBlank) : '\n' ∉ s := fun hm =>
  absurd (all_eq_true.mp h _ hm) (by decide)

theorem Setting.isSpace_kept (hx : Solid x) (h : S.isSpace s) :
    ∃ s', S.isSpace s' ∧ (s ≠ [] → s' ≠ []) ∧ keepFilled (s ++ x) = s' ++ keepFilled x := by
  cases S with
  | row => exact ⟨s, h, id, keepFilled_append (newline_notMem_of_blank h) x⟩
  | parentheses => exact (spaceOverRows_kept hx h).1
  | continued => exact (spaceOverRows_kept hx h).1

theorem Setting.isClose_kept (hx : Solid x) (h : S.isClose s) :
    ∃ s', S.isClose s' ∧ keepFilled (s ++ x) = s' ++ keepFilled x := by
  cases S with
  | row => exact ⟨s, h, keepFilled_append (newline_notMem_of_blank h) x⟩
  | parentheses =>
    obtain ⟨s', hs', -, hk⟩ := (spaceOverRows_kept hx h).1
    exact ⟨s', hs', hk⟩
  | continued => exact ⟨s, h, keepFilled_append (newline_notMem_of_blank h) x⟩

def IsName (n : Text) : Prop := n ≠ [] ∧ n.all Text.isWord = true

theorem IsName.newline_notMem (h : IsName n) : '\n' ∉ n := fun hm =>
  absurd (all_eq_true.mp h.2 _ hm) (by decide)

theorem IsName.solid_append (h : IsName n) (s : Text) : Solid (n ++ s) := by
  obtain ⟨c, n, rfl⟩ := exists_cons_of_ne_nil h.1
  exact ⟨c, n ++ s, rfl, isBlank_of_isWord (all_eq_true.mp h.2 c mem_cons_self)⟩

theorem keepFilled_blank_newline (h : tail.all isRowBlank) : keepFilled (tail ++ ['\n']) = tail := by
  rw [keepFilled_append (newline_notMem_of_blank h)]
  exact append_nil tail

theorem keepFilled_closing (S : Setting) (h : tail.all isRowBlank) :
    keepFilled (S.closing ++ (tail ++ ['\n'])) = S.closing ++ tail := by
  have hno : '\n' ∉ S.closing := by cases S <;> decide
  rw [keepFilled_append hno, keepFilled_blank_newline h]

theorem Behind.kept {names : List Text} (h : Behind S names behind) (hna : ∀ n ∈ names, IsName n) :
    Behind S names (keepFilled (behind ++ ['\n'])) := by
  have hco (s : Text) : Solid (',' :: s) := ⟨',', s, rfl, by decide⟩
  induction h with
  | @ends close tail hc ht =>
    obtain ⟨close', hc', hk⟩ : ∃ close', S.isClose close' ∧
        keepFilled (close ++ (S.closing ++ (tail ++ ['\n']))) = close' ++ (S.closing ++ tail) := by
      rw [← keepFilled_closing S ht]
      cases S with
      | parentheses => exact Setting.isClose_kept ⟨')', _, rfl, by decide⟩ hc
      | row => exact ⟨close, hc, keepFilled_append (newline_notMem_of_blank hc) _⟩
      | continued => exact ⟨close, hc, keepFilled_append (newline_notMem_of_blank hc) _⟩
    rw [append_assoc, append_assoc, hk]
    exact .ends hc' ht
  | @trailing close space tail hS hc hs ht =>
    subst hS
    obtain ⟨close', hc', hk⟩ := Setting.isClose_kept (hco (space ++ (')' :: (tail ++ ['\n'])))) hc
    obtain ⟨space', hs', -, hk'⟩ :=
      Setting.isSpace_kept (x := ')' :: (tail ++ ['\n'])) ⟨')', _, rfl, by decide⟩ hs
    have he : keepFilled (')' :: (tail ++ ['\n'])) = ')' :: tail := keepFilled_closing .parentheses ht
    have hte : (close ++ ',' :: (space ++ (Setting.parentheses.closing ++ tail))) ++ ['\n'] =
        close ++ ',' :: (space ++ (')' :: (tail ++ ['\n']))) := by simp [Setting.closing]
    rw [hte, hk, keepFilled_cons (by decide), hk', he]
    exact .trailing rfl hc' hs' ht
  | @comma names n rest close space hc hs _ ih =>
    obtain ⟨hn, hna⟩ := forall_mem_cons.mp hna
    obtain ⟨close', hc', hk⟩ :=
      Setting.isClose_kept (hco (space ++ (n ++ (rest ++ ['\n'])))) hc
    obtain ⟨space', hs', -, hk'⟩ := Setting.isSpace_kept (hn.solid_append (rest ++ ['\n'])) hs
    have hte : (close ++ ',' :: (space ++ (n ++ rest))) ++ ['\n'] =
        close ++ ',' :: (space ++ (n ++ (rest ++ ['\n']))) := by simp
    rw [hte, hk, keepFilled_cons (by decide), hk', keepFilled_append hn.newline_notMem]
    exact .comma hc' hs' (ih hna)

theorem Before.kept {names : List Text} (h : Before S names before) (hna : ∀ n ∈ names, IsName n)
    (hx : Solid x) : ∃ before', Before S names before' ∧ keepFilled (before ++ x) = before' ++ keepFilled x := by
  induction h generalizing x with
  | @first lead space hl hs hne =>
    obtain ⟨space', hs', hf, hk⟩ := Setting.isSpace_kept hx hs
    have ho : '\n' ∉ S.opening := by cases S <;> decide
    refine ⟨lead ++ (S.opening ++ space'), .first hl hs' ?_, ?_⟩
    · simp only [ne_eq, append_eq_nil_iff, not_and] at hne hf ⊢
      exact fun h h' h'' => hf (hne h h') h''
    · rw [append_assoc, append_assoc, keepFilled_append (newline_notMem_of_blank hl),
        keepFilled_append ho, hk, append_assoc, append_assoc]
  | @comma names n front close space _ hc hs ih =>
    obtain ⟨hna, hn⟩ := forall_mem_append.mp hna
    have hn := hn n (mem_singleton.mpr rfl)
    obtain ⟨space', hs', -, hk⟩ := Setting.isSpace_kept hx hs
    obtain ⟨close', hc', hk'⟩ := Setting.isClose_kept (x := ',' :: (space ++ x)) ⟨',', _, rfl, by decide⟩ hc
    obtain ⟨front', hfr', hk''⟩ := ih hna (hn.solid_append (close ++ ',' :: (space ++ x)))
    refine ⟨_, .comma (n := n) hfr' hc' hs', ?_⟩
    have ht : (front ++ (n ++ (close ++ ',' :: space))) ++ x = front ++ (n ++ (close ++ ',' :: (space ++ x))) := by simp
    rw [ht, hk'', keepFilled_append hn.newline_notMem, hk', keepFilled_cons (by decide), hk]
    simp

end Kept

/-! ## Statements -/

section Statement

variable {origin indent : Text}

def IsModule (origin : Text) : Prop := origin ≠ [] ∧ ∀ c ∈ origin, Text.isWord c = true ∨ c = '.'

theorem notMem_importHead (hin : indent.all isRowBlank) (ho : IsModule origin) {c : Char}
    (hb : isRowBlank c = false) (hw : Text.isWord c = false) (hd : c ≠ '.') : c ∉ importHead indent origin := by
  rw [importHead, mem_append, mem_append, mem_append]
  rintro (h | h | h | h)
  · rw [all_eq_true.mp hin c h] at hb
    cases hb
  · have hf : (("from " : Text).all fun c => isRowBlank c || Text.isWord c) := by decide
    have hc := all_eq_true.mp hf c h
    rw [hb, hw] at hc
    cases hc
  · rcases ho.2 c h with h | h
    · rw [h] at hw
      cases hw
    · exact hd h
  · have hi : ((" import" : Text).all fun c => isRowBlank c || Text.isWord c) := by decide
    have hc := all_eq_true.mp hi c h
    rw [hb, hw] at hc
    cases hc

theorem isFilled_importHead (indent origin : Text) : isFilled (importHead indent origin) :=
  isFilled_of_mem (c := 'f') (by simp [importHead]) (by decide)

theorem ImportsNames.dropEmptyRows {names : List Text} {s : Text} (h : ImportsNames origin names s)
    (ho : IsModule origin)
    (hna : ∀ n ∈ names, IsName n) : ImportsNames origin names (QtMigration.dropEmptyRows s) := by
  obtain ⟨indent, S, ns, n, ms, before, behind, hi, rfl, hb, hbe, rfl⟩ := h
  obtain ⟨hns, hnms⟩ := forall_mem_append.mp hna
  obtain ⟨hn, hms⟩ := forall_mem_cons.mp hnms
  obtain ⟨before', hb', hk⟩ := hb.kept hns (hn.solid_append (behind ++ ['\n']))
  have hno : '\n' ∉ importHead indent origin := notMem_importHead hi ho (by decide) (by decide) (by decide)
  refine ⟨indent, S, ns, n, ms, before', _, hi, rfl, hb', hbe.kept hms, ?_⟩
  have ht : importHead indent origin ++ (before ++ (n ++ behind)) ++ ['\n'] =
      importHead indent origin ++ (before ++ (n ++ (behind ++ ['\n']))) := by simp
  rw [ht, dropEmptyRows_append hno (isFilled_importHead indent origin), hk, keepFilled_append hn.newline_notMem]

end Statement

/-! ## Reading the names -/

/-- The text without white space, parentheses and backslashes. -/
def bones (s : Text) : Text := s.filter fun c => !isSpacing c

/-- **The pieces between the commas**, without white space, parentheses and backslashes. -/
def pieces (s : Text) : List Text := (bones s).splitOnP (· == ',')

section Reading

variable {S : Setting} {origin indent s t x : Text} {names : List Text}

theorem bones_append (s t : Text) : bones (s ++ t) = bones s ++ bones t := filter_append ..

theorem bones_of_spacing (h : s.all isSpacing) : bones s = [] :=
  filter_eq_nil_iff.mpr fun c hc => by simp [all_eq_true.mp h c hc]

theorem bones_gap {gap : Text} (h : gap.all isSpacing) (s t : Text) : bones (s ++ (gap ++ t)) = bones
    (s ++ t) := by
  rw [bones_append, bones_append, bones_append, bones_of_spacing h, nil_append]

theorem bones_of_word (h : s.all Text.isWord) : bones s = s := by
  refine filter_eq_self.mpr fun c hc => ?_
  cases hs : isSpacing c with
  | false => rfl
  | true =>
    have hg := all_eq_true.mp (isGap_of_isSpacing (s := [c]) (by simp [hs])) c mem_cons_self
    rw [all_eq_true.mp h c hc] at hg
    cases hg

theorem splitOnP_comma_of_word (h : s.all Text.isWord) : s.splitOnP (· == ',') = [s] := by
  refine splitOnP_eq_singleton fun c hc => beq_eq_false_iff_ne.mpr ?_
  rintro rfl
  exact absurd (all_eq_true.mp h _ hc) (by decide)

theorem pieces_of_word (h : s.all Text.isWord) : pieces s = [s] := by
  rw [pieces, bones_of_word h, splitOnP_comma_of_word h]

theorem pieces_word_comma (hx : x.all Text.isWord) {close : Text} (hc : close.all isSpacing)
    (hs : space.all isSpacing) (s : Text) :
    pieces (x ++ (close ++ ',' :: (space ++ s))) = x :: pieces s := by
  have hco : bones (',' :: (space ++ s)) = ',' :: bones s := by
    rw [show ',' :: (space ++ s) = [','] ++ (space ++ s) from rfl, bones_gap hs]
    rfl
  rw [pieces, bones_gap hc, bones_append, bones_of_word hx, hco, splitOnP_append_cons _ _ (by decide),
    splitOnP_comma_of_word hx]
  rfl

theorem Setting.isClose_isSpacing (h : S.isClose s) : s.all isSpacing :=
  Setting.all_isSpacing (Setting.isSpace_of_isClose h)

theorem Setting.opened_isSpacing {lead : Text} (hl : lead.all isRowBlank) (hs : S.isSpace space) :
    (lead ++ (S.opening ++ space)).all isSpacing := by
  rw [all_append, all_append, all_isSpacing_of_blank hl, S.opening_isSpacing, Setting.all_isSpacing hs]
  rfl

theorem Setting.closed_isSpacing (S : Setting) {space tail : Text} (hs : space.all isSpacing)
    (ht : tail.all isRowBlank) : (space ++ (S.closing ++ tail)).all isSpacing := by
  rw [all_append, all_append, hs, S.closing_isSpacing, all_isSpacing_of_blank ht]
  rfl

theorem Before.pieces (h : Before S names before) (hna : ∀ n ∈ names, IsName n) (s : Text) :
    QtMigration.pieces (before ++ s) = names ++ QtMigration.pieces s := by
  induction h generalizing s with
  | @first lead space hl hs _ =>
    rw [QtMigration.pieces, bones_append, bones_of_spacing (Setting.opened_isSpacing hl hs)]
    rfl
  | @comma names n front close space _ hc hs ih =>
    obtain ⟨hna, hn⟩ := forall_mem_append.mp hna
    have hn := hn n (mem_singleton.mpr rfl)
    have ht : (front ++ (n ++ (close ++ ',' :: space))) ++ s = front ++ (n ++ (close ++ ',' :: (space ++ s))) := by simp
    rw [ht, ih hna, pieces_word_comma hn.2 (Setting.isClose_isSpacing hc) (Setting.all_isSpacing hs),
      append_assoc]
    rfl

theorem Behind.pieces (h : Behind S names behind) (hna : ∀ n ∈ names, IsName n) :
    ∃ extra : List Text, (extra = [] ∨ (S = .parentheses ∧ extra = [[]])) ∧ (names = [] → ',' ∈ behind → extra ≠ []) ∧
      ∀ x : Text, x.all Text.isWord → QtMigration.pieces (x ++ behind) = x :: (names ++ extra) := by
  induction h with
  | @ends close tail hc ht =>
    have hs := S.closed_isSpacing (Setting.isClose_isSpacing hc) ht
    refine ⟨[], .inl rfl, fun _ hm => absurd hm (comma_notMem_of_isSpacing hs), fun x hx => ?_⟩
    rw [QtMigration.pieces, bones_append, bones_of_spacing hs, append_nil]
    exact pieces_of_word hx
  | @trailing close space tail hS hc hsp ht =>
    have hs := S.closed_isSpacing (Setting.all_isSpacing hsp) ht
    refine ⟨[[]], .inr ⟨hS, rfl⟩, fun _ _ => by simp, fun x hx => ?_⟩
    have h := pieces_word_comma hx (Setting.isClose_isSpacing hc) hs []
    rw [append_nil] at h
    exact h
  | @comma names n rest close space hc hsp _ ih =>
    obtain ⟨hn, hna⟩ := forall_mem_cons.mp hna
    obtain ⟨extra, he, -, hp⟩ := ih hna
    refine ⟨extra, he, nofun, fun x hx => ?_⟩
    rw [pieces_word_comma hx (Setting.isClose_isSpacing hc) (Setting.all_isSpacing hsp), hp n hn.2]
    rfl

theorem bones_join_newline : ∀ rs : List Text, bones (Text.join "\n" rs) = (rs.map bones).flatten
  | [] => rfl
  | [r] => by simp [Text.join]
  | r :: next :: rs => by
    rw [join_newline_cons _ (by simp), bones_append, map_cons, flatten_cons, ← bones_join_newline (next :: rs)]
    rfl

theorem bones_dropEmptyRows (s : Text) : bones (dropEmptyRows s) = bones s := by
  have hro (rs : List Text) : ((rs.filter isFilled).map bones).flatten = (rs.map bones).flatten := by
    induction rs with
    | nil => rfl
    | cons r rs ih =>
      cases hr : isFilled r with
      | true => rw [filter_cons_of_pos hr, map_cons, map_cons, flatten_cons, flatten_cons, ih]
      | false =>
        have hs : r.all isSpacing := all_eq_true.mpr fun c hc => by
          rw [isSpacing, all_eq_true.mp (isFilled_eq_false_iff.mp hr) c hc, Bool.true_or]
        rw [filter_cons_of_neg (by simp [hr]), map_cons, flatten_cons, bones_of_spacing hs, ih, nil_append]
  calc bones (dropEmptyRows s) = bones (Text.join "\n" (s.rows.filter isFilled)) ++ bones ['\n'] := bones_append ..
    _ = (s.rows.map bones).flatten := by rw [bones_join_newline, hro, bones_of_spacing (by decide), append_nil]
    _ = bones s := by rw [← bones_join_newline, join_rows]

/-! ## Parentheses -/

theorem mem_of_mem_join_newline {c : Char} (hc : c ≠ '\n') : ∀ {rs : List Text}, c ∈ Text.join "\n" rs → ∃ r ∈ rs, c ∈ r
  | [r], h => ⟨r, mem_singleton.mpr rfl, h⟩
  | r :: next :: rs, h => by
    rw [join_newline_cons _ (by simp), mem_append, mem_cons] at h
    rcases h with h | h | h
    · exact ⟨r, mem_cons_self, h⟩
    · exact absurd h hc
    · obtain ⟨r', hr', hm⟩ := mem_of_mem_join_newline hc h
      exact ⟨r', mem_cons_of_mem _ hr', hm⟩

theorem mem_of_mem_dropEmptyRows {c : Char} (hc : c ≠ '\n') (h : c ∈ dropEmptyRows s) : c ∈ s := by
  rw [dropEmptyRows_eq, mem_append, mem_singleton] at h
  obtain ⟨r, hr, hm⟩ := mem_of_mem_join_newline hc (h.resolve_right hc)
  exact (infix_of_mem_rows s r (mem_filter.mp hr).1).subset hm

theorem paren_notMem_of_blank (h : s.all isRowBlank) : '(' ∉ s := fun hm =>
  absurd (all_eq_true.mp h _ hm) (by decide)

theorem Setting.paren_notMem (h : S.isSpace s) : '(' ∉ s := by
  have hr (bare : Bool) (h : spaceOverRows bare s) : '(' ∉ s := by
    refine spaceOverRows_induction (motive := fun s => '(' ∉ s) not_mem_nil ?_ ?_ ?_ s h
    · exact fun s _ ih => by simpa using ih
    · exact fun s _ _ ih => by simpa using ih
    · intro c s hc _ ih hm
      rcases mem_cons.mp hm with rfl | hm
      · exact absurd hc (by decide)
      · exact ih hm
  cases S with
  | row => exact paren_notMem_of_blank h
  | parentheses => exact hr true h
  | continued => exact hr false h

theorem IsName.paren_notMem (h : IsName n) : '(' ∉ n := fun hm =>
  absurd (all_eq_true.mp h.2 _ hm) (by decide)

theorem Before.paren_mem_iff (h : Before S names before) (hna : ∀ n ∈ names, IsName n) :
    '(' ∈ before ↔ S = .parentheses := by
  induction h with
  | @first lead space hl hs _ =>
    rw [mem_append, mem_append, or_iff_right (paren_notMem_of_blank hl), or_iff_left (Setting.paren_notMem hs)]
    cases S <;> decide
  | @comma names n front close space _ hc hs ih =>
    obtain ⟨hna, hn⟩ := forall_mem_append.mp hna
    have hn := (hn n (mem_singleton.mpr rfl)).paren_notMem
    have hc := Setting.paren_notMem (Setting.isSpace_of_isClose hc)
    have hs := Setting.paren_notMem hs
    rw [mem_append, or_iff_left, ih hna]
    simp [hn, hc, hs]

theorem Behind.paren_notMem (h : Behind S names behind) (hna : ∀ n ∈ names, IsName n) : '(' ∉ behind := by
  have hcl : '(' ∉ S.closing := by cases S <;> decide
  induction h with
  | @ends close tail hc ht =>
    have hc := Setting.paren_notMem (Setting.isSpace_of_isClose hc)
    simp [hc, hcl, paren_notMem_of_blank ht]
  | @trailing close space tail hS hc hs ht =>
    have hc := Setting.paren_notMem (Setting.isSpace_of_isClose hc)
    simp [hc, hcl, Setting.paren_notMem hs, paren_notMem_of_blank ht]
  | @comma names n rest close space hc hs _ ih =>
    obtain ⟨hn, hna⟩ := forall_mem_cons.mp hna
    have hc := Setting.paren_notMem (Setting.isSpace_of_isClose hc)
    simp [hc, Setting.paren_notMem hs, hn.paren_notMem, ih hna]

theorem pieces_of_imports {list : Text} (hin : indent.all isRowBlank) (ho : IsModule origin)
    (hna : ∀ n ∈ names, IsName n)
    (h : ImportsNames origin names (dropEmptyRows (importHead indent origin ++ list ++ ['\n']))) :
    pieces list = names ∨ (pieces list = names ++ [[]] ∧ '(' ∈ list) := by
  obtain ⟨indent', S, ns, n, ms, before, behind, hin', rfl, hb, hbe, ht⟩ := h
  obtain ⟨hns, hnms⟩ := forall_mem_append.mp hna
  obtain ⟨hn, hms⟩ := forall_mem_cons.mp hnms
  have hh {i : Text} (hi : i.all isRowBlank) (s : Text) : bones (importHead i origin ++ s ++ ['\n']) =
      bones ("from " ++ (origin ++ " import")) ++ bones s := by
    rw [bones_append, bones_append, importHead, bones_append, bones_of_spacing (all_isSpacing_of_blank hi),
      bones_of_spacing (s := ['\n']) (by decide), nil_append, append_nil]
  have hbo : bones list = bones (before ++ (n ++ behind)) := by
    have hs := congrArg bones ht
    rw [bones_dropEmptyRows, hh hin, hh hin'] at hs
    exact append_cancel_left hs
  obtain ⟨extra, he, -, hp⟩ := hbe.pieces hms
  have hl : pieces list = ns ++ n :: (ms ++ extra) := by
    rw [pieces, hbo]
    exact (hb.pieces hns _).trans (congrArg (ns ++ ·) (hp n hn.2))
  rcases he with rfl | ⟨hS, rfl⟩
  · rw [append_nil] at hl
    exact .inl hl
  · refine .inr ⟨by rw [hl]; simp, ?_⟩
    have hop : '(' ∈ dropEmptyRows (importHead indent origin ++ list ++ ['\n']) := by
      rw [ht]
      simp [(hb.paren_mem_iff hns).mpr hS]
    have hm := mem_of_mem_dropEmptyRows (by decide) hop
    have hno : '(' ∉ importHead indent origin := notMem_importHead hin ho (by decide) (by decide) (by decide)
    simpa [hno] using hm

end Reading

end QtMigration
