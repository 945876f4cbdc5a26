import Mathlib.Data.List.TakeWhile
import QtMigration.Line.Indent
import QtMigration.Proofs.Token.Scan

/-!
# Proofs/Line/Indent — the indentation of a line is decided by its first characters

The indentation is the text of the first token, if that token opens a block.
-/

namespace QtMigration

open List

variable {s : Scan} {blanks kept line row : Text}

/-! ## Rows inside a statement -/

def ScanState.isOpen (st : ScanState) : Bool := st.openString.isSome || st.continued

theorem rowStep_ne_indent (row : Nat) (line : Text) (st : ScanState) (col : Nat) (s : Text) :
    ∀ t ∈ (rowStep row line st col s).tokens, t.kind ≠ .indent := by
  simp only [rowStep]
  split
  · simp
  split
  · simp
  next l text rest hl =>
    cases l with
    | continuation => simp
    | lineEnd => simpa using st.lineEndKind_ne_indent
    | whole kind =>
      intro t ht
      obtain rfl := mem_singleton.mp ht
      exact fun hk : kind = .indent => lexeme?_ne_indent (hk ▸ hl)
    | openString closing => simp
    | tripleOpen closing =>
      dsimp only
      split <;> simp

theorem scanRow_ne_indent (row : Nat) (line : Text) : ∀ (skip : Nat) (st : ScanState) (col : Nat)
    (s : Text), ∀ t ∈ (scanRow row line skip st col s).1, t.kind ≠ .indent
  | _, _, _, [] => by simp [scanRow]
  | skip + 1, st, col, _ :: cs => by
    rw [scanRow]
    exact scanRow_ne_indent row line skip st (col + 1) cs
  | 0, st, col, c :: cs => by
    have hs := rowStep_ne_indent row line st col (c :: cs)
    rw [scanRow]
    revert hs
    generalize rowStep row line st col (c :: cs) = step
    intro hs
    cases hl : step.length with
    | none => exact hs
    | some n =>
      intro t ht
      rcases mem_append.mp ht with ht | ht
      · exact hs t ht
      · exact scanRow_ne_indent row line (n - 1) step.state (col + 1) cs t ht

theorem ScanState.bracket_continued (st : ScanState) (text : Text) : (st.bracket text).continued = st.continued := by
  rw [ScanState.bracket]
  split
  · rfl
  · split <;> rfl

/-- **A step without a token** passes over blanks up to the end of the row, or leaves a string or the
statement open; and a statement that is continued stays so. -/
theorem rowStep_open (row : Nat) (line : Text) (st : ScanState) (col : Nat) (s : Text) :
    let step := rowStep row line st col s
    (st.continued → step.state.continued) ∧
      (step.tokens = [] → step.state.continued ∨ step.length = none ∧
        (step.state.openString.isSome ∨ '\n' ∉ s)) := by
  simp only [rowStep]
  split
  next hbo =>
    refine ⟨id, fun _ => .inr ⟨rfl, .inr fun hm => ?_⟩⟩
    have hb := dropWhile_eq_nil_iff.mp (List.isEmpty_iff.mp hbo) _ hm
    exact absurd hb (by decide)
  split
  · exact ⟨id, by simp⟩
  next l text rest hl =>
    cases l with
    | continuation => exact ⟨fun _ => rfl, fun _ => .inl rfl⟩
    | lineEnd => exact ⟨id, by simp⟩
    | whole kind =>
      refine ⟨fun hst => ?_, by simp⟩
      dsimp only
      split
      · exact (st.bracket_continued text).trans hst
      · exact hst
    | openString closing => exact ⟨id, fun _ => .inr ⟨rfl, .inl rfl⟩⟩
    | tripleOpen closing =>
      dsimp only
      split
      · exact ⟨id, by simp⟩
      · exact ⟨id, fun _ => .inr ⟨rfl, .inl rfl⟩⟩

theorem continued_scanRow (row : Nat) (line : Text) : ∀ (skip : Nat) (st : ScanState) (col : Nat)
    (s : Text), st.continued → (scanRow row line skip st col s).2.continued
  | _, _, _, [], h => by rw [scanRow]; exact h
  | skip + 1, st, col, _ :: cs, h => by
    rw [scanRow]
    exact continued_scanRow row line skip st (col + 1) cs h
  | 0, st, col, c :: cs, h => by
    have hs := (rowStep_open row line st col (c :: cs)).1 h
    rw [scanRow]
    revert hs
    generalize rowStep row line st col (c :: cs) = step
    intro hs
    cases step.length with
    | none => exact hs
    | some n => exact continued_scanRow row line (n - 1) step.state (col + 1) cs hs

theorem open_of_scanRow_nil (row : Nat) (line : Text) : ∀ (skip : Nat) (st : ScanState) (col : Nat)
    (s : Text), (scanRow row line skip st col s).1 = [] → '\n' ∈ s.drop skip →
      (scanRow row line skip st col s).2.isOpen
  | _, _, _, [], _, h => by simp at h
  | skip + 1, st, col, _ :: cs, hn, h => by
    rw [scanRow] at hn ⊢
    exact open_of_scanRow_nil row line skip st (col + 1) cs hn h
  | 0, st, col, c :: cs, hn, h => by
    have hs := (rowStep_open row line st col (c :: cs)).2
    rw [scanRow] at hn ⊢
    revert hs hn
    generalize rowStep row line st col (c :: cs) = step
    intro hn hs
    cases hl : step.length with
    | none =>
      rw [hl] at hn
      rcases hs hn with hc | ⟨-, hst | hno⟩
      · simp [ScanState.isOpen, hc]
      · simp [ScanState.isOpen, hst]
      · exact absurd h hno
    | some n =>
      rw [hl] at hn
      obtain ⟨hf, hr⟩ := append_eq_nil_iff.mp hn
      rcases hs hf with hc | ⟨hl', -⟩
      · have := continued_scanRow row line (n - 1) step.state (col + 1) cs hc
        simp [ScanState.isOpen, this]
      · rw [hl] at hl'
        cases hl'

/-! ## The first token -/

def Scan.startsFlat (s : Scan) : Prop := ∀ t, s.tokens.head? = some t → t.kind ≠ .indent

theorem Scan.startsFlat_of_forall (h : ∀ t ∈ s.tokens, t.kind ≠ .indent) : s.startsFlat :=
  fun t ht => h t (mem_of_mem_head? ht)

theorem Scan.startsFlat_after {tokens : List Token}
    (h : ∀ t ∈ tokens, t.kind ≠ .indent) (hs : tokens = [] → s.startsFlat) :
    (s.after tokens).startsFlat := by
  intro t ht
  cases tokens with
  | nil => exact hs rfl t ht
  | cons u us => exact h t (mem_of_mem_head? ht)

theorem finishTokens_ne_indent (row : Nat) (last : Text) (st : ScanState) :
    ∀ t ∈ finishTokens row last st, t.kind ≠ .indent := by
  intro t ht
  simp only [finishTokens, mem_append, mem_singleton, mem_map, mem_ite_nil_left] at ht
  rcases ht with (⟨-, rfl⟩ | ⟨_, -, rfl⟩) | rfl <;> nofun

theorem scanEnd_startsFlat (row : Nat) (last : Text) (st : ScanState) : (scanEnd row last st).startsFlat := by
  rcases scanEnd_cases row last st with ⟨f, h⟩ | h
  · rw [h]
    exact Scan.startsFlat_of_forall (by simp [Scan.broken])
  · rw [h]
    exact Scan.startsFlat_of_forall (finishTokens_ne_indent row last st)

theorem rowResult_of_isOpen {row : Nat} {line : Text} {st : ScanState} (h : st.isOpen) :
    ∃ tokens st', rowResult row line st = .go tokens st' ∧ (∀ t ∈ tokens, t.kind ≠ .indent) ∧
      (tokens = [] → '\n' ∈ line → st'.isOpen) := by
  rw [rowResult]
  cases ho : st.openString with
  | some o =>
    dsimp only
    rw [continueString]
    split
    next text rest _ =>
      refine ⟨_, _, rfl, forall_mem_cons.mpr ⟨by simp, ?_⟩, by simp⟩
      exact scanRow_ne_indent row line 0 _ text.length rest
    split
    · exact ⟨_, _, rfl, by simp, by simp⟩
    · exact ⟨_, _, rfl, by simp, fun _ _ => rfl⟩
  | none =>
    have hc : st.continued := by simpa [ScanState.isOpen, ho] using h
    dsimp only
    rw [hc, Bool.not_true, Bool.and_false, if_neg (by decide)]
    exact ⟨_, _, rfl, scanRow_ne_indent row line 0 _ 0 line,
      fun hn hm => open_of_scanRow_nil row line 0 _ 0 line hn hm⟩

theorem scanRows_head_ne_indent : ∀ (lines : List Text) (row : Nat) (last : Text) (st : ScanState),
    st.isOpen → (∀ line ∈ lines.dropLast, '\n' ∈ line) → (scanRows row last st lines).startsFlat
  | [], row, last, st, _, _ => scanEnd_startsFlat row last st
  | line :: lines, row, last, st, hst, he => by
    obtain ⟨tokens, st', hrow, hk, ho⟩ := @rowResult_of_isOpen row line st hst
    rw [scanRows, hrow]
    refine Scan.startsFlat_after hk fun hn => ?_
    cases lines with
    | nil => exact scanEnd_startsFlat (row + 1) line st'
    | cons next lines =>
      obtain ⟨hline, hr⟩ := forall_mem_cons.mp he
      exact scanRows_head_ne_indent (next :: lines) (row + 1) line st' (ho hn hline) hr

namespace Text

/-! ## The margin -/

/-- **The blanks at the beginning of a line**, if they reach beyond the margin and something else than
a comment or the end of the row follows them. -/
def margin (line : Text) : Text :=
  match line.dropWhile isRowBlank with
  | [] => []
  | c :: _ =>
    if c == '#' || c == '\r' || c == '\n' then []
    else if indentColumn (line.takeWhile isRowBlank) = 0 then [] else line.takeWhile isRowBlank

theorem takeWhile_blank_rows {s : Text} {rest : List Text} (h : rowsWithEnds s = row :: rest) :
    s.takeWhile isRowBlank = row.takeWhile isRowBlank ∧
      (s.dropWhile isRowBlank).head? = (row.dropWhile isRowBlank).head? := by
  have hn : isRowBlank '\n' = false := by decide
  induction s using rowInduction generalizing row rest with
  | nil => cases h
  | newline s _ =>
    rw [rowsWithEnds_newline] at h
    cases h
    simp [hn]
  | single c hc =>
    rw [rowsWithEnds_singleton hc] at h
    cases h
    exact ⟨rfl, rfl⟩
  | cons c s hc hs ih =>
    obtain ⟨row', rest', hr⟩ := exists_rowsWithEnds hs
    rw [rowsWithEnds_cons hc hr] at h
    cases h
    obtain ⟨ht, hd⟩ := ih hr
    cases hb : isRowBlank c with
    | true => simp [hb, ht, hd]
    | false => simp [hb]

theorem margin_eq_row {s : Text} {rest : List Text} (h : rowsWithEnds s = row :: rest) : margin s = margin row := by
  obtain ⟨ht, hd⟩ := takeWhile_blank_rows h
  rw [margin, margin, ht]
  cases hs : s.dropWhile isRowBlank with
  | nil =>
    rw [hs] at hd
    rw [head?_eq_none_iff.mp hd.symm]
  | cons c cs =>
    rw [hs] at hd
    obtain ⟨cs', hr⟩ := head?_eq_some_iff.mp hd.symm
    rw [hr]

theorem indent_of_startsFlat (hf : (scan line).startsFlat) (h : line.indent = .ok kept) : kept = [] := by
  rw [indent] at h
  split at h
  · exact (Except.ok.inj h).symm
  · cases h
  next token rest fault hs =>
    have hk : token.kind ≠ .indent := hf token (by rw [hs]; rfl)
    rw [if_neg (by simpa using hk)] at h
    exact (Except.ok.inj h).symm

theorem indent_of_head {token : Token} {rest : List Token}
    (hs : (scan line).tokens = token :: rest) (hk : token.kind = .indent)
    (h : line.indent = .ok kept) : kept = token.text := by
  rw [indent] at h
  split at h
  next hn => rw [hn] at hs; cases hs
  next hn => rw [hn] at hs; cases hs
  next token' rest' fault hc =>
    rw [hc] at hs
    cases hs
    rw [if_pos (by rw [hk]; rfl)] at h
    exact (Except.ok.inj h).symm

theorem indent_eq_margin (h : line.indent = .ok kept) : kept = line.margin := by
  by_cases hne : line = []
  · subst hne
    refine indent_of_startsFlat ?_ h
    exact scanEnd_startsFlat 1 [] .initial
  obtain ⟨row, rest, hr⟩ := exists_rowsWithEnds hne
  have he := newline_mem_of_mem_dropLast line
  rw [margin_eq_row hr, margin]
  have hs : scan line = scanRows 1 [] .initial (row :: rest) := by rw [scan, hr]
  have hf : rowResult 1 row .initial = newStatement 1 row .initial := rfl
  rw [scanRows, hf, newStatement] at hs
  rw [hr] at he
  cases hbo : row.dropWhile isRowBlank with
  | nil =>
    rw [hbo] at hs
    refine indent_of_startsFlat ?_ h
    rw [hs]
    exact Scan.startsFlat_of_forall (finishTokens_ne_indent 1 [] .initial)
  | cons c cs =>
    rw [hbo] at hs
    dsimp only at hs ⊢
    split
    next hb =>
      rw [if_pos hb] at hs
      refine indent_of_startsFlat ?_ h
      rw [hs]
      refine Scan.startsFlat_after ?_ ?_
      · rw [blankRow]
        split <;> simp
      · intro hn
        rw [blankRow] at hn
        split at hn <;> cases hn
    next hb =>
      rw [if_neg hb, blockTokens] at hs
      have ht : ScanState.initial.indents.headD 0 = 0 := rfl
      rw [ht] at hs
      dsimp only at hs
      split
      next hz =>
        rw [hz, if_neg (by decide), if_neg (by decide)] at hs
        refine indent_of_startsFlat ?_ h
        rw [hs]
        refine Scan.startsFlat_after (scanRow_ne_indent 1 row 0 _ _ _) fun hn => ?_
        cases rest with
        | nil => exact scanEnd_startsFlat 2 row _
        | cons next rest =>
          obtain ⟨hline, hre⟩ := forall_mem_cons.mp he
          refine scanRows_head_ne_indent (next :: rest) 2 row _ ?_ hre
          refine open_of_scanRow_nil 1 row 0 _ _ _ hn ?_
          have hm : '\n' ∈ row.takeWhile isRowBlank ++ row.dropWhile isRowBlank := by
            rw [takeWhile_append_dropWhile]
            exact hline
          rcases mem_append.mp hm with hm | hm
          · exact absurd (all_eq_true.mp all_takeWhile _ hm) (by decide)
          · rwa [hbo] at hm
      next hp =>
        rw [if_pos (Nat.pos_of_ne_zero hp)] at hs
        exact indent_of_head (by rw [hs]; rfl) rfl h

end Text

/-! ## A line that has an indentation -/

section First

variable {a b c : Char} {rest : Text}

theorem stringMark_of_noQuote (hq : ∀ d ∈ [a, b, c], isQuote d = false) : stringMark [a, b, c] = none := by
  simp only [forall_mem_cons] at hq
  simp [stringMark, hq]

theorem stringMark_of_three (h : stringMark [a, b, c] = none) (rest : Text) :
    stringMark (a :: b :: c :: rest) = none := by
  cases ha : isQuote a <;> cases hb : isQuote b <;> simpa [stringMark, ha, hb] using h

variable (hline : '\n' ∉ [a, b, c]) (hmark : stringMark [a, b, c] = none)

include hline hmark

theorem lexeme?_first {l : Lexeme} {x r : Text} (h : lexeme? (a :: b :: c :: rest) = some (l, x, r)) :
    l = .lineEnd ∨ ∃ kind, l = .whole kind := by
  replace hmark := stringMark_of_three hmark rest
  have ht : Matcher.seq stringMark tripleQuote (a :: b :: c :: rest) = none := by
    rw [Matcher.seq, hmark]
  have hs : stringLexeme (a :: b :: c :: rest) = none := by
    rw [stringLexeme, Matcher.seq, hmark]
  have hco : rowContinuation (a :: b :: c :: rest) = none := by
    have hbc := not_mem_of_not_mem_cons hline
    have hb : ('\n' == b) = false := beq_eq_false_iff_ne.mpr (ne_of_not_mem_cons hbc)
    have hc : ('\n' == c) = false :=
      beq_eq_false_iff_ne.mpr (ne_of_not_mem_cons (not_mem_of_not_mem_cons hbc))
    have he : lineEnd (b :: c :: rest) = none := by
      cases hr : '\r' == b <;>
        simp [lineEnd, Matcher.seq, Matcher.opt, Matcher.literal, List.isPrefixOf, hr, hb, hc]
    cases hmark : '\\' == a <;> simp [rowContinuation, Matcher.seq, Matcher.literal, List.isPrefixOf, hmark, he]
  simp only [lexeme?, named, hco, ht, hs, Option.map_none, Option.orElse_eq_orElse,
    Option.orElse_eq_or, Option.or_eq_some_iff, Option.map_eq_some_iff] at h
  rcases h with h | ⟨-, h⟩
  · cases h
  rcases h with ⟨q, hq, h⟩ | ⟨-, h⟩
  · cases h
    exact .inr ⟨_, rfl⟩
  rcases h with h | ⟨-, h⟩
  · cases h
  rcases h with ⟨q, hq, h⟩ | ⟨-, h⟩
  · cases h
    exact .inr ⟨_, rfl⟩
  rcases h with ⟨q, hq, h⟩ | ⟨-, h⟩
  · cases h
    exact .inl rfl
  rcases h with ⟨q, hq, h⟩ | ⟨-, h⟩
  · cases h
    exact .inr ⟨_, rfl⟩
  rcases h with h | ⟨-, h⟩
  · cases h
  obtain ⟨q, hq, h⟩ := h
  cases h
  exact .inr ⟨_, rfl⟩

theorem rowStep_first (hb : isRowBlank a = false) (row : Nat) (line : Text) (st : ScanState) (col : Nat) :
    (rowStep row line st col (a :: b :: c :: rest)).tokens ≠ [] := by
  have hbo : (a :: b :: c :: rest).dropWhile isRowBlank = a :: b :: c :: rest :=
    dropWhile_cons_of_neg (by rw [hb]; decide)
  rw [rowStep]
  dsimp only
  rw [hbo, isEmpty_cons, if_neg (by decide)]
  split
  · simp
  next l x r hl =>
    obtain rfl | ⟨kind, rfl⟩ := lexeme?_first hline hmark hl <;> simp

theorem scanRow_first (hb : isRowBlank a = false) (row : Nat) (line : Text) (st : ScanState) (col : Nat) :
    (scanRow row line 0 st col (a :: b :: c :: rest)).1 ≠ [] := by
  have hs : (rowStep row line st col (a :: b :: c :: rest)).tokens ≠ [] :=
    rowStep_first hline hmark hb row line st col
  rw [scanRow]
  dsimp only
  split
  · exact hs
  · exact fun h => hs (append_eq_nil_iff.mp h).1

end First

namespace Text

theorem isRowBlank_of_isBlank {c : Char} (h : isBlank c = false) : isRowBlank c = false :=
  Bool.eq_false_iff.mpr fun hr => by
    rw [isRowBlank, Bool.or_eq_true, Bool.or_eq_true, beq_iff_eq, beq_iff_eq, beq_iff_eq] at hr
    rcases hr with (rfl | rfl) | rfl <;> exact absurd h (by decide)

theorem exists_first_row {front : Text} (hne : front ≠ []) (h : '\n' ∉ front) (s : Text) :
    ∃ row rows, (front ++ s).rowsWithEnds = (front ++ row) :: rows := by
  induction front with
  | nil => exact absurd rfl hne
  | cons c front ih =>
    obtain ⟨hc, hf⟩ := ne_and_not_mem_of_not_mem_cons h
    by_cases hn : front = []
    · subst hn
      cases s with
      | nil => exact ⟨[], [], rowsWithEnds_singleton (Ne.symm hc)⟩
      | cons d s =>
        obtain ⟨row, rows, hr⟩ := exists_rowsWithEnds (s := d :: s) (by simp)
        exact ⟨row, rows, rowsWithEnds_cons (Ne.symm hc) hr⟩
    · obtain ⟨row, rows, hr⟩ := ih hn hf
      exact ⟨row, rows, rowsWithEnds_cons (Ne.symm hc) hr⟩

theorem exists_blockTokens (row : Nat) (line blanks : Text) :
    ∃ r, blockTokens row line blanks ScanState.initial.indents = .ok r := by
  rw [blockTokens]
  split
  · exact ⟨_, rfl⟩
  · rw [if_neg (by exact Nat.not_lt_zero _)]
    exact ⟨_, rfl⟩

theorem exists_indent {a b c : Char} {rest : Text} (hbl : ∀ d ∈ blanks, isRowBlank d)
    (hline : '\n' ∉ [a, b, c]) (hmark : stringMark [a, b, c] = none) (ha : isBlank a = false) :
    ∃ kept, (blanks ++ a :: b :: c :: rest).indent = .ok kept := by
  have hro := isRowBlank_of_isBlank ha
  have hn : '\n' ∉ blanks ++ [a, b, c] := by
    rw [mem_append, not_or]
    exact ⟨fun hm => absurd (hbl _ hm) (by decide), hline⟩
  obtain ⟨row, rows, hrows⟩ := exists_first_row (by simp) hn rest
  have hrows : (blanks ++ a :: b :: c :: rest).rowsWithEnds = (blanks ++ a :: b :: c :: row) :: rows := by
    simpa using hrows
  have hta : (blanks ++ a :: b :: c :: row).takeWhile isRowBlank = blanks := by
    rw [takeWhile_append_of_pos hbl, takeWhile_cons_of_neg (by rw [hro]; decide), append_nil]
  have hd : (blanks ++ a :: b :: c :: row).dropWhile isRowBlank = a :: b :: c :: row := by
    rw [dropWhile_append_of_pos hbl, dropWhile_cons_of_neg (by rw [hro]; decide)]
  have hfi : ∀ line : Text, rowResult 1 line .initial = newStatement 1 line .initial := fun _ => rfl
  have ht : (scan (blanks ++ a :: b :: c :: rest)).tokens ≠ [] := by
    rw [scan, hrows, scanRows, hfi, newStatement]
    dsimp only
    rw [hta, hd]
    dsimp only
    split
    next hb =>
      split at hb
      · cases hb
      · split at hb <;> cases hb
    next f hf =>
      split at hf
      · cases hf
      · obtain ⟨r, hr⟩ := exists_blockTokens 1 (blanks ++ a :: b :: c :: row) blanks
        rw [hr] at hf
        cases hf
    next tokens st hgo =>
      rw [Scan.after_tokens]
      refine fun hnil => ?_
      obtain ⟨rfl, -⟩ := append_eq_nil_iff.mp hnil
      split at hgo
      · have hrow := (RowResult.go.inj hgo).1
        rw [blankRow] at hrow
        split at hrow <;> cases hrow
      · obtain ⟨r, hr⟩ := exists_blockTokens 1 (blanks ++ a :: b :: c :: row) blanks
        rw [hr] at hgo
        have hrow := (RowResult.go.inj hgo).1
        exact scanRow_first hline hmark hro 1 _ _ _ (append_eq_nil_iff.mp hrow).2
  rw [indent]
  split
  · exact ⟨_, rfl⟩
  next hs =>
    rw [hs] at ht
    exact absurd rfl ht
  · exact ⟨_, rfl⟩

theorem indentColumn_pos (h : ∀ d ∈ blanks, d = ' ' ∨ d = '\t') (hne : blanks ≠ []) : 0 < indentColumn blanks := by
  rcases eq_nil_or_concat blanks with hn | ⟨front, d, rfl⟩
  · exact absurd hn hne
  · rw [indentColumn, concat_eq_append, foldl_append, foldl_cons, foldl_nil]
    rcases h d (by simp) with rfl | rfl
    · exact Nat.succ_pos _
    · exact Nat.mul_pos (Nat.succ_pos _) (by decide)

theorem indent_blanks {a b c : Char} {rest : Text} (hb : ∀ d ∈ blanks, d = ' ' ∨ d = '\t')
    (hline : '\n' ∉ [a, b, c]) (hmark : stringMark [a, b, c] = none) (ha : isBlank a = false)
    (hc : a ≠ '#') : (blanks ++ a :: b :: c :: rest).indent = .ok blanks := by
  have hrow : ∀ d ∈ blanks, isRowBlank d := fun d hd => by
    rcases hb d hd with rfl | rfl <;> decide
  obtain ⟨kept, hk⟩ : ∃ kept, (blanks ++ a :: b :: c :: rest).indent = .ok kept :=
    exists_indent hrow hline hmark ha
  have hs : ∀ d : Char, isBlank d → a ≠ d := fun d hd heq => by
    rw [heq, hd] at ha
    cases ha
  have hr := isRowBlank_of_isBlank ha
  rw [hk, indent_eq_margin hk, margin, dropWhile_append_of_pos hrow,
    dropWhile_cons_of_neg (by rw [hr]; decide), takeWhile_append_of_pos hrow,
    takeWhile_cons_of_neg (by rw [hr]; decide), append_nil]
  dsimp only
  rw [if_neg (by simp [hc, hs '\r' (by decide), hs '\n' (by decide)])]
  split
  next hz =>
    by_cases hn : blanks = []
    · rw [hn]
    · exact absurd hz (indentColumn_pos hb hn).ne'
  · rfl

theorem indent_spaces {a b c : Char} {rest : Text} (hb : ∀ d ∈ blanks, d = ' ')
    (hline : '\n' ∉ [a, b, c]) (hq : ∀ d ∈ [a, b, c], isQuote d = false) (ha : isBlank a = false)
    (hc : a ≠ '#') : (blanks ++ a :: b :: c :: rest).indent = .ok blanks :=
  indent_blanks (fun d hd => .inl (hb d hd)) hline (stringMark_of_noQuote hq) ha hc

end Text

end QtMigration
