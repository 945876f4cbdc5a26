import QtMigration.Proofs.Text.Trim
import QtMigration.Proofs.Token.Scan

/-!
# Proofs/Token/Order — tokens follow each other along the rows

A row is a text without carriage returns whose newline, if it has one, comes last.
-/

namespace QtMigration

open List Text

variable {tokens : List Token} {row : Nat} {o : OpenString} {st st' : ScanState} {line : Text} {t : Token}

/-! ## Rows -/

def Text.OneRow (s : Text) : Prop := '\n' ∉ s.dropLast

namespace Text.OneRow

variable {s rest : Text}

theorem eq_nil (h : OneRow (s ++ rest)) (hs : '\n' ∈ s) : rest = [] := by
  refine Classical.byContradiction fun hne => h ?_
  rw [dropLast_append_of_ne_nil hne]
  exact mem_append_left _ hs

theorem suffix (h : OneRow s) (hr : rest <:+ s) : OneRow rest := by
  obtain ⟨front, rfl⟩ := hr
  by_cases hne : rest = []
  · simp [OneRow, hne]
  · rw [OneRow, dropLast_append_of_ne_nil hne] at h
    exact fun hm => h (mem_append_right _ hm)

theorem getLast?_eq (h : OneRow s) (hs : '\n' ∈ s) : s.getLast? = some '\n' := by
  obtain ⟨front, back, rfl⟩ := append_of_mem hs
  obtain rfl : back = [] := eq_nil (s := front ++ ['\n']) (by simpa using h) (by simp)
  exact getLast?_concat

theorem mem_suffix (h : OneRow s) (hr : rest <:+ s) (hne : rest ≠ []) (hs : '\n' ∈ s) : '\n' ∈ rest := by
  obtain ⟨front, rfl⟩ := hr
  rcases mem_append.mp hs with hm | hm
  · exact absurd (h.eq_nil hm) hne
  · exact hm

end Text.OneRow

theorem Text.oneRow_of_mem_rowsWithEnds (s : Text) : ∀ row ∈ s.rowsWithEnds, row ≠ [] ∧ Text.OneRow row := by
  induction s using Text.rowInduction with
  | nil => simp [Text.rowsWithEnds]
  | newline s ih =>
    rw [rowsWithEnds_newline]
    exact forall_mem_cons.mpr ⟨⟨by simp, by simp [OneRow]⟩, ih⟩
  | single c hc =>
    rw [rowsWithEnds_singleton hc]
    exact forall_mem_singleton.mpr ⟨by simp, by simp [OneRow]⟩
  | cons c s hc hs ih =>
    obtain ⟨row, rest, hr⟩ := exists_rowsWithEnds hs
    rw [hr] at ih
    rw [rowsWithEnds_cons hc hr]
    obtain ⟨⟨hne, hrow⟩, hre⟩ := forall_mem_cons.mp ih
    refine forall_mem_cons.mpr ⟨⟨by simp, ?_⟩, hre⟩
    rw [OneRow, dropLast_cons_of_ne_nil hne, mem_cons, not_or]
    exact ⟨Ne.symm hc, hrow⟩

/-- A row: no carriage return, and a newline only at its end. -/
def Text.IsRow (s : Text) : Prop := '\r' ∉ s ∧ '\n' ∉ s.dropLast

namespace Text.IsRow

variable {s rest : Text}

theorem oneRow (h : IsRow s) : OneRow s := h.2

theorem suffix (h : IsRow s) (hr : rest <:+ s) : IsRow rest :=
  ⟨fun hm => h.1 (hr.subset hm), h.oneRow.suffix hr⟩

end Text.IsRow

theorem Text.isRow_of_mem_rowsWithEnds {s : Text} (h : '\r' ∉ s) : ∀ row ∈ s.rowsWithEnds, Text.IsRow row := by
  intro row hr
  refine ⟨fun hm => h ?_, (oneRow_of_mem_rowsWithEnds s row hr).2⟩
  rw [← flatten_rowsWithEnds s]
  exact mem_flatten_of_mem hr hm

/-! ## The tokens of a row -/

def Token.endsRow (t : Token) : Bool := t.kind == .newline || t.kind == .lineBreak

/-- The token neither ends a row or the text nor is a comment. -/
def Token.isPlain (t : Token) : Bool := !t.endsRow && t.kind != .comment && t.kind != .finish

theorem Token.isPlain_of_kind (h : t.kind ∉ [.newline, .lineBreak, .comment, .finish]) : t.isPlain := by
  simp only [mem_cons, not_mem_nil, or_false, not_or] at h
  simp [isPlain, endsRow, h]

theorem Token.isPlain_iff : t.isPlain ↔ t.endsRow = false ∧ t.kind ≠ .comment ∧ t.kind ≠ .finish := by
  simp [isPlain, and_assoc]

theorem Token.endsRow_of_isPlain (h : t.isPlain) : t.endsRow = false :=
  (isPlain_iff.mp h).1

theorem Token.kind_of_endsRow (h : t.endsRow) : t.kind = .newline ∨ t.kind = .lineBreak := by
  simpa [endsRow] using h

/-- **The tokens of a row**: plain ones, then maybe a comment, then maybe the end of the row. -/
inductive RowShape (closed unended : Prop) : List Token → Prop
  | nil : RowShape closed unended []
  | lineEnd {e : Token} (he : e.endsRow = true) (h : closed) : RowShape closed unended [e]
  | comment {c : Token} (hc : c.kind = .comment) (h : unended) : RowShape closed unended [c]
  | commented {c e : Token} (hc : c.kind = .comment) (he : e.endsRow = true) (h : closed) :
      RowShape closed unended [c, e]
  | plain {t : Token} {ts : List Token} (ht : t.isPlain = true) (h : RowShape closed unended ts) :
      RowShape closed unended (t :: ts)

namespace RowShape

variable {closed unended : Prop} {ts : List Token}

theorem plain_append {front : List Token} (hf : ∀ t ∈ front, t.isPlain)
    (h : RowShape closed unended ts) : RowShape closed unended (front ++ ts) := by
  induction front with
  | nil => exact h
  | cons t front ih =>
    obtain ⟨ht, hf⟩ := forall_mem_cons.mp hf
    exact .plain ht (ih hf)

variable (h : RowShape closed unended ts)
include h

theorem pairwise : ts.Pairwise fun t _ => t.endsRow = false := by
  induction h with
  | nil => exact List.Pairwise.nil
  | lineEnd | comment => exact pairwise_singleton _ _
  | commented hc he =>
    refine pairwise_pair.mpr ?_
    simp [Token.endsRow, hc]
  | plain ht _ ih => exact pairwise_cons.mpr ⟨fun _ _ => Token.endsRow_of_isPlain ht, ih⟩

theorem closed_of_mem (ht : t ∈ ts) (he : t.endsRow) : closed := by
  induction h with
  | nil => cases ht
  | lineEnd _ hcl => exact hcl
  | comment hc =>
    rw [mem_singleton.mp ht, Token.endsRow, hc] at he
    cases he
  | commented _ _ hcl => exact hcl
  | plain hp _ ih =>
    rcases mem_cons.mp ht with rfl | ht
    · rw [Token.endsRow_of_isPlain hp] at he
      cases he
    · exact ih ht

theorem ne_finish : ∀ t ∈ ts, t.kind ≠ .finish := by
  have hen : ∀ {e : Token}, e.endsRow → e.kind ≠ .finish := fun he => by
    rcases Token.kind_of_endsRow he with hk | hk <;> rw [hk] <;> nofun
  have hco : ∀ {c : Token}, c.kind = .comment → c.kind ≠ .finish := fun hc => by rw [hc]; nofun
  induction h with
  | nil => nofun
  | lineEnd he => exact forall_mem_singleton.mpr (hen he)
  | comment hc => exact forall_mem_singleton.mpr (hco hc)
  | commented hc he => exact forall_mem_cons.mpr ⟨hco hc, forall_mem_singleton.mpr (hen he)⟩
  | plain ht _ ih => exact forall_mem_cons.mpr ⟨(Token.isPlain_iff.mp ht).2.2, ih⟩

theorem mono {closed' unended' : Prop} (hcl : closed → closed')
    (hu : unended → unended') : RowShape closed' unended' ts := by
  induction h with
  | nil => exact .nil
  | lineEnd he h => exact .lineEnd he (hcl h)
  | comment hc h => exact .comment hc (hu h)
  | commented hc he h => exact .commented hc he (hcl h)
  | plain ht _ ih => exact .plain ht ih

end RowShape

/-! ## One row -/

theorem scanRow_skip (row : Nat) (line : Text) (st : ScanState) : ∀ (skip col : Nat) (s : Text),
    scanRow row line skip st col s = scanRow row line 0 st (col + skip) (s.drop skip)
  | 0, _, _ => rfl
  | skip + 1, col, [] => by rw [drop_nil, scanRow, scanRow]
  | skip + 1, col, c :: cs => by
    rw [scanRow, scanRow_skip row line st skip (col + 1) cs, drop_succ_cons, Nat.add_assoc, Nat.add_comm 1 skip]

/-- **A step of a row finds at most one token**: a plain one, a comment or the end of the row. -/
theorem rowStep_tokens (row : Nat) (line : Text) (st : ScanState) (col : Nat) {s : Text} (hs : s.IsRow) :
    let step := rowStep row line st col s
    (step.length = none ∧ step.tokens = [] ∧
      (step.state = st ∨ ∃ o, step.state.openString = some o ∧ o.start.row = row)) ∨
    ∃ n, step.length = some n ∧ step.state.openString = st.openString ∧ ((step.tokens = [] ∧ s.drop n = []) ∨
        ∃ t, step.tokens = [t] ∧ t.start.row = row ∧ (t.isPlain ∨
            (t.kind = .comment ∧ n ≠ 0 ∧ ((s.drop n = [] ∧ '\n' ∉ s) ∨ s.drop n = ['\n'])) ∨
            (t.endsRow ∧ s.drop n = [] ∧ '\n' ∈ s))) := by
  have hb : s.dropWhile isRowBlank <:+ s := dropWhile_suffix _
  simp only [rowStep]
  split
  · exact .inl ⟨rfl, rfl, .inl rfl⟩
  next hf =>
  split
  · exact .inr ⟨1, rfl, rfl, .inr ⟨_, rfl, rfl, .inl rfl⟩⟩
  next l text rest hl =>
    have hsp := lexeme?_splits hl
    have hd : s.drop (col + (s.length - (s.dropWhile isRowBlank).length) + text.length - col) = rest := by
      have hw : s.takeWhile isRowBlank ++ text ++ rest = s := by
        rw [append_assoc, hsp, takeWhile_append_dropWhile]
      have hco : col + (s.length - (s.dropWhile isRowBlank).length) + text.length - col =
          (s.takeWhile isRowBlank ++ text).length := by
        have ht := congrArg List.length (takeWhile_append_dropWhile (p := isRowBlank) (l := s))
        simp only [length_append] at ht ⊢
        omega
      exact (congrArg (List.drop _) hw.symm).trans (drop_left' hco.symm)
    have hr : (text ++ rest).IsRow := hsp ▸ hs.suffix hb
    have hm : '\n' ∈ text → '\n' ∈ s := fun h =>
      hb.subset (hsp ▸ mem_append_left rest h)
    rcases lexeme?_cases hl with ⟨rfl, hlex⟩ | ⟨rfl, hlex⟩ | ⟨rfl, hlex⟩ | ⟨kind, hk, rfl⟩ | ⟨closing, rfl⟩ |
      ⟨closing, rfl⟩
    · refine .inr ⟨_, rfl, rfl, .inl ⟨rfl, ?_⟩⟩
      rw [hd, hr.oneRow.eq_nil (newline_mem_of_rowContinuation hlex)]
    · have hn := newline_mem_of_lineEnd hlex
      refine .inr ⟨_, rfl, rfl, .inr ⟨_, rfl, rfl, .inr (.inr ⟨?_, ?_, hm hn⟩)⟩⟩
      · rw [Token.endsRow, ScanState.lineEndKind]
        split <;> rfl
      · rw [hd, hr.oneRow.eq_nil hn]
    · obtain ⟨hne, hc, hh⟩ := rest_of_commentLexeme hlex
      have hp := length_pos_iff.mpr hne
      refine .inr ⟨_, rfl, rfl, .inr ⟨_, rfl, rfl, .inr (.inl ⟨rfl, by omega, ?_⟩)⟩⟩
      rw [hd]
      cases rest with
      | nil =>
        refine .inl ⟨rfl, fun hin => hc ?_⟩
        have hbo := hs.oneRow.mem_suffix hb (by simpa using hf) hin
        rwa [← hsp, append_nil] at hbo
      | cons c rest =>
        refine .inr ?_
        rcases hh c rfl with rfl | rfl
        · exact absurd (mem_append_right _ mem_cons_self) hr.1
        · have hnil : rest = [] :=
            Text.OneRow.eq_nil (s := text ++ ['\n']) (by simpa using hr.oneRow) (by simp)
          rw [hnil]
    · refine .inr ⟨_, rfl, ?_, .inr ⟨_, rfl, rfl, .inl (Token.isPlain_of_kind ?_)⟩⟩
      · dsimp only
        split
        · exact st.bracket_openString text
        · rfl
      · exact (show ∀ kind ∈ wholeKinds, kind ∉ [.newline, .lineBreak, .comment, .finish] by decide) kind hk
    · dsimp only
      split
      next more rest' he =>
        exact .inr ⟨_, rfl, rfl, .inr ⟨_, rfl, rfl, .inl rfl⟩⟩
      · exact .inl ⟨rfl, rfl, .inr ⟨_, rfl, rfl⟩⟩
    · exact .inl ⟨rfl, rfl, .inr ⟨_, rfl, rfl⟩⟩

theorem scanRow_newline (row : Nat) (line : Text) (st : ScanState) (col : Nat) : scanRow row line 0 st col ['\n'] =
      ([⟨st.lineEndKind, ['\n'], ⟨row, col⟩, ⟨row, col + 1⟩, line⟩], st) := by
  have hl : lexeme? ['\n'] = some (.lineEnd, ['\n'], []) := by decide
  have hb : (['\n'] : Text).dropWhile isRowBlank = ['\n'] := by decide
  simp [scanRow, rowStep, hb, hl]

theorem scanRow_shape (row : Nat) {line : Text} (hli : line.IsRow) : ∀ (skip : Nat) (st : ScanState)
    (col : Nat) (s : Text), s <:+ line → st.openString = none →
      let r := scanRow row line skip st col s
      RowShape ('\n' ∈ line) ('\n' ∉ line) r.1 ∧ (∀ t ∈ r.1, t.start.row = row) ∧
        ∀ o, r.2.openString = some o → o.start.row = row ∧ ∀ t ∈ r.1, t.endsRow = false
  | _, st, _, [], _, hst => by
    rw [scanRow]
    exact ⟨.nil, by simp, fun o ho => by rw [hst] at ho; cases ho⟩
  | skip + 1, st, col, c :: cs, hs, hst => by
    rw [scanRow]
    exact scanRow_shape row hli skip st (col + 1) cs ((suffix_cons c cs).trans hs) hst
  | 0, st, col, c :: cs, hs, hst => by
    have hcs : cs <:+ line := (suffix_cons c cs).trans hs
    have hstep := rowStep_tokens row line st col (hli.suffix hs)
    rw [scanRow]
    revert hstep
    generalize rowStep row line st col (c :: cs) = step
    rintro (⟨hlen, ht, hstate⟩ | ⟨n, hlen, hop, hca⟩)
    · rw [hlen, ht]
      refine ⟨.nil, by simp, fun o ho => ⟨?_, by simp⟩⟩
      rcases hstate with hstate | ⟨o', ho', hr⟩
      · rw [hstate, hst] at ho
        cases ho
      · rw [ho'] at ho
        exact Option.some.inj ho ▸ hr
    · have hst' : step.state.openString = none := hop.trans hst
      obtain ⟨hsh, hr, hstring⟩ :=
        scanRow_shape row hli (n - 1) step.state (col + 1) cs hcs hst'
      -- what the walk finds behind the step, when little is left of the row
      have hre : n ≠ 0 → scanRow row line (n - 1) step.state (col + 1) cs =
          scanRow row line 0 step.state (col + 1 + (n - 1)) ((c :: cs).drop n) := fun hn => by
        rw [scanRow_skip, ← Nat.succ_pred_eq_of_ne_zero hn]
        rfl
      rw [hlen]
      dsimp only
      rcases hca with ⟨ht, -⟩ | ⟨t, ht, htr, hp | ⟨hc, hn, hl⟩ | ⟨he, hl, hm⟩⟩
      · rw [ht]
        exact ⟨hsh, hr, hstring⟩
      · rw [ht]
        exact ⟨.plain hp hsh, forall_mem_cons.mpr ⟨htr, hr⟩, fun o ho =>
          ⟨(hstring o ho).1, forall_mem_cons.mpr ⟨Token.endsRow_of_isPlain hp, (hstring o ho).2⟩⟩⟩
      · rw [ht, hre hn]
        rcases hl with ⟨hl, hne⟩ | hl
        · rw [hl, scanRow]
          refine ⟨.comment hc fun hin => hne ?_, forall_mem_singleton.mpr htr, ?_⟩
          · exact hli.oneRow.mem_suffix hs (by simp) hin
          · exact fun o ho => by rw [hst'] at ho; cases ho
        · have hin : '\n' ∈ line := hs.subset (mem_of_mem_drop (hl ▸ mem_singleton.mpr rfl))
          rw [hl, scanRow_newline]
          refine ⟨.commented hc ?_ hin, ?_, fun o ho => by rw [hst'] at ho; cases ho⟩
          · rw [Token.endsRow, ScanState.lineEndKind]
            split <;> rfl
          · exact forall_mem_cons.mpr ⟨htr, forall_mem_singleton.mpr rfl⟩
      · have hn : n ≠ 0 := by rintro rfl; cases hl
        rw [ht, hre hn, hl, scanRow]
        exact ⟨.lineEnd he (hs.subset hm), forall_mem_singleton.mpr htr,
          fun o ho => by rw [hst'] at ho; cases ho⟩

def Text.isClosed (row : Text) : Bool :=
  (row.getLast?.all fun c => c == '\r' || c == '\n') || row.trim.startsWith "#"

theorem Text.IsRow.isClosed (h : line.IsRow) (hl : '\n' ∈ line) : line.isClosed := by
  rw [Text.isClosed, h.oneRow.getLast?_eq hl]
  rfl

theorem Text.isClosed_of_comment {rest : Text} (h : line.dropWhile isRowBlank = '#' :: rest) :
    line.isClosed := by
  rw [Text.isClosed, Bool.or_eq_true]
  refine .inr ?_
  induction line with
  | nil => cases h
  | cons c line ih =>
    rw [dropWhile_cons] at h
    split at h
    next hc =>
      rw [trim_cons_blank (isBlank_of_isRowBlank hc)]
      exact ih h
    · rw [h, ← singleton_append, trim_append (by simp) (forall_mem_singleton.mpr (by decide))]
      rfl

theorem blankRow_shape (row : Nat) (hl : line.IsRow) {c : Char} {rest : Text}
    (hb : line.dropWhile isRowBlank = c :: rest) (hc : (c == '#' || c == '\r' || c == '\n')) :
    RowShape (line.isClosed) ('\n' ∉ line)
      (blankRow row line (line.takeWhile isRowBlank) (line.dropWhile isRowBlank)) := by
  have hm : c ∈ line := (dropWhile_suffix isRowBlank).subset (hb ▸ mem_cons_self)
  rw [blankRow]
  simp only [Bool.or_eq_true, beq_iff_eq] at hc
  split
  next hco =>
    refine .commented rfl rfl ?_
    rcases hc with (rfl | rfl) | rfl
    · exact isClosed_of_comment hb
    · exact absurd hm hl.1
    · exact hl.isClosed hm
  next hco =>
    refine .lineEnd rfl (hl.isClosed ?_)
    rcases hc with (rfl | rfl) | rfl
    · rw [hb] at hco
      exact absurd rfl hco
    · exact absurd hm hl.1
    · exact hm

theorem blankRow_start (row : Nat) (line blanks body : Text) :
    ∀ t ∈ blankRow row line blanks body, t.start.row = row := by
  rw [blankRow]
  split <;> simp

theorem blockTokens_plain {blanks : Text} {indents indents' : List Nat}
    (h : blockTokens row line blanks indents = .ok (tokens, indents')) :
    ∀ t ∈ tokens, t.isPlain ∧ t.start.row = row := by
  simp only [blockTokens] at h
  split at h
  · cases h
    exact forall_mem_singleton.mpr ⟨rfl, rfl⟩
  split at h
  · split at h
    · cases h
      exact forall_mem_map.mpr fun _ _ => ⟨rfl, rfl⟩
    · cases h
  · cases h
    simp

/-- The row on which an open string begins, or else the given one. -/
def ScanState.floor (st : ScanState) (row : Nat) : Nat := (st.openString.map (·.start.row)).getD row

theorem ScanState.floor_of_none (h : st.openString = none) (row : Nat) : st.floor row = row := by
  rw [floor, h]
  rfl

theorem ScanState.floor_of_some (h : st.openString = some o) (row : Nat) : st.floor row = o.start.row := by
  rw [floor, h]
  rfl

/-- **The tokens of a row.** -/
structure RowTokens (row : Nat) (line : Text) (st : ScanState) (tokens : List Token) (st' : ScanState) :
    Prop where
  shape : RowShape (line.isClosed = true) ('\n' ∉ line) tokens
  later : tokens.Pairwise fun _ u => u.start.row = row
  start : ∀ t ∈ tokens, st.floor row ≤ t.start.row ∧ t.start.row ≤ row
  string : ∀ o, st'.openString = some o → (o.start.row = row ∧ ∀ t ∈ tokens, t.endsRow = false) ∨
    (tokens = [] ∧ o.start.row = st.floor row)

theorem RowTokens.of_start
    (hsh : RowShape (line.isClosed) ('\n' ∉ line) tokens) (hf : st.floor row ≤ row)
    (hr : ∀ t ∈ tokens, t.start.row = row)
    (hs : ∀ o, st'.openString = some o → o.start.row = row ∧ ∀ t ∈ tokens, t.endsRow = false) :
    RowTokens row line st tokens st' where
  shape := hsh
  later := pairwise_of_forall_mem_list fun _ _ u hu => hr u hu
  start t ht := by rw [hr t ht]; exact ⟨hf, Nat.le_refl _⟩
  string o ho := .inl (hs o ho)

theorem continueString_tokens (hl : line.IsRow) (ho : st.openString = some o) (hfl : st.floor row ≤ row)
    (h : continueString row line st o = .go tokens st') : RowTokens row line st tokens st' := by
  have hst := ScanState.floor_of_some ho row
  have hf : st.floor row ≤ o.start.row ∧ o.start.row ≤ row := by omega
  rw [continueString] at h
  split at h
  next text rest he =>
    cases h
    obtain ⟨hsh, hr, hs⟩ := scanRow_shape row hl 0
      { st with needsMark := false, openString := none } text.length rest
      ⟨text, splits_stringEnd o.closing he⟩ rfl
    exact {
      shape := .plain rfl (hsh.mono hl.isClosed id)
      later := pairwise_cons.mpr ⟨hr, pairwise_of_forall_mem_list fun _ _ u hu => hr u hu⟩
      start := forall_mem_cons.mpr ⟨hf, fun t ht => by rw [hr t ht]; omega⟩
      string := fun o' ho' => .inl ⟨(hs o' ho').1, forall_mem_cons.mpr ⟨rfl, (hs o' ho').2⟩⟩ }
  split at h
  · cases h
    exact {
      shape := .plain rfl .nil
      later := pairwise_singleton _ _
      start := forall_mem_singleton.mpr hf
      string := fun _ ho' => by cases ho' }
  · cases h
    exact {
      shape := .nil
      later := List.Pairwise.nil
      start := by simp
      string := fun o' ho' => .inr ⟨rfl, by rw [← Option.some.inj ho', hst]⟩ }

theorem newStatement_tokens
    (hl : line.IsRow) (hst : st.openString = none) (h : newStatement row line st = .go tokens st') :
    RowTokens row line st tokens st' := by
  have hf : st.floor row ≤ row := Nat.le_of_eq (ScanState.floor_of_none hst row)
  simp only [newStatement] at h
  split at h
  · cases h
  next c rest hbo =>
  split at h
  next hc =>
    cases h
    exact .of_start (blankRow_shape row hl hbo hc) hf (blankRow_start _ _ _ _)
      fun o ho => by rw [hst] at ho; cases ho
  split at h
  · cases h
  next block indents hb =>
    cases h
    obtain ⟨hsh, hr, hs⟩ := scanRow_shape row hl 0 { st with indents := indents }
      (line.takeWhile isRowBlank).length (line.dropWhile isRowBlank) (dropWhile_suffix _) hst
    have hp := blockTokens_plain hb
    refine .of_start ?_ hf ?_ fun o ho => ⟨(hs o ho).1, ?_⟩
    · exact (hsh.mono hl.isClosed id).plain_append fun t ht => (hp t ht).1
    · exact forall_mem_append.mpr ⟨fun t ht => (hp t ht).2, hr⟩
    · exact forall_mem_append.mpr ⟨fun t ht => Token.endsRow_of_isPlain (hp t ht).1, (hs o ho).2⟩

theorem rowResult_tokens
    (hl : line.IsRow) (hf : st.floor row ≤ row) (h : rowResult row line st = .go tokens st') :
    RowTokens row line st tokens st' := by
  rw [rowResult] at h
  split at h
  next o ho => exact continueString_tokens hl ho hf h
  next hn =>
  split at h
  · exact newStatement_tokens hl hn h
  · cases h
    obtain ⟨hsh, hr, hs⟩ := scanRow_shape row hl 0 { st with continued := false } 0 line
      suffix_rfl hn
    exact .of_start (hsh.mono hl.isClosed id) hf hr hs

theorem RowTokens.floor_le (h : RowTokens row line st tokens st') (hf : st.floor row ≤ row) :
    st.floor row ≤ st'.floor (row + 1) ∧ st'.floor (row + 1) ≤ row + 1 := by
  cases ho : st'.openString with
  | none =>
    rw [ScanState.floor_of_none ho]
    omega
  | some o =>
    rw [ScanState.floor_of_some ho]
    rcases h.string o ho with ⟨hr, -⟩ | ⟨-, hr⟩ <;> omega

/-! ## All rows -/

/-- A token comes before another: it does not finish the text, and it stops no later than the other starts,
on an earlier row if it ends its row. -/
structure Token.Before (t u : Token) : Prop where
  ne_finish : t.kind ≠ .finish
  le : t.stop.row ≤ u.start.row
  lt : t.endsRow = true → t.stop.row < u.start.row

/-- Where a token can start that comes next, behind the row `last`: no earlier than a string that is open
there, and on that row itself only if it has not ended. -/
def ScanState.StartsBehind (st : ScanState) (row : Nat) (last : Text) (u : Token) : Prop :=
  st.floor row ≤ u.start.row ∨ (u.start.row = row - 1 ∧ st.openString = none ∧ last.isClosed = false)

theorem finishTokens_of_isClosed (row : Nat) (last : Text) (st : ScanState) : finishTokens row last st =
      (if last.isClosed then [] else [⟨.newline, [], ⟨row - 1, last.length⟩, ⟨row - 1, last.length + 1⟩, []⟩]) ++
        (((st.indents.drop 1).map fun _ => ⟨.dedent, [], ⟨row, 0⟩, ⟨row, 0⟩, []⟩) ++
          [⟨.finish, [], ⟨row, 0⟩, ⟨row, 0⟩, []⟩]) := by
  rw [finishTokens, Text.isClosed]
  cases last.getLast? <;> simp [Option.all]

theorem startsBehind_finishTokens {last : Text} (hst : st.openString = none) :
    ∀ u ∈ finishTokens row last st, st.StartsBehind row last u := by
  rw [finishTokens_of_isClosed]
  intro u hu
  rcases mem_append.mp hu with hu | hu
  · obtain ⟨hc, hu⟩ := mem_ite_nil_left.mp hu
    rw [mem_singleton.mp hu]
    exact .inr ⟨rfl, hst, Bool.eq_false_iff.mpr hc⟩
  · refine .inl (Nat.le_of_eq ?_)
    rw [ScanState.floor_of_none hst]
    rcases mem_append.mp hu with hu | hu
    · obtain ⟨_, _, rfl⟩ := mem_map.mp hu
      rfl
    · rw [mem_singleton.mp hu]

theorem pairwise_finishTokens_before (hr : 0 < row) (last : Text) (st : ScanState) :
    (finishTokens row last st).Pairwise Token.Before := by
  rw [finishTokens_of_isClosed, pairwise_append, pairwise_append]
  refine ⟨?_, ⟨?_, pairwise_singleton _ _, fun t ht u hu => ?_⟩, fun t ht u hu => ?_⟩
  · split
    · exact List.Pairwise.nil
    · exact pairwise_singleton _ _
  · refine pairwise_map.mpr (pairwise_of_forall fun _ _ => ?_)
    exact ⟨nofun, Nat.le_refl _, nofun⟩
  · obtain ⟨_, _, rfl⟩ := mem_map.mp ht
    rw [mem_singleton.mp hu]
    exact ⟨nofun, Nat.le_refl _, nofun⟩
  · obtain ⟨-, ht⟩ := mem_ite_nil_left.mp ht
    have hu : u.start.row = row := by
      rcases mem_append.mp hu with hu | hu
      · obtain ⟨_, _, rfl⟩ := mem_map.mp hu
        rfl
      · rw [mem_singleton.mp hu]
    rw [mem_singleton.mp ht]
    exact ⟨nofun, by rw [hu]; exact Nat.sub_le _ _, fun _ => by rw [hu]; exact Nat.sub_lt hr Nat.one_pos⟩

theorem openString_of_stop (h : rowResult row line st = .stop) : st.openString = none := by
  rw [rowResult] at h
  split at h
  · rw [continueString] at h
    split at h
    · cases h
    · split at h <;> cases h
  · assumption

theorem RowTokens.before {u : Token}
    (h : RowTokens row line st tokens st') (ht : t ∈ tokens) (hs : t.stop.row = row)
    (hu : st'.StartsBehind (row + 1) line u) : t.Before u := by
  have hf := h.shape.ne_finish t ht
  rcases hu with hu | ⟨hu, -, hop⟩
  · cases ho : st'.openString with
    | none =>
      rw [ScanState.floor_of_none ho] at hu
      exact ⟨hf, by omega, fun _ => by omega⟩
    | some o =>
      rw [ScanState.floor_of_some ho] at hu
      rcases h.string o ho with ⟨hr, hen⟩ | ⟨hn, -⟩
      · refine ⟨hf, by omega, fun he => ?_⟩
        rw [hen t ht] at he
        cases he
      · rw [hn] at ht
        cases ht
  · refine ⟨hf, by omega, fun he => ?_⟩
    rw [h.shape.closed_of_mem ht he] at hop
    cases hop

theorem RowTokens.pairwise_before (h : RowTokens row line st tokens st') (hs : ∀ t ∈ tokens, t.stop.row = row) :
    tokens.Pairwise Token.Before := by
  refine (h.shape.pairwise.and h.later).imp_of_mem fun {t u} ht _ hp => ?_
  refine ⟨h.shape.ne_finish t ht, ?_, fun he => ?_⟩
  · exact Nat.le_of_eq ((hs t ht).trans hp.2.symm)
  · rw [hp.1] at he
    cases he

theorem scanRows_before : ∀ (lines : List Text) (row : Nat) (last : Text) (st : ScanState),
    (∀ line ∈ lines, line.IsRow) → 0 < row → st.floor row ≤ row →
      (∀ u ∈ (scanRows row last st lines).tokens, st.StartsBehind row last u) ∧
        (scanRows row last st lines).tokens.Pairwise Token.Before
  | [], row, last, st, _, hr, _ => by
    rw [scanRows, scanEnd]
    split
    · exact ⟨by simp [Scan.broken], List.Pairwise.nil⟩
    next hn =>
    split
    · exact ⟨startsBehind_finishTokens hn, pairwise_finishTokens_before hr last st⟩
    · exact ⟨by simp [Scan.broken], List.Pairwise.nil⟩
  | line :: lines, row, last, st, hl, hr, hf => by
    obtain ⟨hli, hl⟩ := forall_mem_cons.mp hl
    rw [scanRows]
    split
    next hs =>
      exact ⟨startsBehind_finishTokens (openString_of_stop hs), pairwise_finishTokens_before hr last st⟩
    · exact ⟨by simp [Scan.broken], List.Pairwise.nil⟩
    next tokens st' hgo =>
      have hto := rowResult_tokens hli hf hgo
      have hs := rowResult_stop_row hgo
      obtain ⟨hle, hf'⟩ := hto.floor_le hf
      obtain ⟨hb, hp⟩ := scanRows_before lines (row + 1) line st' hl (Nat.succ_pos row) hf'
      rw [Scan.after_tokens]
      refine ⟨forall_mem_append.mpr ⟨fun u hu => .inl (hto.start u hu).1, fun u hu => .inl ?_⟩,
        pairwise_append.mpr ⟨hto.pairwise_before hs, hp, fun t ht u hu => ?_⟩⟩
      · rcases hb u hu with hst | ⟨hst, -⟩ <;> omega
      · exact hto.before ht (hs t ht) (hb u hu)

theorem start_row_pos {s : Text} (h : '\r' ∉ s) : ∀ t ∈ (scan s).tokens, 0 < t.start.row := by
  intro t ht
  rcases (scanRows_before s.rowsWithEnds 1 [] .initial (isRow_of_mem_rowsWithEnds h) Nat.one_pos
    (Nat.le_refl _)).1 t ht with hs | ⟨-, -, hc⟩
  · exact hs
  · cases hc

theorem pairwise_before {s : Text} (h : '\r' ∉ s) : (scan s).tokens.Pairwise Token.Before :=
  (scanRows_before s.rowsWithEnds 1 [] .initial (isRow_of_mem_rowsWithEnds h) Nat.one_pos (Nat.le_refl _)).2

/-! ## Comments and the ends of their rows -/

/-- What may come behind a comment: the end of its row, or the end of the text. -/
def EndsComment (ts : List Token) : Prop :=
  (∃ e rest, ts = e :: rest ∧ e.endsRow = true) ∨ ∀ u ∈ ts, u.kind = .dedent ∨ u.kind = .finish

/-- Every comment has the end of its row behind it, or the end of the text. -/
def CommentsEnded : List Token → Prop
  | [] => True
  | t :: ts => (t.kind = .comment → EndsComment ts) ∧ CommentsEnded ts

theorem commentsEnded_of_forall : ∀ {ts : List Token}, (∀ t ∈ ts, t.kind ≠ .comment) → CommentsEnded ts
  | [], _ => trivial
  | _ :: _, h => ⟨fun hc => absurd hc (h _ mem_cons_self),
      commentsEnded_of_forall fun t ht => h t (mem_cons_of_mem _ ht)⟩

theorem RowShape.commentsEnded {closed unended : Prop} {ts rest : List Token} (h : RowShape closed unended ts)
    (hu : unended → EndsComment rest) (hr : CommentsEnded rest) : CommentsEnded (ts ++ rest) := by
  induction h with
  | nil => exact hr
  | lineEnd he =>
    refine ⟨fun hc => ?_, hr⟩
    rw [Token.endsRow, hc] at he
    cases he
  | comment _ hun => exact ⟨fun _ => hu hun, hr⟩
  | commented _ he =>
    refine ⟨fun _ => .inl ⟨_, _, rfl, he⟩, fun hc => ?_, hr⟩
    rw [Token.endsRow, hc] at he
    cases he
  | plain ht _ ih =>
    exact ⟨fun hc => absurd hc (Token.isPlain_iff.mp ht).2.1, ih⟩

theorem endsComment_finishTokens (row : Nat) (last : Text) (st : ScanState) :
    EndsComment (finishTokens row last st) := by
  rw [finishTokens_of_isClosed]
  split
  · rw [nil_append]
    refine .inr (forall_mem_append.mpr ⟨forall_mem_map.mpr fun _ _ => .inl rfl, ?_⟩)
    exact forall_mem_singleton.mpr (.inr rfl)
  · exact .inl ⟨_, _, rfl, rfl⟩

theorem commentsEnded_finishTokens (row : Nat) (last : Text) (st : ScanState) :
    CommentsEnded (finishTokens row last st) := by
  refine commentsEnded_of_forall fun t ht => ?_
  rw [finishTokens_of_isClosed, mem_append, mem_append] at ht
  rcases ht with ht | ht | ht
  · rw [mem_singleton.mp (mem_ite_nil_left.mp ht).2]
    nofun
  · obtain ⟨_, _, rfl⟩ := mem_map.mp ht
    nofun
  · rw [mem_singleton.mp ht]
    nofun

theorem scanRows_commentsEnded : ∀ (lines : List Text) (row : Nat) (last : Text) (st : ScanState),
    (∀ line ∈ lines, line.IsRow) → (∀ line ∈ lines.dropLast, '\n' ∈ line) → st.floor row ≤ row →
      CommentsEnded (scanRows row last st lines).tokens ∧
        (lines = [] → EndsComment (scanRows row last st lines).tokens)
  | [], row, last, st, _, _, _ => by
    rw [scanRows]
    rcases scanEnd_cases row last st with ⟨f, h⟩ | h
    · rw [h]
      exact ⟨trivial, fun _ => .inr (by simp [Scan.broken])⟩
    · rw [h]
      exact ⟨commentsEnded_finishTokens row last st, fun _ => endsComment_finishTokens row last st⟩
  | line :: lines, row, last, st, hro, he, hf => by
    obtain ⟨hline, hli⟩ := forall_mem_cons.mp hro
    refine ⟨?_, fun hn => by cases hn⟩
    rw [scanRows]
    split
    · exact commentsEnded_finishTokens row last st
    · trivial
    next tokens st' hgo =>
      have ht := rowResult_tokens hline hf hgo
      have he' : ∀ l ∈ lines.dropLast, '\n' ∈ l := fun l hl => he l (by
        cases lines with
        | nil => simp at hl
        | cons next lines => exact mem_cons_of_mem _ hl)
      obtain ⟨hr, hla⟩ := scanRows_commentsEnded lines (row + 1) line st' hli he'
        (ht.floor_le hf).2
      refine ht.shape.commentsEnded (fun hu => hla ?_) hr
      cases lines with
      | nil => rfl
      | cons next lines => exact absurd (he line (by simp)) hu

theorem commentsEnded_scan {s : Text} (h : '\r' ∉ s) : CommentsEnded (scan s).tokens :=
  (scanRows_commentsEnded s.rowsWithEnds 1 [] .initial (isRow_of_mem_rowsWithEnds h)
    s.newline_mem_of_mem_dropLast (Nat.le_refl _)).1

end QtMigration
