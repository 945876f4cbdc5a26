import QtMigration.Token.Scan
import QtMigration.Proofs.Text.Rows
import QtMigration.Proofs.Token.Lexeme

/-!
# Proofs/Token/Scan — where the tokens of a text stand

Every token is a piece of the text (`pieceOf_of_mem_scan`), and the rows at which tokens stop never decrease
(`pairwise_stop_row`).
-/

namespace QtMigration

open List

variable {tokens : List Token} {row : Nat} {st st' : ScanState} {before blanks line s s' : Text} {t : Token}

/-- The token is a piece of this text; if it opens a block, it is made of blanks. -/
structure Token.PieceOf (t : Token) (s : Text) : Prop where
  text_inside : t.text <:+: s
  blank_of_indent : t.kind = .indent → ∀ c ∈ t.text, isRowBlank c = true

theorem Token.PieceOf.mono (h : t.PieceOf s) (hs : s <:+: s') :
    t.PieceOf s' := ⟨h.text_inside.trans hs, h.blank_of_indent⟩

theorem Token.pieceOf_of_ne_indent (hk : t.kind ≠ .indent)
    (hs : t.text <:+: s) : t.PieceOf s := ⟨hs, fun h => absurd h hk⟩

theorem Token.pieceOf_of_nil (h : t.text = []) (s : Text) : t.PieceOf s :=
  ⟨h ▸ nil_infix, fun _ c hc => by rw [h] at hc; exact (not_mem_nil hc).elim⟩

/-- The token stops on this row and is a piece of this text. -/
structure Token.FoundIn (t : Token) (row : Nat) (s : Text) : Prop where
  stop_row : t.stop.row = row
  piece : t.PieceOf s

theorem Token.FoundIn.mono (h : t.FoundIn row s) (hs : s <:+: s') : t.FoundIn row s' := ⟨h.stop_row, h.piece.mono hs⟩

/-- The string that is open after a text, if one is, began in that text and runs to its end. -/
def ScanState.OpenBehind (st : ScanState) (s : Text) : Prop :=
  ∀ o, st.openString = some o → o.text <:+ s

theorem ScanState.openBehind_of_none (h : st.openString = none) (s : Text) :
    st.OpenBehind s := fun o ho => by rw [h] at ho; cases ho

theorem ScanState.OpenBehind.mono (h : st.OpenBehind s)
    (hs : s <:+ s') : st.OpenBehind s' := fun o ho => (h o ho).trans hs

theorem ScanState.lineEndKind_ne_indent (st : ScanState) : st.lineEndKind ≠ .indent := by
  rw [ScanState.lineEndKind]
  split <;> nofun

@[simp] theorem ScanState.bracket_openString (st : ScanState) (text : Text) :
    (st.bracket text).openString = st.openString := by
  rw [ScanState.bracket]
  split
  · rfl
  · split <;> rfl

/-! ## One step -/

theorem rowStep_cases (row : Nat) (line : Text) (st : ScanState) (col : Nat) (s : Text) :
    let step := rowStep row line st col s
    (step.length = none ∧ step.tokens = [] ∧ (step.state = st ∨ step.state.OpenBehind s)) ∨
    (step.length.isSome ∧ step.state.openString = st.openString ∧
      ∀ t ∈ step.tokens, t.FoundIn row s) := by
  have hb : s.dropWhile isRowBlank <:+ s := dropWhile_suffix _
  simp only [rowStep]
  split
  · exact .inl ⟨rfl, rfl, .inl rfl⟩
  split
  · refine .inr ⟨rfl, rfl, fun t ht => ?_⟩
    obtain rfl := mem_singleton.mp ht
    exact ⟨rfl, Token.pieceOf_of_ne_indent nofun ( take_prefix 1 s).isInfix⟩
  next l text rest hl =>
    have hs := lexeme?_splits hl
    have hte : text <:+: s :=
      (List.IsPrefix.isInfix ⟨rest, hs⟩).trans hb.isInfix
    have ho (closing : Text) (start : Position) (marked : Bool) : ScanState.OpenBehind { st with
          needsMark := marked
          openString := some ⟨start, closing, s.dropWhile isRowBlank, line⟩ } s := by
      rintro o ⟨⟩
      exact hb
    cases l with
    | continuation => exact .inr ⟨rfl, rfl, by simp⟩
    | lineEnd =>
      refine .inr ⟨rfl, rfl, fun t ht => ?_⟩
      obtain rfl := mem_singleton.mp ht
      exact ⟨rfl, Token.pieceOf_of_ne_indent st.lineEndKind_ne_indent hte⟩
    | whole kind =>
      refine .inr ⟨rfl, ?_, fun t ht => ?_⟩
      · dsimp only
        split
        · exact st.bracket_openString text
        · rfl
      · obtain rfl := mem_singleton.mp ht
        exact ⟨rfl, Token.pieceOf_of_ne_indent (fun hk : kind = .indent => lexeme?_ne_indent (hk ▸ hl)) hte⟩
    | openString closing => exact .inl ⟨rfl, rfl, .inr (ho closing _ true)⟩
    | tripleOpen closing =>
      dsimp only
      split
      next more rest' he =>
        refine .inr ⟨rfl, rfl, fun t ht => ?_⟩
        obtain rfl := mem_singleton.mp ht
        refine ⟨rfl, Token.pieceOf_of_ne_indent nofun
          (List.IsInfix.trans (List.IsPrefix.isInfix ⟨rest', ?_⟩) hb.isInfix)⟩
        rw [append_assoc, splits_stringEnd closing he, hs]
      · exact .inl ⟨rfl, rfl, .inr (ho closing _ st.needsMark)⟩

/-! ## One row -/

theorem scanRow_spec (row : Nat) (line : Text) : ∀ (skip : Nat) (st : ScanState) (col : Nat)
    (s : Text), st.openString = none → (∀ t ∈ (scanRow row line skip st col s).1, t.FoundIn row s) ∧
        (scanRow row line skip st col s).2.OpenBehind s
  | _, st, _, [], hst => by
    rw [scanRow]
    exact ⟨by simp, st.openBehind_of_none hst _⟩
  | skip + 1, st, col, c :: cs, hst => by
    obtain ⟨htok, ho⟩ := scanRow_spec row line skip st (col + 1) cs hst
    rw [scanRow]
    exact ⟨fun t ht => (htok t ht).mono (suffix_cons c cs).isInfix, ho.mono (suffix_cons c cs)⟩
  | 0, st, col, c :: cs, hst => by
    have hstep := rowStep_cases row line st col (c :: cs)
    rw [scanRow]
    revert hstep
    generalize rowStep row line st col (c :: cs) = step
    rintro (⟨hl, htok, hs⟩ | ⟨hl, ho, htok⟩)
    · rw [hl, htok]
      refine ⟨by simp, ?_⟩
      rcases hs with hs | hs
      · exact hs ▸ st.openBehind_of_none hst _
      · exact hs
    · obtain ⟨n, hn⟩ := Option.isSome_iff_exists.mp hl
      obtain ⟨htok', ho'⟩ :=
        scanRow_spec row line (n - 1) step.state (col + 1) cs (ho.trans hst)
      rw [hn]
      refine ⟨fun t ht => ?_, ho'.mono (suffix_cons c cs)⟩
      rcases mem_append.mp ht with ht | ht
      · exact htok t ht
      · exact (htok' t ht).mono (suffix_cons c cs).isInfix

theorem Text.trimRightWhile_prefix (s : Text) (p : Char → Bool) : s.trimRightWhile p <+: s := by
  rw [trimRightWhile, ← reverse_suffix, reverse_reverse]
  exact dropWhile_suffix p

theorem blankRow_foundIn (row : Nat) {body : Text} (hb : body <:+ line) :
    ∀ t ∈ blankRow row line blanks body, t.FoundIn row line := by
  rw [blankRow]
  split
  · intro t ht
    rcases mem_cons.mp ht with rfl | ht
    · exact ⟨rfl, Token.pieceOf_of_ne_indent nofun ((Text.trimRightWhile_prefix body _).isInfix.trans hb.isInfix)⟩
    · obtain rfl := mem_singleton.mp ht
      exact ⟨rfl, Token.pieceOf_of_ne_indent nofun (drop_suffix _ _).isInfix⟩
  · intro t ht
    obtain rfl := mem_singleton.mp ht
    exact ⟨rfl, Token.pieceOf_of_ne_indent nofun hb.isInfix⟩

theorem blockTokens_foundIn {indents indents' : List Nat} (hb : blanks <+: line)
    (hbl : ∀ c ∈ blanks, isRowBlank c) (h : blockTokens row line blanks indents = .ok (tokens, indents')) :
    ∀ t ∈ tokens, t.FoundIn row line := by
  simp only [blockTokens] at h
  split at h
  · cases h
    intro t ht
    obtain rfl := mem_singleton.mp ht
    exact ⟨rfl, hb.isInfix, fun _ => hbl⟩
  split at h
  · split at h
    · cases h
      intro t ht
      obtain ⟨_, _, rfl⟩ := mem_map.mp ht
      exact ⟨rfl, Token.pieceOf_of_nil rfl line⟩
    · cases h
  · cases h
    simp

theorem newStatement_go (hst : st.openString = none) (h : newStatement row line st = .go tokens st') :
    (∀ t ∈ tokens, t.FoundIn row line) ∧ st'.OpenBehind line := by
  have hb : line.dropWhile isRowBlank <:+ line := dropWhile_suffix _
  simp only [newStatement] at h
  split at h
  · cases h
  next c rest hr =>
  split at h
  · cases h
    exact ⟨blankRow_foundIn row hb, st.openBehind_of_none hst _⟩
  split at h
  · cases h
  next block indents hblock =>
    cases h
    obtain ⟨htok, ho⟩ := scanRow_spec row line 0 { st with indents := indents }
      (line.takeWhile isRowBlank).length (line.dropWhile isRowBlank) hst
    refine ⟨fun t ht => ?_, ho.mono hb⟩
    rcases mem_append.mp ht with ht | ht
    · have hbl := all_eq_true.mp (all_takeWhile (p := isRowBlank) (l := line))
      exact blockTokens_foundIn ( takeWhile_prefix _) hbl hblock t ht
    · exact (htok t ht).mono hb.isInfix

theorem continueString_go {o : OpenString} (ho : o.text <:+ before)
    (h : continueString row line st o = .go tokens st') :
    (∀ t ∈ tokens, t.FoundIn row (before ++ line)) ∧ st'.OpenBehind (before ++ line) := by
  have hrow : line <:+ before ++ line := suffix_append before line
  have hw : o.text ++ line <:+ before ++ line := by
    obtain ⟨front, rfl⟩ := ho
    exact ⟨front, by rw [append_assoc]⟩
  rw [continueString] at h
  split at h
  next text rest he =>
    cases h
    have hs := splits_stringEnd o.closing he
    have hr : rest <:+ line := ⟨text, hs⟩
    obtain ⟨htok, hop⟩ := scanRow_spec row line 0
      { st with needsMark := false, openString := none } text.length rest rfl
    refine ⟨fun t ht => ?_, hop.mono (hr.trans hrow)⟩
    rcases mem_cons.mp ht with rfl | ht
    · have hp : o.text ++ text <+: o.text ++ line := ⟨rest, by rw [append_assoc, hs]⟩
      exact ⟨rfl, Token.pieceOf_of_ne_indent nofun (hp.isInfix.trans hw.isInfix)⟩
    · exact (htok t ht).mono (hr.trans hrow).isInfix
  split at h
  · cases h
    refine ⟨fun t ht => ?_, ScanState.openBehind_of_none rfl _⟩
    obtain rfl := mem_singleton.mp ht
    exact ⟨rfl, Token.pieceOf_of_ne_indent nofun hw.isInfix⟩
  · cases h
    refine ⟨by simp, ?_⟩
    rintro o' ⟨⟩
    exact hw

theorem rowResult_go (hst : st.OpenBehind before) (h : rowResult row line st = .go tokens st') :
    (∀ t ∈ tokens, t.FoundIn row (before ++ line)) ∧ st'.OpenBehind (before ++ line) := by
  have hr : line <:+ before ++ line := suffix_append before line
  rw [rowResult] at h
  split at h
  next o ho => exact continueString_go (hst o ho) h
  next hn =>
  split at h
  · obtain ⟨htok, hop⟩ := newStatement_go hn h
    exact ⟨fun t ht => (htok t ht).mono hr.isInfix, hop.mono hr⟩
  · cases h
    obtain ⟨htok, hop⟩ := scanRow_spec row line 0 { st with continued := false } 0 line hn
    exact ⟨fun t ht => (htok t ht).mono hr.isInfix, hop.mono hr⟩

/-! ## All rows -/

@[simp] theorem Scan.after_tokens (front : List Token) (s : Scan) : (s.after front).tokens = front ++ s.tokens := rfl

@[simp] theorem Scan.after_fault (front : List Token) (s : Scan) : (s.after front).fault = s.fault := rfl

theorem finishTokens_eq (row : Nat) (last : Text) (st : ScanState) : ∃ front after, finishTokens row last st
        = front ++ after ++ [⟨.finish, [], ⟨row, 0⟩, ⟨row, 0⟩, []⟩] ∧
      (∀ t ∈ front, t.stop.row = row - 1 ∧ t.text = []) ∧
      (∀ t ∈ after, t.stop.row = row ∧ t.text = []) := by
  refine ⟨_, _, rfl, fun t ht => ?_, fun t ht => ?_⟩
  · obtain ⟨-, rfl⟩ := mem_ite_nil_left.mp ht |>.imp_right mem_singleton.mp
    exact ⟨rfl, rfl⟩
  · obtain ⟨_, _, rfl⟩ := mem_map.mp ht
    exact ⟨rfl, rfl⟩

theorem mem_finishTokens {last : Text} (ht : t ∈ finishTokens row last st) : row ≤ t.stop.row + 1 ∧ t.text = [] := by
  obtain ⟨front, after, heq, hf, ha⟩ := finishTokens_eq row last st
  rw [heq, mem_append, mem_append, mem_singleton] at ht
  rcases ht with (ht | ht) | rfl
  · obtain ⟨hr, hte⟩ := hf t ht
    exact ⟨by omega, hte⟩
  · obtain ⟨hr, hte⟩ := ha t ht
    exact ⟨by omega, hte⟩
  · exact ⟨Nat.le_succ row, rfl⟩

theorem pairwise_finishTokens (row : Nat) (last : Text) (st : ScanState) :
    ((finishTokens row last st).map fun t => t.stop.row).Pairwise (· ≤ ·) := by
  obtain ⟨front, after, heq, hf, haf⟩ := finishTokens_eq row last st
  rw [heq, append_assoc, map_append, pairwise_append]
  have hba : ∀ t ∈ after ++ [⟨.finish, [], ⟨row, 0⟩, ⟨row, 0⟩, []⟩], t.stop.row = row := by
    intro t ht
    rcases mem_append.mp ht with ht | ht
    · exact (haf t ht).1
    · rw [mem_singleton.mp ht]
  refine ⟨?_, ?_, ?_⟩
  · refine pairwise_map.mpr (pairwise_of_forall_mem_list fun a ha b hb => ?_)
    exact Nat.le_of_eq ((hf a ha).1.trans (hf b hb).1.symm)
  · refine pairwise_map.mpr (pairwise_of_forall_mem_list fun a ha b hb => ?_)
    exact Nat.le_of_eq ((hba a ha).trans (hba b hb).symm)
  · intro a ha b hb
    obtain ⟨t, ht, rfl⟩ := mem_map.mp ha
    obtain ⟨u, hu, rfl⟩ := mem_map.mp hb
    rw [(hf t ht).1, hba u hu]
    exact Nat.sub_le row 1

theorem scanEnd_cases (row : Nat) (last : Text) (st : ScanState) : (∃ f, scanEnd row last st = .broken f) ∨
      scanEnd row last st = ⟨finishTokens row last st, none⟩ := by
  rw [scanEnd]
  split
  · exact .inl ⟨_, rfl⟩
  split
  · exact .inr rfl
  · exact .inl ⟨_, rfl⟩

/-- **Induction along the rows of a scan**: the closing tokens at its end, a fault, or the tokens of a
row in front of the rest of the scan. -/
theorem scanRows_induction {motive : Nat → List Text → ScanState → Scan → Prop}
    (broken : ∀ row lines st f, motive row lines st (.broken f))
    (ends : ∀ row last st, motive row [] st ⟨finishTokens row last st, none⟩)
    (stops : ∀ row line lines last st, rowResult row line st = .stop →
      motive row (line :: lines) st ⟨finishTokens row last st, none⟩)
    (goes : ∀ row line lines st tokens st' rest, rowResult row line st = .go tokens st' →
      motive (row + 1) lines st' rest → motive row (line :: lines) st (rest.after tokens)) :
    ∀ (lines : List Text) (row : Nat) (last : Text) (st : ScanState), motive row lines st (scanRows row last st lines)
  | [], row, last, st => by
    rw [scanRows]
    rcases scanEnd_cases row last st with ⟨f, h⟩ | h
    · exact h ▸ broken row [] st f
    · exact h ▸ ends row last st
  | line :: lines, row, last, st => by
    rw [scanRows]
    split
    next h => exact stops row line lines last st h
    · exact broken row _ st _
    next tokens st' h =>
      exact goes row line lines st tokens st' _ h (scanRows_induction broken ends stops goes lines (row + 1) line st')

theorem rowResult_stop_row (h : rowResult row line st = .go tokens st') : ∀ t ∈ tokens, t.stop.row = row := by
  obtain ⟨before, hst⟩ : ∃ before, st.OpenBehind before := by
    cases ho : st.openString with
    | none => exact ⟨[], st.openBehind_of_none ho []⟩
    | some o => exact ⟨o.text, fun o' ho' => by rw [ho] at ho'; cases ho'; exact suffix_rfl⟩
  exact fun t ht => ((rowResult_go hst h).1 t ht).stop_row

theorem newline_notMem_of_stop (h : rowResult row line st = .stop) : '\n' ∉ line := by
  rw [rowResult] at h
  split at h
  · rw [continueString] at h
    split at h
    · cases h
    · split at h <;> cases h
  split at h
  · simp only [newStatement] at h
    split at h
    next hb =>
      intro hm
      rw [← takeWhile_append_dropWhile (p := isRowBlank) (l := line), hb, append_nil] at hm
      exact absurd (all_eq_true.mp all_takeWhile _ hm) (by decide)
    split at h
    · cases h
    · split at h <;> cases h
  · cases h

/-- **The rows at which tokens stop never decrease**, and none is earlier than the row before the
first one scanned. -/
theorem scanRows_stop_row (lines : List Text) (row : Nat) (last : Text) (st : ScanState) :
    (∀ t ∈ (scanRows row last st lines).tokens, row ≤ t.stop.row + 1) ∧
      ((scanRows row last st lines).tokens.map fun t => t.stop.row).Pairwise (· ≤ ·) := by
  refine scanRows_induction (motive := fun row _ _ r => (∀ t ∈ r.tokens, row ≤ t.stop.row + 1) ∧
    (r.tokens.map fun t => t.stop.row).Pairwise (· ≤ ·)) ?_ ?_ ?_ ?_ lines row last st
  · exact fun _ _ _ _ => ⟨by simp [Scan.broken], List.Pairwise.nil⟩
  · exact fun row last st => ⟨fun t ht => (mem_finishTokens ht).1, pairwise_finishTokens row last st⟩
  · exact fun row _ _ last st _ =>
      ⟨fun t ht => (mem_finishTokens ht).1, pairwise_finishTokens row last st⟩
  · intro row line lines st tokens st' rest h ih
    have hr := rowResult_stop_row h
    rw [Scan.after_tokens, map_append, pairwise_append]
    refine ⟨fun t ht => ?_, ?_, ih.2, fun a ha b hb => ?_⟩
    · rcases mem_append.mp ht with ht | ht
      · rw [hr t ht]; exact Nat.le_succ row
      · exact Nat.le_of_succ_le (ih.1 t ht)
    · refine pairwise_map.mpr (pairwise_of_forall_mem_list fun a ha b hb => ?_)
      exact Nat.le_of_eq ((hr a ha).trans (hr b hb).symm)
    · obtain ⟨t, ht, rfl⟩ := mem_map.mp ha
      obtain ⟨u, hu, rfl⟩ := mem_map.mp hb
      rw [hr t ht]
      exact Nat.le_of_succ_le_succ (ih.1 u hu)

theorem scanRows_finish (lines : List Text) (row : Nat) (last : Text) (st : ScanState) :
    (scanRows row last st lines).fault = none → (∀ line ∈ lines.dropLast, '\n' ∈ line) →
      ∃ front t, (scanRows row last st lines).tokens = front ++ [t] ∧ t.kind = .finish ∧
        row + lines.length ≤ t.stop.row + 1 := by
  refine scanRows_induction (motive := fun row lines _ r => r.fault = none →
    (∀ line ∈ lines.dropLast, '\n' ∈ line) → ∃ front t, r.tokens = front ++ [t] ∧ t.kind = .finish ∧
      row + lines.length ≤ t.stop.row + 1) ?_ ?_ ?_ ?_ lines row last st
  · exact fun _ _ _ _ h => by simp [Scan.broken] at h
  · exact fun row _ _ _ _ => ⟨_, _, rfl, rfl, Nat.le_succ row⟩
  · intro row line lines last st h _ he
    -- a row without a line end is the last one
    have hli : lines = [] := by
      cases lines with
      | nil => rfl
      | cons next lines => exact absurd (he line (by simp)) (newline_notMem_of_stop h)
    subst hli
    exact ⟨_, _, rfl, rfl, Nat.le_refl _⟩
  · intro row line lines st tokens st' rest h ih hf he
    obtain ⟨front, t, ht, hk, hle⟩ := ih hf fun l hl => he l (by
      cases lines with
      | nil => simp at hl
      | cons next lines => exact mem_cons_of_mem _ hl)
    refine ⟨tokens ++ front, t, ?_, hk, ?_⟩
    · rw [Scan.after_tokens, ht, append_assoc]
    · rw [length_cons]; omega

theorem scanRows_pieceOf (lines : List Text) (row : Nat) (last : Text) (st : ScanState) :
    ∀ before, st.OpenBehind before →
      ∀ t ∈ (scanRows row last st lines).tokens, t.PieceOf (before ++ lines.flatten) := by
  refine scanRows_induction (motive := fun _ lines st r => ∀ before, st.OpenBehind before →
    ∀ t ∈ r.tokens, t.PieceOf (before ++ lines.flatten)) ?_ ?_ ?_ ?_ lines row last st
  · exact fun _ _ _ _ _ _ => by simp [Scan.broken]
  · exact fun _ _ _ _ _ t ht => Token.pieceOf_of_nil (mem_finishTokens ht).2 _
  · exact fun _ _ _ _ _ _ _ _ t ht => Token.pieceOf_of_nil (mem_finishTokens ht).2 _
  · intro row line lines st tokens st' rest h ih before hst t ht
    obtain ⟨htok, hst'⟩ := rowResult_go hst h
    rw [flatten_cons, ← append_assoc]
    rcases mem_append.mp ht with ht | ht
    · exact (htok t ht).piece.mono (prefix_append _ _).isInfix
    · exact ih (before ++ line) hst' t ht

/-! ## The whole text -/

theorem pieceOf_of_mem_scan (ht : t ∈ (scan s).tokens) : t.PieceOf s := by
  have h := scanRows_pieceOf s.rowsWithEnds 1 [] .initial [] (ScanState.openBehind_of_none rfl _) t ht
  rwa [nil_append, Text.flatten_rowsWithEnds] at h

theorem pairwise_stop_row (s : Text) : ((scan s).tokens.map fun t => t.stop.row).Pairwise (· ≤ ·) :=
  (scanRows_stop_row s.rowsWithEnds 1 [] .initial).2

theorem exists_finish (h : (scan s).fault = none) : ∃ front t, (scan s).tokens = front ++ [t] ∧ t.kind = .finish ∧
      s.rowsWithEnds.length ≤ t.stop.row := by
  obtain ⟨front, t, ht, hk, hle⟩ :=
    scanRows_finish s.rowsWithEnds 1 [] .initial h s.newline_mem_of_mem_dropLast
  exact ⟨front, t, ht, hk, by omega⟩

end QtMigration
