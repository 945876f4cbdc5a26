import QtMigration.Proofs.Token.Offset

/-!
# Proofs/Token/Columns — the columns of the tokens of one row

The walk along a row goes on where the token before has ended (`scanRow_behind`), so the columns of the tokens
increase by the lengths of their texts.
-/

namespace QtMigration

open List Text

variable {line : Text} {front post rest : List Token} {t : Token}

/-! ## One row -/

theorem rowStep_span (row : Nat) (line : Text) (st : ScanState) (col : Nat) (s : Text) :
    let step := rowStep row line st col s
    ∀ t ∈ step.tokens, step.tokens = [t] ∧ col ≤ t.start.col ∧
      step.length = some (t.start.col + t.text.length - col) := by
  simp only [rowStep]
  split
  · simp
  next hf =>
  split
  · obtain ⟨c, s, rfl⟩ := exists_cons_of_ne_nil (l := s) (by rintro rfl; simp at hf)
    exact forall_mem_singleton.mpr ⟨rfl, Nat.le_refl _, by simp⟩
  next l text rest _ =>
    cases l with
    | continuation => simp
    | lineEnd => exact forall_mem_singleton.mpr ⟨rfl, Nat.le_add_right .., rfl⟩
    | whole kind => exact forall_mem_singleton.mpr ⟨rfl, Nat.le_add_right .., rfl⟩
    | openString closing => simp
    | tripleOpen closing =>
      dsimp only
      split
      · exact forall_mem_singleton.mpr ⟨rfl, Nat.le_add_right .., by simp [Nat.add_assoc]⟩
      · simp

theorem scanRow_behind (row : Nat) (line : Text) (ht : t.text ≠ []) : ∀ (skip : Nat) (st : ScanState) (col : Nat)
    (s : Text) {front : List Token}, line.drop col = s → (scanRow row line skip st col s).1 = front ++ t :: post →
      col + skip ≤ t.start.col ∧ ∃ st', post = (scanRow row line 0 st' (t.start.col + t.text.length)
        (line.drop (t.start.col + t.text.length))).1
  | _, _, _, [], _, _, h => by
    rw [scanRow] at h
    simp at h
  | skip + 1, st, col, c :: cs, _, hs, h => by
    rw [scanRow] at h
    obtain ⟨hle, hp⟩ := scanRow_behind row line ht skip st (col + 1) cs (by rw [← drop_drop, hs]; rfl) h
    exact ⟨by omega, hp⟩
  | 0, st, col, c :: cs, front, hs, h => by
    have hsp := rowStep_span row line st col (c :: cs)
    have hne : line.drop (col + 1) = cs := by rw [← drop_drop, hs]; rfl
    rw [scanRow] at h
    revert hsp h
    generalize rowStep row line st col (c :: cs) = step
    intro h hsp
    cases hl : step.length with
    | none =>
      simp only [hl] at h
      have hso := (hsp t (by simp [h])).2.2
      rw [hl] at hso
      cases hso
    | some n =>
      simp only [hl] at h
      -- a token of a later step
      have hla {front : List Token}
          (h : (scanRow row line (n - 1) step.state (col + 1) cs).1 = front ++ t :: post) :
          col + 0 ≤ t.start.col ∧ ∃ st', post = (scanRow row line 0 st' (t.start.col + t.text.length)
            (line.drop (t.start.col + t.text.length))).1 := by
        obtain ⟨hle, hp⟩ := scanRow_behind row line ht (n - 1) step.state (col + 1) cs hne h
        exact ⟨by omega, hp⟩
      cases hto : step.tokens with
      | nil =>
        rw [hto] at h
        exact hla h
      | cons u us =>
        obtain ⟨ho, hc, hn⟩ := hsp u (by simp [hto])
        rw [ho, singleton_append] at h
        cases front with
        | cons _ front => exact hla (cons.inj h).2
        | nil =>
          obtain ⟨rfl, hp⟩ := cons.inj h
          have hpos := length_pos_iff.mpr ht
          obtain rfl := Option.some.inj (hl.symm.trans hn)
          refine ⟨hc, step.state, ?_⟩
          rw [← hp, scanRow_skip, ← hne, drop_drop,
            show col + 1 + (u.start.col + u.text.length - col - 1) = u.start.col + u.text.length by omega]

theorem lexeme?_open (rest : Text) : lexeme? ('(' :: rest) = some (.whole .operator, ['('], rest) := by
  have hm : stringMark ('(' :: rest) = none := by
    have hn (letters : Text) : stringMarks.contains (Char.toLower '(' :: letters) = false := rfl
    have hl : (('(' :: rest).take 2).takeWhile (fun c => !isQuote c) =
      '(' :: (rest.take 1).takeWhile fun c => !isQuote c := rfl
    simp only [stringMark, hl, map_cons, hn, Bool.and_false]
    split <;> rfl
  have ht : Matcher.seq stringMark tripleQuote ('(' :: rest) = none := by rw [Matcher.seq, hm]
  rw [lexeme?, ht]
  rfl

theorem scanRow_open (row : Nat) (line : Text) (st : ScanState) (col : Nat) (s : Text) :
    ∃ o ts, (scanRow row line 0 st col ('(' :: s)).1 = o :: ts ∧ o.text = ['('] ∧ o.start.col = col := by
  have hs : rowStep row line st col ('(' :: s) = ⟨[⟨.operator, ['('], ⟨row, col⟩, ⟨row, col + 1⟩, line⟩],
      st.bracket ['('], some 1⟩ := by
    have hb : ('(' :: s).dropWhile isRowBlank = '(' :: s := rfl
    simp only [rowStep, hb, lexeme?_open]
    simp
  rw [scanRow, hs]
  exact ⟨_, _, rfl, rfl, rfl⟩

/-! ## A text of one row -/

theorem rowsWithEnds_of_oneRow (h : line.OneRow) (hne : line ≠ []) : line.rowsWithEnds = [line] := by
  have hr := flatten_rowsWithEnds line
  have he := newline_mem_of_mem_dropLast line
  have hf := oneRow_of_mem_rowsWithEnds line
  rcases hc : line.rowsWithEnds with _ | ⟨row, _ | ⟨row', rest⟩⟩
  · rw [hc] at hr
    exact absurd hr.symm hne
  · rw [hc] at hr
    rw [← hr]
    simp
  · rw [hc] at hr he hf
    rw [← hr, flatten_cons] at h
    have hn := h.eq_nil (he row (by simp))
    exact absurd (append_eq_nil_iff.mp hn).1 (hf row' (by simp)).1

theorem stands_of_oneRow (h : line.OneRow) (front mid post : List Token) (hto : (scan line).tokens = front ++ (mid ++ t :: post))
    (ht : t.text ≠ []) (ho : '\n' ∉ t.text) : brokenLength front = 0 ∧ t.text <+: line.drop t.start.col := by
  have hs := (scan_placed line).stands front mid t post hto ht ho
  obtain ⟨row, hr, hte⟩ := hs.text_at
  have hne : line ≠ [] := by
    rintro rfl
    cases hr
  have hle := hs.broken_le
  rw [rowsWithEnds_of_oneRow h hne] at hr hle
  cases hz : t.start.row - 1 with
  | zero =>
    rw [hz] at hr hle
    obtain rfl := Option.some.inj hr
    exact ⟨Nat.le_zero.mp hle, hte⟩
  | succ n =>
    rw [hz] at hr
    cases hr

theorem getElem?_of_oneRow (h : line.OneRow) (ht : t ∈ (scan line).tokens) {c : Char} (hte : t.text = [c])
    (hc : c ≠ '\n') : (line)[t.start.col]? = some c := by
  obtain ⟨front, post, hto⟩ := append_of_mem ht
  obtain ⟨rest, hr⟩ := (stands_of_oneRow h [] front post hto (by simp [hte]) (by simp [hte, hc.symm])).2
  rw [← head?_drop, ← hr, hte]
  rfl

theorem blockTokens_blank {row : Nat} {blanks : Text} {indents indents' : List Nat} {tokens : List Token}
    (hb : ∀ c ∈ blanks, isRowBlank c) (h : blockTokens row line blanks indents = .ok (tokens, indents')) :
    ∀ t ∈ tokens, ∀ c ∈ t.text, isRowBlank c := by
  simp only [blockTokens] at h
  split at h
  · cases h
    exact forall_mem_singleton.mpr hb
  split at h
  · split at h
    · cases h
      rintro t ht c hc
      obtain ⟨_, -, rfl⟩ := mem_map.mp ht
      cases hc
    · cases h
  · cases h
    exact forall_mem_nil _

theorem exists_of_append_empty {ts finish : List Token} (hf : ∀ t ∈ finish, t.text = []) (ht : t.text ≠ [])
    (h : ts ++ finish = front ++ t :: post) : ∃ back, ts = front ++ t :: back ∧ post = back ++ finish := by
  rcases append_eq_append_iff.mp h with ⟨x, -, hx⟩ | ⟨x, rfl, hx⟩
  · exact absurd (hf t (by simp [hx])) ht
  · cases x with
    | nil => exact absurd (hf t (by rw [show finish = _ from hx.symm]; simp)) ht
    | cons u x =>
      obtain ⟨rfl, rfl⟩ := cons.inj hx
      exact ⟨x, rfl, rfl⟩

theorem exists_finish_of_oneRow (h : line.OneRow) (ht : t ∈ (scan line).tokens) (hne : t.text ≠ []) :
    ∃ tokens st finish, newStatement 1 line .initial = .go tokens st ∧ (scan line).tokens = tokens ++ finish ∧
      ∀ t ∈ finish, t.text = [] := by
  have hfi (row : Nat) (last : Text) (st : ScanState) : ∀ t ∈ finishTokens row last st, t.text = [] :=
    fun t ht => (mem_finishTokens ht).2
  have he (row : Nat) (last : Text) (st : ScanState) : ∀ t ∈ (scanEnd row last st).tokens, t.text = [] := by
    rcases scanEnd_cases row last st with ⟨f, hf⟩ | hf <;> rw [hf]
    · simp [Scan.broken]
    · exact hfi row last st
  by_cases hn : line = []
  · subst hn
    exact absurd (he _ _ _ t ht) hne
  have hs : rowResult 1 line .initial = newStatement 1 line .initial := rfl
  rw [scan, rowsWithEnds_of_oneRow h hn, scanRows, hs] at ht ⊢
  split at ht
  · exact absurd (hfi 1 [] .initial t ht) hne
  · simp [Scan.broken] at ht
  next tokens st hgo => exact ⟨tokens, st, _, hgo, rfl, he _ _ _⟩

theorem head_of_mem_blankRow (h : line.OneRow) {d : Char} {body : Text}
    (hb : line.dropWhile isRowBlank = d :: body) (hd : (d == '#' || d == '\r' || d == '\n'))
    (ht : t ∈ blankRow 1 line (line.takeWhile isRowBlank) (line.dropWhile isRowBlank)) :
    ∀ c ∈ t.text.head?, c = '#' ∨ c = '\r' ∨ c = '\n' := by
  intro c hc
  by_cases hk : t.kind = .lineBreak
  · exact .inr (((blankRow_placed 1 h hb hd).1 t ht).begins hk c hc)
  · -- only a comment is left, which begins where the row does
    obtain ⟨ending, he, -⟩ := exists_trimRightOf (line.dropWhile isRowBlank) "\r\n"
    rw [blankRow] at ht
    split at ht
    · rcases mem_cons.mp ht with rfl | ht
      · obtain ⟨text, hte⟩ := head?_eq_some_iff.mp hc
        dsimp only at hte
        rw [hte, hb, cons_append] at he
        obtain ⟨rfl, -⟩ := cons.inj he
        simpa [or_assoc] using hd
      · exact absurd (congrArg Token.kind (mem_singleton.mp ht)) hk
    · exact absurd (congrArg Token.kind (mem_singleton.mp ht)) hk

theorem exists_scanRow_behind (h : line.OneRow) (ht : (scan line).tokens = front ++ t :: rest)
    (hne : t.text ≠ []) (hw : t.text.all isWord) : ∃ st finish, (∀ u ∈ finish, u.text = []) ∧
      rest = (scanRow 1 line 0 st (t.start.col + t.text.length)
        (line.drop (t.start.col + t.text.length))).1 ++ finish := by
  obtain ⟨tokens, st, finish, hgo, hsc, hf⟩ := exists_finish_of_oneRow h (by simp [ht]) hne
  obtain ⟨back, rfl, rfl⟩ := exists_of_append_empty hf hne (hsc.symm.trans ht)
  obtain ⟨c, text, hte⟩ := exists_cons_of_ne_nil hne
  have hc : isWord c := all_eq_true.mp hw c (by simp [hte])
  simp only [newStatement] at hgo
  split at hgo
  · cases hgo
  next d body hbo =>
  split at hgo
  next hd =>
    simp only [RowResult.go.injEq] at hgo
    rcases head_of_mem_blankRow (t := t) h hbo hd (by simp [hgo.1]) c (by simp [hte]) with rfl | rfl | rfl <;>
      cases hc
  split at hgo
  · cases hgo
  next block indents hbl =>
  simp only [RowResult.go.injEq] at hgo
  have hp : line.drop (line.takeWhile isRowBlank).length = line.dropWhile isRowBlank := by
    have hs := takeWhile_append_dropWhile (p := isRowBlank) (l := line)
    exact (congrArg (List.drop _) hs.symm).trans drop_left
  have hb {own : List Token} {st : ScanState}
      (ho : (scanRow 1 line 0 st (line.takeWhile isRowBlank).length (line.dropWhile isRowBlank)).1 =
        own ++ t :: back) :=
    (scanRow_behind 1 line hne 0 _ _ _ hp ho).2
  suffices ho : ∃ st', back = _ by
    obtain ⟨st', hba⟩ := ho
    exact ⟨st', finish, hf, congrArg (· ++ finish) hba⟩
  rcases append_eq_append_iff.mp hgo.1 with ⟨own, -, ho⟩ | ⟨own, rfl, ho⟩
  · exact hb ho
  cases own with
  | nil => exact @hb [] _ ho.symm
  | cons u own =>
    -- the tokens of a block are blank
    obtain ⟨rfl, -⟩ := cons.inj ho
    have hr := blockTokens_blank (fun c hc => mem_takeWhile_imp hc) hbl t (by simp) c (by simp [hte])
    simp only [isRowBlank, Bool.or_eq_true, beq_iff_eq] at hr
    rcases hr with (rfl | rfl) | rfl <;> cases hc

end QtMigration
