import QtMigration.Proofs.Token.Order

/-!
# Proofs/Token/Offset — where a token stands in the text

A position is a row and a column; its **offset** is the number of characters before it. **What the line breaks
add up to is the length of the rows before a token exactly if each of these rows ends in one of them**
(`brokenLength_eq_iff`).
-/

namespace QtMigration

open List Text

variable {lines : List Text} {back front post tokens ts : List Token} {col last : Nat} {st st' : ScanState}
  {r x : Text}

def Text.offset (s : Text) (p : Position) : Nat := (s.rowsWithEnds.take (p.row - 1)).flatten.length + p.col

/-! ## Dots -/

section Dot

open Matcher

variable {c : Char} (hdigit : c.isDigit = false) (hdot : c ≠ '.') (rest : Text)

include hdot in
theorem operatorLexeme_dot : operatorLexeme ('.' :: c :: rest) = some (['.'], c :: rest) := by
  have hl : literal "..." ('.' :: c :: rest) = none := by simp [literal, hdot.symm]
  rw [operatorLexeme, operators, longOperators, cons_append, cons_append, cons_append,
    cons_append, map_cons, map_cons, firstOf, alt, firstOf, alt, hl]
  rfl

include hdigit in
theorem numberLexeme_dot : numberLexeme ('.' :: c :: rest) = none := by
  have hd : digits ('.' :: c :: rest) = none := rfl
  have hp : Matcher.seq (literal ".") digits ('.' :: c :: rest) = none := by
    have hn : digits (c :: rest) = none := by rw [digits, Matcher.seq, one, if_neg (by simp [hdigit])]
    simp [Matcher.seq, literal, hn]
  have hde : decimalNumber ('.' :: c :: rest) = none := by
    rw [decimalNumber, alt, Matcher.seq, alt, Matcher.seq, hd, hp, Matcher.seq, hd]
  have hi : imaginaryNumber ('.' :: c :: rest) = none := by
    rw [imaginaryNumber, alt, Matcher.seq, hd, Matcher.seq, hde]
  rw [numberLexeme, firstOf, alt, hi, firstOf, alt, hde]
  rfl

theorem stringMark_dot : stringMark ('.' :: c :: rest) = none := by
  have hm (letters : Text) : stringMarks.contains (('.' :: letters).map Char.toLower) = false := by
    rw [map_cons, stringMarks]
    rfl
  rw [stringMark]
  split
  · rfl
  · refine if_neg ?_
    rw [take_succ_cons, takeWhile_cons_of_pos (by decide), hm]
    simp

include hdigit hdot in
theorem lexeme?_dot : lexeme? ('.' :: c :: rest) = some (.whole .operator, ['.'], c :: rest) := by
  rw [lexeme?, numberLexeme_dot hdigit, operatorLexeme_dot hdot, Matcher.seq, stringMark_dot]
  rfl

end Dot

/-- The text begins with a dot and goes on with neither a digit nor a dot. -/
def Text.Dotted (s : Text) : Prop := ∃ c rest, s = '.' :: c :: rest ∧ c.isDigit = false ∧ c ≠ '.'

theorem Text.not_dotted_of_lexeme {s : Text} {l : Lexeme} (h : lexeme? s = some (l, x, r)) {t : Text}
    (ht : t <+: s) (hx : l = .whole .operator → t = x) : ¬ t.Dotted := by
  rintro ⟨c, rest, rfl, hdigit, hdot⟩
  obtain ⟨more, rfl⟩ := ht
  rw [cons_append, cons_append, lexeme?_dot hdigit hdot] at h
  obtain ⟨rfl, hxr⟩ := Prod.mk.inj (Option.some.inj h)
  have hl := congrArg List.length ((hx rfl).trans (Prod.mk.inj hxr).1.symm)
  simp at hl

theorem Text.not_dotted_of_head {t : Text} (h : ∀ c ∈ t.head?, c ≠ '.') : ¬ t.Dotted := by
  rintro ⟨c, rest, rfl, -⟩
  exact h '.' rfl rfl

theorem Text.not_dotted_of_lineEnd {t : Text} (h : ∀ c ∈ t.head?, c = '\r' ∨ c = '\n') : ¬ t.Dotted :=
  not_dotted_of_head fun c hc => by rcases h c hc with rfl | rfl <;> decide

/-! ## The tokens of a row -/

/-- **The token stands on this row, at its column.** -/
structure Token.PlacedIn (t : Token) (row : Nat) (line : Text) : Prop where
  start_row : t.start.row = row
  text_at : t.text <+: line.drop t.start.col
  to_end : t.kind = .lineBreak → t.start.col + t.text.length = line.length
  begins : t.kind = .lineBreak → ∀ c ∈ t.text.head?, c = '\r' ∨ c = '\n'
  filled : t.kind = .lineBreak → '\n' ∈ line → t.text ≠ []
  undotted : ¬ t.text.Dotted

namespace Token.PlacedIn

variable {t : Token} {row : Nat} {line : Text}

theorem of_ne_lineBreak (hk : t.kind ≠ .lineBreak) (hr : t.start.row = row)
    (ht : t.text <+: line.drop t.start.col) (hdot : ¬ t.text.Dotted) : t.PlacedIn row line :=
  ⟨hr, ht, fun h => absurd h hk, fun h => absurd h hk, fun h => absurd h hk, hdot⟩

theorem succ_col_le (h : t.PlacedIn row line) (hk : t.kind = .lineBreak) (hl : '\n' ∈ line) :
    t.start.col + 1 ≤ line.length := by
  have hle := h.to_end hk
  have hp := length_pos_iff.mpr (h.filled hk hl)
  omega

theorem succ_col_eq_iff (h : t.PlacedIn row line) (hk : t.kind = .lineBreak) (hli : '\n' ∈ line)
    (ho : line.OneRow) : t.start.col + 1 = line.length ↔ t.text = ['\n'] := by
  have hl := h.to_end hk
  constructor
  · intro hcol
    obtain ⟨c, hc⟩ := length_eq_one_iff.mp (show t.text.length = 1 by omega)
    have hs : t.text <:+ line := by
      rw [h.text_at.eq_of_length (by rw [length_drop]; omega)]
      exact drop_suffix _ _
    have hm := ho.mem_suffix hs (h.filled hk hli) hli
    rw [hc] at hm ⊢
    rw [mem_singleton.mp hm]
  · intro ht
    rw [ht] at hl
    exact hl

end Token.PlacedIn

theorem head?_of_lineEnd {s : Text} (h : lineEnd s = some (x, r)) : ∀ c ∈ x.head?, c = '\r' ∨ c = '\n' := by
  obtain ⟨y, r₁, z, hy, hz, rfl⟩ := Matcher.exists_of_seq h
  have hz : z = ['\n'] := by
    rw [Matcher.literal] at hz
    split at hz
    · exact (Prod.mk.inj (Option.some.inj hz)).1.symm
    · cases hz
  have hy : y = ['\r'] ∨ y = [] := by
    simp only [Matcher.opt, Matcher.literal] at hy
    split at hy
    · exact .inr (Prod.mk.inj (Option.some.inj hy)).1.symm
    next hs =>
    split at hs
    · obtain rfl := Option.some.inj hs
      exact .inl (Prod.mk.inj (Option.some.inj hy)).1.symm
    · cases hs
  rcases hy with rfl | rfl
  · simp
  · simp [hz]

/-- **A step of a row finds at most one token, and it stands at its place.** -/
theorem rowStep_placed (row : Nat) {line : Text} (hli : line.OneRow) (st : ScanState) {s : Text}
    (hs : line.drop col = s) :
    let step := rowStep row line st col s
    (∀ t ∈ step.tokens, t.PlacedIn row line) ∧ step.tokens.length ≤ 1 ∧
      (∀ t ∈ step.tokens, t.kind = .lineBreak → ∃ n, step.length = some (n + 1) ∧ s.drop (n + 1) = []) ∧
      ∀ o, step.state.openString = some o → st.openString = some o ∨ (o.text ≠ [] ∧ o.text <:+ line) := by
  have hb : s.dropWhile isRowBlank <:+ s := dropWhile_suffix _
  have hsl : s <:+ line := hs ▸ drop_suffix _ _
  -- the text behind the blanks stands at the column behind them
  have hp : line.drop (col + (s.length - (s.dropWhile isRowBlank).length)) = s.dropWhile isRowBlank := by
    rw [← drop_drop, hs]
    exact (suffix_iff_eq_drop.mp hb).symm
  simp only [rowStep]
  split
  · exact ⟨by simp, by simp, by simp, fun o ho => .inl ho⟩
  next hf =>
  split
  · refine ⟨forall_mem_singleton.mpr (.of_ne_lineBreak (by simp) rfl ?_ ?_), by simp,
      forall_mem_singleton.mpr (by simp), fun o ho => .inl ho⟩
    · rw [hs]
      exact take_prefix 1 s
    · rintro ⟨c, rest, hc, -⟩
      have hlength := congrArg List.length hc
      simp at hlength
      omega
  next l text rest hl =>
    have hsp := lexeme?_splits hl
    have ht : text <+: line.drop (col + (s.length - (s.dropWhile isRowBlank).length)) := by
      rw [hp]
      exact ⟨rest, hsp⟩
    have hdot : ¬ Text.Dotted text := not_dotted_of_lexeme hl ⟨rest, hsp⟩ fun _ => rfl
    have hop : s.dropWhile isRowBlank ≠ [] ∧ s.dropWhile isRowBlank <:+ line :=
      ⟨by simpa using hf, hb.trans hsl⟩
    have hr : (text ++ rest).OneRow := hsp ▸ hli.suffix hop.2
    rcases lexeme?_cases hl with ⟨rfl, -⟩ | ⟨rfl, hlex⟩ | ⟨rfl, -⟩ | ⟨kind, hki, rfl⟩ | ⟨closing, rfl⟩ |
      ⟨closing, rfl⟩
    · exact ⟨by simp, by simp, by simp, fun o ho => .inl ho⟩
    · -- the end of the row
      have hn := newline_mem_of_lineEnd hlex
      obtain rfl : rest = [] := hr.eq_nil hn
      rw [append_nil] at hsp
      have hpos := length_pos_of_mem hn
      have hlength : text.length = (s.dropWhile isRowBlank).length := congrArg List.length hsp
      refine ⟨forall_mem_singleton.mpr
          ⟨rfl, ht, fun _ => ?_, fun _ => head?_of_lineEnd hlex, fun _ _ => ne_nil_of_mem hn,
            not_dotted_of_lineEnd (head?_of_lineEnd hlex)⟩,
        by simp, forall_mem_singleton.mpr fun _ => ?_, fun o ho => .inl ho⟩
      · have hd := congrArg List.length hp
        rw [length_drop] at hd
        dsimp only
        omega
      · have hle := hb.length_le
        refine ⟨s.length - 1, congrArg some ?_, drop_eq_nil_iff.mpr (by omega)⟩
        omega
    · exact ⟨forall_mem_singleton.mpr (.of_ne_lineBreak (by simp) rfl ht hdot), by simp,
        forall_mem_singleton.mpr (by simp), fun o ho => .inl ho⟩
    · have hne : kind ≠ .lineBreak := fun hk => absurd hki (by rw [hk]; decide)
      refine ⟨forall_mem_singleton.mpr (.of_ne_lineBreak hne rfl ht hdot), by simp,
        forall_mem_singleton.mpr fun hk => absurd hk hne, fun o ho => .inl ?_⟩
      dsimp only at ho
      split at ho
      · rwa [st.bracket_openString] at ho
      · exact ho
    · dsimp only
      split
      next more rest' he =>
        have hst : text ++ more <+: s.dropWhile isRowBlank :=
          ⟨rest', by rw [append_assoc, splits_stringEnd closing he, hsp]⟩
        exact ⟨forall_mem_singleton.mpr (.of_ne_lineBreak (by simp) rfl (by rw [hp]; exact hst)
            (not_dotted_of_lexeme hl hst (by simp))), by simp,
          forall_mem_singleton.mpr (by simp), fun o ho => .inl ho⟩
      · exact ⟨by simp, by simp, by simp, fun o ho => .inr (Option.some.inj ho ▸ hop)⟩
    · exact ⟨by simp, by simp, by simp, fun o ho => .inr (Option.some.inj ho ▸ hop)⟩

/-- Of the tokens of a row only the last may be a line break. -/
def BreakLast (ts : List Token) : Prop := ts.Pairwise fun t _ => t.kind ≠ .lineBreak

theorem breakLast_of_forall (h : ∀ t ∈ ts, t.kind ≠ .lineBreak) : BreakLast ts :=
  pairwise_of_forall_mem_list fun t ht _ _ => h t ht

theorem scanRow_placed (row : Nat) {line : Text} (hl : line.OneRow) : ∀ (skip : Nat) (st : ScanState)
    (col : Nat) (s : Text), line.drop col = s → st.openString = none →
      let r := scanRow row line skip st col s
      (∀ t ∈ r.1, t.PlacedIn row line) ∧ BreakLast r.1 ∧ ∀ o, r.2.openString = some o → o.text ≠ [] ∧ o.text <:+ line
  | _, st, _, [], _, hst => by
    rw [scanRow]
    exact ⟨by simp, List.Pairwise.nil, fun o ho => by rw [hst] at ho; cases ho⟩
  | skip + 1, st, col, c :: cs, hs, hst => by
    rw [scanRow]
    exact scanRow_placed row hl skip st (col + 1) cs (by rw [← drop_drop, hs]; rfl) hst
  | 0, st, col, c :: cs, hs, hst => by
    have hstep := rowStep_placed row hl st hs
    have hopens := rowStep_cases row line st col (c :: cs)
    have hne : line.drop (col + 1) = cs := by rw [← drop_drop, hs]; rfl
    rw [scanRow]
    revert hstep hopens
    generalize rowStep row line st col (c :: cs) = step
    rintro ⟨hp, hone, hb, hop⟩ hopens
    have hop' : ∀ o, step.state.openString = some o → o.text ≠ [] ∧ o.text <:+ line := fun o ho =>
      (hop o ho).resolve_left fun h => by rw [hst] at h; cases h
    cases hlen : step.length with
    | none =>
      refine ⟨hp, breakLast_of_forall fun t ht hk => ?_, hop'⟩
      obtain ⟨n, hn, -⟩ := hb t ht hk
      rw [hlen] at hn
      cases hn
    | some n =>
      dsimp only
      rcases hopens with ⟨hno, -⟩ | ⟨-, hsa, -⟩
      · rw [hlen] at hno
        cases hno
      obtain ⟨hp', hla, hop''⟩ :=
        scanRow_placed row hl (n - 1) step.state (col + 1) cs hne (hsa.trans hst)
      refine ⟨forall_mem_append.mpr ⟨hp, hp'⟩, pairwise_append.mpr ⟨?_, hla, ?_⟩, hop''⟩
      · cases htok : step.tokens with
        | nil => exact List.Pairwise.nil
        | cons t ts =>
          rw [htok, length_cons] at hone
          rw [length_eq_zero_iff.mp (Nat.le_zero.mp (Nat.le_of_succ_le_succ hone))]
          exact pairwise_singleton _ _
      · -- nothing is left of the row behind a line break
        intro t ht u hu hk
        obtain ⟨m, hm, hle⟩ := hb t ht hk
        rw [hlen] at hm
        obtain rfl := Option.some.inj hm
        rw [Nat.add_sub_cancel, scanRow_skip, show cs.drop m = [] from hle, scanRow] at hu
        cases hu

theorem Text.exists_trimRightOf (s set : Text) : ∃ ending, s.trimRightOf set ++ ending = s ∧
    (∀ c ∈ ending, c ∈ set) ∧ ∀ c ∈ s.getLast?, c ∈ set → ending ≠ [] := by
  refine ⟨(s.reverse.takeWhile set.contains).reverse, ?_, fun c hc => ?_, fun c hc hs => ?_⟩
  · rw [trimRightOf, trimRightWhile, ← reverse_append, takeWhile_append_dropWhile, reverse_reverse]
  · exact contains_iff_mem.mp (all_eq_true.mp all_takeWhile c (mem_reverse.mp hc))
  · obtain ⟨front, rfl⟩ := getLast?_eq_some_iff.mp hc
    simp [hs]

theorem blankRow_placed (row : Nat) {line : Text} (hli : line.OneRow) {c : Char} {rest : Text}
    (hb : line.dropWhile isRowBlank = c :: rest) (hc : (c == '#' || c == '\r' || c == '\n')) :
    let tokens := blankRow row line (line.takeWhile isRowBlank) (line.dropWhile isRowBlank)
    (∀ t ∈ tokens, t.PlacedIn row line) ∧ BreakLast tokens := by
  have hp : line.drop (line.takeWhile isRowBlank).length = line.dropWhile isRowBlank := by
    have hsp := takeWhile_append_dropWhile (p := isRowBlank) (l := line)
    exact (congrArg (List.drop _) hsp.symm).trans drop_left
  have hl : (line.takeWhile isRowBlank).length + (line.dropWhile isRowBlank).length = line.length := by
    rw [← length_append, takeWhile_append_dropWhile]
  simp only [blankRow]
  split
  next hco =>
    obtain ⟨ending, he, hset, hf⟩ := exists_trimRightOf (line.dropWhile isRowBlank) "\r\n"
    have hr : line.drop ((line.takeWhile isRowBlank).length +
        (Text.trimRightOf (line.dropWhile isRowBlank) "\r\n").length) = ending := by
      rw [← drop_drop, hp]
      exact (congrArg (List.drop _) he.symm).trans drop_left
    have hen : ∀ c ∈ ending.head?, c = '\r' ∨ c = '\n' := fun c hc => by
      simpa using hset c (mem_of_mem_head? hc)
    refine ⟨forall_mem_cons.mpr ⟨.of_ne_lineBreak (by simp) rfl ?_ ?_, forall_mem_singleton.mpr ?_⟩,
      pairwise_pair.mpr (by simp)⟩
    · rw [hp]
      exact ⟨ending, he⟩
    · -- what is left of the comment begins as the comment does
      rintro ⟨d, more, hcons, -⟩
      dsimp only at hcons
      rw [hcons] at he
      rw [← he] at hco
      exact absurd hco (by simp [Text.startsWith])
    · refine ⟨rfl, prefix_refl _, fun _ => ?_, fun _ => hr ▸ hen, fun _ hn => ?_,
        not_dotted_of_lineEnd (hr ▸ hen)⟩
      · have hsum := congrArg List.length he
        rw [length_append] at hsum
        dsimp only
        rw [hr]
        omega
      · dsimp only
        rw [hr]
        have hs : line.dropWhile isRowBlank <:+ line := dropWhile_suffix _
        have hm := hli.mem_suffix hs (hb ▸ cons_ne_nil c rest) hn
        exact hf '\n' ((hli.suffix hs).getLast?_eq hm) (by decide)
  next hco =>
    have hen : ∀ d ∈ (line.dropWhile isRowBlank).head?, d = '\r' ∨ d = '\n' := fun d hd => by
      rw [hb] at hd hco
      obtain rfl := Option.some.inj hd
      simp only [Bool.or_eq_true, beq_iff_eq] at hc
      rcases hc with (rfl | hc) | hc
      · exact absurd rfl hco
      · exact .inl hc
      · exact .inr hc
    exact ⟨forall_mem_singleton.mpr ⟨rfl, hp ▸ prefix_refl _, fun _ => hl, fun _ => hen,
        fun _ _ => by rw [hb]; exact cons_ne_nil c rest, not_dotted_of_lineEnd hen⟩,
      pairwise_singleton _ _⟩

theorem blockTokens_placed {row : Nat} {line blanks : Text} {indents indents' : List Nat}
    (hb : blanks <+: line) (hbl : ∀ c ∈ blanks, isRowBlank c)
    (h : blockTokens row line blanks indents = .ok (tokens, indents')) :
    ∀ t ∈ tokens, t.PlacedIn row line ∧ t.kind ≠ .lineBreak := by
  simp only [blockTokens] at h
  split at h
  · cases h
    refine forall_mem_singleton.mpr ⟨.of_ne_lineBreak (by simp) rfl hb ?_, by simp⟩
    refine not_dotted_of_head fun c hc => ?_
    rintro rfl
    exact absurd (hbl '.' (mem_of_mem_head? hc)) (by decide)
  split at h
  · split at h
    · cases h
      rintro t ht
      obtain ⟨_, _, rfl⟩ := mem_map.mp ht
      exact ⟨.of_ne_lineBreak (by simp) rfl nil_prefix (not_dotted_of_head (by simp)), by simp⟩
    · cases h
  · cases h
    simp

/-- Every string that is open has gone over the end of a row. -/
def ScanState.OpenOver (st : ScanState) : Prop := ∀ o, st.openString = some o → '\n' ∈ o.text

/-- **What a row can do**: its tokens stand on it, those apart that began on an earlier one; only the last
may be a line break. -/
structure RowPlaced (row : Nat) (line : Text) (tokens : List Token) (st : ScanState) : Prop where
  placed : ∀ t ∈ tokens, t.PlacedIn row line ∨ ('\n' ∈ t.text ∧ t.kind ≠ .lineBreak)
  breakLast : BreakLast tokens
  openOver : '\n' ∈ line → st.OpenOver

theorem rowPlaced_scanRow (row : Nat) {line : Text} (hl : line.OneRow) (st : ScanState) {s : Text}
    (hs : line.drop col = s) (hst : st.openString = none) :
    RowPlaced row line (scanRow row line 0 st col s).1 (scanRow row line 0 st col s).2 := by
  obtain ⟨hp, hla, hop⟩ := scanRow_placed row hl 0 st col s hs hst
  exact ⟨fun t ht => .inl (hp t ht), hla,
    fun hn o ho => hl.mem_suffix (hop o ho).2 (hop o ho).1 hn⟩

theorem RowPlaced.append {row : Nat} {line : Text} (h : RowPlaced row line tokens st) (front : List Token)
    (hf : ∀ t ∈ front, (t.PlacedIn row line ∨ '\n' ∈ t.text) ∧ t.kind ≠ .lineBreak) :
    RowPlaced row line (front ++ tokens) st where
  placed := forall_mem_append.mpr
    ⟨fun t ht => (hf t ht).1.imp_right fun hm => ⟨hm, (hf t ht).2⟩, h.placed⟩
  breakLast := pairwise_append.mpr
    ⟨breakLast_of_forall fun t ht => (hf t ht).2, h.breakLast, fun t ht _ _ => (hf t ht).2⟩
  openOver := h.openOver

theorem newStatement_placed {row : Nat} {line : Text} (hl : line.OneRow) (hst : st.openString = none)
    (h : newStatement row line st = .go tokens st') : RowPlaced row line tokens st' := by
  simp only [newStatement] at h
  split at h
  · cases h
  next c rest hr =>
  split at h
  next hc =>
    cases h
    obtain ⟨hp, hla⟩ := blankRow_placed row hl hr hc
    exact ⟨fun t ht => .inl (hp t ht), hla, fun _ o ho => by rw [hst] at ho; cases ho⟩
  split at h
  · cases h
  next block indents hbl =>
    cases h
    have hbo : line.drop (line.takeWhile isRowBlank).length = line.dropWhile isRowBlank := by
      have hs := takeWhile_append_dropWhile (p := isRowBlank) (l := line)
      exact (congrArg (List.drop _) hs.symm).trans drop_left
    refine (rowPlaced_scanRow row hl { st with indents := indents } hbo hst).append block fun t ht => ?_
    have hb := all_eq_true.mp (all_takeWhile (p := isRowBlank) (l := line))
    exact (blockTokens_placed ( takeWhile_prefix _) hb hbl t ht).imp_left .inl

theorem continueString_placed {row : Nat} {line : Text} (hl : line.OneRow) {o : OpenString} (ho : '\n' ∈ o.text)
    (h : continueString row line st o = .go tokens st') : RowPlaced row line tokens st' := by
  have hov (more : Text) : '\n' ∈ o.text ++ more := mem_append_left _ ho
  rw [continueString] at h
  split at h
  next text rest he =>
    cases h
    have hr : line.drop text.length = rest :=
      (congrArg (List.drop _) (splits_stringEnd o.closing he).symm).trans drop_left
    exact (rowPlaced_scanRow row hl { st with needsMark := false, openString := none } hr rfl).append
      [_] (forall_mem_singleton.mpr ⟨.inr (hov text), by simp⟩)
  split at h
  · cases h
    exact ⟨forall_mem_singleton.mpr (.inr ⟨hov line, by simp⟩), pairwise_singleton _ _,
      fun _ _ hn => by cases hn⟩
  · cases h
    exact ⟨by simp, List.Pairwise.nil, fun _ o' ho' => Option.some.inj ho' ▸ hov line⟩

theorem rowResult_placed {row : Nat} {line : Text} (hl : line.OneRow) (hst : st.OpenOver)
    (h : rowResult row line st = .go tokens st') : RowPlaced row line tokens st' := by
  rw [rowResult] at h
  split at h
  next o ho => exact continueString_placed hl (hst o ho) h
  next hn =>
  split at h
  · exact newStatement_placed hl hn h
  · cases h
    exact rowPlaced_scanRow row hl { st with continued := false } drop_zero hn

/-! ## The line breaks before a token -/

/-- **What the line breaks among the tokens add up to**: each gives the length of a row that a newline ends at
its column. -/
def brokenLength : List Token → Nat
  | [] => 0
  | t :: ts => (if t.kind = .lineBreak then t.start.col + 1 else 0) + brokenLength ts

/-- **Each of these rows ends in a newline that is a line break among the tokens.** -/
def RowsBroken (ts : List Token) (first last : Nat) : Prop :=
  ∀ r, first ≤ r → r < last → ∃ b ∈ ts, b.kind = .lineBreak ∧ b.start.row = r ∧ b.text = ['\n']

@[simp] theorem brokenLength_append (ts us : List Token) :
    brokenLength (ts ++ us) = brokenLength ts + brokenLength us := by
  induction ts with
  | nil => simp [brokenLength]
  | cons t ts ih => simp [brokenLength, ih, Nat.add_assoc]

theorem brokenLength_eq_zero (h : ∀ t ∈ ts, t.kind ≠ .lineBreak) : brokenLength ts = 0 := by
  induction ts with
  | nil => rfl
  | cons t ts ih =>
    obtain ⟨ht, hts⟩ := forall_mem_cons.mp h
    rw [brokenLength, if_neg ht, ih hts]

theorem RowsBroken.refl (ts : List Token) (r : Nat) : RowsBroken ts r r := fun _ h h' => by omega

theorem rowsBroken_iff_succ {first : Nat} (h : first < last) : RowsBroken ts first last ↔
      (∃ b ∈ ts, b.kind = .lineBreak ∧ b.start.row = first ∧ b.text = ['\n']) ∧ RowsBroken ts (first + 1) last := by
  constructor
  · exact fun hro => ⟨hro first (Nat.le_refl _) h, fun r hr => hro r (Nat.le_of_succ_le hr)⟩
  · rintro ⟨hf, hro⟩ r hr hl
    rcases Nat.eq_or_lt_of_le hr with rfl | hr
    · exact hf
    · exact hro r hr hl

theorem RowPlaced.brokenLength_le {row : Nat} {line : Text}
    (h : RowPlaced row line (front ++ post) st) (hli : line.OneRow) (hn : '\n' ∈ line) :
    brokenLength front ≤ line.length ∧
      (brokenLength front = line.length ↔ ∃ b ∈ front, b.kind = .lineBreak ∧ b.start.row = row ∧ b.text = ['\n']) := by
  by_cases hf : ∀ t ∈ front, t.kind ≠ .lineBreak
  · rw [brokenLength_eq_zero hf]
    refine ⟨Nat.zero_le _, fun hz => ?_, fun ⟨b, hb, hk, _⟩ => absurd hk (hf b hb)⟩
    rw [length_eq_zero_iff.mp hz.symm] at hn
    cases hn
  · -- it is the last of the row, so there is no other
    simp only [Classical.not_forall, Decidable.not_not] at hf
    obtain ⟨b, hb, hk⟩ := hf
    have hp : b.PlacedIn row line :=
      (h.placed b (mem_append_left _ hb)).resolve_right fun ho => ho.2 hk
    obtain ⟨before, after, rfl⟩ := append_of_mem hb
    have hl : BreakLast (before ++ b :: after) := (pairwise_append.mp h.breakLast).1
    obtain ⟨-, ha, hbe⟩ := pairwise_append.mp hl
    obtain rfl : after = [] := eq_nil_iff_forall_not_mem.mpr fun t ht =>
      rel_of_pairwise_cons ha ht hk
    have hbe : ∀ t ∈ before, t.kind ≠ .lineBreak := fun t ht => hbe t ht b mem_cons_self
    have hs : brokenLength (before ++ [b]) = b.start.col + 1 := by
      rw [brokenLength_append, brokenLength_eq_zero hbe]
      simp [brokenLength, hk]
    rw [hs, hp.succ_col_eq_iff hk hn hli]
    refine ⟨hp.succ_col_le hk hn, fun hte => ⟨b, hb, hk, hp.start_row, hte⟩, ?_⟩
    rintro ⟨b', hb', hk', -, hte⟩
    rcases mem_append.mp hb' with hm | hm
    · exact absurd hk' (hbe b' hm)
    · exact mem_singleton.mp hm ▸ hte

theorem rowsBroken_append {row : Nat} {line : Text}
    (h : RowPlaced row line (front ++ post) st) (hba : ∀ b ∈ back, b.kind = .lineBreak → row < b.start.row)
    (hrow : row < last) :
    RowsBroken (front ++ back) row last ↔
      (∃ b ∈ front, b.kind = .lineBreak ∧ b.start.row = row ∧ b.text = ['\n']) ∧ RowsBroken back (row + 1) last := by
  rw [rowsBroken_iff_succ hrow]
  refine and_congr ⟨?_, fun ⟨b, hb, hbr⟩ => ⟨b, mem_append_left _ hb, hbr⟩⟩ ⟨?_, ?_⟩
  · rintro ⟨b, hb, hk, hs, ht⟩
    rcases mem_append.mp hb with hb | hb
    · exact ⟨b, hb, hk, hs, ht⟩
    · exact absurd hs (Nat.ne_of_gt (hba b hb hk))
  · intro hro r hr hl
    obtain ⟨b, hb, hk, hs, ht⟩ := hro r hr hl
    rcases mem_append.mp hb with hb | hb
    · have hp := (h.placed b (mem_append_left _ hb)).resolve_right fun ho => ho.2 hk
      exact absurd (hp.start_row.symm.trans hs) (Nat.ne_of_lt hr)
    · exact ⟨b, hb, hk, hs, ht⟩
  · intro hro r hr hl
    obtain ⟨b, hb, hbr⟩ := hro r hr hl
    exact ⟨b, mem_append_right _ hb, hbr⟩

/-- **Where the token `t` stands among the rows**, which are numbered from `row` on, and what the line breaks
among the tokens `front` before it add up to. -/
structure Token.StandsIn (t : Token) (front : List Token) (row : Nat) (lines : List Text) : Prop where
  row_le : row ≤ t.start.row
  text_at : ∃ line, lines[t.start.row - row]? = some line ∧ t.text <+: line.drop t.start.col
  broken_le : brokenLength front ≤ (lines.take (t.start.row - row)).flatten.length
  broken_eq : brokenLength front = (lines.take (t.start.row - row)).flatten.length ↔
    RowsBroken front row t.start.row

theorem Token.StandsIn.cons {t : Token} {row : Nat} {line : Text} (h : t.StandsIn back (row + 1) lines)
    (hp : RowPlaced row line (front ++ post) st)
    (hb : ∀ b ∈ back, b.kind = .lineBreak → row < b.start.row) (hl : line.OneRow) (hn : '\n' ∈ line) :
    t.StandsIn (front ++ back) row (line :: lines) := by
  have hr := h.row_le
  have hs : t.start.row - row = t.start.row - (row + 1) + 1 := by omega
  obtain ⟨hle, heq⟩ := hp.brokenLength_le hl hn
  have hle' := h.broken_le
  refine ⟨Nat.le_of_succ_le hr, ?_, ?_, ?_⟩
  · rw [hs]
    exact h.text_at
  · rw [hs, take_succ_cons, flatten_cons, length_append, brokenLength_append]
    omega
  · rw [rowsBroken_append hp hb hr, ← heq, ← h.broken_eq, hs, take_succ_cons, flatten_cons,
      length_append, brokenLength_append]
    omega

/-- The rows of a scan: a newline stands at the end of each but the last, and nowhere else. -/
structure RowList (lines : List Text) : Prop where
  one_row : ∀ line ∈ lines, line.OneRow
  ended : ∀ line ∈ lines.dropLast, '\n' ∈ line

theorem RowList.of_cons {line : Text} (h : RowList (line :: lines)) :
    line.OneRow ∧ (lines ≠ [] → '\n' ∈ line) ∧ RowList lines := by
  refine ⟨h.one_row line mem_cons_self, fun hne => h.ended line ?_,
    fun l hl => h.one_row l (mem_cons_of_mem _ hl), fun l hl => h.ended l ?_⟩
  · rw [dropLast_cons_of_ne_nil hne]
    exact mem_cons_self
  · rw [dropLast_cons_of_ne_nil (by rintro rfl; cases hl)]
    exact mem_cons_of_mem _ hl

/-- The scan of these rows: no line break stands before them, and every token on one row stands among them. -/
structure ScanPlaced (row : Nat) (lines : List Text) (tokens : List Token) : Prop where
  breaks : ∀ b ∈ tokens, b.kind = .lineBreak → row ≤ b.start.row ∧ ∀ c ∈ b.text.head?, c = '\r' ∨ c = '\n'
  undotted : ∀ t ∈ tokens, t.text.Dotted → '\n' ∈ t.text
  stands : ∀ front mid t post, tokens = front ++ (mid ++ t :: post) → t.text ≠ [] → '\n' ∉ t.text →
    t.StandsIn front row lines

theorem scanPlaced_finishTokens (row : Nat) (lines : List Text) (last : Text) (st : ScanState) :
    ScanPlaced row lines (finishTokens row last st) where
  breaks b hb hk := by
    simp only [finishTokens, mem_append, mem_singleton, mem_map, mem_ite_nil_left] at hb
    rcases hb with (⟨-, rfl⟩ | ⟨_, _, rfl⟩) | rfl <;> cases hk
  undotted t ht hdot := by
    rw [(mem_finishTokens ht).2] at hdot
    exact absurd hdot (not_dotted_of_head (by simp))
  stands front mid t post hto hte _ := by
    have ht : t ∈ finishTokens row last st := by
      rw [hto]
      simp
    exact absurd (mem_finishTokens ht).2 hte

theorem ScanPlaced.after {row : Nat} {line : Text} {rest : List Token}
    (h : ScanPlaced (row + 1) lines rest) (hrow : RowPlaced row line tokens st) (hli : line.OneRow)
    (hn : lines ≠ [] → '\n' ∈ line) : ScanPlaced row (line :: lines) (tokens ++ rest) where
  breaks b hb hk := by
    rcases mem_append.mp hb with hb | hb
    · have hp := (hrow.placed b hb).resolve_right fun ho => ho.2 hk
      exact ⟨Nat.le_of_eq hp.start_row.symm, hp.begins hk⟩
    · exact (h.breaks b hb hk).imp_left Nat.le_of_succ_le
  undotted t ht hdot := by
    rcases mem_append.mp ht with ht | ht
    · exact ((hrow.placed t ht).resolve_left fun hp => hp.undotted hdot).1
    · exact h.undotted t ht hdot
  stands front mid t post hto hte hone := by
    -- a token of a later row: its row is there, so this one has an end
    have hl (back mid' : List Token) (hr : rest = back ++ (mid' ++ t :: post)) {front' post' : List Token}
        (hf : tokens = front' ++ post') : t.StandsIn (front' ++ back) row (line :: lines) := by
      have hs := h.stands back mid' t post hr hte hone
      refine hs.cons (hf ▸ hrow) (fun b hb hk => ?_) hli (hn ?_)
      · exact (h.breaks b (hr ▸ mem_append_left _ hb) hk).1
      · rintro rfl
        obtain ⟨_, hno, -⟩ := hs.text_at
        cases hno
    rcases append_eq_append_iff.mp hto with ⟨back, rfl, hr⟩ | ⟨back, rfl, hba⟩
    · simpa using hl back mid hr (append_nil tokens).symm
    rcases append_eq_append_iff.mp hba with ⟨own, rfl, hown⟩ | ⟨mid', rfl, hr⟩
    case inr.inr =>
      have hs := hl [] mid' hr rfl
      rwa [append_nil] at hs
    rcases cons_eq_append_iff.mp hown with ⟨rfl, hr⟩ | ⟨own, rfl, -⟩
    · have hs := hl [] [] hr rfl
      rwa [append_nil] at hs
    -- a token of this row: the line breaks of the row stand behind it
    have hp := (hrow.placed t (by simp)).resolve_right fun ho => hone ho.1
    have hz : brokenLength front = 0 := brokenLength_eq_zero fun b hb =>
      (pairwise_append.mp hrow.breakLast).2.2 b hb t (by simp)
    rw [← hp.start_row]
    refine ⟨Nat.le_refl _, ⟨line, ?_, hp.text_at⟩, ?_, ?_⟩
    · rw [Nat.sub_self]
      rfl
    · rw [hz]
      exact Nat.zero_le _
    · rw [hz, Nat.sub_self]
      exact iff_of_true rfl (.refl front _)

theorem scanRows_placed (lines : List Text) (row : Nat) (last : Text) (st : ScanState) (hl : RowList lines)
    (hst : lines ≠ [] → st.OpenOver) : ScanPlaced row lines (scanRows row last st lines).tokens := by
  refine scanRows_induction (motive := fun row lines st r => RowList lines → (lines ≠ [] → st.OpenOver) →
    ScanPlaced row lines r.tokens) ?_ ?_ ?_ ?_ lines row last st hl hst
  · exact fun row lines st f _ _ => 
      ⟨by simp [Scan.broken], by simp [Scan.broken], fun front mid t post h => by simp [Scan.broken] at h⟩
  · exact fun row last st _ _ => scanPlaced_finishTokens row [] last st
  · exact fun row line lines last st _ _ _ => scanPlaced_finishTokens row (line :: lines) last st
  · intro row line lines st tokens st' rest hrow ih hl hst
    obtain ⟨hli, hn, hr⟩ := hl.of_cons
    have hp := rowResult_placed hli (hst (by simp)) hrow
    exact (ih hr fun hne => hp.openOver (hn hne)).after hp hli hn

/-! ## The text -/

theorem rowList_rowsWithEnds (s : Text) : RowList s.rowsWithEnds where
  one_row line hline := (oneRow_of_mem_rowsWithEnds s line hline).2
  ended line hline := newline_mem_of_mem_dropLast s line hline

theorem scan_placed (s : Text) : ScanPlaced 1 s.rowsWithEnds (scan s).tokens :=
  scanRows_placed s.rowsWithEnds 1 [] .initial (rowList_rowsWithEnds s) fun _ _ hn => by cases hn

variable {s : Text} {t : Token}

theorem text_at_offset (ht : t ∈ (scan s).tokens) (hte : t.text ≠ []) (ho : '\n' ∉ t.text) :
    t.text <+: s.drop (s.offset t.start) := by
  obtain ⟨front, post, hto⟩ := append_of_mem ht
  obtain ⟨line, hl, hat⟩ := ((scan_placed s).stands front [] t post hto hte ho).text_at
  -- the rows before, the row of the token, and the rows behind
  have hr := congrArg List.flatten (take_append_drop (t.start.row - 1) s.rowsWithEnds)
  rw [flatten_rowsWithEnds, drop_eq_getElem?_toList_append, hl, flatten_append] at hr
  rw [Text.offset, ← drop_drop]
  have hd := (congrArg (List.drop _) hr.symm).trans drop_left
  rw [hd, Option.toList_some, singleton_append, flatten_cons, drop_append]
  exact hat.trans (prefix_append _ _)

theorem brokenLength_eq_iff (mid post : List Token)
    (ht : (scan s).tokens = front ++ (mid ++ t :: post)) (hte : t.text ≠ []) (ho : '\n' ∉ t.text) :
    brokenLength front + t.start.col = s.offset t.start ↔ RowsBroken front 1 t.start.row := by
  rw [← ((scan_placed s).stands front mid t post ht hte ho).broken_eq, Text.offset]
  exact Nat.add_right_cancel_iff

end QtMigration
