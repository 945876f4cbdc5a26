import QtMigration.Proofs.Encoding.RoundTrip
import QtMigration.Proofs.Source.Lossless
import QtMigration.Proofs.Token.Order

/-!
# Proofs/Source/Statements — a statement stands within one logical line

The search for line ends remembers two marks between tokens (`LineMarks`).
-/

namespace QtMigration

open List

variable {m : LineMarks} {n : Nat} {s : Text} {t x : Token}

/-! ## The rows at which lines end -/

namespace LineMarks

def after (m : LineMarks) (ts : List Token) : LineMarks := ts.foldl (fun m t => (m.step t).1) m

def cuts : LineMarks → List Token → List Nat
  | _, [] => []
  | m, t :: ts => (m.step t).2.toList ++ cuts (m.step t).1 ts

theorem cuts_append : ∀ (m : LineMarks) (front back : List Token),
    m.cuts (front ++ back) = m.cuts front ++ (m.after front).cuts back
  | _, [], _ => rfl
  | m, t :: front, back => by
    rw [cons_append, cuts, cuts, cuts_append, append_assoc]
    rfl

theorem cuts_sublist : ∀ (m : LineMarks) (ts : List Token), (m.cuts ts).Sublist (ts.map fun t => t.stop.row)
  | _, [] => List.Sublist.refl _
  | m, t :: ts => (m.step_row t).append (cuts_sublist (m.step t).1 ts)

theorem cuts_ne_nil : ∀ (m : LineMarks) {ts : List Token}, (∃ t ∈ ts, t.kind = .finish) → m.cuts ts ≠ []
  | m, t :: ts, ⟨u, hu, hk⟩ => by
    rw [cuts]
    intro hn
    obtain ⟨hs, hr⟩ := append_eq_nil_iff.mp hn
    rcases mem_cons.mp hu with rfl | hu
    · rw [LineMarks.step, hk] at hs
      cases hs
    · exact cuts_ne_nil (m.step t).1 ⟨u, hu, hk⟩ hr

end LineMarks

theorem rows_eq_cuts (reason : Option Text) : ∀ (m : LineMarks) (seen : Option Token) (ts : List Token),
    (lineEndsGo reason m seen ts).stop = .complete → (lineEndsGo reason m seen ts).rows = m.cuts ts
  | _, _, [], _ => rfl
  | m, seen, t :: ts, h => by
    rw [lineEndsGo] at h ⊢
    split at h
    · cases h
    next hs =>
      rw [if_neg hs, LineMarks.cuts, ← rows_eq_cuts reason _ _ ts h]

/-! ## Tokens of a statement -/

/-- The token belongs to no statement: a comment, the end of a row inside a statement, or the border of a
block. -/
def Token.isTrivia (t : Token) : Bool := [.comment, .lineBreak, .indent, .dedent].contains t.kind

/-- A token of a statement that does not end it. -/
structure Token.Inside (t : Token) : Prop where
  trivia : t.isTrivia = false
  newline : t.kind ≠ .newline
  finish : t.kind ≠ .finish

theorem Token.Inside.endsRow (h : t.Inside) : t.endsRow = false := by
  obtain ⟨ht, hn, -⟩ := h
  cases hk : t.kind <;> simp_all [Token.isTrivia, Token.endsRow]

theorem EndsComment.head {front rest : List Token} (h : EndsComment (front ++ x :: rest))
    (hx : x.Inside) : ∃ e front', front = e :: front' ∧ e.endsRow := by
  rcases h with ⟨e, rest', heq, he⟩ | ha
  · cases front with
    | nil =>
      obtain ⟨rfl, -⟩ := cons.inj heq
      rw [hx.endsRow] at he
      cases he
    | cons t front =>
      obtain ⟨rfl, -⟩ := cons.inj heq
      exact ⟨t, front, rfl, he⟩
  · rcases ha x (mem_append_right _ mem_cons_self) with hk | hk
    · have ht := hx.trivia
      rw [Token.isTrivia, hk] at ht
      cases ht
    · exact absurd hk hx.finish

/-- Whether nothing but comments and line breaks has come since the last newline, behind one more token. -/
def betweenStatements (between : Bool) (t : Token) : Bool :=
  t.kind == .newline || (between && (t.kind == .comment || t.kind == .lineBreak))

/-- Some comment between two statements is followed by a newline, as if it were a statement. -/
def commentAsStatement : Bool → List Token → Bool
  | _, [] => false
  | between, t :: ts =>
    (between && t.kind == .comment && ts.head?.any (·.kind == .newline)) ||
      commentAsStatement (betweenStatements between t) ts

namespace LineMarks

theorem step_inside (m : LineMarks) (h : t.Inside) : m.step t = ({ m with fresh := false }, none) := by
  obtain ⟨ht, hn, hf⟩ := h
  cases hk : t.kind <;> simp_all [Token.isTrivia, LineMarks.step]

theorem cuts_quiet : ∀ {ts : List Token}, (∀ t ∈ ts, t.kind ≠ .newline ∧ t.kind ≠ .finish) →
    cuts ⟨false, false⟩ ts = [] ∧ after ⟨false, false⟩ ts = ⟨false, false⟩
  | [], _ => ⟨rfl, rfl⟩
  | t :: ts, h => by
    obtain ⟨⟨hn, hf⟩, hts⟩ := forall_mem_cons.mp h
    have hs : LineMarks.step ⟨false, false⟩ t = (⟨false, false⟩, none) := by
      cases hk : t.kind <;> simp_all [LineMarks.step]
    obtain ⟨hc, ha⟩ := cuts_quiet hts
    rw [cuts, after, foldl_cons, hs]
    exact ⟨hc, ha⟩

theorem kind_of_step (h : (m.step t).2 = some n) :
    n = t.stop.row ∧ (t.endsRow ∨ t.kind = .comment ∨ t.kind = .finish) := by
  have hr : n = t.stop.row := by
    have hs := m.step_row t
    rw [h] at hs
    simpa using hs
  refine ⟨hr, ?_⟩
  cases hk : t.kind <;> simp_all [Token.endsRow, LineMarks.step]

theorem cuts_lt {x : Token} {rest : List Token} (hx : x.Inside) : ∀ (front : List Token) (m : LineMarks),
    (front ++ x :: rest).Pairwise Token.Before →
    ((front ++ x :: rest).map fun t => t.stop.row).Pairwise (· ≤ ·) →
    CommentsEnded (front ++ x :: rest) → ∀ n ∈ m.cuts front, ∀ u ∈ x :: rest, n < u.start.row
  | [], _, _, _, _ => by simp [cuts]
  | t :: front, m, hb, hs, hen => by
    obtain ⟨ht, hb'⟩ := pairwise_cons.mp hb
    obtain ⟨hts, hs'⟩ := pairwise_cons.mp hs
    intro n hn u hu
    have hu' : u ∈ front ++ x :: rest := mem_append_right _ hu
    rw [cuts, mem_append, Option.mem_toList] at hn
    rcases hn with hn | hn
    · obtain ⟨rfl, hends | hc | hf⟩ := kind_of_step hn
      · exact (ht u hu').lt hends
      · -- the row of the comment ends at the next token
        obtain ⟨e, front', rfl, he⟩ := (hen.1 hc).head hx
        have hlt := ((pairwise_cons.mp hb').1 u (mem_append_right _ hu)).lt he
        have hle : t.stop.row ≤ e.stop.row := hts e.stop.row (mem_map_of_mem mem_cons_self)
        omega
      · exact absurd hf (ht u hu').ne_finish
    · exact cuts_lt hx front _ hb' hs' hen.2 n hn u hu

theorem step_marks {between : Bool} (hma : m.afterComment = false)
    (hf : m.fresh → between) (ht : t.kind ≠ .finish) :
    ((m.step t).1.fresh → betweenStatements between t) ∧
      ((m.step t).1.afterComment → between ∧ t.kind = .comment) := by
  cases hk : t.kind with
  | lineBreak =>
    rw [LineMarks.step, hk]
    dsimp only
    rw [hma, if_neg (by decide)]
    split
    next hb =>
      simp only [Bool.and_eq_true] at hb
      exact ⟨fun _ => by simp [betweenStatements, hk, hf hb.2], fun h => by simp [hma] at h⟩
    · exact ⟨Bool.noConfusion, Bool.noConfusion⟩
  | _ => cases hm : m.fresh <;> simp_all [LineMarks.step, betweenStatements]

/-- **The mark of a comment is down where a statement begins**, if no comment before it is taken for a
statement. -/
theorem afterComment_after {x : Token} {rest : List Token} (hx : x.Inside) :
    ∀ (front : List Token) (m : LineMarks) (between : Bool), (m.fresh → between) →
      (m.afterComment → between ∧ EndsComment (front ++ x :: rest) ∧
        front.head?.any (·.kind == .newline) = false) →
      (∀ t ∈ front, t.kind ≠ .finish) → CommentsEnded (front ++ x :: rest) →
      commentAsStatement between front = false → (m.after front).afterComment = false
  | [], m, _, _, hc, _, _, _ => by
    refine Bool.eq_false_iff.mpr fun hm => ?_
    obtain ⟨e, front', hn, -⟩ := (hc hm).2.1.head hx
    cases hn
  | t :: front, m, between, hfr, hc, hf, hen, hl => by
    obtain ⟨ht, hf⟩ := forall_mem_cons.mp hf
    rw [commentAsStatement, Bool.or_eq_false_iff] at hl
    obtain ⟨hl, hlo⟩ := hl
    rw [after, foldl_cons]
    cases hm : m.afterComment with
    | true =>
      obtain ⟨rfl, hends, hh⟩ := hc hm
      obtain ⟨e, front', heq, he⟩ := hends.head hx
      obtain ⟨rfl, rfl⟩ := cons.inj heq
      -- the row of the comment ends without a newline, and the mark goes down
      have hk : t.kind = .lineBreak := (Token.kind_of_endsRow he).resolve_left (by simpa using hh)
      have hs : (m.step t).1 = ⟨true, false⟩ := by simp [LineMarks.step, hk, hm]
      rw [hs]
      refine afterComment_after hx front _ _ (fun _ => ?_) (fun h => by cases h) hf hen.2 hlo
      rw [betweenStatements, hk]
      rfl
    | false =>
      obtain ⟨hfr', hc'⟩ := step_marks hm hfr ht
      refine afterComment_after hx front _ _ hfr' (fun hm' => ?_) hf hen.2 hlo
      obtain ⟨rfl, hk⟩ := hc' hm'
      refine ⟨?_, hen.1 hk, ?_⟩
      · rw [betweenStatements, hk]
        rfl
      · simpa [hk] using hl

end LineMarks

/-! ## Cutting -/

theorem cutAt_append (rows : List Text) : ∀ (count : Nat) (front back : List Nat), cutAt rows count (front ++ back) =
      cutAt rows count front ++ cutAt rows ((count :: front).getLast (by simp)) back
  | _, [], _ => rfl
  | count, n :: front, back => by
    rw [cons_append, cutAt, cutAt, cutAt_append rows n front back, getLast_cons_cons]
    rfl

theorem length_cutAt (rows : List Text) : ∀ (count : Nat) (ends : List Nat),
    (cutAt rows count ends).length = ends.length
  | _, [] => rfl
  | _, n :: ends => by rw [cutAt, length_cons, length_cutAt rows n ends, length_cons]

theorem flatten_take_cutAt (rows : List Text) : ∀ (count : Nat) (ends : List Nat), (count :: ends).Pairwise (· ≤ ·) →
      (rows.take count).flatten ++ (cutAt rows count ends).flatten =
        (rows.take ((count :: ends).getLast (by simp))).flatten
  | count, [], _ => by rw [cutAt, flatten_nil, append_nil, getLast_singleton]
  | count, n :: ends, hpa => by
    obtain ⟨hle, ht⟩ := pairwise_cons.mp hpa
    have hs : rows.take count ++ (rows.take n).drop count = rows.take n := by
      have hp := take_append_drop count (rows.take n)
      rwa [take_take, Nat.min_eq_left (hle n mem_cons_self)] at hp
    rw [cutAt, flatten_cons, ← append_assoc, ← flatten_append, hs,
      flatten_take_cutAt rows n ends ht, getLast_cons_cons]

def rowsBefore (lines : List Text) (i : Nat) : Nat := (Text.rowsWithEnds (lines.take i).flatten).length

/-- The token lies within a line: it starts and stops on rows of it. -/
def Token.LiesIn (t : Token) (lines : List Text) (i : Nat) : Prop :=
  rowsBefore lines i < t.start.row ∧ min t.stop.row (rowsBefore lines lines.length) ≤ rowsBefore lines (i + 1)

instance (t : Token) (lines : List Text) (i : Nat) : Decidable (t.LiesIn lines i) :=
  inferInstanceAs (Decidable (_ ∧ _))

theorem rowsBefore_cutAt (s : Text) (front back : List Nat) (h : (0 :: (front ++ back)).Pairwise (· ≤ ·)) :
    rowsBefore (cutAt s.rowsWithEnds 0 (front ++ back)) front.length =
      min ((0 :: front).getLast (by simp)) s.rowsWithEnds.length := by
  have hf : (0 :: front).Pairwise (· ≤ ·) := h.sublist (by simp)
  have hfl : (cutAt s.rowsWithEnds 0 front).flatten =
      (s.rowsWithEnds.take ((0 :: front).getLast (by simp))).flatten :=
    flatten_take_cutAt s.rowsWithEnds 0 front hf
  rw [rowsBefore, cutAt_append, take_left' (length_cutAt _ _ _), hfl, Text.rowsWithEnds_flatten_take, length_take]

theorem liesIn_cutAt (s : Text) {front back : List Nat}
    (h : (0 :: (front ++ n :: back)).Pairwise (· ≤ ·)) (hf : ∀ k ∈ 0 :: front, k < t.start.row)
    (hs : t.stop.row ≤ n) : t.LiesIn (cutAt s.rowsWithEnds 0 (front ++ n :: back)) front.length := by
  have hn := rowsBefore_cutAt s (front ++ [n]) back (by simpa using h)
  have ha := rowsBefore_cutAt s (front ++ n :: back) [] (by simpa using h)
  rw [append_assoc, singleton_append, length_append, length_singleton] at hn
  refine ⟨?_, ?_⟩
  · rw [rowsBefore_cutAt s front (n :: back) h]
    exact Nat.lt_of_le_of_lt (Nat.min_le_left _ _) (hf _ (getLast_mem _))
  · rw [append_nil, ← length_cutAt s.rowsWithEnds 0] at ha
    have hl : (0 :: (front ++ [n])).getLast (by simp) = n := getLast_concat (l := 0 :: front)
    rw [hn, ha, hl]
    omega

/-! ## Statements -/

/-- **No line ends between two tokens of one statement**: where the lines end before the first of them, and
where the next line ends. -/
theorem cuts_of_statement (hs : '\r' ∉ s) {front between back : List Token} {y : Token}
    (hfa : (scan s).fault = none) (hto : (scan s).tokens = front ++ x :: (between ++ y :: back))
    (hne : ∀ t ∈ x :: between, t.kind ≠ .newline) (hx : x.isTrivia = false)
    (hc : commentAsStatement true front = false) :
    ∃ ends n ends', LineMarks.initial.cuts (scan s).tokens = ends ++ n :: ends' ∧
      (∀ k ∈ 0 :: ends, k < x.start.row ∧ k < y.start.row) ∧ x.stop.row ≤ n ∧ y.stop.row ≤ n := by
  have hb := pairwise_before hs
  have hstop := pairwise_stop_row s
  have he := commentsEnded_scan hs
  have hp := start_row_pos hs
  obtain ⟨tokens, last, hl, hki, -⟩ := exists_finish hfa
  -- the end of the text is `y` or comes behind it
  have hf : ∃ t ∈ y :: back, t.kind = .finish := by
    refine ⟨last, ?_, hki⟩
    have hend := congrArg List.getLast? (hl.symm.trans hto)
    rw [getLast?_concat, ← cons_append, ← append_assoc, getLast?_append,
      getLast?_eq_some_getLast (cons_ne_nil y back)] at hend
    exact Option.some.inj hend ▸ getLast_mem _
  rw [hto] at hb hstop he hp ⊢
  have hno : ∀ t ∈ front ++ x :: between, t.kind ≠ .finish := fun t ht => by
    rw [← cons_append, ← append_assoc] at hb
    exact ((pairwise_append.mp hb).2.2 t ht y mem_cons_self).ne_finish
  obtain ⟨hfr, hbe⟩ := forall_mem_append.mp hno
  have hi : x.Inside := ⟨hx, hne x mem_cons_self, hbe x mem_cons_self⟩
  -- the marks behind `x` are down, so nothing ends before `y`
  have hm := LineMarks.afterComment_after hi front .initial true (fun _ => rfl) nofun hfr he hc
  have hq := LineMarks.cuts_quiet fun t ht =>
    ⟨hne t (mem_cons_of_mem _ ht), hbe t (mem_cons_of_mem _ ht)⟩
  have hcu : LineMarks.initial.cuts (front ++ x :: (between ++ y :: back)) =
      LineMarks.initial.cuts front ++ LineMarks.cuts ⟨false, false⟩ (y :: back) := by
    rw [LineMarks.cuts_append, LineMarks.cuts, LineMarks.step_inside _ hi, hm, LineMarks.cuts_append,
      hq.1, hq.2]
    rfl
  have hsub := LineMarks.cuts_sublist ⟨false, false⟩ (y :: back)
  obtain ⟨n, ends', hba⟩ := exists_cons_of_ne_nil (LineMarks.cuts_ne_nil ⟨false, false⟩ hf)
  rw [hba] at hcu hsub
  obtain ⟨u, hu, hn⟩ := mem_map.mp (hsub.subset mem_cons_self)
  obtain ⟨-, hst, -⟩ := pairwise_append.mp (pairwise_map.mp hstop)
  obtain ⟨hstopx, hst⟩ := pairwise_cons.mp hst
  obtain ⟨hstopy, -⟩ := pairwise_cons.mp (pairwise_append.mp hst).2.1
  refine ⟨_, n, ends', hcu, ?_, ?_, ?_⟩
  · have hlt := LineMarks.cuts_lt hi front .initial hb hstop he
    refine forall_mem_cons.mpr ⟨⟨hp x ?_, hp y ?_⟩, fun k hk => ⟨hlt k hk x ?_, hlt k hk y ?_⟩⟩ <;> simp
  · exact hn ▸ hstopx u (mem_append_right _ hu)
  · rcases mem_cons.mp hu with rfl | hu
    · exact Nat.le_of_eq hn
    · exact hn ▸ hstopy u hu

theorem Text.eq_nil_of_rowsWithEnds_ended (h : s.ended.rowsWithEnds = []) : s = [] := by
  have hr : s.rowsWithEnds = [] := by
    rw [← length_eq_zero_iff, ← s.length_rowsWithEnds_ended, h]
    rfl
  rw [← s.flatten_rowsWithEnds, hr]
  rfl

/-- **A statement is never cut in two.**  A token of a statement and any later one before its newline lie within
one logical line of the file, if no comment before them is taken for a statement. -/
theorem statement_within_one_line {path label content : Text} {bytes : Bytes} {lines : List Text}
    {front between back : List Token} {x y : Token}
    (h : (readSource path (.ok bytes)).outcome = .ok (.lines lines))
    (hlabel : (readSource path (.ok bytes)).encoding = some label)
    (hcontent : decodeSource label bytes = .ok (.ok content))
    (htokens : (scan content).tokens = front ++ x :: (between ++ y :: back))
    (hnewline : ∀ t ∈ x :: between, t.kind ≠ .newline) (hx : x.isTrivia = false)
    (hcomments : commentAsStatement true front = false) :
    ∃ i, i < lines.length ∧ x.LiesIn lines i ∧ y.LiesIn lines i := by
  obtain ⟨codec, decoded, -, -, hdecoded⟩ := decodeSource_eq_ok hcontent
  have hreturn : '\r' ∉ content := hdecoded ▸ return_notMem_universalNewlines decoded
  obtain ⟨printed, label', content', -, hlabel', hcontent', hread⟩ := exists_readText h
  obtain rfl : label = label' := Option.some.inj (hlabel.symm.trans hlabel')
  obtain rfl : content = content' := by
    rw [hcontent] at hcontent'
    exact Except.ok.inj (Except.ok.inj hcontent')
  rcases readText_eq_lines hread with ⟨hrows, -⟩ | ⟨hstop, rfl⟩
  · rw [Text.eq_nil_of_rowsWithEnds_ended hrows] at htokens
    have hlength := congrArg List.length htokens
    rw [List.length_append, List.length_cons, List.length_append, List.length_cons,
      show (scan []).tokens.length = 1 from rfl] at hlength
    omega
  · have hfault : (scan content).fault = none := by
      simpa using reason_eq_none_of_complete _ _ _ _ hstop
    obtain ⟨ends, n, ends', hcuts, hstart, hxn, hyn⟩ :=
      cuts_of_statement hreturn hfault htokens hnewline hx hcomments
    have hpair := (textLineEnds_of_complete hstop).1
    have hends : (textLineEnds content).rows = ends ++ n :: ends' :=
      (rows_eq_cuts _ _ _ _ hstop).trans hcuts
    rw [hends] at hpair ⊢
    refine ⟨ends.length, ?_, liesIn_cutAt _ hpair (fun k hk => (hstart k hk).1) hxn,
      liesIn_cutAt _ hpair (fun k hk => (hstart k hk).2) hyn⟩
    rw [length_cutAt, List.length_append, List.length_cons]
    omega

/-- A comment, and a statement with a blank row between its brackets. -/
def bracketText : Text := "# c\nf(\n\n1)\n"

def bracketSource : Bytes := [35, 32, 99, 10, 102, 40, 10, 10, 49, 41, 10]

theorem statement_within_one_line_bracketSource :
    (readSource "m.py" (.ok bracketSource)).outcome = .ok (.lines ["# c\n", "f(\n\n1)\n", ""]) ∧
      ∃ i, i < 3 ∧ (⟨.word, "f", ⟨2, 0⟩, ⟨2, 1⟩, "f(\n"⟩ : Token).LiesIn ["# c\n", "f(\n\n1)\n", ""] i ∧
        (⟨.operator, ")", ⟨4, 1⟩, ⟨4, 2⟩, "1)\n"⟩ : Token).LiesIn ["# c\n", "f(\n\n1)\n", ""] i := by
  have h : (readSource "m.py" (.ok bracketSource)).outcome = .ok (.lines ["# c\n", "f(\n\n1)\n", ""]) := by
    decide +kernel
  have hcontent : decodeSource "utf-8" bracketSource = .ok (.ok bracketText) := by decide +kernel
  have htokens : (scan bracketText).tokens = (scan bracketText).tokens.take 2 ++
      ⟨.word, "f", ⟨2, 0⟩, ⟨2, 1⟩, "f(\n"⟩ :: (((scan bracketText).tokens.drop 3).take 4 ++
        ⟨.operator, ")", ⟨4, 1⟩, ⟨4, 2⟩, "1)\n"⟩ :: (scan bracketText).tokens.drop 8) := by
    decide +kernel
  exact ⟨h, statement_within_one_line h (by decide +kernel) hcontent htokens (by decide +kernel) rfl
    (by decide +kernel)⟩

/-- The same, with the comment on a row that is continued from an empty one. -/
def continuedText : Text := "\\\n# c\nf(\n\n1)\n"

def continuedSource : Bytes := [92, 10, 35, 32, 99, 10, 102, 40, 10, 10, 49, 41, 10]

/-- **A comment that is taken for a statement.**  Its mark stays up, and the blank row between the brackets of
the next statement ends a line. -/
theorem statement_cut_behind_comment : (readSource "m.py" (.ok continuedSource)).outcome =
        .ok (.lines ["\\\n# c\n", "", "f(\n\n", "1)\n", ""]) ∧
      decodeSource "utf-8" continuedSource = .ok (.ok continuedText) ∧
      (scan continuedText).tokens = (scan continuedText).tokens.take 2 ++
        ⟨.word, "f", ⟨3, 0⟩, ⟨3, 1⟩, "f(\n"⟩ :: (((scan continuedText).tokens.drop 3).take 4 ++
          ⟨.operator, ")", ⟨5, 1⟩, ⟨5, 2⟩, "1)\n"⟩ :: (scan continuedText).tokens.drop 8) ∧
      (∀ t ∈ ((scan continuedText).tokens.drop 2).take 6, t.kind ≠ .newline) ∧
      commentAsStatement true ((scan continuedText).tokens.take 2) = true ∧
      ¬ ∃ i, i < 5 ∧ (⟨.word, "f", ⟨3, 0⟩, ⟨3, 1⟩, "f(\n"⟩ : Token).LiesIn ["\\\n# c\n", "", "f(\n\n", "1)\n", ""] i ∧
        (⟨.operator, ")", ⟨5, 1⟩, ⟨5, 2⟩, "1)\n"⟩ : Token).LiesIn ["\\\n# c\n", "", "f(\n\n", "1)\n", ""] i := by
  decide +kernel

end QtMigration
