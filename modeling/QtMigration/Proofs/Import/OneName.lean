import QtMigration.Proofs.Import.Names

/-!
# Proofs/Import/OneName — an import statement with one name replaced or removed

**It is removed, and a statement is left, exactly if it is bordered and a comma goes with it**, or it is
the last one in parentheses and no comma follows (`replaceName_removeName_iff`).
-/

namespace QtMigration

open List Text

/-! ## The words around a name -/

section Around

variable {S : Setting} {names ns ms : List Text} {n s before behind : Text}

theorem words_of_isGap (h : isGap s) : words s = [] := by
  rw [← append_nil s, words_gap_append h, words_nil]

theorem exists_last_of_isGap (hne : s ≠ []) (hs : isGap s) :
    ∃ front c, s = front ++ [c] ∧ Text.isWord c = false := by
  obtain ⟨front, c, rfl⟩ := (eq_nil_or_concat s).resolve_left hne
  rw [concat_eq_append] at hs ⊢
  exact ⟨front, c, rfl, isWord_of_mem_gap hs (by simp)⟩

theorem exists_head_of_isGap (hne : s ≠ []) (hs : isGap s) (t : Text) :
    ∃ c rest, s ++ t = c :: rest ∧ Text.isWord c = false := by
  obtain ⟨c, s, rfl⟩ := exists_cons_of_ne_nil hne
  exact ⟨c, s ++ t, rfl, isWord_of_mem_gap hs mem_cons_self⟩

theorem words_append_name (hb : ∃ front c, before = front ++ [c] ∧ Text.isWord c = false) (hn : IsName n)
    (hbe : ∃ c rest, behind = c :: rest ∧ Text.isWord c = false) :
    words (before ++ (n ++ behind)) = words before ++ n :: words behind := by
  obtain ⟨c, rest, rfl, hc⟩ := hbe
  rw [words_append_border (.inr hb), words_append_cons hc, words_of_isWord hn.1 hn.2, words_cons hc]
  rfl

theorem isGap_comma {close space : Text} (hc : S.isClose close) (hs : S.isSpace space) :
    isGap (close ++ ',' :: space) := by
  rw [isGap, all_append, all_cons, ← isGap, ← isGap, isGap_of_isSpacing (Setting.isClose_isSpacing hc),
    isGap_of_isSpacing (Setting.all_isSpacing hs)]
  decide

theorem Before.exists_last (h : Before S names before) : ∃ front c, before = front ++ [c] ∧ Text.isWord c = false := by
  cases h with
  | first hl hs hne => exact exists_last_of_isGap hne (isGap_of_isSpacing (Setting.opened_isSpacing hl hs))
  | @comma names n front close space _ hcl hs =>
    obtain ⟨f, c, hf, hc⟩ := exists_last_of_isGap (by simp) (isGap_comma hcl hs)
    exact ⟨front ++ (n ++ f), c, by rw [hf]; simp, hc⟩

theorem Before.exists_head (h : Before S names before) : ∃ c rest, before = c :: rest ∧ Text.isWord c = false := by
  induction h with
  | first hl hs hne =>
    have hh := exists_head_of_isGap hne (isGap_of_isSpacing (Setting.opened_isSpacing hl hs)) []
    rwa [append_nil] at hh
  | comma _ _ _ ih =>
    obtain ⟨c, rest, rfl, hc⟩ := ih
    exact ⟨c, _, rfl, hc⟩

theorem Before.words (h : Before S names before) (hna : ∀ n ∈ names, IsName n) : Text.words before = names := by
  induction h with
  | first hl hs _ => exact words_of_isGap (isGap_of_isSpacing (Setting.opened_isSpacing hl hs))
  | @comma names n front close space hf hc hs ih =>
    obtain ⟨hna, hn⟩ := forall_mem_append.mp hna
    have hg := isGap_comma hc hs
    have hh := exists_head_of_isGap (by simp) hg []
    rw [append_nil] at hh
    rw [words_append_name hf.exists_last (hn n (mem_singleton.mpr rfl)) hh, ih hna, words_of_isGap hg]

theorem Behind.exists_head (h : Behind S names behind) : ∃ c rest, behind ++ ['\n'] = c :: rest ∧
    Text.isWord c = false := by
  cases h with
  | @ends close tail hc ht =>
    have hg : isGap (close ++ (S.closing ++ tail) ++ ['\n']) := by
      rw [isGap, all_append, ← isGap,
        isGap_of_isSpacing (S.closed_isSpacing (Setting.isClose_isSpacing hc) ht)]
      decide
    have hh := exists_head_of_isGap (by simp) hg []
    rwa [append_nil] at hh
  | @trailing close space tail _ hc hs _ =>
    have hh := exists_head_of_isGap (by simp) (isGap_comma hc hs) (S.closing ++ tail ++ ['\n'])
    simpa using hh
  | @comma names n rest close space hc hs _ =>
    have hh := exists_head_of_isGap (by simp) (isGap_comma hc hs) (n ++ rest ++ ['\n'])
    simpa using hh

theorem Behind.words (h : Behind S names behind) (hna : ∀ n ∈ names, IsName n) :
    Text.words (behind ++ ['\n']) = names := by
  induction h with
  | @ends close tail hcl ht =>
    rw [words_append_gap _ (by decide),
      words_of_isGap (isGap_of_isSpacing (S.closed_isSpacing (Setting.isClose_isSpacing hcl) ht))]
  | @trailing close space tail _ hcl hs ht =>
    have hr := isGap_of_isSpacing (@Setting.closed_isSpacing S [] tail rfl ht)
    rw [words_append_gap _ (by decide), show close ++ ',' :: (space ++ (S.closing ++ tail)) =
      (close ++ ',' :: space) ++ ([] ++ (S.closing ++ tail)) by simp, words_gap_append (isGap_comma hcl hs),
      words_of_isGap hr]
  | @comma names n rest close space hcl hs hr ih =>
    obtain ⟨hn, hna⟩ := forall_mem_cons.mp hna
    obtain ⟨c, more, hh, hc⟩ := hr.exists_head
    rw [show close ++ ',' :: (space ++ (n ++ rest)) ++ ['\n'] = (close ++ ',' :: space) ++ (n ++ (rest ++ ['\n'])) by simp,
      words_gap_append (isGap_comma hcl hs), hh, words_append_cons hc, words_of_isWord hn.1 hn.2,
      ← words_cons hc, ← hh, ih hna]
    rfl

end Around

/-! ## A list cut at a comma -/

section Cut

variable {S : Setting} {ns ms : List Text} {indent origin before behind back space : Text}

theorem append_cons_inj_of_notMem {α : Type} {c : α} {a b s t : List α} (h : a ++ c :: s = b ++ c :: t) (hs : c ∉ s)
    (ht : c ∉ t) : a = b ∧ s = t := by
  rcases append_eq_append_iff.mp h with ⟨x, hx, hx'⟩ | ⟨x, hx, hx'⟩
  · cases x with
    | nil => exact ⟨by simpa using hx.symm, (cons.inj hx').2⟩
    | cons d x => exact absurd (by rw [(cons.inj hx').2]; simp) hs
  · cases x with
    | nil => exact ⟨by simpa using hx, (cons.inj hx').2.symm⟩
    | cons d x => exact absurd (by rw [(cons.inj hx').2]; simp) ht

theorem Before.append_space (h : Before S ns before) (hs : S.isSpace space) : Before S ns
    (before ++ space) := by
  cases h with
  | @first lead first hl hf hne =>
    rw [append_assoc, append_assoc]
    refine .first hl (Setting.isSpace_append hf hs) fun hn => hne ?_
    simp only [append_eq_nil_iff] at hn ⊢
    exact ⟨hn.1, hn.2.1, hn.2.2.1⟩
  | @comma names n front close space' hfr hc hs' =>
    have h := Before.comma (n := n) hfr hc (Setting.isSpace_append hs' hs)
    simpa using h

theorem Behind.close_append (h : Behind S ms behind) (hs : S.isClose space) : Behind S ms
    (space ++ behind) := by
  cases h with
  | ends hc ht =>
    rw [← append_assoc]
    exact .ends (Setting.isClose_append hs hc) ht
  | trailing hS hc hs' ht =>
    rw [← append_assoc]
    exact .trailing hS (Setting.isClose_append hs hc) hs' ht
  | comma hc hs' hr =>
    rw [← append_assoc]
    exact .comma (Setting.isClose_append hs hc) hs' hr

theorem Before.exists_comma (h : Before S ns before) (hne : ns ≠ []) : ∃ names n front close space, ns = names ++ [n] ∧
    Before S names front ∧ S.isClose close ∧ S.isSpace space ∧
      before = front ++ (n ++ (close ++ ',' :: space)) := by
  cases h with
  | first _ _ _ => exact absurd rfl hne
  | @comma names n front close space hf hc hs => exact ⟨names, n, front, close, space, rfl, hf, hc, hs, rfl⟩

theorem Before.ne_nil_of_comma_mem (h : Before S ns before) (hm : ',' ∈ before) : ns ≠ [] := by
  rintro rfl
  generalize hns : ([] : List Text) = names at h
  cases h with
  | first hl hs _ => exact comma_notMem_of_isSpacing (Setting.opened_isSpacing hl hs) hm
  | comma _ _ _ => simp at hns

theorem imports_of_comma_before (hi : indent.all isRowBlank)
    (hb : Before S ns (before ++ ',' :: space)) (hs : ',' ∉ space) (hbe : Behind S ms behind) :
    ImportsNames origin (ns ++ ms) (importHead indent origin ++ (before ++ behind) ++ ['\n']) := by
  obtain ⟨names, n, front, close, space', rfl, hf, hc, hs', heq⟩ :=
    hb.exists_comma (hb.ne_nil_of_comma_mem (by simp))
  rw [show front ++ (n ++ (close ++ ',' :: space')) = (front ++ (n ++ close)) ++ ',' :: space' by simp] at heq
  obtain ⟨rfl, -⟩ := append_cons_inj_of_notMem heq hs (comma_notMem_of_isSpacing (Setting.all_isSpacing hs'))
  exact ⟨indent, S, names, n, ms, front, close ++ behind, hi, by simp, hf, hbe.close_append hc, by simp⟩

theorem Behind.exists_comma (h : Behind S ms behind) (hms : ∀ n ∈ ms, IsName n)
    (hba : behind ++ ['\n'] = ',' :: back ∨ behind ++ ['\n'] = ',' :: ' ' :: back) :
    (∃ n names space rest, ms = n :: names ∧ S.isSpace space ∧ Behind S names rest ∧
      back = space ++ (n ++ rest) ++ ['\n']) ∨
      (ms = [] ∧ S = .parentheses ∧ ∃ space tail, S.isSpace space ∧ tail.all isRowBlank ∧
        back = space ++ (S.closing ++ tail) ++ ['\n']) := by
  have hclosed {close t : Text} (hcl : S.isClose close)
      (hc : close ++ ',' :: t = ',' :: back ∨ close ++ ',' :: t = ',' :: ' ' :: back) :
      t = back ∨ t = ' ' :: back := by
    cases close with
    | nil => exact hc.imp (fun h => (cons.inj h).2) fun h => (cons.inj h).2
    | cons c close =>
      have hco : c = ',' := by rcases hc with hc | hc <;> exact (cons.inj hc).1
      exact absurd (by simp [hco]) (comma_notMem_of_isSpacing (Setting.isClose_isSpacing hcl))
  cases h with
  | @ends close tail hcl ht =>
    have hsp := S.closed_isSpacing (Setting.isClose_isSpacing hcl) ht
    have hm : ',' ∈ close ++ (S.closing ++ tail) ++ ['\n'] := by
      rcases hba with h | h <;> rw [h] <;> exact mem_cons_self
    rw [mem_append, or_iff_left (by decide)] at hm
    exact absurd hm (comma_notMem_of_isSpacing hsp)
  | @trailing close space tail hS hcl hs ht =>
    refine .inr ⟨rfl, hS, ?_⟩
    rw [append_assoc, cons_append] at hba
    rcases hclosed hcl hba with rfl | hb
    · exact ⟨space, tail, hs, ht, rfl⟩
    · subst hS
      cases space with
      | nil => exact absurd (cons.inj hb).1 (by decide)
      | cons c space =>
        obtain ⟨rfl, rfl⟩ := cons.inj hb
        exact ⟨space, tail, Setting.isSpace_tail hs, ht, by simp⟩
  | @comma names n rest close space hcl hs hr =>
    refine .inl ⟨n, names, ?_⟩
    rw [append_assoc, cons_append] at hba
    rcases hclosed hcl hba with rfl | hb
    · exact ⟨space, rest, rfl, hs, hr, rfl⟩
    · cases space with
      | nil =>
        obtain ⟨c, n, rfl⟩ := exists_cons_of_ne_nil (hms n mem_cons_self).1
        have hc := all_eq_true.mp (hms (c :: n) mem_cons_self).2 c mem_cons_self
        rw [show c = ' ' from (cons.inj hb).1] at hc
        exact absurd hc (by decide)
      | cons c space =>
        obtain ⟨rfl, rfl⟩ := cons.inj hb
        exact ⟨space, rest, rfl, Setting.isSpace_tail hs, hr, by simp⟩

theorem imports_of_comma_behind (hi : indent.all isRowBlank) (hb : Before S ns before)
    (hbe : Behind S ms behind) (hms : ∀ n ∈ ms, IsName n) (hne : ns ++ ms ≠ [])
    (hba : behind ++ ['\n'] = ',' :: back ∨ behind ++ ['\n'] = ',' :: ' ' :: back) :
    ImportsNames origin (ns ++ ms) (importHead indent origin ++ (before ++ back)) := by
  rcases hbe.exists_comma hms hba with ⟨n, names, space, rest, rfl, hs, hr, rfl⟩ |
    ⟨rfl, rfl, space, tail, hs, ht, rfl⟩
  · exact ⟨indent, S, ns, n, names, before ++ space, rest, hi, rfl, hb.append_space hs, hr, by simp⟩
  · -- it was the last name: a comma behind it is one behind the name before it
    rw [append_nil] at hne ⊢
    obtain ⟨names, n, front, close, space', rfl, hf, hc, hs', rfl⟩ := hb.exists_comma hne
    exact ⟨indent, .parentheses, names, n, [], front, _, hi, rfl, hf,
      .trailing rfl hc (Setting.isSpace_append hs' hs) ht, by simp⟩

theorem imports_of_comma_left (hi : indent.all isRowBlank)
    (hb : Before .parentheses ns (before ++ [' ']))
    (hbe : Behind .parentheses [] behind) (hco : ',' ∉ behind) (hne : ns ≠ []) :
    ImportsNames origin ns (importHead indent origin ++ (before ++ behind) ++ ['\n']) := by
  obtain ⟨names, n, front, close, space, rfl, hf, hcl, hsp, heq⟩ := hb.exists_comma hne
  obtain ⟨space, rfl⟩ : ∃ space', space = space' ++ [' '] := by
    obtain ⟨s, c, hs⟩ := (eq_nil_or_concat (',' :: space)).resolve_left (by simp)
    rw [hs, concat_eq_append, ← append_assoc, ← append_assoc, ← append_assoc] at heq
    obtain ⟨-, hc⟩ := append_inj' heq rfl
    obtain rfl := (cons.inj hc).1
    cases s with
    | nil => simp at hs
    | cons d s => exact ⟨s, by rw [concat_eq_append, cons_append] at hs; exact (cons.inj hs).2⟩
  rw [show front ++ (n ++ (close ++ ',' :: (space ++ [' ']))) = (front ++ (n ++ (close ++ ',' :: space))) ++ [' '] by simp]
    at heq
  obtain rfl := append_cancel_right heq
  cases hbe with
  | @ends close' tail hcl' ht =>
    have hsp' : Setting.parentheses.isSpace (space ++ close') :=
      Setting.isSpace_append (spaceOverRows_of_append_blank hsp) (Setting.isSpace_of_isClose hcl')
    exact ⟨indent, .parentheses, names, n, [], front, _, hi, rfl, hf, .trailing rfl hcl hsp' ht, by simp⟩
  | trailing _ _ _ _ => exact absurd (by simp) hco

end Cut

/-! ## The rule that is applied -/

/-- **The name stands behind a comma or a blank, and before a comma, a line end or a continuation.** -/
def bordered (before behind : Text) : Bool :=
  before.endsWithAny [",", " "] && behind.startsWithAny [",", "\n", "\\", " \\"]

/-- A comma goes with the name: the one before it, with at most a blank between, or the one behind it. -/
def takesComma (before behind : Text) : Bool := before.endsWithAny [",", ", "] || behind.startsWith ","

section Rule

variable {head before old behind new front back : Text} {b : Text × Text × Text}

theorem endsWithAny_iff {s : Text} {tails : List Text} : s.endsWithAny tails ↔ ∃ t ∈ tails, t <:+ s := by
  rw [Text.endsWithAny, any_eq_true]
  exact exists_congr fun t => and_congr_right fun _ => isSuffixOf_iff_suffix

theorem startsWithAny_iff {s : Text} {heads : List Text} : s.startsWithAny heads ↔ ∃ t ∈ heads, t <+: s := by
  rw [Text.startsWithAny, any_eq_true]
  exact exists_congr fun t => and_congr_right fun _ => isPrefixOf_iff_prefix

theorem bordered_iff : bordered before behind ↔
    (∃ t ∈ ([",", " "] : List Text), t <:+ before) ∧ ∃ t ∈ ([",", "\n", "\\", " \\"] : List Text), t <+: behind := by
  rw [bordered, Bool.and_eq_true, endsWithAny_iff, startsWithAny_iff]

theorem find?_nameBorders_isSome :
    (nameBorders.find? (fitsBorders before behind)).isSome ↔ bordered before behind := by
  rw [find?_isSome, bordered_iff]
  constructor
  · rintro ⟨b, hb, hf⟩
    obtain ⟨hbefore, hbe⟩ := fitsBorders_iff.mp hf
    have ha : (nameBorders.all fun b => bordered b.1 b.2.1) := by decide
    obtain ⟨⟨t, ht, hts⟩, u, hu, hus⟩ := bordered_iff.mp (all_eq_true.mp ha b hb)
    exact ⟨⟨t, ht, hts.trans hbefore⟩, u, hu, hus.trans hbe⟩
  · rintro ⟨⟨t, ht, hbefore⟩, u, hu, hbe⟩
    have ha : (([",", " "] : List Text).all fun t => ([",", "\n", "\\", " \\"] : List Text).all fun u =>
        nameBorders.any fun b => b.1 == t && b.2.1 == u) := by decide
    obtain ⟨b, hb, heq⟩ := any_eq_true.mp (all_eq_true.mp (all_eq_true.mp ha t ht) u hu)
    rw [Bool.and_eq_true, beq_iff_eq, beq_iff_eq] at heq
    exact ⟨b, hb, fitsBorders_iff.mpr (by rwa [heq.1, heq.2, and_iff_left hbe])⟩

theorem find?_nameBorders (h : nameBorders.find? (fitsBorders before behind) = some b) :
    ((b.1 = "," ∨ b.1 = ", ") ∧ b.2.2 = b.2.1) ∨ (b.1 = " " ∧ b.2.2 = " " ∧ (b.2.1 = "," ∨ b.2.1 = ", ")) ∨
      (b.1 = " " ∧ b.2.2 = b.2.1 ∧ takesComma before behind = false) := by
  have hs : nameBorders = nameBorders.take 8 ++ ((nameBorders.drop 8).take 2 ++ nameBorders.drop 10) := rfl
  have hm : bordered before behind := find?_nameBorders_isSome.mp (by rw [h]; rfl)
  obtain ⟨-, u, hu, hbehind⟩ := bordered_iff.mp hm
  rw [hs, find?_append, find?_append] at h
  cases h₁ : (nameBorders.take 8).find? (fitsBorders before behind) with
  | some b' =>
    rw [h₁] at h
    obtain rfl := Option.some.inj h
    have ha : ((nameBorders.take 8).all fun b => (b.1 == "," || b.1 == ", ") && b.2.2 == b.2.1) := by decide
    have hb := all_eq_true.mp ha b' (mem_of_find?_eq_some h₁)
    simp only [Bool.and_eq_true, Bool.or_eq_true, beq_iff_eq] at hb
    exact .inl hb
  | none =>
    have hbe : before.endsWithAny [",", ", "] = false := by
      -- otherwise one of the first rules has its borders here
      rw [← Bool.not_eq_true, endsWithAny_iff]
      rintro ⟨t, ht, hts⟩
      have ha : (([",", ", "] : List Text).all fun t => ([",", "\n", "\\", " \\"] : List Text).all fun u =>
          (nameBorders.take 8).any fun b => b.1 == t && b.2.1 == u) := by decide
      obtain ⟨b', hb', heq⟩ := any_eq_true.mp (all_eq_true.mp (all_eq_true.mp ha t ht) u hu)
      rw [Bool.and_eq_true, beq_iff_eq, beq_iff_eq] at heq
      refine find?_eq_none.mp h₁ b' hb' (fitsBorders_iff.mpr ?_)
      rw [heq.1, heq.2]
      exact ⟨hts, hbehind⟩
    rw [h₁, Option.none_or] at h
    cases h₂ : ((nameBorders.drop 8).take 2).find? (fitsBorders before behind) with
    | some b' =>
      rw [h₂] at h
      obtain rfl := Option.some.inj h
      have ha : (((nameBorders.drop 8).take 2).all fun b =>
          b.1 == " " && (b.2.2 == " " && (b.2.1 == "," || b.2.1 == ", "))) := by decide
      have hb := all_eq_true.mp ha b' (mem_of_find?_eq_some h₂)
      simp only [Bool.and_eq_true, Bool.or_eq_true, beq_iff_eq] at hb
      exact .inr (.inl hb)
    | none =>
      rw [h₂, Option.none_or] at h
      have ha : ((nameBorders.drop 10).all fun b => b.1 == " " && b.2.2 == b.2.1) := by decide
      have hb := all_eq_true.mp ha b (mem_of_find?_eq_some h)
      simp only [Bool.and_eq_true, beq_iff_eq] at hb
      refine .inr (.inr ⟨hb.1, hb.2, ?_⟩)
      rw [takesComma, hbe, Bool.false_or, ← Bool.not_eq_true]
      intro hc
      refine find?_eq_none.mp h₂ (" ", ",", " ") (by decide) (fitsBorders_iff.mpr ⟨?_, ?_⟩)
      · have hf := find?_some h
        exact hb.1 ▸ (fitsBorders_iff.mp hf).1
      · exact isPrefixOf_iff_prefix.mp hc

theorem IsBorder.words_removed (hb : IsBorder b) (hbe : before = front ++ b.1) (hbehind : behind = b.2.1 ++ back) :
    words (front ++ (b.2.2 ++ back)) = words before ++ words behind := by
  obtain ⟨f, c, hf, hc⟩ := exists_last_of_isGap hb.left_ne hb.left_gap
  rw [hbe, hbehind, words_append_gap _ hb.before_gap, words_gap_append hb.behind_gap, ← append_assoc,
    words_append_border (.inr ⟨front ++ f, c, by rw [hf, append_assoc], hc⟩), words_append_gap _ hb.left_gap]

theorem Marked.replaceEach_renameRules (h : Marked head before old behind) (hn : IsName new) (hne : new ≠ old) :
    Text.replaceEach (head ++ (before ++ (old ++ behind))) (renameRules old new) =
      head ++ (before ++ ((if bordered before behind then new else old) ++ behind)) := by
  have hp : ∀ b ∈ nameBorders, ∀ front back, before = front ++ b.1 → behind = b.2.1 ++ back →
      old ∉ words (front ++ (b.1 ++ new ++ b.2.1 ++ back)) ∧
        ∀ c ∈ (front ++ (b.1 ++ new ++ b.2.1 ++ back)).head?, Text.isWord c = false := by
    intro b hb front back hbefore hbe
    have hbo := isBorder_of_mem hb
    have ht : front ++ (b.1 ++ new ++ b.2.1 ++ back) = before ++ (new ++ behind) := by
      rw [hbefore, hbe]
      simp
    obtain ⟨d, rest, hh, hd⟩ := h.before_head
    have hw := words_append_name h.before_last hn (hbe ▸ exists_head_of_isGap hbo.behind_ne hbo.behind_gap back)
    rw [ht, hw, hh]
    refine ⟨?_, fun c hc => Option.some.inj hc ▸ hd⟩
    rw [← hh, mem_append, mem_cons]
    rintro (hm | hm | hm)
    · exact h.notMem_before hm
    · exact hne hm.symm
    · exact h.notMem_behind hm
  rcases h.replaceEach_eq (fun b => b.1 ++ new ++ b.2.1) hp nameBorders fun _ hb => hb with
    ⟨hf, ht⟩ | ⟨b, front, back, hf, hbefore, hbe, ht⟩
  · have hno : ¬ bordered before behind := by
      rw [← find?_nameBorders_isSome, hf]
      decide
    rw [renameRules, ht, if_neg hno]
  · have hy : bordered before behind := by
      rw [← find?_nameBorders_isSome, hf]
      rfl
    rw [renameRules, ht, if_pos hy, hbefore, hbe]
    simp

theorem Marked.exists_head_removed (h : Marked head before old behind) (hb : IsBorder b)
    (hbe : before = front ++ b.1)
    (back : Text) : ∃ c rest, front ++ (b.2.2 ++ back) = c :: rest ∧ Text.isWord c = false := by
  cases front with
  | nil => exact exists_head_of_isGap hb.left_ne hb.left_gap back
  | cons e front =>
    obtain ⟨d, rest, hh, hd⟩ := h.before_head
    rw [hbe] at hh
    exact ⟨e, _, rfl, (cons.inj hh).1 ▸ hd⟩

theorem Marked.replaceEach_removeRules (h : Marked head before old behind) : (bordered before behind = false ∧
      Text.replaceEach (head ++ (before ++ (old ++ behind))) (removeRules old) = head ++ (before ++ (old ++ behind))) ∨
    ∃ b front back, bordered before behind ∧ nameBorders.find? (fitsBorders before behind) = some b ∧
      before = front ++ b.1 ∧ behind = b.2.1 ++ back ∧
        Text.replaceEach (head ++ (before ++ (old ++ behind))) (removeRules old) = head ++ (front ++ (b.2.2 ++ back)) := by
  have hp : ∀ b ∈ nameBorders, ∀ front back, before = front ++ b.1 → behind = b.2.1 ++ back →
      old ∉ words (front ++ (b.2.2 ++ back)) ∧ ∀ c ∈ (front ++ (b.2.2 ++ back)).head?, Text.isWord c = false := by
    intro b hb front back hbe hbehind
    have hbo := isBorder_of_mem hb
    rw [hbo.words_removed hbe hbehind, mem_append]
    obtain ⟨d, rest, hh, hd⟩ := h.exists_head_removed hbo hbe back
    rw [hh]
    exact ⟨fun hm => hm.elim h.notMem_before h.notMem_behind, fun c hc => Option.some.inj hc ▸ hd⟩
  rcases h.replaceEach_eq (fun b => b.2.2) hp nameBorders fun _ hb => hb with
    ⟨hf, ht⟩ | ⟨b, front, back, hf, hbe, hbehind, ht⟩
  · refine .inl ⟨?_, ht⟩
    rw [← Bool.not_eq_true, ← find?_nameBorders_isSome, hf]
    decide
  · refine .inr ⟨b, front, back, ?_, hf, hbe, hbehind, ht⟩
    rw [← find?_nameBorders_isSome, hf]
    rfl

end Rule

/-! ## The statement -/

section Statement

variable {S : Setting} {ns ms : List Text} {indent origin before old new behind : Text}
  (hi : indent.all isRowBlank = true) (ho : IsModule origin) (hbf : Before S ns before) (hbe : Behind S ms behind)

theorem notMem_of_distinct (h : (ns ++ old :: ms).Nodup) : old ∉ ns ∧ old ∉ ms := by
  obtain ⟨-, hms, hne⟩ := nodup_append.mp h
  exact ⟨fun hm => hne old hm old mem_cons_self rfl, (nodup_cons.mp hms).1⟩

include hi ho

theorem eq_nil_of_imports_comma_left (hb : Before S ns (before ++ [' '])) (hbe : Behind S ms behind)
    (hns : ∀ n ∈ ns, IsName n) (hms : ∀ n ∈ ms, IsName n)
    (h : ImportsNames origin (ns ++ ms) (dropEmptyRows (importHead indent origin ++ (before ++ behind) ++ ['\n']))) :
    ms = [] ∧ S = .parentheses ∧ ',' ∉ behind := by
  obtain ⟨extra, hextra, ht, hpi⟩ := hbe.pieces hms
  have hli : pieces (before ++ behind) = ns ++ ([] :: (ms ++ extra)) := by
    have hs : pieces (before ++ behind) = pieces ((before ++ [' ']) ++ behind) := by
      rw [pieces, pieces, append_assoc, bones_gap (by decide)]
    rw [hs, hb.pieces hns]
    exact congrArg (ns ++ ·) (hpi [] rfl)
  rcases pieces_of_imports hi ho (forall_mem_append.mpr ⟨hns, hms⟩) h with heq | ⟨heq, hp⟩
  · have hl := congrArg List.length (hli.symm.trans heq)
    simp at hl
    omega
  · rw [hli, append_assoc] at heq
    have he : ([] : Text) :: (ms ++ extra) = ms ++ [[]] := append_cancel_left heq
    have hno : extra = [] := eq_nil_of_length_eq_zero (by
      have hl := congrArg List.length he
      simp only [length_cons, length_append, length_nil] at hl
      omega)
    have hn : ms = [] := by
      cases ms with
      | nil => rfl
      | cons m ms => exact absurd (cons.inj he).1.symm (hms m mem_cons_self).1
    refine ⟨hn, ?_, fun hm => ht hn hm hno⟩
    rw [← hb.paren_mem_iff hns]
    rw [mem_append, or_iff_left (hbe.paren_notMem hms)] at hp
    exact mem_append_left _ hp

include hbf hbe

theorem marked_of_list (hn : ∀ n ∈ ns ++ old :: ms, IsName n) (hd : (ns ++ old :: ms).Nodup)
    (himport : old ≠ "import") : Marked (importHead indent origin) before old (behind ++ ['\n']) := by
  obtain ⟨hns, hnms⟩ := forall_mem_append.mp hn
  obtain ⟨hold, hms⟩ := forall_mem_cons.mp hnms
  obtain ⟨hnot, hnot'⟩ := notMem_of_distinct hd
  refine ⟨fun c hc => ?_, ⟨indent ++ ("from " ++ origin), ?_⟩, hold, himport, hbf.exists_head,
    hbf.exists_last, by rwa [hbf.words hns], by rwa [hbe.words hms]⟩
  · refine ⟨?_, ?_, ?_⟩ <;>
      exact fun h => notMem_importHead hi ho (by decide) (by decide) (by decide) (h ▸ hc)
  · rw [importHead, append_assoc, append_assoc]
    rfl

theorem not_imports_of_kept (hna : ∀ n ∈ ns ++ old :: ms, IsName n) {names : List Text}
    (hna' : ∀ n ∈ names, IsName n) (hold : old ∉ names) :
    ¬ ImportsNames origin names (dropEmptyRows (importHead indent origin ++ (before ++ (old ++ behind)) ++ ['\n'])) := by
  intro h
  obtain ⟨hns, hnms⟩ := forall_mem_append.mp hna
  obtain ⟨hn, hms⟩ := forall_mem_cons.mp hnms
  obtain ⟨extra, -, -, hp⟩ := hbe.pieces hms
  have hm : old ∈ pieces (before ++ (old ++ behind)) := by
    rw [hbf.pieces hns, hp old hn.2]
    simp
  rcases pieces_of_imports hi ho hna' h with heq | ⟨heq, -⟩
  · exact hold (heq ▸ hm)
  · rw [heq, mem_append, mem_singleton] at hm
    exact hm.elim hold hn.1

/-- **A name is removed, and a statement is left, exactly if it is bordered and a comma goes with it**, or it is the
last one in parentheses and no comma follows. -/
theorem imports_removeName_iff (hn : ∀ n ∈ ns ++ old :: ms, IsName n)
    (hd : (ns ++ old :: ms).Nodup) (himport : old ≠ "import") (hl : ns ++ ms ≠ []) :
    ImportsNames origin (ns ++ ms) (removeName (importHead indent origin ++ (before ++ (old ++ behind)) ++ ['\n']) old) ↔
      bordered before (behind ++ ['\n']) ∧
        (takesComma before (behind ++ ['\n']) ∨ (ms = [] ∧ S = .parentheses ∧ ',' ∉ behind)) := by
  obtain ⟨hns, hnms⟩ := forall_mem_append.mp hn
  obtain ⟨hold, hms⟩ := forall_mem_cons.mp hnms
  obtain ⟨hnot, hnot'⟩ := notMem_of_distinct hd
  have hn' : ∀ n ∈ ns ++ ms, IsName n := forall_mem_append.mpr ⟨hns, hms⟩
  have hte : importHead indent origin ++ (before ++ (old ++ behind)) ++ ['\n'] =
      importHead indent origin ++ (before ++ (old ++ (behind ++ ['\n']))) := by simp
  have hk (front : Text) : importHead indent origin ++ (front ++ (behind ++ ['\n'])) =
      importHead indent origin ++ (front ++ behind) ++ ['\n'] := by simp
  rw [removeName, hte]
  rcases (marked_of_list hi ho hbf hbe hn hd himport).replaceEach_removeRules with
    ⟨hno, hs⟩ | ⟨b, front, back, hy, hfi, hf, hba, hr⟩
  · rw [hs, hno, ← hte]
    refine iff_of_false ?_ (by simp)
    exact not_imports_of_kept hi ho hbf hbe hn hn' (by simp [hnot, hnot'])
  · rw [hr, hy, eq_self_iff_true, true_and]
    rcases find?_nameBorders hfi with ⟨hb, hs⟩ | ⟨hb, hbl, hc⟩ | ⟨hb, hs, ht⟩
    · -- the comma before the name
      have ht : takesComma before (behind ++ ['\n']) := by
        rw [takesComma, Bool.or_eq_true, endsWithAny_iff]
        exact .inl ⟨b.1, mem_cons.mpr (hb.imp id mem_singleton.mpr), front, hf.symm⟩
      obtain ⟨space, hsp, hb⟩ : ∃ space : Text, ',' ∉ space ∧ b.1 = ',' :: space := by
        rcases hb with hb | hb
        · exact ⟨[], by decide, hb⟩
        · exact ⟨[' '], by decide, hb⟩
      rw [hb] at hf
      rw [hs, ← hba, hk]
      refine iff_of_true ?_ (.inl ht)
      exact (imports_of_comma_before hi (hf ▸ hbf) hsp hbe).dropEmptyRows ho hn'
    · -- the comma behind the name
      have hba' : behind ++ ['\n'] = ',' :: back ∨ behind ++ ['\n'] = ',' :: ' ' :: back := by
        rw [hba]
        exact hc.imp (fun h => by rw [h]; rfl) fun h => by rw [h]; rfl
      have ht : takesComma before (behind ++ ['\n']) := by
        rw [takesComma, Bool.or_eq_true]
        exact .inr (by rcases hba' with h | h <;> rw [h] <;> rfl)
      have hw : front ++ (b.2.2 ++ back) = before ++ back := by rw [hf, hb, hbl, append_assoc]
      rw [hw]
      refine iff_of_true ?_ (.inl ht)
      exact (imports_of_comma_behind hi hbf hbe hms hl hba').dropEmptyRows ho hn'
    · -- no comma goes with the name
      rw [hb] at hf
      rw [hs, ← hba, hk, ht]
      subst hf
      constructor
      · exact fun h => .inr (eq_nil_of_imports_comma_left hi ho hbf hbe hns hms h)
      · rintro (h | ⟨rfl, rfl, hc⟩)
        · cases h
        · rw [append_nil] at hl hn' ⊢
          exact (imports_of_comma_left hi hbf hbe hc hl).dropEmptyRows ho hn'

theorem imports_replaceName_iff (hn : ∀ n ∈ ns ++ old :: ms, IsName n)
    (hd : (ns ++ old :: ms).Nodup) (himport : old ≠ "import") (hnew : IsName new)
    (hf : new ∉ ns ++ old :: ms) :
    ImportsNames origin (ns ++ new :: ms)
      (replaceName (importHead indent origin ++ (before ++ (old ++ behind)) ++ ['\n']) old new) ↔
        bordered before (behind ++ ['\n']) := by
  obtain ⟨hns, hnms⟩ := forall_mem_append.mp hn
  obtain ⟨hold, hms⟩ := forall_mem_cons.mp hnms
  obtain ⟨hnot, hnot'⟩ := notMem_of_distinct hd
  have hne : new ≠ old := fun h => hf (by simp [h])
  have hn' : ∀ n ∈ ns ++ new :: ms, IsName n := forall_mem_append.mpr ⟨hns, forall_mem_cons.mpr ⟨hnew, hms⟩⟩
  have ht (n : Text) : importHead indent origin ++ (before ++ (n ++ (behind ++ ['\n']))) =
      importHead indent origin ++ (before ++ (n ++ behind)) ++ ['\n'] := by simp
  have hm := marked_of_list hi ho hbf hbe hn hd himport
  rw [replaceName, ← ht, hm.replaceEach_renameRules hnew hne, ht]
  cases hy : bordered before (behind ++ ['\n']) with
  | true =>
    refine iff_of_true ?_ rfl
    have himports : ImportsNames origin (ns ++ new :: ms) (importHead indent origin ++ (before ++ (new ++ behind)) ++ ['\n']) :=
      ⟨indent, S, ns, new, ms, before, behind, hi, rfl, hbf, hbe, rfl⟩
    exact himports.dropEmptyRows ho hn'
  | false =>
    refine iff_of_false ?_ (by decide)
    exact not_imports_of_kept hi ho hbf hbe hn hn' (by simp [hnot, hnot', hne.symm])

omit hbf hbe in
theorem words_removeName_iff (hb : Before S [] before) (hbe : Behind S [] behind) (hold : IsName old)
    (himport : old ≠ "import") :
    words (removeName (importHead indent origin ++ (before ++ (old ++ behind)) ++ ['\n']) old) =
      words (importHead indent origin) ↔ bordered before (behind ++ ['\n']) := by
  have hm : Marked (importHead indent origin) before old (behind ++ ['\n']) :=
    marked_of_list hi ho hb hbe (by simpa using hold) (by simp) himport
  have hh {c : Char} {rest : Text} (hc : Text.isWord c = false) :
      words (importHead indent origin ++ c :: rest) = words (importHead indent origin) ++ words (c :: rest) := by
    rw [words_append_cons hc, words_cons hc]
  obtain ⟨c, rest, hc⟩ := hb.exists_head
  rw [removeName, words_dropEmptyRows, show importHead indent origin ++ (before ++ (old ++ behind)) ++ ['\n'] =
    importHead indent origin ++ (before ++ (old ++ (behind ++ ['\n']))) by simp]
  rcases hm.replaceEach_removeRules with ⟨hno, hs⟩ | ⟨b, front, back, hy, hfi, hf, hba, hr⟩
  · have hw := words_append_name hb.exists_last hold hbe.exists_head
    rw [hs, hno]
    refine iff_of_false (fun h => ?_) (by decide)
    rw [hc.1, cons_append, hh hc.2, ← cons_append, ← hc.1, hw] at h
    simp at h
  · rw [hr]
    refine iff_of_true ?_ hy
    have hbo := isBorder_of_mem (mem_of_find?_eq_some hfi)
    have hw := hbo.words_removed hf hba
    obtain ⟨d, more, hd, hwo⟩ := hm.exists_head_removed hbo hf back
    rw [hd, hh hwo, ← hd, hw, hb.words (by simp), hbe.words (by simp)]
    simp

end Statement

/-- **One name of a statement, replaced or removed.** -/
theorem replaceName_removeName_iff {S : Setting} {ns ms : List Text} {indent origin before old new behind line : Text}
    (hindent : indent.all isRowBlank = true) (horigin : IsModule origin) (hbefore : Before S ns before)
    (hbehind : Behind S ms behind) (hnames : ∀ n ∈ ns ++ old :: ms, IsName n) (hdistinct : (ns ++ old :: ms).Nodup)
    (himport : old ≠ "import") (hnew : IsName new) (hfresh : new ∉ ns ++ old :: ms)
    (hline : line = importHead indent origin ++ (before ++ (old ++ behind)) ++ ['\n']) :
    (ImportsNames origin (ns ++ new :: ms) (replaceName line old new) ↔ bordered before (behind ++ ['\n']) = true) ∧
    (ns ++ ms ≠ [] → (ImportsNames origin (ns ++ ms) (removeName line old) ↔ bordered before (behind ++ ['\n']) = true ∧
      (takesComma before (behind ++ ['\n']) = true ∨ (ms = [] ∧ S = .parentheses ∧ ',' ∉ behind)))) ∧
    (ns ++ ms = [] → (words (removeName line old) = words (importHead indent origin) ↔
      bordered before (behind ++ ['\n']) = true)) := by
  subst hline
  refine ⟨imports_replaceName_iff hindent horigin hbefore hbehind hnames hdistinct himport hnew hfresh,
    imports_removeName_iff hindent horigin hbefore hbehind hnames hdistinct himport, fun hnone => ?_⟩
  obtain ⟨rfl, rfl⟩ := List.append_eq_nil_iff.mp hnone
  exact words_removeName_iff hindent horigin hbefore hbehind (hnames old (by simp)) himport

/-- The second of three names in parentheses, on a row of its own. -/
theorem replaceName_removeName_in_parentheses :
    ImportsNames "M" ["a", "new", "b"] (replaceName "from M import (a, \n old,\n b)\n" "old" "new") ∧
      ImportsNames "M" ["a", "b"] (removeName "from M import (a, \n old,\n b)\n" "old") := by
  have hbefore : Before .parentheses ["a"] " (a, \n " :=
    @Before.comma .parentheses [] "a" " (" "" " \n " (@Before.first .parentheses " " "" rfl rfl (by decide)) rfl rfl
  have hbehind : Behind .parentheses ["b"] ",\n b)" :=
    @Behind.comma .parentheses [] "b" ")" "" "\n " rfl rfl (@Behind.ends .parentheses "" "" rfl rfl)
  have hnames : ∀ n ∈ (["a", "old", "b"] : List Text), IsName n := by
    intro n hn
    simp only [List.mem_cons, List.not_mem_nil, or_false] at hn
    rcases hn with rfl | rfl | rfl <;> exact ⟨by decide, by decide⟩
  have horigin : IsModule "M" := ⟨by decide, fun c hc => by
    rw [show c = 'M' by simpa using hc]
    exact .inl (by decide)⟩
  obtain ⟨hrename, hremove, -⟩ := @replaceName_removeName_iff .parentheses ["a"] ["b"] "" "M" " (a, \n " "old" "new" ",\n b)"
    "from M import (a, \n old,\n b)\n" rfl horigin hbefore hbehind hnames (by decide) (by decide)
    ⟨by decide, by decide⟩ (by decide) rfl
  exact ⟨hrename.mpr (by decide), (hremove (by decide)).mpr ⟨by decide, .inl (by decide)⟩⟩

/-- Behind the opening parenthesis a name is neither replaced nor removed; the last name on rows continued by
backslashes leaves a comma and a continuation. -/
theorem replaceName_removeName_missed :
    replaceName "from M import (old, b)\n" "old" "new" = "from M import (old, b)\n" ∧
      removeName "from M import (old, b)\n" "old" = "from M import (old, b)\n" ∧
      removeName "from M import a, \\\n old\n" "old" = "from M import a, \\\n" := by
  decide

end QtMigration
