import QtMigration.Proofs.Import.Grammar
import QtMigration.Proofs.Text.Split

/-!
# Proofs/Import/Names — where a name of an import statement is found

A name is found between borders: behind a comma or a blank, and before a comma, a line end or a continuation.
**Of all rules the first whose borders are there is applied, and no other** (`Marked.replaceEach_eq`).
-/

namespace QtMigration

open List

open Text (words isGap)

/-- **A name between a text before it and a text behind it**, behind the head of a statement; it stands nowhere else
in the list. -/
structure Marked (head before old behind : Text) : Prop where
  head_plain : ∀ c ∈ head, c ≠ ',' ∧ c ≠ '\n' ∧ c ≠ '\\'
  head_ends : ∃ x, head = x ++ ' ' :: "import"
  name : IsName old
  ne_import : old ≠ "import"
  before_head : ∃ c rest, before = c :: rest ∧ Text.isWord c = false
  before_last : ∃ front c, before = front ++ [c] ∧ Text.isWord c = false
  notMem_before : old ∉ words before
  notMem_behind : old ∉ words behind

/-- What the borders of a name are made of. -/
structure IsBorder (b : Text × Text × Text) : Prop where
  before_ne : b.1 ≠ []
  before_gap : isGap b.1 = true
  behind_ne : b.2.1 ≠ []
  behind_gap : isGap b.2.1 = true
  behind_mark : ∃ c ∈ b.2.1, c = ',' ∨ c = '\n' ∨ c = '\\'
  left_ne : b.2.2 ≠ []
  left_gap : isGap b.2.2 = true

theorem isBorder_of_mem {b : Text × Text × Text} (hb : b ∈ nameBorders) : IsBorder b := by
  have ha : (nameBorders.all fun b => !b.1.isEmpty && isGap b.1 && !b.2.1.isEmpty && isGap b.2.1 &&
      (b.2.1.any fun c => c == ',' || c == '\n' || c == '\\') && !b.2.2.isEmpty && isGap b.2.2) := by decide
  have h := all_eq_true.mp ha b hb
  simp only [Bool.and_eq_true, Bool.not_eq_true', isEmpty_eq_false_iff, any_eq_true, Bool.or_eq_true, beq_iff_eq] at h
  obtain ⟨⟨⟨⟨⟨⟨h1, h2⟩, h3⟩, h4⟩, c, hc, h5⟩, h6⟩, h7⟩ := h
  exact ⟨h1, h2, h3, h4, ⟨c, hc, by tauto⟩, h6, h7⟩

theorem isWord_of_mem_gap {s : Text} (h : isGap s) {c : Char} (hc : c ∈ s) : Text.isWord c = false := by
  simpa using all_eq_true.mp h c hc

theorem suffix_append_cases {α : Type} {u a b : List α} (h : u <:+ a ++ b) :
    u <:+ b ∨ ∃ p, p ≠ [] ∧ p <:+ a ∧ u = p ++ b := by
  obtain ⟨w, hw⟩ := h
  rcases append_eq_append_iff.mp hw with ⟨p, ha, hu⟩ | ⟨p, -, hb⟩
  · by_cases hp : p = []
    · exact .inl ⟨[], by simp [hu, hp]⟩
    · exact .inr ⟨p, hp, ⟨w, ha.symm⟩, hu⟩
  · exact .inl ⟨p, hb.symm⟩

section Occurrence

variable {head before old behind rest p : Text} {b : Text × Text × Text}

theorem reverse_takeWhile_isWord {front w : Text} {c : Char} (hc : Text.isWord c = false)
    (hw : w.all Text.isWord) : (front ++ (c :: w)).reverse.takeWhile Text.isWord = w.reverse := by
  rw [reverse_append, reverse_cons, append_assoc, takeWhile_append_of_pos, singleton_append,
    takeWhile_cons_of_neg (by simp [hc]), append_nil]
  exact fun d hd => all_eq_true.mp hw d (mem_reverse.mp hd)

def fitsBorders (before behind : Text) (b : Text × Text × Text) : Bool :=
  b.1.isSuffixOf before && b.2.1.isPrefixOf behind

theorem fitsBorders_iff : fitsBorders before behind b ↔ b.1 <:+ before ∧ b.2.1 <+: behind := by
  rw [fitsBorders, Bool.and_eq_true, isSuffixOf_iff_suffix, isPrefixOf_iff_prefix]

variable (h : Marked head before old behind)
include h

theorem Marked.exists_last (hne : p ≠ []) (hp : p <:+ head) :
    ∃ front c, p = front ++ [c] ∧ Text.isWord c := by
  obtain ⟨x, hx⟩ := h.head_ends
  obtain ⟨front, c, rfl⟩ := (eq_nil_or_concat p).resolve_left hne
  obtain ⟨y, hy⟩ := hp
  rw [hx, show (' ' :: "import" : Text) = (" impor" : Text) ++ ['t'] from rfl, ← append_assoc,
    concat_eq_append, ← append_assoc] at hy
  obtain ⟨-, hc⟩ := append_inj' hy rfl
  obtain rfl := (cons.inj hc).1
  exact ⟨front, 't', concat_eq_append, by decide⟩

theorem Marked.not_prefix_head (hb : IsBorder b) (hne : p ≠ []) (hp : p <:+ head)
    (hr : ∀ c ∈ rest.head?, Text.isWord c = false) : ¬ b.1 ++ (old ++ b.2.1) <+: p ++ rest := by
  rintro ⟨more, hmo⟩
  rcases append_eq_append_iff.mp hmo with ⟨q, hq, -⟩ | ⟨q, hq, hr'⟩
  · -- it would be in the head, with its comma, line end or backslash
    obtain ⟨c, hc, hma⟩ := hb.behind_mark
    have hm : c ∈ head := hp.subset (by rw [hq]; simp [hc])
    have hpl := h.head_plain c hm
    rcases hma with rfl | rfl | rfl
    · exact hpl.1 rfl
    · exact hpl.2.1 rfl
    · exact hpl.2.2 rfl
  -- the head ends in a word, so it ends with the name
  obtain ⟨front, c, hl, hc⟩ := h.exists_last hne hp
  have hw {s : Text} (hs : isGap s) : c ∉ s := fun hm => by
    rw [isWord_of_mem_gap hs hm] at hc
    cases hc
  have he : p = b.1 ++ old := by
    rcases append_eq_append_iff.mp hq with ⟨u, hu, hu'⟩ | ⟨u, hu, -⟩
    · rcases append_eq_append_iff.mp hu' with ⟨v, hv, hv'⟩ | ⟨v, hv, hv'⟩
      · by_cases hn : v = []
        · rw [hu, hv, hn, append_nil]
        · have hm : v.getLast? = some c := by
            have hsa := congrArg List.getLast? (hu.symm.trans hl)
            rw [hv, getLast?_concat, ← append_assoc, getLast?_append] at hsa
            rwa [getLast?_eq_some_getLast hn] at hsa ⊢
          refine absurd ?_ (hw hb.behind_gap)
          rw [hv']
          exact mem_append_left _ (mem_of_getLast? hm)
      · cases v with
        | nil => rw [hu, hv, append_nil]
        | cons d v =>
          have hd : Text.isWord d := all_eq_true.mp h.name.2 d (by rw [hv]; simp)
          rw [hr' , hv'] at hr
          rw [hr d rfl] at hd
          cases hd
    · refine absurd ?_ (hw hb.before_gap)
      rw [hu, hl]
      simp
  obtain ⟨x, hx⟩ := h.head_ends
  obtain ⟨y, hy⟩ := hp
  obtain ⟨f, d, hd⟩ := (eq_nil_or_concat b.1).resolve_left hb.before_ne
  rw [concat_eq_append] at hd
  have hd' : Text.isWord d = false := isWord_of_mem_gap hb.before_gap (by rw [hd]; simp)
  have hsa : (y ++ f) ++ d :: old = x ++ ' ' :: "import" := by
    rw [← hx, ← hy, he, hd]
    simp
  have hrun := congrArg (fun s : Text => s.reverse.takeWhile Text.isWord) hsa
  rw [reverse_takeWhile_isWord hd' h.name.2, reverse_takeWhile_isWord (by decide) (by decide)] at hrun
  exact h.ne_import (reverse_inj.mp hrun)

theorem Marked.eq_of_prefix (hb : IsBorder b) (hne : p ≠ []) (hp : p <:+ before)
    (hf : b.1 ++ (old ++ b.2.1) <+: p ++ (old ++ behind)) : p = b.1 := by
  obtain ⟨front, c, hbe, hc⟩ := h.before_last
  obtain ⟨d, hd⟩ : ∃ d, p = d ++ [c] := by
    obtain ⟨d, e, rfl⟩ := (eq_nil_or_concat p).resolve_left hne
    obtain ⟨y, hy⟩ := hp
    rw [hbe, concat_eq_append, ← append_assoc] at hy
    obtain ⟨-, he⟩ := append_inj' hy rfl
    exact ⟨d, by rw [concat_eq_append, he]⟩
  have hw : ∀ e ∈ old, Text.isWord e := all_eq_true.mp h.name.2
  obtain ⟨more, hm⟩ := hf
  rw [append_assoc] at hm
  rcases append_eq_append_iff.mp hm with ⟨a, ha, ha'⟩ | ⟨a, ha, ha'⟩
  · -- the border ends before the name does
    by_cases hn : a = []
    · rw [ha, hn, append_nil]
    have hl : c ∈ a := by
      have hs := congrArg List.getLast? (ha.symm.trans hd)
      rw [getLast?_concat, getLast?_append, getLast?_eq_some_getLast hn] at hs
      exact mem_of_getLast? ((getLast?_eq_some_getLast hn).trans hs)
    rw [append_assoc] at ha'
    rcases append_eq_append_iff.mp ha' with ⟨v, hv, hv'⟩ | ⟨v, hv, -⟩
    · -- so it is around another place where the name is a word
      obtain ⟨e, b₂, hb₂⟩ := exists_cons_of_ne_nil hb.behind_ne
      have he : Text.isWord e = false := isWord_of_mem_gap hb.behind_gap (by rw [hb₂]; simp)
      cases v with
      | nil =>
        rw [hv, append_nil] at hl
        rw [hw c hl] at hc
        cases hc
      | cons e' v =>
        rw [hb₂] at hv'
        obtain rfl := (cons.inj hv').1
        obtain ⟨f, g, hg⟩ := (eq_nil_or_concat b.1).resolve_left hb.before_ne
        rw [concat_eq_append] at hg
        obtain ⟨y, hy⟩ := hp
        refine absurd (Text.mem_words_of_infix h.name.1 h.name.2 (d := g) (c := e) ?_ he ⟨y ++ f, v, ?_⟩) h.notMem_before
        · exact isWord_of_mem_gap hb.before_gap (by rw [hg]; simp)
        · rw [← hy, ha, hg, hv]
          simp
    · have hmem : c ∈ old := by
        rw [hv]
        exact mem_append_left _ hl
      rw [hw c hmem] at hc
      cases hc
  · -- a border holds no character of the name
    cases a with
    | nil => rw [ha, append_nil]
    | cons e a =>
      obtain ⟨e', o, ho⟩ := exists_cons_of_ne_nil h.name.1
      rw [ho] at ha'
      obtain rfl := (cons.inj ha').1
      have he := hw e' (by rw [ho]; simp)
      rw [isWord_of_mem_gap hb.before_gap (c := e') (by rw [ha]; simp)] at he
      cases he

theorem Marked.eq_of_prefix_drop (hb : IsBorder b) (hne : p ≠ [])
    (hp : p <:+ head ++ before) (hf : b.1 ++ (old ++ b.2.1) <+: p ++ (old ++ behind)) : p = b.1 ∧ b.1 <:+ before := by
  rcases suffix_append_cases hp with hp | ⟨q, hq, hq', rfl⟩
  · have heq := h.eq_of_prefix hb hne hp hf
    exact ⟨heq, heq ▸ hp⟩
  · obtain ⟨c, rest, hbe, hc⟩ := h.before_head
    rw [append_assoc] at hf
    refine absurd hf (h.not_prefix_head hb hq hq' fun d hd => ?_)
    rw [hbe] at hd
    exact Option.some.inj hd ▸ hc

theorem Marked.replaceAll_eq (hb : b ∈ nameBorders) {front back : Text}
    (hfr : before = front ++ b.1) (hba : behind = b.2.1 ++ back) (new : Text) :
    Text.replaceAll (head ++ (before ++ (old ++ behind))) (b.1 ++ old ++ b.2.1) new = head ++ (front ++ (new ++ back)) := by
  have hbo := isBorder_of_mem hb
  have ht : head ++ (before ++ (old ++ behind)) = (head ++ front) ++ ((b.1 ++ old ++ b.2.1) ++ back) := by
    rw [hfr, hba]
    simp
  have hba' : Text.has back (b.1 ++ old ++ b.2.1) = false := by
    refine has_border_eq_false h.name.1 h.name.2 ?_ hb
    have hm := h.notMem_behind
    rwa [hba, Text.words_gap_append hbo.behind_gap] at hm
  have hne : b.1 ++ old ++ b.2.1 ≠ [] := by simp [hbo.before_ne]
  rw [ht, Text.replaceAll_pass new (head ++ front), Text.replaceAll_self_append hne,
    Text.replaceAll_of_not_has hba', append_assoc]
  -- another one before it would be at the name, too
  intro k hk hf
  rw [drop_append_of_le_length (Nat.le_of_lt hk)] at hf
  have hd : (head ++ front).drop k ≠ [] := by simpa using hk
  have heq := (h.eq_of_prefix_drop hbo (p := (head ++ front).drop k ++ b.1) (by simp [hbo.before_ne]) ?_ ?_).1
  · exact hd (append_left_eq_self.mp heq)
  · rw [hfr, ← append_assoc]
    exact ⟨(head ++ front).take k, by rw [← append_assoc, take_append_drop]⟩
  · rw [hba]
    simpa using hf

theorem Marked.replaceAll_of_not (hb : b ∈ nameBorders)
    (hn : ¬ (b.1 <:+ before ∧ b.2.1 <+: behind)) (new : Text) :
    Text.replaceAll (head ++ (before ++ (old ++ behind))) (b.1 ++ old ++ b.2.1) new = head ++ (before ++ (old ++ behind)) := by
  have hbo := isBorder_of_mem hb
  refine Text.replaceAll_of_not_has (Text.has_eq_false_iff.mpr ?_)
  rw [infix_iff_prefix_suffix]
  rintro ⟨u, hu, hs⟩
  rw [append_assoc] at hu
  rw [← append_assoc] at hs
  rcases suffix_append_cases hs with hs | ⟨p, hp, hp', rfl⟩
  · rcases suffix_append_cases hs with hs | ⟨o, ho, ho', rfl⟩
    · have hno := has_border_eq_false h.name.1 h.name.2 h.notMem_behind hb
      rw [append_assoc] at hno
      exact Text.has_eq_false_iff.mp hno (hu.isInfix.trans hs.isInfix)
    · -- a border does not begin with a character of the name
      obtain ⟨c, f, hf⟩ := exists_cons_of_ne_nil hbo.before_ne
      obtain ⟨d, o, rfl⟩ := exists_cons_of_ne_nil ho
      rw [hf, cons_append, cons_append] at hu
      obtain ⟨rfl, -⟩ := cons_prefix_cons.mp hu
      have hc := all_eq_true.mp h.name.2 c (ho'.subset mem_cons_self)
      rw [isWord_of_mem_gap hbo.before_gap (c := c) (by rw [hf]; simp)] at hc
      cases hc
  · obtain ⟨rfl, hbe⟩ := h.eq_of_prefix_drop hbo hp hp' hu
    rw [prefix_append_right_inj, prefix_append_right_inj] at hu
    exact hn ⟨hbe, hu⟩

theorem Marked.has_eq_false (hb : b ∈ nameBorders) (hr : old ∉ words rest)
    (hh : ∀ c ∈ rest.head?, Text.isWord c = false) : (head ++ rest).has (b.1 ++ old ++ b.2.1) = false := by
  rw [Text.has_eq_false_iff, infix_iff_prefix_suffix]
  rintro ⟨u, hu, hs⟩
  rcases suffix_append_cases hs with hs | ⟨p, hp, hp', rfl⟩
  · exact Text.has_eq_false_iff.mp (has_border_eq_false h.name.1 h.name.2 hr hb) (hu.isInfix.trans hs.isInfix)
  · rw [append_assoc] at hu
    exact h.not_prefix_head (isBorder_of_mem hb) hp hp' hh hu

theorem Marked.replaceEach_eq (put : Text × Text × Text → Text)
    (hp : ∀ b ∈ nameBorders, ∀ front back, before = front ++ b.1 → behind = b.2.1 ++ back →
      old ∉ words (front ++ (put b ++ back)) ∧ ∀ c ∈ (front ++ (put b ++ back)).head?, Text.isWord c = false) :
    ∀ bs : List (Text × Text × Text), (∀ b ∈ bs, b ∈ nameBorders) → (bs.find? (fitsBorders before behind) = none ∧
        Text.replaceEach (head ++ (before ++ (old ++ behind))) (bs.map fun b => (b.1 ++ old ++ b.2.1, put b)) =
          head ++ (before ++ (old ++ behind))) ∨
      ∃ b front back, bs.find? (fitsBorders before behind) = some b ∧ before = front ++ b.1 ∧ behind = b.2.1 ++ back ∧
        Text.replaceEach (head ++ (before ++ (old ++ behind))) (bs.map fun b => (b.1 ++ old ++ b.2.1, put b)) =
          head ++ (front ++ (put b ++ back))
  | [], _ => .inl ⟨rfl, rfl⟩
  | b :: bs, hbs => by
    obtain ⟨hb, hbs⟩ := forall_mem_cons.mp hbs
    rw [map_cons, Text.replaceEach, foldl_cons, ← Text.replaceEach]
    dsimp only
    cases hfi : fitsBorders before behind b with
    | true =>
      obtain ⟨⟨front, hfr⟩, back, hba⟩ := fitsBorders_iff.mp hfi
      refine .inr ⟨b, front, back, find?_cons_of_pos hfi, hfr.symm, hba.symm, ?_⟩
      rw [h.replaceAll_eq hb hfr.symm hba.symm]
      refine Text.replaceEach_of_not_has fun rule hr => ?_
      obtain ⟨b', hb', rfl⟩ := mem_map.mp hr
      obtain ⟨hw, hh⟩ := hp b hb front back hfr.symm hba.symm
      exact h.has_eq_false (hbs b' hb') hw hh
    | false =>
      rw [h.replaceAll_of_not hb (fun hf => by rw [fitsBorders_iff.mpr hf] at hfi; cases hfi),
        find?_cons_of_neg (by simp [hfi])]
      exact Marked.replaceEach_eq put hp bs hbs

end Occurrence

end QtMigration
