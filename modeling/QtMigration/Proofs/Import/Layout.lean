import QtMigration.Proofs.Import.Listed

/-!
# Proofs/Import/Layout — the layouts of an import statement

**The rows list the names exactly where every comma stands at the beginning or at the end of its row**
(`Layout.listedNames_render`, `Layout.exists_listed_comma_of_not_tidy`).
-/

namespace QtMigration

open List

open Text (words isGap)

variable {c : Char} {s t : Text}

/-- How a list of names is set. -/
inductive Setting
  /-- On one row. -/
  | row
  /-- In parentheses, over any number of rows. -/
  | parentheses
  /-- On rows of which all but the last end in a backslash. -/
  | continued
  deriving DecidableEq, Repr

/-- White space over rows that end in a backslash; `bare` says that rows may also end without one. -/
def spaceOverRows (bare : Bool) : Text → Bool
  | '\\' :: '\n' :: s => spaceOverRows bare s
  | c :: s => (isRowBlank c || (bare && c == '\n')) && spaceOverRows bare s
  | [] => true

namespace Setting

def isSpace : Setting → Text → Bool
  | row, s => s.all isRowBlank
  | parentheses, s => spaceOverRows true s
  | continued, s => spaceOverRows false s

def opening : Setting → Text
  | parentheses => ['(']
  | _ => []

def closing : Setting → Text
  | parentheses => [')']
  | _ => []

end Setting

/-- **A layout of a list of names**: what stands around the names and the commas. -/
structure Layout where
  setting : Setting
  /-- The blanks in front of the list. -/
  lead : Text
  /-- The space before the first name. -/
  first : Text
  /-- The space before and behind each comma between two names. -/
  gaps : List (Text × Text)
  /-- The space before a comma behind the last name. -/
  trailing : Option Text
  /-- The space behind the last name or comma. -/
  last : Text
  /-- The blanks behind the list. -/
  tail : Text
  lead_blank : lead.all isRowBlank = true
  first_space : setting.isSpace first = true
  gaps_space : (gaps.all fun g => setting.isSpace g.1 && setting.isSpace g.2) = true
  trailing_space : (trailing.all fun t => setting == .parentheses && setting.isSpace t) = true
  last_space : setting.isSpace last = true
  tail_blank : tail.all isRowBlank = true

namespace Layout

def spread : List (Text × Text) → List Text → Text
  | g :: gaps, n :: names => n ++ (g.1 ++ ',' :: (g.2 ++ spread gaps names))
  | [], n :: _ => n
  | _, [] => []

def ending (L : Layout) : Text :=
  (match L.trailing with
    | none => L.last
    | some t => t ++ ',' :: L.last) ++ (L.setting.closing ++ L.tail)

def render (L : Layout) (names : List Text) : Text :=
  L.lead ++ (L.setting.opening ++ (L.first ++ (spread L.gaps names ++ L.ending)))

def Fits (L : Layout) (names : List Text) : Prop := names.length = L.gaps.length + 1

/-- A comma between these stands at the beginning or at the end of its row. -/
def atRowEnd (before behind : Text) : Bool :=
  before.getLast? == some '\n' || behind.head? == some '\n'

/-- **Every comma stands at the beginning or at the end of its row.** -/
def tidy (L : Layout) : Bool :=
  (L.gaps.all fun g => atRowEnd g.1 g.2) && L.trailing.all fun t => atRowEnd t L.last

end Layout

/-! ## Space is spacing -/

theorem isSpacing_of_isRowBlank (h : isRowBlank c) : isSpacing c := by
  simp only [isRowBlank, Bool.or_eq_true, beq_iff_eq] at h
  rcases h with (rfl | rfl) | rfl <;> decide

theorem all_isSpacing_of_blank (h : s.all isRowBlank) : s.all isSpacing :=
  all_eq_true.mpr fun c hc => isSpacing_of_isRowBlank (all_eq_true.mp h c hc)

theorem all_isSpacing_of_overRows {bare : Bool} (h : spaceOverRows bare s) : s.all isSpacing := by
  induction s using spaceOverRows.induct with
  | case1 s ih =>
    rw [spaceOverRows] at h
    rw [all_cons, all_cons, ih h]
    decide
  | case2 c s hne ih =>
    rw [spaceOverRows, Bool.and_eq_true, Bool.or_eq_true, Bool.and_eq_true, beq_iff_eq] at h
    · have hc : isSpacing c := by
        rcases h.1 with hb | ⟨-, rfl⟩
        · exact isSpacing_of_isRowBlank hb
        · decide
      rw [all_cons, hc, ih h.2]
      rfl
    · exact hne
  | case3 => rfl

theorem Setting.all_isSpacing {setting : Setting} (h : setting.isSpace s) : s.all isSpacing := by
  cases setting with
  | row => exact all_isSpacing_of_blank h
  | parentheses => exact all_isSpacing_of_overRows h
  | continued => exact all_isSpacing_of_overRows h

theorem Setting.opening_isSpacing (setting : Setting) : setting.opening.all isSpacing := by
  cases setting <;> decide

theorem Setting.closing_isSpacing (setting : Setting) : setting.closing.all isSpacing := by
  cases setting <;> decide

theorem isGap_of_isSpacing (h : s.all isSpacing) : isGap s := by
  refine all_eq_true.mpr fun c hc => ?_
  have hs := all_eq_true.mp h c hc
  rw [isSpacing, Bool.or_eq_true] at hs
  rcases hs with hb | hf
  · rw [Text.isWord_of_isBlank hb]
    rfl
  · simp only [isFrame, Bool.or_eq_true, beq_iff_eq] at hf
    rcases hf with (rfl | rfl) | rfl <;> decide

theorem comma_notMem_of_isSpacing (h : s.all isSpacing) : ',' ∉ s := fun hm =>
  ne_comma_of_isSpacing (all_eq_true.mp h _ hm) rfl

namespace Layout

variable {L : Layout} {names : List Text} {n front rest : Text}

theorem gaps_isSpacing (L : Layout) :
    ∀ g ∈ L.gaps, g.1.all isSpacing ∧ g.2.all isSpacing := fun g hg => by
  have h := all_eq_true.mp L.gaps_space g hg
  rw [Bool.and_eq_true] at h
  exact ⟨Setting.all_isSpacing h.1, Setting.all_isSpacing h.2⟩

theorem beginning_isSpacing (L : Layout) : (L.lead ++ (L.setting.opening ++ L.first)).all isSpacing := by
  rw [all_append, all_append, all_isSpacing_of_blank L.lead_blank,
    L.setting.opening_isSpacing, Setting.all_isSpacing L.first_space]
  rfl

theorem end_isSpacing (L : Layout) : (L.last ++ (L.setting.closing ++ L.tail)).all isSpacing := by
  rw [all_append, all_append, all_isSpacing_of_blank L.tail_blank,
    L.setting.closing_isSpacing, Setting.all_isSpacing L.last_space]
  rfl

theorem trailing_isSpacing (h : L.trailing = some t) : L.setting = .parentheses ∧ t.all isSpacing := by
  have hs := L.trailing_space
  rw [h, Option.all_some, Bool.and_eq_true, beq_iff_eq] at hs
  exact ⟨hs.1, Setting.all_isSpacing hs.2⟩

theorem ending_of_none (h : L.trailing = none) : L.ending = L.last ++ (L.setting.closing ++ L.tail) := by
  rw [ending, h]

theorem ending_of_some (h : L.trailing = some t) :
    L.ending = t ++ ',' :: (L.last ++ (L.setting.closing ++ L.tail)) := by
  rw [ending, h, append_assoc, cons_append]

theorem render_eq (L : Layout) (names : List Text) :
    L.render names = (L.lead ++ (L.setting.opening ++ L.first)) ++ (spread L.gaps names ++ L.ending) := by
  rw [render, append_assoc, append_assoc]

/-! ## Characters -/

theorem notMem_of_all_isSpacing (hc : isSpacing c = false) (h : s.all isSpacing) : c ∉ s := fun hm => by
  simp [all_eq_true.mp h c hm] at hc

theorem notMem_spread {c : Char} (hc : isSpacing c = false) (hco : c ≠ ',') :
    ∀ {gaps : List (Text × Text)} {names : List Text},
      (∀ g ∈ gaps, g.1.all isSpacing ∧ g.2.all isSpacing) → (∀ n ∈ names, c ∉ n) →
      c ∉ spread gaps names
  | [], [], _, _ => not_mem_nil
  | [], n :: _, _, hna => hna n mem_cons_self
  | g :: gaps, [], _, _ => not_mem_nil
  | g :: gaps, n :: names, hga, hna => by
    obtain ⟨hg, hga⟩ := forall_mem_cons.mp hga
    obtain ⟨hn, hna⟩ := forall_mem_cons.mp hna
    have ih := notMem_spread hc hco hga hna
    rw [spread, mem_append, mem_append, mem_cons, mem_append]
    rintro (h | h | h | h | h)
    · exact hn h
    · exact notMem_of_all_isSpacing hc hg.1 h
    · exact hco h
    · exact notMem_of_all_isSpacing hc hg.2 h
    · exact ih h

theorem notMem_render (hc : isSpacing c = false) (hco : c ≠ ',') (hn : ∀ n ∈ names, c ∉ n) :
    c ∉ L.render names := by
  have he : c ∉ L.ending := by
    have hend := notMem_of_all_isSpacing hc L.end_isSpacing
    cases h : L.trailing with
    | none => rwa [ending_of_none h]
    | some t =>
      rw [ending_of_some h, mem_append, mem_cons]
      rintro (h' | h' | h')
      · exact notMem_of_all_isSpacing hc (trailing_isSpacing h).2 h'
      · exact hco h'
      · exact hend h'
  rw [render_eq, mem_append, mem_append (s := spread L.gaps names)]
  rintro (h | h | h)
  · exact notMem_of_all_isSpacing hc L.beginning_isSpacing h
  · exact notMem_spread hc hco L.gaps_isSpacing hn h
  · exact he h

/-! ## Words -/

theorem ending_isGap (L : Layout) : isGap L.ending := by
  cases h : L.trailing with
  | none =>
    rw [ending_of_none h]
    exact isGap_of_isSpacing L.end_isSpacing
  | some t =>
    rw [ending_of_some h, isGap, all_append, all_cons]
    have ht := isGap_of_isSpacing (trailing_isSpacing h).2
    have he := isGap_of_isSpacing L.end_isSpacing
    rw [isGap] at ht he
    rw [ht, he]
    decide

theorem words_spread : ∀ {gaps : List (Text × Text)} {names : List Text} {rest : Text},
    (∀ g ∈ gaps, g.1.all isSpacing ∧ g.2.all isSpacing) →
    (∀ n ∈ names, n ≠ [] ∧ n.all Text.isWord) → names.length = gaps.length + 1 →
    isGap rest → words (spread gaps names ++ rest) = names
  | [], [n], rest, _, hn, _, hr => by
    obtain ⟨hne, hw⟩ := hn n (mem_singleton.mpr rfl)
    rw [Text.words_append_gap _ hr]
    exact Text.words_of_isWord hne hw
  | g :: gaps, n :: names, rest, hga, hn, hl, hr => by
    obtain ⟨hg, hga⟩ := forall_mem_cons.mp hga
    obtain ⟨⟨hne, hw⟩, hn⟩ := forall_mem_cons.mp hn
    have hgap : isGap (g.1 ++ ',' :: g.2) := by
      have h₁ := isGap_of_isSpacing hg.1
      have h₂ := isGap_of_isSpacing hg.2
      rw [isGap] at h₁ h₂
      rw [isGap, all_append, all_cons, h₁, h₂]
      decide
    have hs : spread (g :: gaps) (n :: names) ++ rest =
        n ++ ((g.1 ++ ',' :: g.2) ++ (spread gaps names ++ rest)) := by
      simp [spread]
    rw [hs, Text.words_word_append hne hw hgap (by simp),
      words_spread hga hn (by simpa using hl) hr]

theorem words_render (hf : L.Fits names) (hn : ∀ n ∈ names, n ≠ [] ∧ n.all Text.isWord) :
    words (L.render names) = names := by
  rw [render_eq, Text.words_gap_append (isGap_of_isSpacing L.beginning_isSpacing),
    words_spread L.gaps_isSpacing hn hf L.ending_isGap]

/-! ## Tidy layouts list their names -/

theorem listedNames_end (ht : L.tidy) (hne : n ≠ []) (hw : n.all Text.isWord)
    (hf : front.all isSpacing) : listedNames (front ++ (n ++ L.ending)) = [n] := by
  cases h : L.trailing with
  | none =>
    rw [ending_of_none h]
    exact listedNames_word hne hw hf L.end_isSpacing
  | some t =>
    have hr : atRowEnd t L.last := by
      rw [tidy, h, Option.all_some, Bool.and_eq_true] at ht
      exact ht.2
    rw [atRowEnd, Bool.or_eq_true, beq_iff_eq, beq_iff_eq] at hr
    have hs : front ++ (n ++ L.ending) =
        (front ++ (n ++ t)) ++ ',' :: (L.last ++ (L.setting.closing ++ L.tail)) := by
      rw [ending_of_some h]
      simp
    have hb : (front ++ (n ++ t)).getLast? = some '\n' ∨
        (L.last ++ (L.setting.closing ++ L.tail)).head? = some '\n' := by
      rcases hr with hr | hr
      · exact .inl (by rw [getLast?_append, getLast?_append, hr]; rfl)
      · exact .inr (by rw [head?_append, hr]; rfl)
    rw [hs, listedNames_comma hb, listedNames_word hne hw hf (trailing_isSpacing h).2,
      listedNames_spacing L.end_isSpacing, append_nil]

theorem listedNames_spread (ht : L.tidy) : ∀ {gaps : List (Text × Text)} {names : List Text}
    {front : Text}, (∀ g ∈ gaps, g.1.all isSpacing ∧ g.2.all isSpacing) →
    (∀ g ∈ gaps, atRowEnd g.1 g.2) →
    (∀ n ∈ names, n ≠ [] ∧ n.all Text.isWord) → names.length = gaps.length + 1 →
    front.all isSpacing → listedNames (front ++ (spread gaps names ++ L.ending)) = names
  | [], [n], front, _, _, hn, _, hf => by
    obtain ⟨hne, hw⟩ := hn n (mem_singleton.mpr rfl)
    exact listedNames_end ht hne hw hf
  | g :: gaps, n :: names, front, hga, hro, hn, hl, hf => by
    obtain ⟨hg, hga⟩ := forall_mem_cons.mp hga
    obtain ⟨hr, hro⟩ := forall_mem_cons.mp hro
    obtain ⟨⟨hne, hw⟩, hn⟩ := forall_mem_cons.mp hn
    rw [atRowEnd, Bool.or_eq_true, beq_iff_eq, beq_iff_eq] at hr
    have hs : front ++ (spread (g :: gaps) (n :: names) ++ L.ending) =
        (front ++ (n ++ g.1)) ++ ',' :: (g.2 ++ (spread gaps names ++ L.ending)) := by
      simp [spread]
    have hb : (front ++ (n ++ g.1)).getLast? = some '\n' ∨
        (g.2 ++ (spread gaps names ++ L.ending)).head? = some '\n' := by
      rcases hr with hr | hr
      · exact .inl (by rw [getLast?_append, getLast?_append, hr]; rfl)
      · exact .inr (by rw [head?_append, hr]; rfl)
    rw [hs, listedNames_comma hb, listedNames_word hne hw hf hg.1,
      listedNames_spread ht hga hro hn (by simpa using hl) hg.2]
    rfl

theorem listedNames_render (ht : L.tidy) (hf : L.Fits names)
    (hn : ∀ n ∈ names, n ≠ [] ∧ n.all Text.isWord) : listedNames (L.render names) = names := by
  have hr : ∀ g ∈ L.gaps, atRowEnd g.1 g.2 := by
    rw [tidy, Bool.and_eq_true] at ht
    exact all_eq_true.mp ht.1
  rw [render_eq]
  exact listedNames_spread ht L.gaps_isSpacing hr hn hf L.beginning_isSpacing

/-! ## Other layouts do not -/

theorem exists_listed_of_not_atRowEnd {before behind a b : Text} (h : atRowEnd before behind = false)
    (hbe : before.all isSpacing) (hbehind : behind.all isSpacing)
    (ha : ∃ x ∈ a.getLast?, x ≠ ',' ∧ x ≠ '\n') (hb : ∃ y ∈ b.head?, y ≠ ',' ∧ y ≠ '\n') :
    ∃ r ∈ listedNames ((a ++ before) ++ ',' :: (behind ++ b)), ',' ∈ r := by
  rw [atRowEnd, Bool.or_eq_false_iff, beq_eq_false_iff_ne, beq_eq_false_iff_ne] at h
  have hx : ∃ x ∈ (a ++ before).getLast?, x ≠ ',' ∧ x ≠ '\n' := by
    rw [getLast?_append]
    cases hl : before.getLast? with
    | none => exact ha
    | some x =>
      have hm := mem_of_getLast? hl
      exact ⟨x, rfl, ne_comma_of_isSpacing (all_eq_true.mp hbe x hm), fun hx => h.1 (hx ▸ hl)⟩
  have hy : ∃ y ∈ (behind ++ b).head?, y ≠ ',' ∧ y ≠ '\n' := by
    rw [head?_append]
    cases hh : behind.head? with
    | none => exact hb
    | some y =>
      have hm := mem_of_head? hh
      exact ⟨y, rfl, ne_comma_of_isSpacing (all_eq_true.mp hbehind y hm), fun hy => h.2 (hy ▸ hh)⟩
  obtain ⟨x, hl, hx, hx'⟩ := hx
  obtain ⟨y, hh, hy, hy'⟩ := hy
  obtain ⟨front, hf⟩ := getLast?_eq_some_iff.mp hl
  obtain ⟨rest, hr⟩ := head?_eq_some_iff.mp hh
  rw [hf, hr, append_assoc, singleton_append]
  exact exists_listed_comma hx hy hx' hy' front rest

theorem ne_of_isWord {x : Char} (hx : Text.isWord x) : x ≠ ',' ∧ x ≠ '\n' := by
  constructor <;> rintro rfl <;> exact absurd hx (by decide)

theorem exists_getLast?_of_isWord (hne : n ≠ []) (hw : n.all Text.isWord) (front : Text) :
    ∃ x ∈ (front ++ n).getLast?, x ≠ ',' ∧ x ≠ '\n' := by
  obtain ⟨init, x, rfl⟩ := (eq_nil_or_concat n).resolve_left hne
  rw [concat_eq_append] at hw ⊢
  refine ⟨x, by rw [← append_assoc, getLast?_concat]; rfl, ne_of_isWord ?_⟩
  exact all_eq_true.mp hw x (by simp)

theorem exists_head?_of_isWord (hne : n ≠ []) (hw : n.all Text.isWord) (rest : Text) :
    ∃ y ∈ (n ++ rest).head?, y ≠ ',' ∧ y ≠ '\n' := by
  obtain ⟨y, n, rfl⟩ := exists_cons_of_ne_nil hne
  exact ⟨y, rfl, ne_of_isWord (all_eq_true.mp hw y mem_cons_self)⟩

theorem exists_spread_head (gaps : List (Text × Text)) (n : Text) (names : List Text) :
    ∃ rest, spread gaps (n :: names) = n ++ rest := by
  cases gaps with
  | nil => exact ⟨[], by rw [spread, append_nil]⟩
  | cons g gaps => exact ⟨_, rfl⟩

theorem exists_spread_last : ∀ {gaps : List (Text × Text)} {names : List Text},
    names.length = gaps.length + 1 → ∃ front, ∃ n ∈ names, spread gaps names = front ++ n
  | [], [n], _ => ⟨[], n, mem_singleton.mpr rfl, rfl⟩
  | g :: gaps, n :: names, h => by
    obtain ⟨front, m, hm, hs⟩ := exists_spread_last (show names.length = gaps.length + 1 by simpa using h)
    refine ⟨n ++ (g.1 ++ ',' :: (g.2 ++ front)), m, mem_cons_of_mem n hm, ?_⟩
    rw [spread, hs]
    simp

theorem exists_listed_of_gap : ∀ {gaps : List (Text × Text)} {names : List Text} (front rest : Text),
    (∀ g ∈ gaps, g.1.all isSpacing ∧ g.2.all isSpacing) →
    (∃ g ∈ gaps, atRowEnd g.1 g.2 = false) →
    (∀ n ∈ names, n ≠ [] ∧ n.all Text.isWord) → names.length = gaps.length + 1 →
    ∃ r ∈ listedNames (front ++ (spread gaps names ++ rest)), ',' ∈ r
  | g :: gaps, n :: m :: names, front, rest, hga, hgap, hn, hl => by
    obtain ⟨hg, hga⟩ := forall_mem_cons.mp hga
    obtain ⟨⟨hne, hw⟩, hn⟩ := forall_mem_cons.mp hn
    have hs : front ++ (spread (g :: gaps) (n :: m :: names) ++ rest) =
        ((front ++ n) ++ g.1) ++ ',' :: (g.2 ++ (spread gaps (m :: names) ++ rest)) := by
      simp [spread]
    obtain ⟨g', hg', hi⟩ := hgap
    rcases mem_cons.mp hg' with rfl | hla
    · obtain ⟨hne', hw'⟩ := hn m mem_cons_self
      obtain ⟨rest', hsp⟩ := exists_spread_head gaps m names
      rw [hs]
      refine exists_listed_of_not_atRowEnd hi hg.1 hg.2 (exists_getLast?_of_isWord hne hw front) ?_
      rw [hsp, append_assoc]
      exact exists_head?_of_isWord hne' hw' _
    · obtain ⟨r, hr, hm⟩ := exists_listed_of_gap (((front ++ n) ++ g.1) ++ ',' :: g.2) rest hga
        ⟨g', hla, hi⟩ hn (by simpa using hl)
      refine ⟨r, ?_, hm⟩
      rw [hs]
      simpa using hr

theorem exists_listed_comma_of_not_tidy (hti : L.tidy = false) (hf : L.Fits names)
    (hna : ∀ n ∈ names, n ≠ [] ∧ n.all Text.isWord) :
    ∃ r ∈ listedNames (L.render names), ',' ∈ r := by
  rw [tidy, Bool.and_eq_false_iff] at hti
  rw [render_eq]
  rcases hti with hg | htr
  · refine exists_listed_of_gap _ _ L.gaps_isSpacing ?_ hna hf
    simpa using hg
  · cases h : L.trailing with
    | none => simp [h] at htr
    | some t =>
      rw [h, Option.all_some] at htr
      obtain ⟨hs, ht⟩ := trailing_isSpacing h
      obtain ⟨front, n, hn, hsp⟩ := exists_spread_last hf
      obtain ⟨hne, hw⟩ := hna n hn
      have hsplit : (L.lead ++ (L.setting.opening ++ L.first)) ++ (spread L.gaps names ++ L.ending) =
          (((L.lead ++ (L.setting.opening ++ L.first)) ++ front) ++ n ++ t) ++
            ',' :: (L.last ++ (L.setting.closing ++ L.tail)) := by
        rw [hsp, ending_of_some h]
        simp
      rw [hsplit]
      refine exists_listed_of_not_atRowEnd htr ht (Setting.all_isSpacing L.last_space)
        (exists_getLast?_of_isWord hne hw _) ?_
      rw [hs]
      exact ⟨')', rfl, by decide⟩

/-! ## The end of a list -/

theorem exists_render_end (hf : L.Fits names) (hna : ∀ n ∈ names, n ≠ [] ∧ n.all Text.isWord) :
    ∃ front behind, L.render names = front ++ behind ∧ ',' ∉ behind ∧ Text.trimRight behind ≠ [] := by
  cases h : L.trailing with
  | none =>
    obtain ⟨front, n, hn, hsp⟩ := exists_spread_last hf
    obtain ⟨hne, hw⟩ := hna n hn
    refine ⟨(L.lead ++ (L.setting.opening ++ L.first)) ++ front,
      n ++ (L.last ++ (L.setting.closing ++ L.tail)), ?_, ?_, ?_⟩
    · rw [render_eq, hsp, ending_of_none h]
      simp
    · rw [mem_append, not_or]
      exact ⟨notMem_of_isWord hw (by decide), comma_notMem_of_isSpacing L.end_isSpacing⟩
    · obtain ⟨c, n, rfl⟩ := exists_cons_of_ne_nil hne
      have hc := Text.isBlank_of_isWord (all_eq_true.mp hw c mem_cons_self)
      rw [Ne, Text.trimRight_eq_nil_iff, cons_append, all_cons, hc]
      simp
  | some t =>
    obtain ⟨hs, -⟩ := trailing_isSpacing h
    refine ⟨(L.lead ++ (L.setting.opening ++ L.first)) ++ (spread L.gaps names ++ (t ++ ',' :: L.last)),
      ')' :: L.tail, ?_, ?_, ?_⟩
    · rw [render_eq, ending_of_some h, hs]
      simp [Setting.closing]
    · rw [mem_cons, not_or]
      exact ⟨by decide, comma_notMem_of_isSpacing (all_isSpacing_of_blank L.tail_blank)⟩
    · rw [Ne, Text.trimRight_eq_nil_iff, all_cons, show Text.isBlank ')' = false from rfl]
      simp

end Layout

end QtMigration
