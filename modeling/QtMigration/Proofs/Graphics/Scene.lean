import Mathlib.Algebra.GroupWithZero.Nat
import Mathlib.Data.List.Basic
import QtMigration.Proofs.Graphics.Reading
import QtMigration.Proofs.Line.Indent
import QtMigration.Proofs.Signal.Spelled

/-!
# Proofs/Graphics/Scene — by which count the scene of an item is found

**So an item is treated by the number of its arguments exactly if the commas inside them leave the count
in the same case** (`treated_by_count_iff`) and, where there is a scene, cut nothing up.
-/

namespace QtMigration

open List Text

/-! ## Pieces -/

/-- The pieces between all commas of the arguments, trimmed. -/
def argumentPieces (args : List Text) : List Text :=
  args.flatMap fun a => (a.splitOn [',']).map Text.trim

def innerCommas (args : List Text) : Nat := (args.map (List.count ',')).sum

theorem length_argumentPieces (args : List Text) : (argumentPieces args).length = args.length + innerCommas args := by
  induction args with
  | nil => rfl
  | cons a args ih =>
    rw [argumentPieces, innerCommas] at *
    rw [flatMap_cons, length_append, ih, length_map, length_splitOn, map_cons, sum_cons, length_cons]
    omega

theorem argumentPieces_of_no_comma {args : List Text} (ht : ∀ a ∈ args, Text.trim a = a)
    (h : innerCommas args = 0) : argumentPieces args = args := by
  induction args with
  | nil => rfl
  | cons a args ih =>
    obtain ⟨ha, har⟩ := forall_mem_cons.mp ht
    rw [innerCommas, map_cons, sum_cons, Nat.add_eq_zero_iff] at h
    have hc : ',' ∉ a := count_eq_zero.mp h.1
    rw [argumentPieces, flatMap_cons,
      splitOn_of_not_has (has_eq_false_of_notMem mem_cons_self hc), map_singleton, ha]
    exact congrArg (a :: ·) (ih har h.2)

theorem map_trim_splitOn_commaList : ∀ {args : List Text}, args ≠ [] →
    ((Text.commaList args).splitOn [',']).map Text.trim = argumentPieces args
  | [a], _ => by simp [argumentPieces, Text.commaList, Text.join]
  | a :: b :: args, _ => by
    -- the blank behind a comma goes with the trimming
    have hb : ∀ s : Text, (Text.splitOn (' ' :: s) [',']).map Text.trim = (s.splitOn [',']).map Text.trim := by
      intro s
      rw [splitOn_cons, if_neg (by decide)]
      cases Text.splitOn s [','] with
      | nil => rfl
      | cons first rest => exact congrArg (· :: rest.map Text.trim) (trim_cons_blank (by decide) first)
    rw [commaList_cons_cons, splitOn_append_cons, map_append, hb, map_trim_splitOn_commaList (cons_ne_nil b args)]
    rfl

theorem listArguments_argumentTail {args : List Text} (hne : args ≠ []) :
    listArguments (argumentTail args) = argumentPieces args := by
  have hs : (("," : String).toList : Text) = [','] := String.toList_ofList
  have ht : argumentTail args = '(' :: (Text.commaList args ++ [')'] ++ ['\n']) := by
    simp [argumentTail]
  have htr : Text.trim (argumentTail args) = '(' :: (Text.commaList args ++ [')']) := by
    rw [ht, ← cons_append, trim_append_blank (by decide), ← cons_append, Text.trim,
      cons_append, trimLeft_cons (by decide), ← cons_append, trimRight_concat (by decide)]
  rw [listArguments, htr, hs, drop_succ_cons, drop_zero, dropLast_concat, map_trim_splitOn_commaList hne]

/-! ## The choice by the count -/

/-- The piece neither is empty or `None`, nor passes arguments on, nor is a scene or a parent. -/
def isPlainPiece (p : Text) : Bool :=
  !p.isEmpty && p != "None" && p.head? != some '*' &&
    (["scene", "parent"] : List Text).all fun keyword => !givesKeyword keyword p && !namesKeyword keyword p

theorem takeKeyword_of_forall {keyword : Text} : ∀ {args : List Text},
    (∀ a ∈ args, givesKeyword keyword a = false ∧ namesKeyword keyword a = false) →
      takeKeyword keyword args = (none, args)
  | [], _ => rfl
  | a :: args, h => by
    obtain ⟨⟨hg, hn⟩, ha⟩ := forall_mem_cons.mp h
    rw [takeKeyword, hg, hn, takeKeyword_of_forall ha]
    rfl

theorem keyword_of_isPlainPiece {p : Text} (h : isPlainPiece p) {keyword : Text}
    (hk : keyword ∈ (["scene", "parent"] : List Text)) :
    givesKeyword keyword p = false ∧ namesKeyword keyword p = false := by
  rw [isPlainPiece, Bool.and_eq_true, all_eq_true] at h
  simpa using h.2 keyword hk

theorem chooseScene_plain {pieces : List Text} (h : ∀ p ∈ pieces, isPlainPiece p) : chooseScene 0 pieces =
      if pieces.length ∈ [0, 1, 4, 5] then .none
      else if pieces.length ∈ [3, 6] then lastIsScene pieces else .unclear := by
  have hs : takeKeyword "scene" pieces = (none, pieces) :=
    takeKeyword_of_forall fun p hp => keyword_of_isPlainPiece (h p hp) (by simp)
  have hpa : keywordIndex? "parent" pieces = none := by
    rw [keywordIndex?, findIdx?_eq_none_iff]
    intro p hp
    obtain ⟨hg, hn⟩ := keyword_of_isPlainPiece (h p hp)
      (show ("parent" : Text) ∈ (["scene", "parent"] : List Text) by simp)
    rw [hg, hn]
    rfl
  have ht : pieces.length = 2 → chooseOfTwo 0 pieces = .unclear := by
    intro hl
    obtain ⟨first, second, rfl⟩ := length_eq_two.mp hl
    have hf := h first mem_cons_self
    have hno : (first == ("None" : Text)) = false := by
      simp only [isPlainPiece, Bool.and_eq_true] at hf
      simpa using hf.1.1.2
    have hst : passesAll first second = false := by
      have hh : first.head? ≠ some '*' := by
        simp only [isPlainPiece, Bool.and_eq_true] at hf
        simpa using hf.1.2
      rw [passesAll, Bool.and_eq_false_iff, Bool.or_eq_false_iff]
      refine .inl ⟨beq_eq_false_iff_ne.mpr ?_, beq_eq_false_iff_ne.mpr ?_⟩ <;>
        · rintro rfl
          exact hh rfl
    rw [chooseOfTwo]
    simp only [getElem?_cons_zero, Option.getD_some, getElem?_cons_succ, Nat.zero_add, hst, hno, hpa]
    rfl
  rw [chooseScene, hs]
  dsimp only
  rw [chooseByCount, Nat.sub_zero]
  simp only [mem_cons, not_mem_nil, or_false, beq_iff_eq, Bool.or_eq_true]
  split
  · rw [if_pos (by omega)]
  split
  next hl => rw [ht hl, if_neg (by omega), if_neg (by omega)]
  split
  · rw [if_neg (by omega)]
  split
  · rw [if_pos (by omega)]
  · rw [if_neg (by omega)]

/-! ## A line that makes an item -/

/-- **A text that something can be assigned to**, on one row: code that does not begin with a string and is no
statement of its own. -/
structure IsTarget (s : Text) : Prop where
  isCode : s.isCode = true
  flush : s.trimLeft = s
  ended : s.trimRight = s
  unassigned : '=' ∉ s
  oneRow : '\n' ∉ s
  noString : stringMark ((s ++ " =").take 3) = none
  noStatement : Text.startsWithAny (s ++ " ") ["class ", "from ", "import "] = false

namespace IsTarget

variable {s : Text} (h : IsTarget s)

include h

theorem exists_cons : ∃ c cs, s = c :: cs ∧ Text.isBlank c = false ∧ c ≠ '#' := by
  have hc := h.isCode
  rw [isCode_eq_head, h.flush] at hc
  obtain ⟨c, cs, rfl⟩ : ∃ c cs, s = c :: cs := exists_cons_of_ne_nil fun hn => by
    rw [hn] at hc
    cases hc
  simp only [head?_cons, Option.any_some, Bool.and_eq_true, bne_iff_ne] at hc
  exact ⟨c, cs, rfl, blank_eq_false_of_trimLeft h.flush, hc.1.1⟩

theorem startsWith_eq_false {word : Text} (hm : word ∈ (["class ", "from ", "import "] : List Text)) (t : Text) :
    Text.startsWith (s ++ ' ' :: t) word = false := by
  have hn : ¬ word <+: s ++ [' '] := fun hp =>
    any_eq_false.mp h.noStatement word hm ( isPrefixOf_iff_prefix.mpr hp)
  obtain ⟨stem, rfl, hs⟩ : ∃ stem, word = stem ++ [' '] ∧ ' ' ∉ stem := by
    simp only [mem_cons, not_mem_nil, or_false] at hm
    rcases hm with rfl | rfl | rfl
    · exact ⟨"class", by decide, by decide⟩
    · exact ⟨"from", by decide, by decide⟩
    · exact ⟨"import", by decide, by decide⟩
  rw [Text.startsWith, ← Bool.not_eq_true, isPrefixOf_iff_prefix]
  intro hp
  rcases prefix_or_prefix_of_prefix hp (show s ++ [' '] <+: s ++ ' ' :: t from ⟨t, by simp⟩) with hin | ho
  · exact hn hin
  · -- the blank behind the target would lie in the word
    rcases prefix_concat_iff.mp ho with heq | hin
    · exact hn (heq ▸ prefix_refl _)
    · exact hs (hin.subset (by simp))

end IsTarget

/-- **A line that makes an item** and gives it to a target. -/
structure ItemMaking where
  indent : Text
  target : Text
  item : Text
  args : List Text
  indent_blank : ∀ c ∈ indent, c = ' ' ∨ c = '\t'
  isTarget : IsTarget target
  item_mem : item ∈ itemClasses
  args_ne : args ≠ []
  args_trimmed : ∀ a ∈ args, Text.trim a = a
  /-- No piece says more about the scene than its place does. -/
  plain : ∀ p ∈ argumentPieces args, isPlainPiece p = true
  target_lacks : target.has item = false
  args_lack : ∀ a ∈ args, a.has item = false

namespace ItemMaking

variable (d : ItemMaking)

def before : Text := d.indent ++ d.target ++ " = "

def lineOf (args : List Text) : Text := d.before ++ d.item ++ argumentTail args

def line : Text := d.lineOf d.args

def addition (scene : Text) : Text := d.indent ++ scene ++ ".addItem(" ++ d.target ++ ")\n"

/-- **What the number of arguments calls for**: the last of three and of six is the scene. -/
def expected : List Text :=
  if d.args.length ∈ [3, 6] then [d.lineOf d.args.dropLast, d.addition (d.args.getLast?.getD [])] else [d.line]

theorem notMem_item {c : Char} (hc : c.isAlpha = false) : c ∉ d.item := notMem_itemClass d.item_mem hc

theorem exists_item : ∃ cs, d.item = 'Q' :: cs := exists_itemClass d.item_mem

theorem trimLeft_line : d.line.trimLeft = d.target ++ ' ' :: ("= " ++ (d.item ++ argumentTail d.args)) := by
  obtain ⟨c, cs, ht, hb, -⟩ := d.isTarget.exists_cons
  have hl : d.line = d.indent ++ (d.target ++ ' ' :: ("= " ++ (d.item ++ argumentTail d.args))) := by
    simp [line, lineOf, before]
  have hi : d.indent.trimLeft = [] := by
    rw [Text.trimLeft, Text.trimLeftWhile, dropWhile_eq_nil_iff]
    intro e he
    rcases d.indent_blank e he with rfl | rfl <;> decide
  rw [hl, trimLeft_append, hi, ht]
  exact trimLeft_cons hb _

theorem before_lacks : d.before.has d.item = false := by
  obtain ⟨cs, hi⟩ := d.exists_item
  have hf : Text.has (d.indent ++ d.target) d.item = false := by
    rw [hi]
    refine has_append_of_notMem (hi ▸ d.target_lacks) fun hm => ?_
    rcases d.indent_blank 'Q' hm with h | h <;> exact absurd h (by decide)
  have hb : Text.has "= " d.item = false :=
    has_eq_false_of_notMem (c := 'Q') (by rw [hi]; exact mem_cons_self) (by decide)
  have hs : d.before = (d.indent ++ d.target) ++ ' ' :: ("= " : Text) := by simp [before]
  rw [hs, has_append_cons (d.notMem_item (by decide)), hf, hb]
  rfl

theorem tail_lacks (args : List Text) (har : ∀ a ∈ args, a.has d.item = false) :
    (argumentTail args).has d.item = false := by
  obtain ⟨cs, hi⟩ := d.exists_item
  have hl : (Text.commaList args).has d.item = false := by
    rw [has_commaList (by simp [hi]) (d.notMem_item (by decide)) (by simp [hi]), any_eq_false]
    exact fun a ha => by rw [har a ha]; decide
  have ht : argumentTail args = [] ++ '(' :: (Text.commaList args ++ ')' :: ['\n']) := by simp [argumentTail]
  have he : Text.has ['\n'] d.item = false :=
    has_eq_false_of_notMem (c := 'Q') (by rw [hi]; exact mem_cons_self) (by decide)
  have hn : Text.has [] d.item = false := by rw [hi]; rfl
  rw [ht, has_append_cons (d.notMem_item (by decide)), has_append_cons (d.notMem_item (by decide)),
    hl, he, hn]
  rfl

theorem item_not_before (rest : Text) : ∀ k < d.before.length, ¬ d.item <+: (d.before ++ (d.item ++ rest)).drop k := by
  intro k hk hp
  rw [drop_append_of_le_length hk.le] at hp
  rcases prefix_or_prefix_of_prefix hp (prefix_append _ _) with hin | ho
  · exact has_eq_false_iff.mp d.before_lacks (hin.isInfix.trans (drop_suffix k d.before).isInfix)
  · -- what is left of the front ends in a blank
    have hb : ' ' ∈ d.before.drop k := by
      have hs : d.before = (d.indent ++ d.target ++ " =") ++ [' '] := by simp [before]
      have hle : k ≤ (d.indent ++ d.target ++ " =").length := by
        rw [hs, length_append] at hk
        exact Nat.le_of_lt_succ hk
      rw [hs, drop_append_of_le_length hle]
      simp
    exact d.notMem_item (by decide) (ho.subset hb)

theorem aroundItem_line : aroundItem d.line d.item = (d.before, argumentTail d.args) := by
  obtain ⟨cs, hi⟩ := d.exists_item
  have hs : d.line.splitOn d.item = [d.before, argumentTail d.args] := by
    rw [line, lineOf, append_assoc, Text.splitOn, splitGo_append (by simp [hi]) _ _ (d.item_not_before _),
      splitGo_of_not_has (d.tail_lacks d.args d.args_lack)]
  rw [aroundItem, hs]

theorem itemName_line : itemName d.item d.line = d.item := by
  rw [itemName, d.aroundItem_line]
  exact if_neg (by simp [argumentTail, Text.startsWith])

theorem indent_line : d.line.indent = .ok d.indent := by
  obtain ⟨x, xs, ht, hb, hm⟩ := d.isTarget.exists_cons
  obtain ⟨b, c, rest, hth⟩ : ∃ b c rest, xs ++ (" =" : Text) = b :: c :: rest := by
    rcases xs with _ | ⟨b, _ | ⟨c, xs⟩⟩
    · exact ⟨' ', '=', [], by simp⟩
    · exact ⟨b, ' ', ['='], by simp⟩
    · exact ⟨b, c, xs ++ " =", by simp⟩
  have hs : d.target ++ " =" = x :: b :: c :: rest := by rw [ht, cons_append, hth]
  have hl : d.line = d.indent ++ x :: b :: c :: (rest ++ (" " ++ (d.item ++ argumentTail d.args))) := by
    have ha : d.line = d.indent ++ ((d.target ++ " =") ++ (" " ++ (d.item ++ argumentTail d.args))) := by
      simp [line, lineOf, before]
    rw [ha, hs]
    simp
  have hn : stringMark [x, b, c] = none := by
    have := d.isTarget.noString
    rwa [hs] at this
  have hr : '\n' ∉ [x, b, c] := fun hmem => by
    have hin : '\n' ∈ d.target ++ " =" := by
      rw [hs]
      exact mem_of_mem_take (i := 3) hmem
    rcases mem_append.mp hin with hin | hin
    · exact d.isTarget.oneRow hin
    · exact absurd hin (by decide)
  rw [hl]
  exact indent_blanks d.indent_blank hr hn hb hm

theorem target_eq_firstPiece : (d.before.firstPiece "=").trim = d.target := by
  obtain ⟨c, cs, ht, hb, -⟩ := d.isTarget.exists_cons
  have hsi : '=' ∉ d.indent ++ d.target ++ " " := by
    simp only [mem_append, not_or]
    refine ⟨⟨fun hm => ?_, d.isTarget.unassigned⟩, by decide⟩
    rcases d.indent_blank _ hm with h | h <;> exact absurd h (by decide)
  have hp : d.before.firstPiece "=" = d.indent ++ d.target ++ " " := by
    have hs : d.before = (d.indent ++ d.target ++ (" " : Text)) ++ (([] ++ ['=']) ++ [' ']) := by simp [before]
    have hsep : (("=" : String).toList : Text) = [] ++ ['='] := String.toList_ofList
    rw [hs, hsep]
    exact firstPiece_append not_mem_nil (has_eq_false_of_notMem (c := '=') (by simp) hsi)
  have hi : d.indent.trimLeft = [] := by
    rw [Text.trimLeft, Text.trimLeftWhile, dropWhile_eq_nil_iff]
    intro e he
    rcases d.indent_blank e he with rfl | rfl <;> decide
  have hl : Text.trimLeft (d.indent ++ d.target ++ " ") = d.target ++ " " := by
    rw [append_assoc, trimLeft_append, hi, ht]
    exact trimLeft_cons hb _
  rw [hp, Text.trim, hl]
  exact (trimRight_append_blank (by decide) _).trans d.isTarget.ended

theorem newline_notMem : '\n' ∉ d.before ++ d.item := by
  simp only [before, mem_append, not_or]
  refine ⟨⟨⟨fun hm => ?_, d.isTarget.oneRow⟩, by decide⟩, d.notMem_item (by decide)⟩
  rcases d.indent_blank _ hm with h | h <;> exact absurd h (by decide)

theorem replaceAll_line (new : Text) : d.line.replaceAll (argumentTail d.args) new = d.before ++ d.item ++ new := by
  have ht : argumentTail d.args = '(' :: (Text.commaList d.args ++ ")\n") := by simp [argumentTail]
  have hn : ∀ k < (d.before ++ d.item).length,
      ¬ argumentTail d.args <+: (d.before ++ d.item ++ argumentTail d.args).drop k := by
    intro k hk hp
    rw [drop_append_of_le_length hk.le] at hp
    rcases prefix_or_prefix_of_prefix hp (prefix_append _ _) with hin | ho
    · -- the arguments end their row, and no row ends before them
      have hm : '\n' ∈ d.before ++ d.item :=
        (drop_suffix k _).subset (hin.subset (by simp [argumentTail]))
      exact d.newline_notMem hm
    · rcases Nat.lt_or_ge d.before.length k with hlt | hle
      · -- a part of the name does not begin with a parenthesis
        obtain ⟨c, rest, hr⟩ : ∃ c rest, (d.before ++ d.item).drop k = c :: rest :=
          exists_cons_of_ne_nil (by simpa using hk)
        rw [hr, ht, cons_prefix_cons] at ho
        have hm : c ∈ d.item := by
          rw [drop_append, drop_of_length_le hlt.le, nil_append] at hr
          exact mem_of_mem_drop (hr ▸ mem_cons_self)
        exact d.notMem_item (by decide) (ho.1 ▸ hm)
      · -- the arguments lack the whole name
        refine has_eq_false_iff.mp (d.tail_lacks d.args d.args_lack) (List.IsInfix.trans ?_ ho.isInfix)
        rw [drop_append_of_le_length hle]
        exact (suffix_append _ _).isInfix
  have hs : (argumentTail d.args).replaceAll (argumentTail d.args) new = new := by
    have ha := @Text.replaceAll_self_append (argumentTail d.args) new (by simp [ht]) []
    simpa [Text.replaceAll, Text.replaceGo] using ha
  rw [line, lineOf, replaceAll_pass new _ hn, hs]

/-- **What becomes of the line**: the number of pieces decides. -/
def outcome : List Text :=
  if (argumentPieces d.args).length ∈ [0, 1, 4, 5] then [d.line]
  else if (argumentPieces d.args).length ∈ [3, 6] then
    [d.lineOf (argumentPieces d.args).dropLast, d.addition ((argumentPieces d.args).getLast?.getD [])]
  else [d.indent ++ itemNote, d.line]

theorem getLast_plain (hne : argumentPieces d.args ≠ []) :
    isPlainPiece ((argumentPieces d.args).getLast?.getD []) := by
  rw [getLast?_eq_some_getLast hne]
  exact d.plain _ (getLast_mem hne)

theorem itemLines_line : itemLines d.line d.before (argumentTail d.args) = .ok d.outcome := by
  have ho : (argumentTail d.args).trimLeft.startsWith "(" := by
    simp [argumentTail, Text.trimLeft, Text.trimLeftWhile, Text.isBlank, Text.startsWith]
  have hsi : d.before.has "=" := has_iff_infix.mpr ⟨d.indent ++ d.target ++ " ", [' '], by simp [before]⟩
  rw [itemLines, ho, hsi, if_neg (by decide), d.indent_line, listArguments_argumentTail d.args_ne,
    chooseScene_plain d.plain, outcome]
  by_cases hn : (argumentPieces d.args).length ∈ [0, 1, 4, 5]
  · rw [if_pos hn, if_pos hn]
    rfl
  rw [if_neg hn, if_neg hn]
  by_cases hs : (argumentPieces d.args).length ∈ [3, 6]
  · have hne : argumentPieces d.args ≠ [] := fun hnil => by
      rw [hnil] at hs
      exact absurd hs (by decide)
    have hp := d.getLast_plain hne
    simp only [isPlainPiece, Bool.and_eq_true, Bool.not_eq_true', bne_iff_ne] at hp
    have hg : ((argumentPieces d.args).getLast?.getD []).isEmpty = false := hp.1.1.1
    have hna : ((argumentPieces d.args).getLast?.getD [] == ("None" : Text)) = false :=
      beq_eq_false_iff_ne.mpr hp.1.1.2
    rw [if_pos hs, if_pos hs, lastIsScene]
    change (if (_ || _) = true then _ else _) = _
    rw [hg, hna, if_neg (by decide), d.replaceAll_line, d.target_eq_firstPiece]
    rfl
  · rw [if_neg hs, if_neg hs]
    rfl

theorem updateItems_line : updateItems d.item [d.line] = .ok d.outcome := by
  obtain ⟨c, cs, hta, hb, -⟩ := d.isTarget.exists_cons
  have hco : d.line.isCode := by
    rw [isCode_eq_head, d.trimLeft_line, hta, cons_append, head?_cons]
    have ht := d.isTarget.isCode
    rwa [isCode_eq_head, d.isTarget.flush, hta, head?_cons] at ht
  have hi : d.line.isImport = false := by
    rw [Text.isImport, d.trimLeft_line, Text.startsWithAny, any_eq_false]
    intro word hw
    rw [d.isTarget.startsWith_eq_false (mem_cons_of_mem _ (by simpa [or_comm] using hw))]
    decide
  have hc : d.line.isClass = false := by
    rw [Text.isClass, d.trimLeft_line, d.isTarget.startsWith_eq_false mem_cons_self]
  have hn : d.line.has d.item :=
    has_iff_infix.mpr ⟨d.before, argumentTail d.args, rfl⟩
  have he : d.item.isEmpty = false := by
    obtain ⟨cs, hitem⟩ := d.exists_item
    rw [hitem]
    rfl
  have hp : passesItem d.item d.line = false := by rw [passesItem, hco, hi, hn]; rfl
  rw [updateItems, updateItemsGo_cons, hp, hc, he, d.itemName_line, d.aroundItem_line, if_neg (by decide),
    if_neg (by decide), if_neg (by decide), d.itemLines_line]
  exact congrArg Except.ok (append_nil _)

theorem lineOf_inj {a b : List Text} : d.lineOf a = d.lineOf b ↔ Text.commaList a = Text.commaList b := by
  rw [lineOf, lineOf, append_cancel_left_eq, argumentTail, argumentTail, append_left_inj, append_cancel_left_eq]

theorem addition_inj {a b : Text} : d.addition a = d.addition b ↔ a = b := by
  simp only [addition, append_left_inj, append_cancel_left_eq]

theorem note_ne_lineOf (args : List Text) : d.indent ++ itemNote ≠ d.lineOf args := by
  obtain ⟨c, cs, ht, -, hm⟩ := d.isTarget.exists_cons
  have hl : d.lineOf args = d.indent ++ (d.target ++ (" = " ++ (d.item ++ argumentTail args))) := by
    simp [lineOf, before]
  obtain ⟨rest, hn⟩ : ∃ rest, itemNote = '#' :: rest := ⟨_, String.toList_ofList⟩
  rw [hl, ht, hn]
  intro h
  exact hm (cons.inj (append_cancel_left h)).1.symm

theorem length_pieces : (argumentPieces d.args).length = d.args.length + innerCommas d.args :=
  length_argumentPieces d.args

theorem getLast?_inj (hl : 0 < (argumentPieces d.args).length) :
    (argumentPieces d.args).getLast?.getD [] = d.args.getLast?.getD [] ↔
      (argumentPieces d.args).getLast? = d.args.getLast? := by
  rw [getLast?_eq_some_getLast (ne_nil_of_length_pos hl), getLast?_eq_some_getLast d.args_ne,
    Option.getD_some, Option.getD_some, Option.some.injEq]

end ItemMaking

/-- **An item is treated by the number of its arguments exactly if** no comma stands inside them; or the commas
inside bring the count from a case without a scene to another such case; or they bring it from three to six
and the last argument is left whole and the others are written as they were. -/
theorem treated_by_count_iff (d : ItemMaking) (hcount : d.args.length ∈ [1, 3, 4, 5, 6]) :
    updateItems d.item [d.line] = .ok d.expected ↔ innerCommas d.args = 0 ∨
      (d.args.length ∈ [1, 4, 5] ∧ d.args.length + innerCommas d.args ∈ [4, 5]) ∨
      (d.args.length = 3 ∧ innerCommas d.args = 3 ∧
        Text.commaList (argumentPieces d.args).dropLast = Text.commaList d.args.dropLast ∧
        (argumentPieces d.args).getLast? = d.args.getLast?) := by
  have hlen := d.length_pieces
  rw [d.updateItems_line, Except.ok.injEq]
  by_cases hnone : innerCommas d.args = 0
  · have hpieces := argumentPieces_of_no_comma d.args_trimmed hnone
    refine iff_of_true ?_ (.inl hnone)
    rw [ItemMaking.outcome, ItemMaking.expected, hpieces]
    simp only [List.mem_cons, List.not_mem_nil, or_false] at hcount ⊢
    split
    · rw [if_neg (by omega)]
    · rw [if_pos (by omega), if_pos (by omega)]
  simp only [List.mem_cons, List.not_mem_nil, or_false] at hcount
  rw [ItemMaking.outcome, ItemMaking.expected, hlen]
  simp only [List.mem_cons, List.not_mem_nil, or_false]
  by_cases hscene : d.args.length = 3 ∨ d.args.length = 6
  · rw [if_pos hscene]
    by_cases hsix : d.args.length = 3 ∧ innerCommas d.args = 3
    · rw [if_neg (by omega), if_pos (by omega), List.cons.injEq, List.cons.injEq, d.lineOf_inj, d.addition_inj,
        d.getLast?_inj (by omega)]
      constructor
      · exact fun h => .inr (.inr ⟨hsix.1, hsix.2, h.1, h.2.1⟩)
      · rintro (h | ⟨h, -⟩ | ⟨-, -, hlist, hlast⟩)
        · exact absurd h hnone
        · omega
        · exact ⟨hlist, hlast, rfl⟩
    · refine iff_of_false ?_ ?_
      · split
        · simp
        · rw [if_neg (by omega)]
          exact fun h => d.note_ne_lineOf _ (List.cons.inj h).1
      · rintro (h | ⟨h, -⟩ | ⟨h3, hk, -⟩)
        · exact hnone h
        · omega
        · exact hsix ⟨h3, hk⟩
  · rw [if_neg hscene]
    by_cases hfour : d.args.length + innerCommas d.args = 4 ∨ d.args.length + innerCommas d.args = 5
    · rw [if_pos (by omega)]
      exact iff_of_true rfl (.inr (.inl ⟨by omega, hfour⟩))
    · rw [if_neg (by omega)]
      refine iff_of_false ?_ ?_
      · split <;> simp
      · rintro (h | ⟨-, h⟩ | ⟨h, -⟩)
        · exact hnone h
        · exact hfour h
        · exact hscene (.inl h)

/-- Three arguments, one of them a call: the last one is the scene. -/
theorem treated_by_count_three : ∃ d : ItemMaking, d.line = " x = QGraphicsItem(f(a), b, c)\n" ∧
    updateItems d.item [d.line] = .ok [" x = QGraphicsItem(f(a), b)\n", " c.addItem(x)\n"] := by
  have htarget : IsTarget "x" :=
    ⟨by decide, by decide, by decide, by decide, by decide, by decide, by decide⟩
  have hline : (" " : Text) ++ "x" ++ " = " ++ "QGraphicsItem" ++ argumentTail ["f(a)", "b", "c"] =
      " x = QGraphicsItem(f(a), b, c)\n" := by decide
  have hless : (" " : Text) ++ "x" ++ " = " ++ "QGraphicsItem" ++ argumentTail ["f(a)", "b"] =
      " x = QGraphicsItem(f(a), b)\n" := by decide
  have hadded : (" " : Text) ++ "c" ++ ".addItem(" ++ "x" ++ ")\n" = " c.addItem(x)\n" := by decide
  have hcommas : innerCommas ["f(a)", "b", "c"] = 0 := by decide
  have hitem : ("QGraphicsItem" : Text) ∈ itemClasses := List.mem_cons_of_mem _ (List.mem_cons_of_mem _ List.mem_cons_self)
  have hblank : ∀ c ∈ (" " : Text), c = ' ' ∨ c = '\t' := fun c hc => .inl (mem_singleton.mp hc)
  let d : ItemMaking := ⟨" ", "x", "QGraphicsItem", ["f(a)", "b", "c"], hblank, htarget, hitem, by decide, by decide,
    by decide, by decide, by decide⟩
  have hthree : d.args.length ∈ [1, 3, 4, 5, 6] := List.mem_cons_of_mem _ List.mem_cons_self
  refine ⟨d, hline, ((treated_by_count_iff d hthree).mpr (.inl hcommas)).trans (congrArg Except.ok ?_)⟩
  rw [← hless, ← hadded]
  rfl

/-- One argument with two commas inside counts as three: it is cut up, and what should close it is taken for
the scene. -/
theorem one_argument_cut_up : isNested 0 "f(a, b, c)" = true ∧
    updateItems "QGraphicsItem" ["x = QGraphicsItem(f(a, b, c))\n"] =
      .ok ["x = QGraphicsItem(f(a, b)\n", "c).addItem(x)\n"] := by
  decide +kernel

end QtMigration
