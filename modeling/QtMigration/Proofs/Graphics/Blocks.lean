import QtMigration.Proofs.Graphics.Scene

/-!
# Proofs/Graphics/Blocks — when the blocks of a source are treated apart

A block is a statement at the margin with all that is indented behind it. **A block disturbs no later one
exactly if the pass remembers nothing behind it** (`blocks_apart_iff`).
-/

namespace QtMigration

open List

def isFlush (line : Text) : Bool := line.head?.any fun c => !Text.isBlank c

/-- **A block**: a line of code at the margin, and no other line of code there. -/
def isBlock : List Text → Bool
  | [] => false
  | first :: rest => first.isCode && isFlush first && rest.all fun line => !line.isCode || !isFlush line

/-- **The pass remembers nothing behind these lines**: it looks for the item, as it did before them. -/
def Concluded (item : Text) (lines : List Text) : Prop :=
  ∃ out, (ItemReader.seeking item).reading lines = .ok (out, .seeking item)

/-! ## A line that shows the difference -/

theorem lacks_itemClass {item s : Text} (hitem : item ∈ itemClasses) (h : 'Q' ∉ s) : s.has item = false := by
  obtain ⟨cs, rfl⟩ := exists_itemClass hitem
  exact Text.has_eq_false_of_notMem mem_cons_self h

def probe {item : Text} (hitem : item ∈ itemClasses) : ItemMaking where
  indent := []
  target := ['x']
  item := item
  args := [['a'], ['b'], ['c']]
  indent_blank := nofun
  isTarget := ⟨by decide, by decide, by decide, by decide, by decide, by decide, by decide⟩
  item_mem := hitem
  args_ne := by decide
  args_trimmed := by decide
  plain := by decide
  target_lacks := lacks_itemClass hitem (by decide)
  args_lack := fun a ha => lacks_itemClass hitem (by revert a; decide)

section Probe

variable {item : Text} (hitem : item ∈ itemClasses)

include hitem

theorem updateItems_probe : ∃ first second, updateItems item [(probe hitem).line] = .ok [first, second] :=
  ⟨_, _, (probe hitem).updateItems_line⟩

theorem line_probe : (probe hitem).line = 'x' :: ' ' :: '=' :: ' ' :: (item ++ '(' :: "a, b, c)\n") := by
  simp [ItemMaking.line, ItemMaking.lineOf, ItemMaking.before, probe, argumentTail, Text.commaList, Text.join]

theorem probe_lacks_group {name : Text} (h : item ++ ("Group" : Text) <+: name) :
    (probe hitem).line.has name = false := by
  refine Text.has_eq_false_of_subneedle ?_ h.isInfix
  have hle : ("Group" : Text).all Char.isAlpha := by decide
  have hl : ∀ {c : Char}, c.isAlpha = false → c ∉ item ++ ("Group" : Text) := fun hc hm => by
    rcases mem_append.mp hm with hm | hm
    · exact notMem_itemClass hitem hc hm
    · rw [all_eq_true.mp hle _ hm] at hc
      cases hc
  have hsh : ∀ {s : Text}, 'Q' ∉ s → s.has (item ++ ("Group" : Text)) = false := fun hs =>
    Text.has_eq_false_of_subneedle (lacks_itemClass hitem hs) (prefix_append _ _).isInfix
  have hse : item.has (item ++ ("Group" : Text)) = false := Text.has_eq_false_iff.mpr fun hin => by
    have hlen := hin.length_le
    have hpos : 0 < ("Group" : Text).length := by decide
    rw [length_append] at hlen
    omega
  have hli : (probe hitem).line = (['x', ' ', '='] ++ ' ' :: item) ++ '(' :: ("a, b, c)\n" : Text) := by
    rw [line_probe hitem]
    rfl
  rw [hli, Text.has_append_cons (hl (by decide)), Text.has_append_cons (hl (by decide)),
    hsh (by decide), hse, hsh (by decide)]
  rfl

theorem trimLeft_probe : (probe hitem).line.trimLeft = (probe hitem).line := by
  rw [line_probe hitem]
  exact Text.trimLeft_cons (by decide) _

theorem isCode_probe : (probe hitem).line.isCode := by
  rw [Text.isCode_eq_head, trimLeft_probe hitem, line_probe hitem]
  rfl

theorem startsWith_probe {c : Char} (hc : c ≠ 'x') (head : Text) :
    (probe hitem).line.trimLeft.startsWith (c :: head) = false := by
  rw [trimLeft_probe hitem, line_probe hitem, Text.startsWith, List.isPrefixOf, beq_eq_false_iff_ne.mpr hc]
  rfl

theorem read_probe {p : ItemReader} (hp : p.Of item) (hne : p ≠ .seeking item) :
    ∃ q, p.read (probe hitem).line = .ok ([(probe hitem).line], q) := by
  cases p with
  | seeking name =>
    rcases hp with rfl | hg
    · exact absurd rfl hne
    · have hpa : passesItem name (probe hitem).line := by
        rw [passesItem, probe_lacks_group hitem hg, Bool.not_false, Bool.or_true]
      exact ⟨_, if_pos hpa⟩
  | inClass super name indent =>
    obtain ⟨-, cls, rfl⟩ := hp
    have hd : (probe hitem).line.trimLeft.startsWith "def __init__" = false := startsWith_probe hitem (by decide) _
    have hin : (probe hitem).line.has (name ++ ".__init__") = false := by
      refine Text.has_eq_false_of_notMem (c := '_') (by simp) ?_
      rw [line_probe hitem]
      simp only [mem_cons, mem_append, not_or]
      exact ⟨by decide, by decide, by decide, by decide, notMem_itemClass hitem (by decide), by decide, by decide⟩
    have hb : initialisesBase (superCall cls) name (probe hitem).line = false := by
      rw [initialisesBase, hin, Bool.or_false]
      exact startsWith_probe hitem (by decide) _
    have hi : (probe hitem).line.indent = .ok [] := (probe hitem).indent_line
    rw [ItemReader.read, isCode_probe hitem, hd, hb, hi, if_neg (by decide), if_neg (by decide),
      if_neg (by decide)]
    exact ⟨_, rfl⟩

theorem isBlock_probe : isBlock [(probe hitem).line] := by
  rw [isBlock, isCode_probe hitem, line_probe hitem]
  rfl

end Probe

/-- **A block disturbs no later one exactly if the pass remembers nothing behind it.** -/
theorem blocks_apart_iff {item : Text} (hitem : item ∈ itemClasses) {b₁ out₁ : List Text}
    (h₁ : updateItems item b₁ = .ok out₁) :
    (∀ b₂ out₂, isBlock b₂ = true → updateItems item b₂ = .ok out₂ →
      updateItems item (b₁ ++ b₂) = .ok (out₁ ++ out₂)) ↔ Concluded item b₁ := by
  rw [updateItems_eq_reading] at h₁
  obtain ⟨⟨out, p⟩, hp, rfl⟩ := map_eq_ok.mp h₁
  have happend : ∀ {b₂ out₂ : List Text} {q : ItemReader}, p.reading b₂ = .ok (out₂, q) →
      updateItems item (b₁ ++ b₂) = .ok (out ++ out₂) := fun hq => by
    rw [updateItems_eq_reading, ItemReader.reading_append, hp]
    change Except.map _ (p.reading _ >>= _) = _
    rw [hq]
    rfl
  constructor
  · intro hall
    by_contra hconcluded
    have hne : p ≠ .seeking item := fun heq => hconcluded ⟨out, heq ▸ hp⟩
    obtain ⟨q, hq⟩ := read_probe hitem (ItemReader.of_reading hp) hne
    obtain ⟨first, second, htwo⟩ := updateItems_probe hitem
    have hone : p.reading [(probe hitem).line] = .ok ([(probe hitem).line], q) := by
      rw [ItemReader.reading_cons_of_read _ hq]
      rfl
    have heq := (happend hone).symm.trans (hall _ _ (isBlock_probe hitem) htwo)
    have hlen := congrArg List.length (List.append_cancel_left (Except.ok.inj heq))
    simp at hlen
  · rintro ⟨out', hconcluded⟩ b₂ out₂ - h₂
    obtain ⟨-, rfl⟩ := Prod.mk.inj (Except.ok.inj (hp.symm.trans hconcluded))
    rw [updateItems_eq_reading] at h₂
    obtain ⟨⟨out₂', q⟩, hq, rfl⟩ := map_eq_ok.mp h₂
    exact happend hq

/-- Behind a class that initialises its base nothing is remembered. -/
theorem blocks_apart_initialised :
    isBlock ["class A(QGraphicsItem):\n", " def __init__(self):\n", "  QGraphicsItem.__init__(self, a, b, c)\n"] = true ∧
    ∀ b₂ out₂ : List Text, isBlock b₂ = true → updateItems "QGraphicsItem" b₂ = .ok out₂ →
      updateItems "QGraphicsItem" ((["class A(QGraphicsItem):\n", " def __init__(self):\n",
          "  QGraphicsItem.__init__(self, a, b, c)\n"] : List Text) ++ b₂) =
        .ok ((["class A(QGraphicsItem):\n", " def __init__(self):\n", "  QGraphicsItem.__init__(self, a, b)\n",
          "  if c is not None: c.addItem(self)\n"] : List Text) ++ out₂) := by
  have hread : (ItemReader.seeking "QGraphicsItem").reading
      ["class A(QGraphicsItem):\n", " def __init__(self):\n", "  QGraphicsItem.__init__(self, a, b, c)\n"] =
        .ok (["class A(QGraphicsItem):\n", " def __init__(self):\n", "  QGraphicsItem.__init__(self, a, b)\n",
          "  if c is not None: c.addItem(self)\n"], .seeking "QGraphicsItem") := by
    decide +kernel
  exact ⟨by decide +kernel, (blocks_apart_iff (by decide +kernel) (by rw [updateItems_eq_reading, hread]; rfl)).mpr ⟨_, hread⟩⟩

/-- **A group made in one block changes what becomes of the next**: each alone is treated as it should be, the
two together leave the second as it was. -/
theorem group_disturbs_next_block :
    isBlock ["x = QGraphicsItemGroup(p)\n"] = true ∧ isBlock ["y = QGraphicsItem(a, b, c)\n"] = true ∧
    updateItems "QGraphicsItem" ["x = QGraphicsItemGroup(p)\n"] = .ok ["x = QGraphicsItemGroup(p)\n"] ∧
    updateItems "QGraphicsItem" ["y = QGraphicsItem(a, b, c)\n"] =
      .ok ["y = QGraphicsItem(a, b)\n", "c.addItem(y)\n"] ∧
    updateItems "QGraphicsItem" ["x = QGraphicsItemGroup(p)\n", "y = QGraphicsItem(a, b, c)\n"] =
      .ok ["x = QGraphicsItemGroup(p)\n", "y = QGraphicsItem(a, b, c)\n"] := by
  decide +kernel

end QtMigration
