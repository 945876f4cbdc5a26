import QtMigration.Proofs.Frame.Unsought
import QtMigration.Proofs.Graphics.Reading

/-!
# Proofs/Graphics/Unbroken — when the pass for an item breaks off

**Where a line does not have that, the pass breaks off, and for no other reason if the lines can be read**
(`items_answer_iff`).
-/

namespace QtMigration

variable {e : Failure} {line : Text}

/-! ## One line -/

theorem exists_indent_of_scan (h : (scan line).fault = none) : ∃ kept, line.indent = .ok kept := by
  rw [Text.indent]
  split
  · exact ⟨_, rfl⟩
  next hs =>
    rw [hs] at h
    cases h
  · exact ⟨_, rfl⟩

theorem exists_itemLines (h : (scan line).fault = none) (before after : Text) :
    ∃ here, itemLines line before after = .ok here := by
  obtain ⟨kept, hk⟩ := exists_indent_of_scan h
  rw [itemLines, hk]
  split
  · exact ⟨_, rfl⟩
  · cases chooseScene 0 (listArguments after) with
    | none => exact ⟨_, rfl⟩
    | unclear => exact ⟨_, rfl⟩
    | scene scene args =>
      by_cases hg : (scene.isEmpty || scene == "None")
      · exact ⟨_, if_pos hg⟩
      · exact ⟨_, if_neg hg⟩

theorem initTail?_eq_none_iff : initTail? line = none ↔ line.has "__init__" = false := by
  constructor
  · intro h
    by_contra hh
    obtain ⟨piece, next, rest, hs⟩ := Text.exists_splitOn_of_infix (by decide)
      (Text.has_iff_infix.mp (Bool.not_eq_false _ ▸ hh))
    rw [initTail?, hs] at h
    cases h
  · intro h
    rw [initTail?, Text.splitOn_of_not_has h]
    rfl

theorem initLines_eq_error_iff (h : (scan line).fault = none) :
    initLines line = .error e ↔ e = .pieceMissing ∧ line.has "__init__" = false := by
  obtain ⟨kept, hk⟩ := exists_indent_of_scan h
  rw [← initTail?_eq_none_iff, initLines, hk]
  cases initTail? line with
  | none =>
    change Except.error _ = _ ↔ _
    rw [Except.error.injEq, eq_comm]
    exact (and_iff_left rfl).symm
  | some tail =>
    refine iff_of_false ?_ fun hn => Option.some_ne_none _ hn.2
    simp only [bind, Except.bind]
    cases chooseScene 1 (listArguments tail) with
    | none => rintro ⟨⟩
    | unclear => rintro ⟨⟩
    | scene scene args =>
      dsimp only
      split <;> rintro ⟨⟩

/-- **A line that breaks the reading off**: in the body of a class, the call of the base class without an
initialiser. -/
theorem read_eq_error_iff {item : Text} (hitem : item ≠ []) {p : ItemReader} (hp : p.Of item)
    (h : (scan line).fault = none) :
    p.read line = .error e ↔ e = .pieceMissing ∧ ∃ super name indent, p = .inClass super name indent ∧
      line.isCode ∧ line.trimLeft.startsWith super ∧ line.has "__init__" = false := by
  obtain ⟨kept, hk⟩ := exists_indent_of_scan h
  cases p with
  | seeking name =>
    refine iff_of_false ?_ (by simp)
    have hn : name.isEmpty = false := by
      rw [List.isEmpty_eq_false_iff]
      rcases hp with rfl | hg
      · exact hitem
      · rintro rfl
        exact absurd (List.prefix_nil.mp hg) (by simp)
    rw [ItemReader.read]
    split
    · rintro ⟨⟩
    split
    · rintro ⟨⟩
    · obtain ⟨here, hh⟩ := exists_itemLines h (aroundItem line (itemName name line)).1
        (aroundItem line (itemName name line)).2
      rw [hn, if_neg (by decide)]
      dsimp only
      rw [hh]
      rintro ⟨⟩
  | inClass super name indent =>
    have hpl : (∃ super' name' indent', ItemReader.inClass super name indent = .inClass super' name' indent' ∧
          line.isCode ∧ line.trimLeft.startsWith super' ∧ line.has "__init__" = false) ↔
        line.isCode ∧ line.trimLeft.startsWith super ∧ line.has "__init__" = false := by
      constructor
      · rintro ⟨super', name', indent', heq, hl⟩
        cases heq
        exact hl
      · exact fun hl => ⟨super, name, indent, rfl, hl⟩
    rw [hpl, ItemReader.read]
    split
    next hc =>
      refine iff_of_false (by rintro ⟨⟩) fun hl => ?_
      rw [hl.2.1] at hc
      cases hc
    next hc =>
      have hc : line.isCode := by simpa using hc
      split
      next hd =>
        rw [hk]
        refine iff_of_false (by rintro ⟨⟩) fun hl => ?_
        have hi : ("__init__" : Text) <:+: line.trimLeft :=
          (show ("__init__" : Text) <:+: "def __init__" from Text.has_iff_infix.mp (by decide)).trans
            (List.isPrefixOf_iff_prefix.mp hd).isInfix
        exact Text.has_eq_false_iff.mp hl.2.2.2 (hi.trans (Text.trimLeft_suffix line).isInfix)
      next hd =>
      split
      next hb =>
        rw [map_eq_error, initLines_eq_error_iff h]
        refine and_congr_right fun _ => ⟨fun hla => ⟨hc, ?_, hla⟩, fun hl => hl.2.2⟩
        have hca : line.has (name ++ ".__init__") = false :=
          Text.has_eq_false_of_subneedle hla ⟨name ++ ['.'], [], by simp⟩
        rwa [initialisesBase, hca, Bool.or_false] at hb
      next hb =>
        rw [hk]
        refine iff_of_false (by rintro ⟨⟩) fun hl => ?_
        rw [initialisesBase, hl.2.2.1] at hb
        exact hb rfl

/-! ## The pass -/

/-- Behind these lines the pass for an item is in the body of a class whose base class is called by `super`. -/
def InClassBehind (item : Text) (front : List Text) (super : Text) : Prop :=
  ∃ out name indent, (ItemReader.seeking item).reading front = .ok (out, .inClass super name indent)

/-- **The pass for an item answers exactly if** every line of code that begins, in the body of a class
derived from the item, with the call of the base class has an initialiser. -/
theorem items_answer_iff {item : Text} (hitem : item ∈ itemClasses) {lines : List Text}
    (htokens : ∀ line ∈ lines, (scan line).fault = none) :
    ((∃ out, updateItems item lines = .ok out) ↔
      ∀ front line back super, lines = front ++ line :: back → InClassBehind item front super →
        line.isCode = true → line.trimLeft.startsWith super = true → line.has "__init__" = true) ∧
    ∀ e, updateItems item lines = .error e → e = .pieceMissing := by
  have hne : item ≠ [] := by
    obtain ⟨cs, rfl⟩ := exists_itemClass hitem
    exact List.cons_ne_nil _ _
  have herror : ∀ e, updateItems item lines = .error e ↔ e = .pieceMissing ∧ ∃ front line back super,
      lines = front ++ line :: back ∧ InClassBehind item front super ∧ line.isCode = true ∧
        line.trimLeft.startsWith super = true ∧ line.has "__init__" = false := by
    intro e
    rw [updateItems_eq_reading, map_eq_error, ItemReader.reading_eq_error_iff]
    constructor
    · rintro ⟨front, line, back, out, q, rfl, hfront, hread⟩
      have hscan := htokens line (by simp)
      obtain ⟨he, super, name, indent, rfl, hline⟩ := (read_eq_error_iff hne (ItemReader.of_reading hfront) hscan).mp hread
      exact ⟨he, front, line, back, super, rfl, ⟨out, name, indent, hfront⟩, hline⟩
    · rintro ⟨he, front, line, back, super, rfl, ⟨out, name, indent, hfront⟩, hline⟩
      have hscan := htokens line (by simp)
      exact ⟨front, line, back, out, _, rfl, hfront,
        (read_eq_error_iff hne (ItemReader.of_reading hfront) hscan).mpr ⟨he, super, name, indent, rfl, hline⟩⟩
  refine ⟨⟨?_, ?_⟩, fun e h => ((herror e).mp h).1⟩
  · rintro ⟨out, hout⟩ front line back super hlines hinside hcode hsuper
    by_contra hlacks
    have hbreak := (herror .pieceMissing).mpr
      ⟨rfl, front, line, back, super, hlines, hinside, hcode, hsuper, Bool.eq_false_iff.mpr hlacks⟩
    rw [hout] at hbreak
    cases hbreak
  · intro hall
    cases hout : updateItems item lines with
    | ok out => exact ⟨out, rfl⟩
    | error e =>
      obtain ⟨-, front, line, back, super, hlines, hinside, hcode, hsuper, hlacks⟩ := (herror e).mp hout
      rw [hall front line back super hlines hinside hcode hsuper] at hlacks
      cases hlacks

/-- A class that calls the initialiser of its base class. -/
theorem items_answer_initialised :
    let lines : List Text := ["class A(QGraphicsItem):\n", " def f(self):\n", "  super(A, self).__init__(p)\n"]
    (∀ line ∈ lines, (scan line).fault = none) ∧ updateItems "QGraphicsItem" lines = .ok lines ∧
      ∀ front line back super, lines = front ++ line :: back → InClassBehind "QGraphicsItem" front super →
        line.isCode = true → line.trimLeft.startsWith super = true → line.has "__init__" = true := by
  intro lines
  have htokens : ∀ line ∈ lines, (scan line).fault = none := by decide +kernel
  have hrun : updateItems "QGraphicsItem" lines = .ok lines := by decide +kernel
  have hitem : ("QGraphicsItem" : Text) ∈ itemClasses :=
    List.mem_cons_of_mem _ (List.mem_cons_of_mem _ List.mem_cons_self)
  exact ⟨htokens, hrun, (items_answer_iff hitem htokens).1.mp ⟨lines, hrun⟩⟩

/-- The call of another method of the base class breaks the pass off, though every line can be read. -/
theorem items_broken_off :
    let lines : List Text := ["class A(QGraphicsItem):\n", " def f(self):\n", "  super(A, self).f()\n"]
    (∀ line ∈ lines, (scan line).fault = none) ∧ updateItems "QGraphicsItem" lines = .error .pieceMissing := by
  decide +kernel

end QtMigration
