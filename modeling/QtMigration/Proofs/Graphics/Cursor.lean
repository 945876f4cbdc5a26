import QtMigration.Proofs.Frame.Unsought
import QtMigration.Proofs.Graphics.Reading
import QtMigration.Proofs.Line.At

/-!
# Proofs/Graphics/Cursor — the pass for an item as a loop over a list that grows

In every case the round uses up at least one line and moves behind all that it writes, so **the number of
lines ahead falls in every round** (`Cursor.ahead_step_lt`), and the loop ends with what the pass answers
(`Cursor.ends_finish`).
-/

namespace QtMigration

open List

variable {here lines : List Text} {item line : Text}

/-! ## Changes in place -/

def OneOrTwo (here : List Text) : Prop := here.length = 1 ∨ here.length = 2

theorem replaceAt_eq (hh : OneOrTwo here) (front back : List Text) (line : Text) :
    replaceAt (front ++ line :: back) front.length line here = front ++ here ++ back := by
  have hlt : front.length < (front ++ line :: back).length := by simp
  rcases hh with h | h
  · obtain ⟨new, rfl⟩ := length_eq_one_iff.mp h
    simp [replaceAt, setAt?_natCast hlt]
  · obtain ⟨first, second, rfl⟩ := length_eq_two.mp h
    rw [replaceAt]
    split
    next heq =>
      obtain rfl := beq_iff_eq.mp heq
      simp [insertAt_natCast hlt.le]
    · have hs : (front ++ line :: back).set front.length first = (front ++ [first]) ++ back := by simp
      have hl : (front.length : Int) + 1 = ((front ++ [first]).length : Nat) := by simp
      have hle : (front ++ [first]).length ≤ ((front ++ [first]) ++ back).length := by simp
      rw [setAt?_natCast hlt, Option.getD_some, hs, hl, insertAt_natCast hle, take_left,
        drop_left]
      simp

theorem oneOrTwo_itemLines {before after : Text}
    (h : itemLines line before after = .ok here) : OneOrTwo here := by
  rw [itemLines] at h
  split at h
  · exact Except.ok.inj h ▸ .inl rfl
  · obtain ⟨indent, -, h⟩ := bind_eq_ok.mp h
    split at h
    · exact Except.ok.inj h ▸ .inl rfl
    · exact Except.ok.inj h ▸ .inr rfl
    · dsimp only at h
      split at h
      · exact Except.ok.inj h ▸ .inl rfl
      · exact Except.ok.inj h ▸ .inr rfl

theorem oneOrTwo_initLines (h : initLines line = .ok here) : OneOrTwo here := by
  rw [initLines] at h
  obtain ⟨indent, -, h⟩ := bind_eq_ok.mp h
  split at h
  · cases h
  split at h
  · exact Except.ok.inj h ▸ .inl rfl
  · exact Except.ok.inj h ▸ .inr rfl
  · dsimp only at h
    split at h
    · exact Except.ok.inj h ▸ .inl rfl
    · exact Except.ok.inj h ▸ .inr rfl

/-! ## Class bodies -/

/-- **What a class body uses up**: all the lines, which stay as they are, or some that stay and a last one,
which becomes one or two. -/
def ClassBody.Uses (b : ClassBody) (lines : List Text) : Prop :=
  (b.ended = true ∧ b.lines = lines ∧ b.count = lines.length) ∨
    ∃ passed line here back, b.ended = false ∧ lines = passed ++ line :: back ∧ b.lines = passed ++ here ∧
      b.count = passed.length + 1 ∧ OneOrTwo here

theorem ClassBody.Uses.cons {b : ClassBody} (line : Text) (h : b.Uses lines) :
    (b.cons line).Uses (line :: lines) := by
  rcases h with ⟨he, hl, hc⟩ | ⟨passed, last, here, back, he, rfl, hl, hc, hh⟩
  · exact .inl ⟨he, by rw [ClassBody.cons, hl], by rw [ClassBody.cons, hc, length_cons]⟩
  · exact .inr ⟨line :: passed, last, here, back, he, rfl, by rw [ClassBody.cons, hl]; rfl,
      by rw [ClassBody.cons, hc, length_cons], hh⟩

theorem ClassBody.Uses.count_le {b : ClassBody} (h : b.Uses lines) :
    b.count ≤ lines.length := by
  rcases h with ⟨-, -, hc⟩ | ⟨passed, last, here, back, -, rfl, -, hc, -⟩
  · exact hc.le
  · rw [hc, length_append, length_cons]
    omega

theorem classBody_uses {super : Text} : ∀ (indent : Text) (lines : List Text) {b : ClassBody},
    classBody super item indent lines = .ok b → b.Uses lines
  | _, [], b, h => by
    obtain rfl := Except.ok.inj h
    exact .inl ⟨rfl, rfl, rfl⟩
  | indent, line :: lines, b, h => by
    have ih : ∀ {indent' : Text}, (classBody super item indent' lines).map (ClassBody.cons line) = .ok b →
        b.Uses (line :: lines) := fun hm => by
      obtain ⟨rest, hr, rfl⟩ := map_eq_ok.mp hm
      exact (classBody_uses _ lines hr).cons line
    rw [classBody] at h
    split at h
    · exact ih h
    split at h
    · obtain ⟨indent', -, h⟩ := bind_eq_ok.mp h
      exact ih h
    split at h
    · obtain ⟨here, hh, rfl⟩ := map_eq_ok.mp h
      exact .inr ⟨[], line, here, lines, rfl, rfl, rfl, rfl, oneOrTwo_initLines hh⟩
    · obtain ⟨margin, -, h⟩ := bind_eq_ok.mp h
      split at h
      · obtain rfl := Except.ok.inj h
        exact .inr ⟨[], line, [line], lines, rfl, rfl, rfl, rfl, .inl rfl⟩
      · exact ih h

/-- **The class at a position, adapted**: what its body has become stands where the lines were that it used
up, and the position goes behind it, one further if the lines came to their end. -/
theorem updateSubclassAt_eq (front back : List Text) (line item : Text) :
    updateSubclassAt (front ++ line :: back) front.length item =
      (subclassBody item line back).map fun b =>
        (front ++ line :: b.lines ++ back.drop b.count,
          (((front ++ line :: b.lines).length + (if b.ended then 1 else 0) : Nat) : Int)) := by
  have hli : lineAt? (front ++ line :: back) front.length = some line := by
    rw [lineAt?_natCast, getElem?_append_right le_rfl]
    simp
  have ha : linesFrom (front ++ line :: back) (front.length + 1) = back := by
    rw [show (front.length : Int) + 1 = ((front.length + 1 : Nat) : Int) from rfl, linesFrom_natCast]
    simp
  have hpos : ¬(front.length : Int) + 1 < 0 := by omega
  simp only [updateSubclassAt, hli, if_neg hpos, ha]
  cases hb : subclassBody item line back with
  | error e => rfl
  | ok b =>
    change (if b.ended = true then _ else _) = _
    rcases classBody_uses _ _ hb with ⟨he, hl, hc⟩ |
      ⟨passed, last, here, rest, he, rfl, hl, hc, hh⟩
    · rw [if_pos he]
      refine congrArg Except.ok (Prod.ext ?_ ?_)
      · simp [hl, hc]
      · simp [hl, hc, he]
        omega
    · -- the last line of the body is the one that is replaced
      have hla : (passed ++ last :: rest)[b.count - 1]? = some last := by
        rw [hc, Nat.add_sub_cancel, getElem?_append_right le_rfl]
        simp
      have hn : b.lines.drop (b.count - 1) = here := by
        rw [hl, hc, Nat.add_sub_cancel, drop_left]
      have hp : (front.length : Int) + b.count = ((front ++ line :: passed).length : Nat) := by
        rw [hc]
        simp
      have hlist : front ++ line :: (passed ++ last :: rest) = (front ++ line :: passed) ++ last :: rest := by simp
      rw [if_neg (by rw [he]; decide), hla, hn, hp, hlist, Option.getD_some, replaceAt_eq hh]
      refine congrArg Except.ok (Prod.ext ?_ ?_)
      · simp [hl, hc]
      · simp [hl, he]
        omega

theorem updateItemsGo_drop (item : Text) : ∀ (skip : Nat) (lines : List Text),
    updateItemsGo skip item lines = updateItemsGo 0 item (lines.drop skip)
  | 0, _ => by rw [drop_zero]
  | _ + 1, [] => by rw [updateItemsGo, drop_nil, updateItemsGo]
  | skip + 1, _ :: lines => by rw [updateItemsGo, updateItemsGo_drop item skip lines, drop_succ_cons]

/-! ## Rounds -/

/-- The lines as they are now, the position of the next line, and the name that is looked for. -/
structure Cursor where
  lines : List Text
  pos : Nat
  item : Text

namespace Cursor

def step (c : Cursor) (line : Text) : Except Failure Cursor :=
  if passesItem c.item line then .ok { c with pos := c.pos + 1 }
  else if line.isClass then
    (updateSubclassAt c.lines c.pos c.item).map fun r => { c with lines := r.1, pos := r.2.toNat }
  else if c.item.isEmpty then .error .emptySeparator
  else
    let name := itemName c.item line
    let parts := aroundItem line name
    (itemLines line parts.1 parts.2).map fun here =>
      ⟨replaceAt c.lines c.pos line here, c.pos + here.length, name⟩

/-- The number of lines ahead; less than none if the position has gone too far. -/
def ahead (c : Cursor) : Int := c.lines.length - c.pos

/-- The rounds from a cursor on come to an end with this outcome. -/
inductive Ends : Cursor → Except Failure (List Text) → Prop
  | done {c : Cursor} : c.lines[c.pos]? = none → Ends c (.ok c.lines)
  | breaks {c : Cursor} {line : Text} {e : Failure} : c.lines[c.pos]? = some line → c.step line = .error e →
      Ends c (.error e)
  | goes {c c' : Cursor} {line : Text} {r : Except Failure (List Text)} : c.lines[c.pos]? = some line →
      c.step line = .ok c' → Ends c' r → Ends c r

/-- What the pass makes of the lines ahead, behind those that are done. -/
def finish (c : Cursor) : Except Failure (List Text) :=
  (updateItemsGo 0 c.item (c.lines.drop c.pos)).map (c.lines.take c.pos ++ ·)

theorem finish_of_none {c : Cursor} (h : c.lines[c.pos]? = none) : c.finish = .ok c.lines := by
  have hle : c.lines.length ≤ c.pos := List.getElem?_eq_none_iff.mp h
  rw [finish, drop_of_length_le hle, take_of_length_le hle]
  simp [updateItemsGo, Except.map]

theorem finish_append (front back : List Text) (item : Text) :
    finish ⟨front ++ back, front.length, item⟩ = (updateItemsGo 0 item back).map (front ++ ·) := by
  simp only [finish, take_left, drop_left]

theorem finish_behind (front here back : List Text) (item : Text) :
    finish ⟨front ++ here ++ back, (front ++ here).length, item⟩ =
      ((updateItemsGo 0 item back).map (here ++ ·)).map (front ++ ·) := by
  rw [finish_append]
  cases updateItemsGo 0 item back with
  | error e => rfl
  | ok rest => exact congrArg Except.ok (append_assoc _ _ _)

theorem finish_beyond (lines : List Text) (item : Text) (n : Nat) :
    finish ⟨lines, lines.length + n, item⟩ = .ok lines :=
  finish_of_none (getElem?_eq_none (by simp))

theorem finish_behind_body {b : ClassBody} {back : List Text} (hb : b.Uses back) (front : List Text)
    (line item : Text) :
    finish ⟨front ++ line :: b.lines ++ back.drop b.count,
        (front ++ line :: b.lines).length + (if b.ended then 1 else 0), item⟩ =
      ((updateItemsGo b.count item back).map (line :: b.lines ++ ·)).map (front ++ ·) := by
  rw [updateItemsGo_drop]
  rcases hb with ⟨he, -, hc⟩ | ⟨-, -, -, -, he, -⟩
  · rw [if_pos he, drop_of_length_le hc.ge, append_nil, finish_beyond]
    simp [updateItemsGo, Except.map]
  · rw [if_neg (by rw [he]; decide), Nat.add_zero, finish_behind]

theorem exists_split {c : Cursor} (h : c.lines[c.pos]? = some line) :
    ∃ front back, c = ⟨front ++ line :: back, front.length, c.item⟩ := by
  obtain ⟨hlt, rfl⟩ := List.getElem?_eq_some_iff.mp h
  refine ⟨c.lines.take c.pos, c.lines.drop (c.pos + 1), ?_⟩
  rw [← drop_eq_getElem_cons hlt, take_append_drop, length_take_of_le hlt.le]

theorem step_eq (front back : List Text) (line item : Text) :
    step ⟨front ++ line :: back, front.length, item⟩ line =
      if passesItem item line then .ok ⟨front ++ line :: back, front.length + 1, item⟩
      else if line.isClass then
        (subclassBody item line back).map fun b =>
          ⟨front ++ line :: b.lines ++ back.drop b.count,
            (front ++ line :: b.lines).length + (if b.ended then 1 else 0), item⟩
      else if item.isEmpty then .error .emptySeparator
      else
        (itemLines line (aroundItem line (itemName item line)).1 (aroundItem line (itemName item line)).2).map
          fun here => ⟨front ++ here ++ back, (front ++ here).length, itemName item line⟩ := by
  simp only [step, updateSubclassAt_eq]
  congr 2
  · cases subclassBody item line back <;> rfl
  · congr 1
    cases h : itemLines line (aroundItem line (itemName item line)).1 (aroundItem line (itemName item line)).2 with
    | error e => rfl
    | ok here =>
      have hp := replaceAt_eq (oneOrTwo_itemLines h) front back line
      simp [Except.map, hp]

theorem finish_eq_step {c : Cursor} (h : c.lines[c.pos]? = some line) :
    c.finish = c.step line >>= finish := by
  obtain ⟨front, back, hc⟩ := exists_split h
  generalize c.item = item at hc
  subst hc
  rw [step_eq, finish_append, updateItemsGo_cons]
  split
  · have hb := finish_behind front [line] back item
    rw [append_assoc, length_append] at hb
    exact hb.symm
  split
  · cases hbo : subclassBody item line back with
    | error e => rfl
    | ok b => exact (finish_behind_body (classBody_uses _ _ hbo) front line item).symm
  split
  · rfl
  · cases itemLines line (aroundItem line (itemName item line)).1
        (aroundItem line (itemName item line)).2 with
    | error e => rfl
    | ok here => exact (finish_behind front here back (itemName item line)).symm

theorem ahead_step_lt {c c' : Cursor} (hl : c.lines[c.pos]? = some line)
    (h : c.step line = .ok c') : c'.ahead < c.ahead := by
  obtain ⟨front, back, hc⟩ := exists_split hl
  generalize c.item = item at hc
  subst hc
  rw [step_eq] at h
  split at h
  · obtain rfl := Except.ok.inj h
    simp only [ahead]
    omega
  split at h
  · obtain ⟨b, hb, rfl⟩ := map_eq_ok.mp h
    have hco := (classBody_uses _ _ hb).count_le
    simp only [ahead, length_append, length_cons, length_drop]
    split <;> omega
  split at h
  · cases h
  · obtain ⟨here, hh, rfl⟩ := map_eq_ok.mp h
    simp only [ahead, length_append, length_cons]
    omega

theorem ends_finish (c : Cursor) : c.Ends c.finish := by
  cases hl : c.lines[c.pos]? with
  | none =>
    rw [finish_of_none hl]
    exact .done hl
  | some line =>
    cases hs : c.step line with
    | error e =>
      rw [finish_eq_step hl, hs]
      exact .breaks hl hs
    | ok c' =>
      have hlt := ahead_step_lt hl hs
      rw [finish_eq_step hl, hs]
      exact .goes hl hs (ends_finish c')
termination_by c.ahead.toNat
decreasing_by
  have hp : 0 < c.ahead := by
    have := (List.getElem?_eq_some_iff.mp hl).1
    rw [ahead]
    omega
  omega

end Cursor

/-! ## What the pass keeps -/

/-- A line that has neither the name of the item nor that of an initialiser. -/
def isBystander (item line : Text) : Bool := !line.has item && !line.has "__init__"

theorem updateItems_keeps_bystanders {out : List Text} (h : updateItems item lines = .ok out) :
    Keeps (isBystander item) lines out := by
  refine updateItemsGo_keeps (fun name other line here hk _ _ hi => ?_) (fun line hk => ?_) h
  · have hn := (Bool.and_eq_true_iff.mp hk).2
    rw [has_of_initLines hi] at hn
    cases hn
  · rw [passesItem, (Bool.and_eq_true_iff.mp hk).1, Bool.or_true]

/-- **The pass for an item ends and loses nothing.** -/
theorem items_end_and_lose_nothing (item : Text) (lines : List Text) :
    (∀ (c c' : Cursor) (line : Text), c.lines[c.pos]? = some line → c.step line = .ok c' → c'.ahead < c.ahead) ∧
    Cursor.Ends ⟨lines, 0, item⟩ (updateItems item lines) ∧
    ∀ out, updateItems item lines = .ok out → Keeps (isBystander item) lines out := by
  refine ⟨fun c c' line => Cursor.ahead_step_lt, ?_, fun out => updateItems_keeps_bystanders⟩
  have hends := Cursor.ends_finish ⟨lines, 0, item⟩
  have hfinish := Cursor.finish_append [] lines item
  rw [List.nil_append, List.length_nil] at hfinish
  rw [hfinish] at hends
  have hall : (updateItemsGo 0 item lines).map ([] ++ ·) = updateItems item lines := by
    rw [updateItems]
    cases updateItemsGo 0 item lines <;> rfl
  rwa [hall] at hends

/-- A class that hands its scene on, with a line behind it. -/
theorem items_end_and_lose_nothing_scene :
    let lines : List Text := ["class A(QGraphicsItem):\n", "    def __init__(self):\n",
      "        QGraphicsItem.__init__(self, a, b, c)\n", "x = 1\n"]
    let out : List Text := ["class A(QGraphicsItem):\n", "    def __init__(self):\n",
      "        QGraphicsItem.__init__(self, a, b)\n", "        if c is not None: c.addItem(self)\n", "x = 1\n"]
    updateItems "QGraphicsItem" lines = .ok out ∧ Cursor.Ends ⟨lines, 0, "QGraphicsItem"⟩ (.ok out) ∧
      Keeps (isBystander "QGraphicsItem") lines out := by
  intro lines out
  have hrun : updateItems "QGraphicsItem" lines = .ok out := by decide +kernel
  obtain ⟨-, hends, hkeeps⟩ := items_end_and_lose_nothing "QGraphicsItem" lines
  exact ⟨hrun, hrun ▸ hends, hkeeps out hrun⟩

end QtMigration
