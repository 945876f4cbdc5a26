import QtMigration.Proofs.Frame.Api

/-!
# Proofs/Graphics/Reading — the pass for an item reads one line at a time

`ItemReader.read` says what becomes of one line, and **the pass is the reading of its lines one after the
other** (`updateItems_eq_reading`).
-/

namespace QtMigration

open List

variable {e : Failure} {p q : ItemReader} {here lines : List Text} {indent item line super : Text}

theorem map_eq_error {α β : Type} {x : Except Failure α} {f : α → β} : x.map f = .error e ↔ x = .error e := by
  cases x <;> simp [Except.map]

/-- What the pass for an item remembers between two lines. -/
inductive ItemReader
  /-- It looks for lines with this name. -/
  | seeking (item : Text)
  /-- It is in the body of a class derived from `item`, whose base class is called by `super`; `indent` is the
indentation of the initialiser, if it has come. -/
  | inClass (super item indent : Text)
  deriving DecidableEq, Repr

namespace ItemReader

/-- **One line read**: the lines that it becomes, and the place behind it. -/
def read : ItemReader → Text → Except Failure (List Text × ItemReader)
  | seeking item, line =>
    if passesItem item line then .ok ([line], seeking item)
    else if line.isClass then .ok ([line], inClass (superCall (className? line)) item [])
    else if item.isEmpty then .error .emptySeparator
    else
      let parts := aroundItem line (itemName item line)
      (itemLines line parts.1 parts.2).map (·, seeking (itemName item line))
  | inClass super item indent, line =>
    if !line.isCode then .ok ([line], inClass super item indent)
    else if line.trimLeft.startsWith "def __init__" then
      line.indent.map fun indent' => ([line], inClass super item indent')
    else if initialisesBase super item line then (initLines line).map (·, seeking item)
    else
      line.indent.map fun here =>
        ([line], if here.lt indent then seeking item else inClass super item indent)

def reading : ItemReader → List Text → Except Failure (List Text × ItemReader)
  | p, [] => .ok ([], p)
  | p, line :: lines => do
    let here ← p.read line
    let rest ← reading here.2 lines
    return (here.1 ++ rest.1, rest.2)

theorem reading_cons_of_read (lines : List Text) (h : p.read line = .ok (here, q)) :
    p.reading (line :: lines) = (q.reading lines).map fun rest => (here ++ rest.1, rest.2) := by
  rw [reading, h]
  change (q.reading lines >>= _) = _
  cases q.reading lines <;> rfl

theorem reading_cons_of_error (lines : List Text)
    (h : p.read line = .error e) : p.reading (line :: lines) = .error e := by
  rw [reading, h]
  rfl

theorem reading_append : ∀ (p : ItemReader) (front back : List Text), p.reading (front ++ back) = do
      let first ← p.reading front
      let second ← first.2.reading back
      return (first.1 ++ second.1, second.2)
  | p, [], back => by
    rw [nil_append]
    change p.reading back = p.reading back >>= pure
    rw [bind_pure]
  | p, line :: front, back => by
    rw [cons_append]
    cases hr : p.read line with
    | error e => rw [reading_cons_of_error _ hr, reading_cons_of_error _ hr]; rfl
    | ok r =>
      obtain ⟨here, q⟩ := r
      rw [reading_cons_of_read _ hr, reading_cons_of_read _ hr, reading_append q front back]
      cases q.reading front with
      | error e => rfl
      | ok first =>
        change Except.map _ (first.2.reading back >>= _) = (first.2.reading back >>= _)
        cases first.2.reading back with
        | error e => rfl
        | ok second => exact congrArg (fun ls => Except.ok (ls, second.2)) (append_assoc _ _ _).symm

theorem reading_invariant {R : ItemReader → Prop}
    (hr : ∀ p line here q, R p → p.read line = .ok (here, q) → R q) : ∀ (lines : List Text) {p q : ItemReader}
      {out : List Text}, R p → p.reading lines = .ok (out, q) → R q
  | [], p, q, out, hp, h => by
    cases h
    exact hp
  | line :: lines, p, q, out, hp, h => by
    rw [reading] at h
    obtain ⟨⟨here, next⟩, hn, h⟩ := bind_eq_ok.mp h
    obtain ⟨⟨rest, last⟩, hre, h⟩ := bind_eq_ok.mp h
    cases h
    exact reading_invariant hr lines (hr p line here next hp hn) hre

theorem reading_eq_error_iff {e : Failure} : ∀ (lines : List Text) (p : ItemReader),
    p.reading lines = .error e ↔ ∃ front line back out q, lines = front ++ line :: back ∧
      p.reading front = .ok (out, q) ∧ q.read line = .error e
  | [], p => by
    refine iff_of_false nofun ?_
    rintro ⟨front, line, back, -, -, hl, -⟩
    simp at hl
  | line :: lines, p => by
    cases hr : p.read line with
    | error e' =>
      rw [reading_cons_of_error _ hr, Except.error.injEq]
      constructor
      · rintro rfl
        exact ⟨[], line, lines, [], p, rfl, rfl, hr⟩
      · rintro ⟨front, last, back, out, q, hl, hf, hla⟩
        cases front with
        | nil =>
          obtain ⟨rfl, -⟩ := cons.inj hl
          cases hf
          exact Except.error.inj (hr.symm.trans hla)
        | cons first front =>
          obtain ⟨rfl, -⟩ := cons.inj hl
          rw [reading_cons_of_error _ hr] at hf
          cases hf
    | ok r =>
      obtain ⟨here, next⟩ := r
      rw [reading_cons_of_read _ hr, map_eq_error, reading_eq_error_iff lines next]
      constructor
      · rintro ⟨front, last, back, out, q, rfl, hf, hla⟩
        refine ⟨line :: front, last, back, here ++ out, q, rfl, ?_, hla⟩
        rw [reading_cons_of_read _ hr, hf]
        rfl
      · rintro ⟨front, last, back, out, q, hl, hf, hla⟩
        cases front with
        | nil =>
          obtain ⟨rfl, -⟩ := cons.inj hl
          cases hf
          rw [hr] at hla
          cases hla
        | cons first front =>
          obtain ⟨rfl, rfl⟩ := cons.inj hl
          rw [reading_cons_of_read _ hr] at hf
          obtain ⟨⟨out', q'⟩, hn, hp⟩ := map_eq_ok.mp hf
          obtain ⟨-, rfl⟩ := Prod.mk.inj hp
          exact ⟨front, last, back, out', q', rfl, hn, hla⟩

end ItemReader

/-! ## The walk in two parts -/

theorem updateItemsGo_cons (item line : Text) (lines : List Text) : updateItemsGo 0 item (line :: lines) =
      if passesItem item line then (updateItemsGo 0 item lines).map (line :: ·)
      else if line.isClass then
        subclassBody item line lines >>= fun b => (updateItemsGo b.count item lines).map (line :: b.lines ++ ·)
      else if item.isEmpty then .error .emptySeparator
      else
        itemLines line (aroundItem line (itemName item line)).1 (aroundItem line (itemName item line)).2 >>=
          fun here => (updateItemsGo 0 (itemName item line) lines).map (here ++ ·) := by
  rw [updateItemsGo]
  rfl

def bodyThenItems (super item indent : Text) (lines : List Text) : Except Failure (List Text) := do
  let b ← classBody super item indent lines
  (updateItemsGo b.count item lines).map (b.lines ++ ·)

theorem bodyThenItems_pass {indent' : Text}
    (h : classBody super item indent (line :: lines) = (classBody super item indent' lines).map (.cons line)) :
    bodyThenItems super item indent (line :: lines) =
      (bodyThenItems super item indent' lines).map (line :: ·) := by
  rw [bodyThenItems, bodyThenItems, h]
  cases classBody super item indent' lines with
  | error e => rfl
  | ok b =>
    change (updateItemsGo (b.count + 1) item (line :: lines)).map _ = _
    rw [updateItemsGo]
    change _ = ((updateItemsGo b.count item lines).map _).map _
    cases updateItemsGo b.count item lines <;> rfl

theorem bodyThenItems_stop (h : classBody super item indent (line :: lines) = .ok ⟨here, 1, false⟩) :
    bodyThenItems super item indent (line :: lines) = (updateItemsGo 0 item lines).map (here ++ ·) := by
  rw [bodyThenItems, h]
  rfl

theorem bodyThenItems_error
    (h : classBody super item indent lines = .error e) : bodyThenItems super item indent lines = .error e := by
  rw [bodyThenItems, h]
  rfl

open ItemReader in
/-- **A class body reads its lines**: it breaks off, goes on behind the line, or ends with what the line
becomes. -/
theorem classBody_along_read (super item indent line : Text) :
    (∃ e, (inClass super item indent).read line = .error e ∧
      ∀ lines, classBody super item indent (line :: lines) = .error e) ∨
    (∃ indent', (inClass super item indent).read line = .ok ([line], inClass super item indent') ∧
      ∀ lines, classBody super item indent (line :: lines) = (classBody super item indent' lines).map (.cons line)) ∨
    ∃ here, (inClass super item indent).read line = .ok (here, seeking item) ∧
      ∀ lines, classBody super item indent (line :: lines) = .ok ⟨here, 1, false⟩ := by
  simp only [ItemReader.read, classBody]
  split
  · exact .inr (.inl ⟨indent, rfl, fun _ => rfl⟩)
  split
  · cases line.indent with
    | error e => exact .inl ⟨e, rfl, fun _ => rfl⟩
    | ok indent' => exact .inr (.inl ⟨indent', rfl, fun _ => rfl⟩)
  · by_cases hi : initialisesBase super item line
    · cases hli : initLines line with
      | error e => exact .inl ⟨e, if_pos hi, fun _ => if_pos hi⟩
      | ok here => exact .inr (.inr ⟨here, if_pos hi, fun _ => if_pos hi⟩)
    · cases hin : line.indent with
      | error e => exact .inl ⟨e, if_neg hi, fun _ => if_neg hi⟩
      | ok here =>
        by_cases hl : here.lt indent
        · exact .inr (.inr ⟨[line], (if_neg hi).trans (by simp [Except.map, hl]),
            fun _ => (if_neg hi).trans (if_pos hl)⟩)
        · exact .inr (.inl ⟨indent, (if_neg hi).trans (by simp [Except.map, hl]),
            fun _ => (if_neg hi).trans (if_neg hl)⟩)

open ItemReader in
theorem walk_eq_reading (lines : List Text) :
    (∀ item, updateItemsGo 0 item lines = ((seeking item).reading lines).map (·.1)) ∧
    ∀ super item indent, bodyThenItems super item indent lines = ((inClass super item indent).reading lines).map (·.1) := by
  induction lines with
  | nil => exact ⟨fun _ => rfl, fun _ _ _ => rfl⟩
  | cons line lines ih =>
    obtain ⟨ihItems, ihBody⟩ := ih
    -- what is read of the rest is what the walk makes of it
    have hgo : ∀ {p q : ItemReader} {here : List Text}, p.read line = .ok (here, q) →
        (p.reading (line :: lines)).map (·.1) = ((q.reading lines).map (·.1)).map (here ++ ·) := by
      intro p q here h
      rw [reading_cons_of_read _ h]
      cases q.reading lines <;> rfl
    have hs : ∀ {p : ItemReader} {e : Failure}, p.read line = .error e →
        (p.reading (line :: lines)).map (·.1) = .error e := by
      intro p e h
      rw [reading_cons_of_error _ h]
      rfl
    refine ⟨fun item => ?_, fun super item indent => ?_⟩
    · rw [updateItemsGo_cons]
      split
      next hp =>
        rw [hgo (show (seeking item).read line = _ from if_pos hp), ihItems]
        rfl
      next hn =>
      split
      next hc =>
        have hr : (seeking item).read line = .ok ([line], inClass (superCall (className? line)) item []) :=
          (if_neg hn).trans (if_pos hc)
        rw [hgo hr, ← ihBody, subclassBody, bodyThenItems]
        cases classBody (superCall (className? line)) item [] lines with
        | error e => rfl
        | ok b =>
          change (updateItemsGo b.count item lines).map _ = ((updateItemsGo b.count item lines).map _).map _
          cases updateItemsGo b.count item lines <;> rfl
      next hc =>
      split
      next he =>
        exact (hs (show (seeking item).read line = _ from
          (if_neg hn).trans ((if_neg hc).trans (if_pos he)))).symm
      next he =>
        have hr : (seeking item).read line = (itemLines line (aroundItem line (itemName item line)).1
              (aroundItem line (itemName item line)).2).map (·, seeking (itemName item line)) :=
          (if_neg hn).trans ((if_neg hc).trans (if_neg he))
        cases hl : itemLines line (aroundItem line (itemName item line)).1
            (aroundItem line (itemName item line)).2 with
        | error e => rw [hs (hr.trans (by rw [hl]; rfl))]; rfl
        | ok here => rw [hgo (hr.trans (by rw [hl]; rfl)), ← ihItems]; rfl
    · rcases classBody_along_read super item indent line with ⟨e, hr, hb⟩ | ⟨indent', hr, hb⟩ | ⟨here, hr, hb⟩
      · rw [bodyThenItems_error (hb lines), hs hr]
      · rw [bodyThenItems_pass (hb lines), ihBody, hgo hr]
        rfl
      · rw [bodyThenItems_stop (hb lines), ihItems, hgo hr]

theorem updateItems_eq_reading (item : Text) (lines : List Text) :
    updateItems item lines = ((ItemReader.seeking item).reading lines).map (·.1) :=
  (walk_eq_reading lines).1 item

/-! ## Names of items -/

def isItemName (item : Text) : Bool := item.head? == some 'Q' && item.all Char.isAlpha

theorem isItemName_ofList {name : Text} (h : isItemName name) :
    isItemName (String.ofList name).toList := by
  rwa [String.toList_ofList]

theorem isItemName_of_mem : ∀ item ∈ itemClasses, isItemName item := by
  unfold itemClasses
  repeat refine forall_mem_cons.mpr ⟨isItemName_ofList (by decide), ?_⟩
  exact fun _ h => absurd h not_mem_nil

theorem notMem_itemClass (hi : item ∈ itemClasses) {c : Char} (hc : c.isAlpha = false) : c ∉ item := fun hm => by
  have ha := (Bool.and_eq_true_iff.mp (isItemName_of_mem item hi)).2
  rw [all_eq_true.mp ha c hm] at hc
  cases hc

theorem exists_itemClass (hi : item ∈ itemClasses) : ∃ cs, item = 'Q' :: cs :=
  head?_eq_some_iff.mp (beq_iff_eq.mp (Bool.and_eq_true_iff.mp (isItemName_of_mem item hi)).1)

/-! ## What is remembered -/

/-- The name is that of the item, or one that its group has made longer. -/
def NameOf (item name : Text) : Prop := name = item ∨ item ++ ("Group" : Text) <+: name

theorem NameOf.itemName {item name : Text} (h : NameOf item name) (line : Text) :
    NameOf item (itemName name line) := by
  rw [QtMigration.itemName]
  split
  · rcases h with rfl | h
    · exact .inr (prefix_refl _)
    · exact .inr (h.trans (prefix_append _ _))
  · exact h

def ItemReader.Of (item : Text) : ItemReader → Prop
  | seeking name => NameOf item name
  | inClass super name _ => NameOf item name ∧ ∃ cls, super = superCall cls

theorem ItemReader.Of.read (hp : p.Of item) (h : p.read line = .ok (here, q)) : q.Of item := by
  cases p with
  | seeking name =>
    rw [ItemReader.read] at h
    split at h
    · cases h
      exact hp
    split at h
    · cases h
      exact ⟨hp, _, rfl⟩
    split at h
    · cases h
    · obtain ⟨lines, -, hpa⟩ := map_eq_ok.mp h
      obtain ⟨-, rfl⟩ := Prod.mk.inj hpa
      exact NameOf.itemName hp line
  | inClass super name indent =>
    rcases classBody_along_read super name indent line with ⟨e, hr, -⟩ | ⟨indent', hr, -⟩ | ⟨lines, hr, -⟩
    · rw [hr] at h
      cases h
    · rw [hr] at h
      cases h
      exact hp
    · rw [hr] at h
      cases h
      exact hp.1

theorem ItemReader.of_reading {out : List Text} (h : (seeking item).reading lines = .ok (out, q)) : q.Of item :=
  reading_invariant (fun _ _ _ _ hp hr => hp.read hr) lines (show (seeking item).Of item from .inl rfl) h

end QtMigration
