import QtMigration.Proofs.Failure
import QtMigration.Proofs.Line.At
import QtMigration.Proofs.Text.Search
import QtMigration.Signal.Declaration

/-!
# Proofs/Signal/Declared — where the declaration of a signal goes

The search for a class goes back from a line to the beginning of the list and then on from its end. **In the
class around a line a declaration is a block of lines between the class line and that line**
(`declareSignal_enclosing`).
-/

namespace QtMigration

open List

/-! ## Lines that are put in -/

def isAddition (line : Text) : Bool := line == "\n" || line.has "pyqtSignal("

/-- **The second list is the first one with empty lines and declarations put in.** -/
inductive Grown : List Text → List Text → Prop
  | nil : Grown [] []
  | keep (line : Text) {kept grown : List Text} (h : Grown kept grown) : Grown (line :: kept) (line :: grown)
  | add {line : Text} (hline : isAddition line = true) {kept grown : List Text} (h : Grown kept grown) :
    Grown kept (line :: grown)

namespace Grown

theorem refl (lines : List Text) : Grown lines lines := by
  induction lines with
  | nil => exact nil
  | cons line _ ih => exact ih.keep line

theorem trans {a b c : List Text} (h : Grown a b) (h' : Grown b c) : Grown a c := by
  induction h' generalizing a with
  | nil => exact h
  | keep line _ ih =>
    cases h with
    | keep _ h => exact (ih h).keep line
    | add hline h => exact (ih h).add hline
  | add hline _ ih => exact (ih h).add hline

theorem append {a b c d : List Text} (h : Grown a b) (h' : Grown c d) : Grown (a ++ c) (b ++ d) := by
  induction h with
  | nil => exact h'
  | keep line _ ih => exact ih.keep line
  | add hline _ ih => exact ih.add hline

theorem of_forall : ∀ {added : List Text}, (∀ line ∈ added, isAddition line) → Grown [] added
  | [], _ => nil
  | _ :: _, h => (of_forall fun line hline => h line (mem_cons_of_mem _ hline)).add (h _ mem_cons_self)

theorem mem_or_isAddition {a b : List Text} (h : Grown a b) {line : Text} (hline : line ∈ b) :
    line ∈ a ∨ isAddition line := by
  induction h with
  | nil => exact .inl hline
  | keep l _ ih =>
    rcases mem_cons.mp hline with rfl | hline
    · exact .inl mem_cons_self
    · exact (ih hline).imp_left (mem_cons_of_mem _)
  | add ha _ ih =>
    rcases mem_cons.mp hline with rfl | hline
    · exact .inr ha
    · exact ih hline

theorem exists_append_cons {line : Text} : ∀ {front back b : List Text}, Grown (front ++ line :: back) b →
    ∃ front' back', b = front' ++ line :: back' ∧ Grown front front' ∧ Grown back back' := by
  intro front back b h
  generalize hl : front ++ line :: back = lines at h
  induction h generalizing front with
  | nil => simp at hl
  | keep l h ih =>
    cases front with
    | nil =>
      obtain ⟨rfl, rfl⟩ := cons.inj hl
      exact ⟨[], _, rfl, nil, h⟩
    | cons first front =>
      obtain ⟨rfl, rfl⟩ := cons.inj hl
      obtain ⟨front', back', rfl, hf, hb⟩ := ih rfl
      exact ⟨first :: front', back', rfl, hf.keep first, hb⟩
  | @add l ha _ _ _ ih =>
    obtain ⟨front', back', rfl, hf, hb⟩ := ih hl
    exact ⟨l :: front', back', rfl, hf.add ha, hb⟩

end Grown

/-- **`grown` is `body` with a block of `n` additions put in at one place.** -/
def Block (body grown : List Text) (n : Nat) : Prop :=
  ∃ front added back, body = front ++ back ∧ grown = front ++ (added ++ back) ∧ added.length = n ∧
    ∀ line ∈ added, isAddition line = true

namespace Block

variable {body grown : List Text} {n : Nat}

theorem empty (body : List Text) : Block body body 0 := ⟨[], [], body, rfl, rfl, rfl, by simp⟩

theorem toGrown (h : Block body grown n) : Grown body grown := by
  obtain ⟨front, added, back, rfl, rfl, -, ha⟩ := h
  exact (Grown.refl front).append ((Grown.of_forall ha).append (.refl back))

theorem length_eq (h : Block body grown n) : grown.length = body.length + n := by
  obtain ⟨front, added, back, rfl, rfl, rfl, -⟩ := h
  simp only [length_append]
  omega

end Block

/-! ## The class that is found -/

theorem lineAt?_back {lines : List Text} {i k : Nat} (hi : i < lines.length) (hk : k ≤ i + lines.length) :
    lineAt? lines ((i : Int) - k) = ((lines.take (i + 1)).reverse ++ lines.reverse)[k]? := by
  have hl : (lines.take (i + 1)).length = i + 1 := length_take_of_le hi
  by_cases hki : k ≤ i
  · have hp : (i : Int) - k = ((i - k : Nat) : Int) := by omega
    rw [hp, lineAt?_natCast, getElem?_append_left (by simp only [length_reverse]; omega),
      getElem?_reverse (by omega), hl, getElem?_take_of_lt (by omega)]
    congr 1
  · have hn : (i : Int) - k = ((i + lines.length - k : Nat) : Int) - lines.length := by omega
    rw [hn, lineAt?_neg (by omega), getElem?_append_right (by simp only [length_reverse]; omega),
      length_reverse, hl, getElem?_reverse (by omega)]
    congr 1
    omega

theorem classBefore?_of_append {lines : List Text} {i : Nat} (hi : i < lines.length) {passed rest : List Text}
    {cls : Text} (hb : (lines.take (i + 1)).reverse ++ lines.reverse = passed ++ cls :: rest)
    (hcls : opensClass cls) (hp : ∀ l ∈ passed, opensClass l = false) :
    classBefore? lines i = some ((i : Int) - passed.length) := by
  have hl : passed.length < i + lines.length + 1 := by
    have hc := congrArg List.length hb
    simp only [length_append, length_reverse, length_take, length_cons] at hc
    omega
  have hline : ∀ k < i + lines.length + 1, lineAt? lines ((i : Int) - k) = (passed ++ cls :: rest)[k]? := fun k hk => by
    rw [lineAt?_back hi (by omega), hb]
  have hf : (List.range (i + lines.length + 1)).find?
      (fun k : Nat => (lineAt? lines ((i : Int) - (k : Int))).any opensClass) = some passed.length := by
    refine find?_range_eq_some.mpr ⟨?_, mem_range.mpr hl, fun k hk => ?_⟩
    · rw [hline _ hl, getElem?_append_right (Nat.le_refl _), Nat.sub_self, getElem?_cons_zero,
        Option.any_some, hcls]
    · rw [hline k (by omega), getElem?_append_left hk, getElem?_eq_getElem hk, Option.any_some,
        hp _ (getElem_mem hk)]
      rfl
  rw [classBefore?, if_pos (by exact_mod_cast hi), find?_map,
    show ((i : Int) + lines.length + 1).toNat = i + lines.length + 1 by omega]
  exact congrArg (Option.map _) hf

/-- **The class that a search from the line at `i` finds**: its signed position, and the lines behind it that are
looked through. -/
inductive ClassSearch : List Text → Nat → Int → List Text → Prop
  /-- The line opens a class itself. -/
  | own (front : List Text) {cls : Text} (behind : List Text) (hcls : opensClass cls = true) :
    ClassSearch (front ++ cls :: behind) front.length front.length behind
  /-- The nearest class before the line. -/
  | enclosing (front : List Text) {cls : Text} {body : List Text} {line : Text} (behind : List Text)
    (hcls : opensClass cls = true) (hbody : ∀ l ∈ body, opensClass l = false) (hline : opensClass line = false) :
    ClassSearch (front ++ cls :: body ++ line :: behind) (front ++ cls :: body).length front.length
      (body ++ line :: behind)
  /-- The last class of all, where no class is opened up to the line. -/
  | last {before : List Text} {line : Text} (between : List Text) {cls : Text} {behind : List Text}
    (hbefore : ∀ l ∈ before, opensClass l = false) (hline : opensClass line = false) (hcls : opensClass cls = true)
    (hbehind : ∀ l ∈ behind, opensClass l = false) :
    ClassSearch (before ++ line :: (between ++ cls :: behind)) before.length (-1 - (behind.length : Int))
      (behind ++ (before ++ line :: (between ++ cls :: behind)))

theorem exists_last_class {lines : List Text} {l : Text} (hl : l ∈ lines) (ho : opensClass l) :
    ∃ front cls back, lines = front ++ cls :: back ∧ opensClass cls ∧ ∀ l ∈ back, opensClass l = false := by
  obtain ⟨cls, hf⟩ := Option.isSome_iff_exists.mp (find?_isSome.mpr ⟨l, mem_reverse.mpr hl, ho⟩)
  obtain ⟨hcls, back, front, hs, hb⟩ := find?_eq_some_iff_append.mp hf
  refine ⟨front.reverse, cls, back.reverse, ?_, hcls, fun l hl => ?_⟩
  · rw [← reverse_reverse lines, hs]
    simp
  · simpa using hb l (mem_reverse.mp hl)

namespace ClassSearch

variable {lines : List Text} {i : Nat} {c : Int} {searched : List Text}

theorem classBefore?_eq (h : ClassSearch lines i c searched) : classBefore? lines i = some c := by
  have ht : ∀ (before : List Text) (line : Text) (behind : List Text),
      (before ++ line :: behind).take (before.length + 1) = before ++ [line] := fun before line behind => by
    rw [append_cons, take_left' (by simp)]
  cases h with
  | @own front cls _ hcls =>
    have hb : ((front ++ cls :: searched).take (front.length + 1)).reverse ++ (front ++ cls :: searched).reverse =
        [] ++ cls :: (front.reverse ++ (front ++ cls :: searched).reverse) := by simp [ht]
    have hf := classBefore?_of_append (by simp) hb hcls (by simp)
    simpa using hf
  | @enclosing front cls body line behind hcls hbody hline =>
    have hb : ((front ++ cls :: body ++ line :: behind).take ((front ++ cls :: body).length + 1)).reverse ++
        (front ++ cls :: body ++ line :: behind).reverse = (line :: body.reverse) ++ cls :: (front.reverse ++
          (front ++ cls :: body ++ line :: behind).reverse) := by
      rw [ht]
      simp
    rw [classBefore?_of_append (by simp) hb hcls
      (forall_mem_cons.mpr ⟨hline, fun l hl => hbody l (mem_reverse.mp hl)⟩), Option.some.injEq]
    simp only [length_cons, length_reverse, length_append]
    omega
  | @last before line between cls behind hbe hline hcls hbehind =>
    have hb : ((before ++ line :: (between ++ cls :: behind)).take (before.length + 1)).reverse ++
        (before ++ line :: (between ++ cls :: behind)).reverse = (line :: (before.reverse ++ behind.reverse)) ++
          cls :: (between.reverse ++ line :: before.reverse) := by
      rw [ht]
      simp
    have hp : ∀ l ∈ line :: (before.reverse ++ behind.reverse), opensClass l = false :=
      forall_mem_cons.mpr ⟨hline, forall_mem_append.mpr
        ⟨fun l hl => hbe l (mem_reverse.mp hl), fun l hl => hbehind l (mem_reverse.mp hl)⟩⟩
    rw [classBefore?_of_append (by simp) hb hcls hp, Option.some.injEq]
    simp only [length_cons, length_append, length_reverse]
    omega

theorem length_searched (h : ClassSearch lines i c searched) :
    ((lines.length : Int) - (c + 1)).toNat = searched.length := by
  cases h
  all_goals
    simp only [length_append, length_cons]
    omega

theorem lineAt?_searched (h : ClassSearch lines i c searched) {k : Nat} (hk : k < searched.length) :
    lineAt? lines (c + 1 + k) = searched[k]? := by
  cases h with
  | @own front cls behind _ =>
    rw [show (front.length : Int) + 1 + k = ((front.length + 1 + k : Nat) : Int) by omega, lineAt?_natCast,
      append_cons, getElem?_append_right (by simp)]
    congr 1
    simp
  | @enclosing front cls body line behind =>
    rw [show (front.length : Int) + 1 + k = ((front.length + 1 + k : Nat) : Int) by omega, lineAt?_natCast,
      append_assoc, cons_append, append_cons, getElem?_append_right (by simp)]
    congr 1
    simp
  | @last before line between cls behind =>
    generalize hli : before ++ line :: (between ++ cls :: behind) = lines at hk ⊢
    have hs : lines = (before ++ line :: (between ++ [cls])) ++ behind := by simp [← hli]
    have hl := congrArg List.length hs
    rw [length_append] at hl
    by_cases hkb : k < behind.length
    · have hn : -1 - (behind.length : Int) + 1 + k =
          (((before ++ line :: (between ++ [cls])).length + k : Nat) : Int) - lines.length := by omega
      rw [hn, lineAt?_neg (by omega), getElem?_append_left hkb, hs,
        getElem?_append_right (by omega), Nat.add_sub_cancel_left]
    · have hp : -1 - (behind.length : Int) + 1 + k = ((k - behind.length : Nat) : Int) := by omega
      rw [hp, lineAt?_natCast, getElem?_append_right (by omega)]

theorem exists_or_forall {line : Text} (hline : lines[i]? = some line) :
    (∃ c searched, ClassSearch lines i c searched) ∨ ∀ l ∈ lines, opensClass l = false := by
  obtain ⟨before, behind, rfl, rfl⟩ := exists_append_of_getElem? hline
  cases hown : opensClass line with
  | true => exact .inl ⟨_, _, own before behind hown⟩
  | false =>
    by_cases hf : ∃ l ∈ before, opensClass l
    · obtain ⟨l, hl, ho⟩ := hf
      obtain ⟨front, cls, body, rfl, hcls, hbody⟩ := exists_last_class hl ho
      exact .inl ⟨_, _, enclosing front behind hcls hbody hown⟩
    · have hb : ∀ l ∈ before, opensClass l = false := fun l hl =>
        Bool.eq_false_iff.mpr fun ho => hf ⟨l, hl, ho⟩
      by_cases hba : ∃ l ∈ behind, opensClass l
      · obtain ⟨l, hl, ho⟩ := hba
        obtain ⟨between, cls, tail, rfl, hcls, ht⟩ := exists_last_class hl ho
        exact .inl ⟨_, _, last between hb hown hcls ht⟩
      · refine .inr (forall_mem_append.mpr ⟨hb, forall_mem_cons.mpr ⟨hown, fun l hl => ?_⟩⟩)
        exact Bool.eq_false_iff.mpr fun ho => hba ⟨l, hl, ho⟩

end ClassSearch

theorem classBefore?_eq_none {lines : List Text} (h : ∀ l ∈ lines, opensClass l = false) (i : Int) :
    classBefore? lines i = none := by
  rw [classBefore?]
  split
  · rw [find?_eq_none]
    intro p _
    have ha : (lineAt? lines p).any opensClass = false := by
      cases hline : lineAt? lines p with
      | none => rfl
      | some l =>
        refine h l ?_
        rw [lineAt?] at hline
        split at hline
        · exact mem_of_getElem? hline
        split at hline
        · exact mem_of_getElem? hline
        · cases hline
    rw [ha]
    decide
  · rfl

/-! ## The place of a declaration -/

theorem findPlace_append {lines : List Text} {name l : Text} (hl : placeAt name l ≠ .further) :
    ∀ {passed : List Text} {s : Int} {n : Nat}, passed.length < n →
      (∀ k ≤ passed.length, lineAt? lines (s + k) = (passed ++ [l])[k]?) →
      (∀ x ∈ passed, placeAt name x = .further) →
      findPlace lines name ((List.range n).map fun k : Nat => s + k) = some (placeAt name l, s + passed.length, l)
  | passed, s, 0, hn, _, _ => absurd hn (Nat.not_lt_zero _)
  | passed, s, n + 1, hn, hli, hp => by
    have hf : (List.range (n + 1)).map (fun k : Nat => s + (k : Int)) =
        s :: (List.range n).map fun k : Nat => (s + 1) + (k : Int) := by
      rw [range_succ_eq_map, map_cons, map_map]
      refine congrArg₂ List.cons (Int.add_zero _) (map_congr_left fun k _ => ?_)
      dsimp only [Function.comp]
      omega
    have hline := hli 0 (Nat.zero_le _)
    rw [show s + ((0 : Nat) : Int) = s from Int.add_zero s] at hline
    rw [hf, findPlace, hline]
    cases passed with
    | nil =>
      dsimp only [nil_append, getElem?_cons_zero]
      rw [length_nil, show s + ((0 : Nat) : Int) = s from Int.add_zero s]
      cases hpl : placeAt name l with
      | further => exact absurd hpl hl
      | known => rfl
      | here => rfl
    | cons x passed =>
      obtain ⟨hx, hp⟩ := forall_mem_cons.mp hp
      dsimp only [cons_append, getElem?_cons_zero]
      rw [hx]
      dsimp only
      rw [@findPlace_append _ _ _ hl passed (s + 1) n (by simpa using hn) (fun k hk => ?_) hp, length_cons]
      · rw [show s + 1 + (passed.length : Int) = s + ((passed.length + 1 : Nat) : Int) by omega]
      · have hne := hli (k + 1) (by simpa using hk)
        rw [cons_append, getElem?_cons_succ] at hne
        rw [← hne, show s + 1 + (k : Int) = s + ((k + 1 : Nat) : Int) by omega]

theorem findPlace_eq_none {lines : List Text} {name : Text} : ∀ {ps : List Int},
    (∀ p ∈ ps, ∀ l, lineAt? lines p = some l → placeAt name l = .further) → findPlace lines name ps = none
  | [], _ => rfl
  | p :: ps, h => by
    obtain ⟨hp, hps⟩ := forall_mem_cons.mp h
    rw [findPlace]
    cases hline : lineAt? lines p with
    | none => rfl
    | some l =>
      dsimp only
      rw [hp l hline]
      exact findPlace_eq_none hps

/-- **A declaration goes before its place**, or before the empty line there, maybe with an empty line behind it. -/
theorem insertDeclaration_eq {lines : List Text} {p : Nat} (hp : 0 < p) (hlen : p < lines.length) {decl : Text} :
    ∃ n added, (n = p ∨ n + 1 = p ∧ lines[n]? = some ("\n" : Text)) ∧ (added = [decl] ∨ added = [decl, "\n"]) ∧
      insertDeclaration lines p decl = .ok ⟨lines.take n ++ (added ++ lines.drop n), added.length⟩ := by
  obtain ⟨n, hn, hpl⟩ : ∃ n : Nat, (n = p ∨ n + 1 = p ∧ lines[n]? = some ("\n" : Text)) ∧
      (if lineAt? lines ((p : Int) - 1) == some "\n" then (p : Int) - 1 else (p : Int)) = (n : Int) := by
    have hb : (p : Int) - 1 = ((p - 1 : Nat) : Int) := by omega
    rw [hb, lineAt?_natCast]
    split
    next he => exact ⟨p - 1, .inr ⟨by omega, eq_of_beq he⟩, rfl⟩
    · exact ⟨p, .inl rfl, rfl⟩
  have ht : (lines.take n).length = n := length_take_of_le (by omega)
  have hne : lineAt? (lines.take n ++ decl :: lines.drop n) ((n + 1 : Nat) : Int) = lines[n]? := by
    rw [lineAt?_natCast, getElem?_append_right (by omega), ht, Nat.add_sub_cancel_left,
      getElem?_cons_succ, getElem?_drop, Nat.add_zero]
  have hbe : insertAt (lines.take n ++ decl :: lines.drop n) ((n + 1 : Nat) : Int) "\n" =
      lines.take n ++ (([decl, "\n"] : List Text) ++ lines.drop n) := by
    have hs : lines.take n ++ decl :: lines.drop n = (lines.take n ++ [decl]) ++ lines.drop n := by simp
    have hl : (lines.take n ++ [decl]).length = n + 1 := by rw [length_append, ht]; rfl
    rw [insertAt_natCast (by simp; omega), hs, take_left' hl, drop_left' hl]
    simp
  rw [insertDeclaration, hpl, insertAt_natCast (by omega), show (n : Int) + 1 = ((n + 1 : Nat) : Int) from rfl,
    hne, hbe, getElem?_eq_getElem (by omega)]
  dsimp only
  split
  · exact ⟨n, [decl, "\n"], hn, .inr rfl, rfl⟩
  · exact ⟨n, [decl], hn, .inl rfl, rfl⟩

theorem insertDeclaration_append {above passed rest : List Text} {first l decl : Text} (hf : first ≠ "\n")
    (hd : isAddition decl) :
    ∃ grown n, Block passed grown n ∧ decl ∈ grown ∧ insertDeclaration (above ++ first :: passed ++ l :: rest)
      ((above.length : Int) + 1 + passed.length) decl = .ok ⟨above ++ first :: grown ++ l :: rest, n⟩ := by
  have hp : (above.length : Int) + 1 + passed.length = ((above ++ first :: passed).length : Nat) := by
    simp only [length_append, length_cons]
    omega
  obtain ⟨n, added, hn, ha, hi⟩ := @insertDeclaration_eq (above ++ first :: passed ++ l :: rest)
    (above ++ first :: passed).length (by simp only [length_append, length_cons]; omega) (by simp) decl
  have hb : ∀ line ∈ added, isAddition line := by
    rcases ha with rfl | rfl
    · exact forall_mem_singleton.mpr hd
    · exact forall_mem_cons.mpr ⟨hd, forall_mem_singleton.mpr rfl⟩
  have hm : decl ∈ added := by rcases ha with rfl | rfl <;> exact mem_cons_self
  rw [hp, hi]
  rcases hn with rfl | ⟨hn, he⟩
  · refine ⟨passed ++ (added ++ []), added.length, ⟨passed, added, [], by simp, rfl, rfl, hb⟩, by simp [hm], ?_⟩
    rw [take_left, drop_left]
    simp
  · -- the empty line before the place is not the first one
    rcases eq_nil_or_concat passed with rfl | ⟨front, last, rfl⟩
    · obtain rfl : n = above.length := by simpa using hn
      rw [append_assoc, cons_append, getElem?_append_right (Nat.le_refl _), Nat.sub_self,
        getElem?_cons_zero, Option.some.injEq] at he
      exact absurd he hf
    · rw [concat_eq_append] at hn hi ⊢
      have hl : (above ++ first :: front).length = n := by
        simp only [length_append, length_cons, length_nil] at hn ⊢
        omega
      have hs : above ++ first :: (front ++ [last]) ++ l :: rest =
          (above ++ first :: front) ++ last :: l :: rest := by simp
      refine ⟨front ++ (added ++ [last]), added.length, ⟨front, added, [last], rfl, rfl, rfl, hb⟩, by simp [hm], ?_⟩
      rw [hs, take_left' hl, drop_left' hl]
      simp

theorem insertDeclaration_body {front passed inside behind : List Text} {cls l line decl : Text} (hcls : cls ≠ "\n")
    (hd : isAddition decl) :
    ∃ grown n, Block (passed ++ l :: inside) grown n ∧ decl ∈ grown ∧
      insertDeclaration (front ++ cls :: (passed ++ l :: inside) ++ line :: behind)
        ((front.length : Int) + 1 + passed.length) decl = .ok ⟨front ++ cls :: grown ++ line :: behind, n⟩ := by
  obtain ⟨grown, n, ⟨kept, added, dropped, rfl, rfl, hn, ha⟩, hm, hi⟩ :=
    @insertDeclaration_append front passed (inside ++ line :: behind) cls l decl hcls hd
  refine ⟨kept ++ (added ++ (dropped ++ l :: inside)), n, ⟨kept, added, dropped ++ l :: inside, by simp, rfl, hn, ha⟩,
    by grind, by simpa using hi⟩

theorem isAddition_declarationLine (indent module : Text) (parts : List Text) :
    isAddition (declarationLine indent module parts) := by
  rw [isAddition, Bool.or_eq_true]
  refine .inr (Text.has_iff_infix.mpr ⟨indent ++ signatureName parts ++ " = " ++ module,
    signatureTypes parts ++ ")\n", ?_⟩)
  simp only [declarationLine, append_assoc]

theorem ne_newline_of_opensClass {line : Text} (h : opensClass line) : line ≠ "\n" := by
  rintro rfl
  exact absurd h (by decide)

/-! ## The declaration -/

theorem Run.outcome_bind {α β : Type} (x : Run α) (f : α → Run β) :
    (x >>= f).outcome = x.outcome.bind fun a => (f a).outcome := by
  change (x.andThen f).outcome = _
  rw [andThen]
  cases x.outcome <;> rfl

section Declaration

variable {target : Target} {signal : Text} {parts : List Text} (hparts : (signature target signal).outcome = .ok parts)

include hparts

theorem declareSignal_eq {lines searched : List Text} {i : Nat} {c : Int} (h : ClassSearch lines i c searched) :
    (declareSignal target lines i signal).outcome =
      (findPlace lines (signatureName parts) ((List.range searched.length).map fun k : Nat => c + 1 + (k : Int))).elim
        (.error .pieceMissing) fun found =>
          if found.1 = .known then .ok ⟨lines, 0⟩
          else found.2.2.indent.bind fun indent => insertDeclaration lines found.2.1
            (declarationLine indent (signal.firstPiece "SIGNAL(") parts) := by
  have hr : (declareSignal target lines i signal).outcome = (signature target signal).outcome.bind _ :=
    Run.outcome_bind _ _
  rw [hr, hparts]
  dsimp only [Except.bind]
  rw [h.classBefore?_eq]
  dsimp only
  rw [h.length_searched]
  cases findPlace lines (signatureName parts) ((List.range searched.length).map fun k : Nat => c + 1 + (k : Int)) with
  | none => rfl
  | some found =>
    obtain ⟨place, p, l⟩ := found
    cases place with
    | known => rfl
    | here => exact Run.outcome_bind _ _
    | further => exact Run.outcome_bind _ _

theorem declareSignal_cases {lines searched : List Text} {i : Nat} {c : Int} (h : ClassSearch lines i c searched) :
    ((∀ l ∈ searched, placeAt (signatureName parts) l = .further) ∧
      (declareSignal target lines i signal).outcome = .error .pieceMissing) ∨
    ∃ passed l rest, searched = passed ++ l :: rest ∧ (∀ x ∈ passed, placeAt (signatureName parts) x = .further) ∧
      (placeAt (signatureName parts) l = .known ∧ (declareSignal target lines i signal).outcome = .ok ⟨lines, 0⟩ ∨
        placeAt (signatureName parts) l = .here ∧ (declareSignal target lines i signal).outcome =
          l.indent.bind fun indent => insertDeclaration lines (c + 1 + passed.length)
            (declarationLine indent (signal.firstPiece "SIGNAL(") parts)) := by
  rw [declareSignal_eq hparts h]
  by_cases ha : ∀ l ∈ searched, placeAt (signatureName parts) l = .further
  · refine .inl ⟨ha, ?_⟩
    rw [findPlace_eq_none]
    · rfl
    · intro p hp l hline
      obtain ⟨k, hk, rfl⟩ := mem_map.mp hp
      rw [h.lineAt?_searched (mem_range.mp hk)] at hline
      exact ha l (mem_of_getElem? hline)
  · obtain ⟨stop, hst, he⟩ : ∃ l ∈ searched, placeAt (signatureName parts) l ≠ .further := by
      simpa using ha
    obtain ⟨l, hf⟩ := Option.isSome_iff_exists.mp
      (find?_isSome (p := fun l => placeAt (signatureName parts) l != .further).mpr
        ⟨stop, hst, bne_iff_ne.mpr he⟩)
    obtain ⟨hl, passed, rest, hs, hpa⟩ := find?_eq_some_iff_append.mp hf
    have hpa : ∀ x ∈ passed, placeAt (signatureName parts) x = .further := fun x hx => by simpa using hpa x hx
    have hli : ∀ k ≤ passed.length, lineAt? lines (c + 1 + k) = (passed ++ [l])[k]? := fun k hk => by
      rw [h.lineAt?_searched (by rw [hs]; simp; omega), hs, append_cons,
        getElem?_append_left (by simp; omega)]
    refine .inr ⟨passed, l, rest, hs, hpa, ?_⟩
    rw [findPlace_append (bne_iff_ne.mp hl) (by rw [hs]; simp) hli hpa]
    cases hki : placeAt (signatureName parts) l with
    | known => exact .inl ⟨rfl, rfl⟩
    | here => exact .inr ⟨rfl, rfl⟩
    | further => rw [hki] at hl; cases hl

section Around

variable {body : List Text} {cls line : Text} (behind : List Text) (hcls : opensClass cls = true)
  (hbody : ∀ l ∈ body, opensClass l = false) (hline : opensClass line = false) (hcode : line.isCode = true)
  (hname : line.has (signatureName parts) = true)

include hcls hbody hline hcode hname

/-- **The search in the class around a line does not go past that line**, where it has the name and is code. -/
theorem declareSignal_around (front : List Text) : (∃ passed l rest, body ++ line :: behind = passed ++ l :: rest ∧
      (∀ x ∈ passed, placeAt (signatureName parts) x = .further) ∧ placeAt (signatureName parts) l = .known ∧
      (declareSignal target (front ++ cls :: body ++ line :: behind) (front ++ cls :: body).length signal).outcome =
        .ok ⟨front ++ cls :: body ++ line :: behind, 0⟩) ∨
    ∃ passed l inside, body = passed ++ l :: inside ∧ (∀ x ∈ passed, placeAt (signatureName parts) x = .further) ∧
      placeAt (signatureName parts) l = .here ∧
      (declareSignal target (front ++ cls :: body ++ line :: behind) (front ++ cls :: body).length signal).outcome =
        l.indent.bind fun indent => insertDeclaration (front ++ cls :: body ++ line :: behind)
          ((front.length : Int) + 1 + passed.length) (declarationLine indent (signal.firstPiece "SIGNAL(") parts) := by
  have hk : placeAt (signatureName parts) line = .known := by
    rw [placeAt, hcode, hname]
    rfl
  rcases declareSignal_cases hparts (.enclosing front behind hcls hbody hline) with
    ⟨ha, -⟩ | ⟨passed, l, rest, hs, hp, ⟨hl, ho⟩ | ⟨hl, ho⟩⟩
  · rw [ha line (by simp)] at hk
    cases hk
  · exact .inl ⟨passed, l, rest, hs, hp, hl, ho⟩
  · rcases append_eq_append_iff.mp hs with ⟨beyond, rfl, hr⟩ | ⟨inside, rfl, hr⟩
    · cases beyond with
      | nil =>
        obtain ⟨rfl, -⟩ := cons.inj hr
        rw [hk] at hl
        cases hl
      | cons x beyond =>
        obtain ⟨rfl, -⟩ := cons.inj hr
        rw [hp line (by simp)] at hk
        cases hk
    · cases inside with
      | nil =>
        obtain ⟨rfl, -⟩ := cons.inj hr
        rw [hk] at hl
        cases hl
      | cons x inside =>
        obtain ⟨rfl, -⟩ := cons.inj hr
        exact .inr ⟨passed, l, inside, rfl, hp, hl, ho⟩

theorem declareSignal_enclosing {front : List Text} : (∃ grown n, Block body grown n ∧
      (declareSignal target (front ++ cls :: body ++ line :: behind) (front ++ cls :: body).length signal).outcome =
        .ok ⟨front ++ cls :: grown ++ line :: behind, n⟩) ∨
    ∃ passed l rest failure, body = passed ++ l :: rest ∧
      (∀ x ∈ passed, placeAt (signatureName parts) x = .further) ∧ placeAt (signatureName parts) l = .here ∧
      l.indent = .error failure ∧
      (declareSignal target (front ++ cls :: body ++ line :: behind) (front ++ cls :: body).length signal).outcome =
        .error failure := by
  rcases declareSignal_around hparts behind hcls hbody hline hcode hname front with
    ⟨passed, l, rest, -, -, -, ho⟩ | ⟨passed, l, inside, rfl, hp, hl, ho⟩
  · exact .inl ⟨body, 0, .empty body, ho⟩
  · cases hi : l.indent with
    | error failure =>
      refine .inr ⟨passed, l, inside, failure, rfl, hp, hl, hi, ?_⟩
      rw [ho, hi]
      rfl
    | ok indent =>
      obtain ⟨grown, n, hb, -, hin⟩ := @insertDeclaration_body front passed inside behind cls l line
        (declarationLine indent (signal.firstPiece "SIGNAL(") parts) (ne_newline_of_opensClass hcls)
        (isAddition_declarationLine _ _ _)
      refine .inl ⟨grown, n, hb, ?_⟩
      rw [ho, hi]
      exact hin

end Around

end Declaration

/-! ## Where a class is open -/

theorem isCode_of_placeAt {name line : Text} (h : placeAt name line = .here) :
    line.isCode ∧ line.has "pyqtSignal" = false := by
  rw [placeAt] at h
  split at h
  · cases h
  split at h
  next hf => simpa using hf
  · cases h

/-- The line's indentation can be read, if a declaration can go before it. -/
def Readable (line : Text) : Prop :=
  line.isCode = true → line.has "pyqtSignal" = false → ∃ kept, line.indent = .ok kept

theorem readable_of_isAddition {line : Text} (h : isAddition line) : Readable line := by
  rw [isAddition, Bool.or_eq_true, beq_iff_eq] at h
  intro hcode hf
  rcases h with rfl | h
  · exact absurd hcode (by decide)
  · rw [Text.has_eq_false_of_subneedle hf (Text.has_iff_infix.mp (by decide))] at h
    cases h

/-- **A class is open behind the lines**: it is opened in one of them, and the indentation of the lines after that
one can be read. -/
def ClassOpen (before : List Text) : Prop :=
  ∃ front l body, before = front ++ l :: body ∧ opensClass l = true ∧ ∀ l ∈ body, Readable l

theorem ClassOpen.grown {before before' : List Text} (h : ClassOpen before) (hg : Grown before before') :
    ClassOpen before' := by
  obtain ⟨front, l, body, rfl, hc, hr⟩ := h
  obtain ⟨front', body', rfl, -, hbody'⟩ := hg.exists_append_cons
  refine ⟨front', l, body', rfl, hc, fun l' hl' => ?_⟩
  exact (hbody'.mem_or_isAddition hl').elim (hr l') readable_of_isAddition

theorem ClassOpen.exists_nearest {before : List Text} (h : ClassOpen before) :
    ∃ front cls body, before = front ++ cls :: body ∧ opensClass cls ∧ (∀ l ∈ body, opensClass l = false) ∧
      ∀ l ∈ body, Readable l := by
  obtain ⟨front, l, body, rfl, hc, hr⟩ := h
  obtain ⟨front', cls, body', hs, hcls, hbody'⟩ := exists_last_class (mem_cons_self (l := body)) hc
  refine ⟨front ++ front', cls, body', by rw [hs]; simp, hcls, hbody', fun x hx => hr x ?_⟩
  cases front' with
  | nil =>
    obtain ⟨-, rfl⟩ := cons.inj hs
    exact hx
  | cons _ front' =>
    obtain ⟨-, rfl⟩ := cons.inj hs
    simp [hx]

theorem declareSignal_open {target : Target} {signal line : Text} {parts before : List Text} (behind : List Text)
    (hparts : (signature target signal).outcome = .ok parts) (hop : ClassOpen before)
    (hline : opensClass line = false) (hcode : line.isCode) (hname : line.has (signatureName parts)) :
    ∃ grown n, Grown before grown ∧ grown.length = before.length + n ∧
      (declareSignal target (before ++ line :: behind) before.length signal).outcome =
        .ok ⟨grown ++ line :: behind, n⟩ := by
  obtain ⟨front, cls, body, rfl, hcls, hbody, hr⟩ := hop.exists_nearest
  rcases declareSignal_enclosing hparts behind hcls hbody hline hcode hname with
    ⟨grown, n, hb, ho⟩ | ⟨passed, l, rest, failure, rfl, -, hh, hi, -⟩
  · refine ⟨front ++ cls :: grown, n, (Grown.refl front).append (hb.toGrown.keep cls), ?_, ho⟩
    simp only [length_append, length_cons, hb.length_eq]
    omega
  · obtain ⟨hl, hf⟩ := isCode_of_placeAt hh
    obtain ⟨kept, hk⟩ := hr l (by simp) hl hf
    rw [hi] at hk
    cases hk

end QtMigration
