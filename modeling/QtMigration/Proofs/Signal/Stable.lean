import QtMigration.Proofs.Frame.Lacks
import QtMigration.Proofs.Import.Renewed
import QtMigration.Proofs.Text.Border

/-!
# Proofs/Signal/Stable — when cleaning a slot decorator twice is cleaning it once

The rules of a decorator run one after the other, and some put in what others look for. **A decorator stays as
it is exactly if it is settled** (`slots_stable_iff`): a type in quotes is not.
-/

namespace QtMigration

open List Text

/-! ## The rules -/

/-- The rules that take something out: the old decorator, C strings, qualifiers, pointers and references. -/
def droppingRules : List (Text × Text) :=
  ("@pyqtSignature", "@pyqtSlot") :: (cStringRules ++ qualifierRules.take 10)

def objectRule : Text × Text := ("PyQt_PyObject", "'PyQt_PyObject'")

def moduleRules : List (Text × Text) := libraryStringRules.take 4

/-- The rules that set strings in quotes; a model of strings is left. -/
def stringRules : List (Text × Text) :=
  [("QString", "'QString'"), ("'QString'List", "'QStringList'"), ("'QStringList'Model", "QStringListModel")]

def plainRules : List (Text × Text) := [("'str'", "str"), ("\"str\"", "str")]

def slotRules : List (Text × Text) :=
  droppingRules ++ (objectRule :: (moduleRules ++ (stringRules ++ plainRules)))

theorem replaceEach_append (s : Text) (rules more : List (Text × Text)) :
    s.replaceEach (rules ++ more) = (s.replaceEach rules).replaceEach more := foldl_append

theorem cleanDecorator_new (s : Text) :
    cleanDecorator .new (s.replaceAll "@pyqtSignature" "@pyqtSlot") = s.replaceEach slotRules := by
  have hr : slotRules = [(("@pyqtSignature" : Text), ("@pyqtSlot" : Text))] ++ (typeRules .new ++ plainRules) := rfl
  rw [hr, replaceEach_append, replaceEach_append]
  rfl

/-- A type at the beginning of a text that would be set in quotes: an object, or a string that is no model. -/
def Loose (s : Text) : Prop :=
  ("PyQt_PyObject" : Text) <+: s ∨ ("QString" : Text) <+: s ∧ ¬ ("QStringListModel" : Text) <+: s

def unsettledPieces : List Text :=
  ["@pyqtSignature", "const ", "*", "&", "QtCore.QString", "Qt.QString", "'str'", "\"str\""]

/-- **A settled decorator**: no rule finds anything in it, models of strings apart. -/
def SlotSettled (s : Text) : Prop := s.hasAny unsettledPieces = false ∧ ∀ rest, rest <:+ s → ¬ Loose rest

/-! ## Strings in quotes -/

section Strings

variable {x t : Text}

theorem quote_string (x t : Text) : replaceAll (x ++ ("QString" ++ t)) "QString" "'QString'" =
    replaceAll x "QString" "'QString'" ++ ("'QString'" ++ replaceAll t "QString" "'QString'") := by
  have hw : ['Q'] <+: ("QString" ++ t : Text) := ⟨_, rfl⟩
  rw [replaceAll_border ['Q'] x hw (by decide), replaceAll_self_append (by decide)]

theorem replaceEach_stringRules (s : Text) : s.replaceEach stringRules =
    ((s.replaceAll "QString" "'QString'").replaceAll "'QString'List" "'QStringList'").replaceAll
      "'QStringList'Model" "QStringListModel" := rfl

theorem strings_model (x t : Text) : replaceEach (x ++ ("QString" ++ ("ListModel" ++ t))) stringRules =
    x.replaceEach stringRules ++ ("QStringListModel" ++ t.replaceEach stringRules) := by
  simp only [replaceEach_stringRules]
  have hl : replaceAll ("ListModel" ++ t) "QString" "'QString'" = "ListModel" ++ replaceAll t "QString" "'QString'" :=
    replaceAll_append_of_notMem t (by decide)
  have hm : ∀ y : Text, replaceAll ("Model" ++ y) "'QString'List" "'QStringList'" =
      "Model" ++ replaceAll y "'QString'List" "'QStringList'" := fun y => replaceAll_append_of_notMem y (by decide)
  rw [quote_string, hl]
  generalize replaceAll x "QString" "'QString'" = x'
  generalize replaceAll t "QString" "'QString'" = t'
  have hw : ['\'', 'Q'] <+: ("'QString'List" ++ ("Model" ++ t') : Text) := ⟨_, rfl⟩
  rw [show ("'QString'" ++ ("ListModel" ++ t') : Text) = "'QString'List" ++ ("Model" ++ t') from rfl,
    replaceAll_border ['\'', 'Q'] x' hw (by decide), replaceAll_self_append (by decide), hm]
  generalize replaceAll x' "'QString'List" "'QStringList'" = x'
  generalize replaceAll t' "'QString'List" "'QStringList'" = t'
  have hw : ['\'', 'Q'] <+: ("'QStringList'Model" ++ t' : Text) := ⟨_, rfl⟩
  rw [show ("'QStringList'" ++ ("Model" ++ t') : Text) = "'QStringList'Model" ++ t' from rfl,
    replaceAll_border ['\'', 'Q'] x' hw (by decide), replaceAll_self_append (by decide)]

theorem quote_list (h : ¬ ("ListModel" : Text) <+: t) :
    ∃ z, replaceAll ("'QString'" ++ replaceAll t "QString" "'QString'") "'QString'List" "'QStringList'" =
      '\'' :: 'Q' :: z ∧ ¬ ("'QStringList'Model" : Text) <+: '\'' :: 'Q' :: z := by
  by_cases hl : ("List" : Text) <+: t
  · -- a list goes into the quotes, and no model follows
    obtain ⟨u, rfl⟩ := hl
    have hm : ¬ ("Model" : Text) <+: u := fun ⟨v, hv⟩ => h ⟨v, by rw [← hv]; rfl⟩
    have hpa : replaceAll ("List" ++ u) "QString" "'QString'" = "List" ++ replaceAll u "QString" "'QString'" :=
      replaceAll_append_of_notMem u (by decide)
    rw [hpa, show ∀ s : Text, ("'QString'" ++ ("List" ++ s) : Text) = "'QString'List" ++ s from fun _ => rfl,
      replaceAll_self_append (by decide)]
    refine ⟨_, rfl, fun hp => hm ?_⟩
    have hp := (prefix_append_right_inj ("'QStringList'" : Text)).mp hp
    exact prefix_of_prefix_replaceAll (by decide) (prefix_of_prefix_replaceAll (by decide) hp)
  · have hn : ¬ ("'QString'List" : Text) <+: '\'' :: ("QString" ++ '\'' :: replaceAll t "QString" "'QString'") :=
      fun hp => hl (prefix_of_prefix_replaceAll (by decide)
        ((prefix_append_right_inj ("'QString'" : Text)).mp hp))
    have hpa : replaceAll ("QString" ++ '\'' :: replaceAll t "QString" "'QString'") "'QString'List" "'QStringList'" =
        "QString" ++ replaceAll ('\'' :: replaceAll t "QString" "'QString'") "'QString'List" "'QStringList'" :=
      replaceAll_append_of_notMem _ (by decide)
    have hq : ∃ y, replaceAll ('\'' :: replaceAll t "QString" "'QString'") "'QString'List" "'QStringList'" =
        '\'' :: y := by
      rw [replaceAll, replaceGo]
      split
      · exact ⟨_, rfl⟩
      · exact ⟨_, rfl⟩
    obtain ⟨y, hy⟩ := hq
    refine ⟨"String" ++ '\'' :: y, ?_, fun hp => ?_⟩
    · refine (replaceAll_cons_of_not hn).trans ?_
      rw [hpa, hy]
      rfl
    · have hp := (prefix_append_right_inj ("'QString" : Text)).mp hp
      exact absurd (cons_prefix_cons.mp hp).1 (by decide)

theorem strings_loose (x : Text) (h : ¬ ("ListModel" : Text) <+: t) :
    ∃ z, replaceEach (x ++ ("QString" ++ t)) stringRules = x.replaceEach stringRules ++ '\'' :: 'Q' :: z := by
  simp only [replaceEach_stringRules]
  obtain ⟨z, hz, hm⟩ := quote_list h
  have hw : ∀ s : Text, ['\'', 'Q'] <+: ("'QString'" ++ s : Text) := fun s => ⟨_, rfl⟩
  rw [quote_string, replaceAll_border ['\'', 'Q'] _ (hw _) (by decide), hz,
    replaceAll_border ['\'', 'Q'] _ (show ['\'', 'Q'] <+: '\'' :: 'Q' :: z from ⟨z, rfl⟩) (by decide)]
  have hn : ¬ ("'QStringList'Model" : Text) <+: 'Q' :: z := fun hp =>
    absurd (cons_prefix_cons.mp hp).1 (by decide)
  rw [replaceAll_cons_of_not hm, replaceAll_cons_of_not hn]
  exact ⟨_, rfl⟩

theorem strings_of_not_loose (s : Text) (h : ∀ rest, rest <:+ s → ¬ Loose rest) : s.replaceEach stringRules = s := by
  induction hn : s.length using Nat.strong_induction_on generalizing s with
  | _ n ih =>
    have hl : ∀ {s : Text}, ¬ ("QString" : Text) <:+: s → s.replaceEach stringRules = s := fun hs =>
      replaceEach_of_not_has fun rule hru => has_eq_false_of_subneedle (has_eq_false_iff.mpr hs)
        ((show ∀ rule ∈ stringRules, ("QString" : Text) <:+: rule.1 by decide) rule hru)
    by_cases hst : ("QString" : Text) <:+: s
    · obtain ⟨x, next, more, hsp⟩ := exists_splitOn_of_infix (by decide) hst
      have hx := splitOn_lacks (by decide) (hsp ▸ mem_cons_self)
      obtain ⟨t, rfl⟩ : ∃ t, s = x ++ ("QString" ++ t) :=
        ⟨_, ((flatten_splitOn (by decide) hsp).symm.trans (by rw [map_cons, flatten_cons, append_assoc]))⟩
      have hm : ("ListModel" : Text) <+: t := by
        by_contra hno
        exact h _ (suffix_append x _)
          (.inr ⟨prefix_append _ t, fun hp => hno ((prefix_append_right_inj ("QString" : Text)).mp hp)⟩)
      obtain ⟨t, rfl⟩ := hm
      have hsu : t <:+ x ++ ("QString" ++ ("ListModel" ++ t)) := ⟨x ++ ("QString" ++ "ListModel"), by simp⟩
      have hle : t.length < n := by
        rw [← hn]
        simp
        omega
      rw [strings_model, hl hx, ih _ hle t (fun rest hr => h rest (hr.trans hsu)) rfl]
      rfl
    · exact hl hst

end Strings

/-! ## What stays as it is -/

section Fixed

variable {s : Text}

/-- Rules that put in quotes or take them out, two at a time; none looks for the letter `c`. -/
def QuotesOnly (c : Char) (rules : List (Text × Text)) : Prop :=
  ∀ rule ∈ rules, rule.1 ≠ [] ∧ c ∉ rule.1 ∧ c ∉ rule.2 ∧ rule.2.length ≡ rule.1.length [MOD 2]

instance (c : Char) (rules : List (Text × Text)) : Decidable (QuotesOnly c rules) :=
  inferInstanceAs (Decidable (∀ rule ∈ rules, _))

theorem quoted_ne {c : Char} {x a : Text} (hl : a.length ≡ x.length [MOD 2]) (hco : a.count c = x.count c)
    (hc : c ≠ '\'') {rules : List (Text × Text)} (hr : QuotesOnly c rules) (b t : Text) :
    (a ++ '\'' :: c :: b).replaceEach rules ≠ x ++ c :: t := fun h => by
  rw [append_cons, replaceEach_append_cons fun rule hm => ⟨(hr rule hm).2.1, (hr rule hm).1⟩] at h
  have hk : (replaceEach (a ++ ['\'']) rules).count c = x.count c := by
    have hmod := modEq_replaceEach (f := (count c ·)) (m := 0) (fun a b => count_append)
      (fun rule hm => ⟨(hr rule hm).1, by
        rw [count_eq_zero_of_not_mem (hr rule hm).2.1, count_eq_zero_of_not_mem (hr rule hm).2.2.1]⟩)
      (a ++ ['\''])
    rw [Nat.modEq_zero_iff] at hmod
    rw [hmod, count_append, hco, count_singleton, if_neg (by simpa using hc.symm), Nat.add_zero]
  have ho := modEq_replaceEach (f := length) (m := 2) (fun a b => length_append)
    (fun rule hm => ⟨(hr rule hm).1, (hr rule hm).2.2.2⟩) (a ++ ['\''])
  rw [eq_of_append_cons h hk, length_append, length_singleton] at ho
  have hs : x.length + 1 ≡ x.length [MOD 2] := (hl.add_right 1).symm.trans ho.symm
  rw [Nat.ModEq] at hs
  omega

/-- **Rules that take something out find nothing** in a text that the rules leave, if none of them puts in more
than it takes out. -/
theorem unused_of_fixed (before rules after : List (Text × Text)) (p : Char → Bool)
    (hle : ∀ rule ∈ before ++ (rules ++ after), rule.2.countP p ≤ rule.1.countP p)
    (hlt : ∀ rule ∈ rules, rule.2.countP p < rule.1.countP p) (h : s.replaceEach (before ++ (rules ++ after)) = s) :
    ∀ rule ∈ rules, (s.replaceEach before).has rule.1 = false := by
  obtain ⟨hb, hle⟩ := forall_mem_append.mp hle
  obtain ⟨-, ha⟩ := forall_mem_append.mp hle
  have hn : (rules.any fun rule => (s.replaceEach before).has rule.1) = false := by
    by_contra hany
    have hl := countP_replaceEach_lt hlt (Bool.eq_true_of_not_eq_false hany)
    rw [replaceEach_append, replaceEach_append] at h
    have hr := countP_replaceEach_le (p := p) ha ((s.replaceEach before).replaceEach rules)
    have hf := countP_replaceEach_le (p := p) hb s
    rw [h] at hr
    omega
  exact fun rule hru => Bool.eq_false_iff.mpr (any_eq_false.mp hn rule hru)

def noQuote (c : Char) : Bool := c != '\'' && c != '"'

theorem lacks_object (h : ∀ rest, rest <:+ s → ¬ Loose rest) : s.has objectRule.1 = false :=
  has_eq_false_iff.mpr fun ⟨x, t, hx⟩ =>
    h (objectRule.1 ++ t) ⟨x, by rw [← append_assoc, hx]⟩ (.inl (prefix_append _ t))

theorem slotRules_of_settled (h : SlotSettled s) : s.replaceEach slotRules = s := by
  obtain ⟨hp, hlo⟩ := h
  have hl : ∀ {rules : List (Text × Text)}, (∀ rule ∈ rules, ∃ piece ∈ unsettledPieces, piece <:+: rule.1) →
      s.replaceEach rules = s := fun hr => replaceEach_of_not_has fun rule hru => by
    obtain ⟨piece, hpi, hin⟩ := hr rule hru
    exact has_eq_false_of_subneedle (hasAny_eq_false_iff.mp hp piece hpi) hin
  rw [slotRules, replaceEach_append, hl (by decide), ← singleton_append, replaceEach_append,
    replaceEach_of_not_has (forall_mem_singleton.mpr (lacks_object hlo)), replaceEach_append, hl (by decide),
    replaceEach_append, strings_of_not_loose s hlo, hl (by decide)]

theorem lacks_object_of_fixed (h : ((s.replaceAll objectRule.1 objectRule.2).replaceEach stringRules).replaceEach
    plainRules = s) : s.has objectRule.1 = false := by
  refine has_eq_false_iff.mpr ?_
  rintro ⟨(x : Text), (t : Text), hx⟩
  rw [append_assoc] at hx
  have hw : ("PyQ" : Text) <+: objectRule.1 ++ t := ⟨_, rfl⟩
  have hb : replaceAll (x ++ (objectRule.1 ++ t)) objectRule.1 objectRule.2 = _ :=
    replaceAll_border "PyQ" x hw (by decide)
  rw [replaceAll_self_append (by decide), hx] at hb
  rw [hb, ← replaceEach_append] at h
  have hl : (x.replaceAll objectRule.1 objectRule.2).length ≡ x.length [MOD 2] :=
    modEq_replaceAll (fun _ _ => length_append) (by decide) (by decide) x
  have hc : (x.replaceAll objectRule.1 objectRule.2).count 'P' ≡ x.count 'P' [MOD 0] :=
    modEq_replaceAll (f := count 'P') (fun _ _ => count_append) (by decide) (by decide) x
  exact quoted_ne hl (Nat.modEq_zero_iff.mp hc) (by decide)
    (show QuotesOnly 'P' (stringRules ++ plainRules) by decide) _ _ (h.trans hx.symm)

theorem models_of_fixed (h : (s.replaceEach stringRules).replaceEach plainRules = s) {x t : Text}
    (hx : s = x ++ ("QString" ++ t)) : ("ListModel" : Text) <+: t := by
  by_contra hn
  obtain ⟨z, hz⟩ := strings_loose x hn
  have hl : (x.replaceEach stringRules).length ≡ x.length [MOD 2] :=
    modEq_replaceEach (fun _ _ => length_append) (by decide) x
  have hc : (x.replaceEach stringRules).count 'Q' ≡ x.count 'Q' [MOD 0] :=
    modEq_replaceEach (f := count 'Q') (fun _ _ => count_append) (by decide) x
  rw [hx, hz] at h
  exact quoted_ne hl (Nat.modEq_zero_iff.mp hc) (by decide) (show QuotesOnly 'Q' plainRules by decide) _ _ h

theorem settled_of_fixed (h : s.replaceEach slotRules = s) : SlotSettled s := by
  have hle : ∀ rule ∈ slotRules, rule.2.countP noQuote ≤ rule.1.countP noQuote := by decide
  have hru : slotRules = (droppingRules ++ [objectRule]) ++ (moduleRules ++ (stringRules ++ plainRules)) := by
    rw [slotRules, append_assoc, singleton_append]
  have hd := unused_of_fixed [] droppingRules _ noQuote hle (by decide) h
  have hf : s.replaceEach droppingRules = s := replaceEach_of_not_has hd
  have hm := unused_of_fixed _ moduleRules _ noQuote (hru ▸ hle) (by decide) (hru ▸ h)
  rw [hru, replaceEach_append, replaceEach_append _ moduleRules, replaceEach_of_not_has hm, replaceEach_append,
    replaceEach_append, hf] at h
  rw [replaceEach_append, hf] at hm
  have ho := lacks_object_of_fixed h
  have hs : s.replaceEach [objectRule] = s := replaceEach_of_not_has (forall_mem_singleton.mpr ho)
  rw [hs] at h hm
  have hl : ∀ rest, rest <:+ s → ¬ Loose rest := by
    rintro rest ⟨x, hx⟩ (⟨t, rfl⟩ | ⟨⟨t, rfl⟩, hmo⟩)
    · exact has_eq_false_iff.mp ho ⟨x, t, by rw [append_assoc]; exact hx⟩
    · obtain ⟨u, rfl⟩ := models_of_fixed h hx.symm
      exact hmo ⟨u, rfl⟩
  rw [strings_of_not_loose s hl] at h
  have hpl := unused_of_fixed [] plainRules [] (fun _ => true) (by decide) (by decide) h
  refine ⟨hasAny_eq_false_iff.mpr ?_, hl⟩
  have ha : ∀ piece ∈ unsettledPieces, piece ∈ (droppingRules ++ (moduleRules ++ plainRules)).map Prod.fst := by
    decide
  intro piece hp
  obtain ⟨rule, hr, rfl⟩ := mem_map.mp (ha piece hp)
  rcases mem_append.mp hr with hr | hr
  · exact hd rule hr
  · rcases mem_append.mp hr with hr | hr
    · exact hm rule hr
    · exact hpl rule hr

theorem infix_replaceAll {old new : Text} (hne : old ≠ []) : ∀ {s : Text}, old <:+: s → new <:+: s.replaceAll old new
  | [], h => absurd (infix_nil.mp h) hne
  | c :: cs, h => by
    rw [replaceAll, replaceGo]
    split
    · exact infix_append' [] new _
    next hp =>
      rw [ isPrefixOf_iff_prefix] at hp
      exact (infix_replaceAll hne ((infix_cons_iff.mp h).resolve_left hp)).trans (suffix_cons c _).isInfix

theorem slotDecorator_eq_iff : slotDecorator .new s = s ↔ (s.hasAny slotPieces → SlotSettled s) := by
  cases ha : s.hasAny slotPieces with
  | false => simp [slotDecorator_of_lacks .new ha]
  | true =>
    have hs : (s.replaceAll "@pyqtSignature" "@pyqtSlot").has "@pyqtSlot" := by
      cases ho : s.has "@pyqtSignature" with
      | true => exact has_iff_infix.mpr (infix_replaceAll (by decide) ( has_iff_infix.mp ho))
      | false =>
        rw [hasAny, slotPieces, any_cons, ho, Bool.false_or, any_cons, any_nil, Bool.or_false] at ha
        rwa [replaceAll_of_not_has ho]
    have hc : slotDecorator .new s = s.replaceEach slotRules := by
      rw [← cleanDecorator_new]
      exact if_pos hs
    rw [hc]
    exact ⟨fun h _ => settled_of_fixed h, fun h => slotRules_of_settled (h rfl)⟩

end Fixed

/-- **Cleaning slot decorators twice is cleaning them once exactly if every decorator is settled then.** -/
theorem slots_stable_iff (lines : List Text) :
    (cleanSlotDecorators .new lines = lines ↔ ∀ line ∈ lines, line.hasAny slotPieces = true → SlotSettled line) ∧
    (cleanSlotDecorators .new (cleanSlotDecorators .new lines) = cleanSlotDecorators .new lines ↔
      ∀ line ∈ cleanSlotDecorators .new lines, line.hasAny slotPieces = true → SlotSettled line) := by
  have hfixed : ∀ lines : List Text, cleanSlotDecorators .new lines = lines ↔
      ∀ line ∈ lines, line.hasAny slotPieces = true → SlotSettled line := fun lines => by
    simp only [← slotDecorator_eq_iff]
    induction lines with
    | nil => simp [cleanSlotDecorators]
    | cons line lines ih => rw [forall_mem_cons, ← ih, cleanSlotDecorators, map_cons, cons.injEq, cleanSlotDecorators]
  exact ⟨hfixed lines, hfixed _⟩

/-- A type in quotes is set in quotes once more. -/
theorem slots_quoted_again : cleanSlotDecorators .new (cleanSlotDecorators .new ["@pyqtSlot(QString)\n"]) ≠
      cleanSlotDecorators .new ["@pyqtSlot(QString)\n"] := by
  decide

end QtMigration
