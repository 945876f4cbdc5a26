import QtMigration.Proofs.Signal.Surroundings
import QtMigration.Proofs.Text.Traces

/-!
# Proofs/Alphabet/Basic — texts over an alphabet, and what text functions do to them

An alphabet is a set of characters with all of ASCII in it, the carriage return apart.
-/

namespace QtMigration

open List

variable {c : Char} {rules : List (Text × Text)} {texts' : List Text} {indent new : Text}

/-- A character of ASCII that passes may write: any but the carriage return. -/
def isPlainChar (c : Char) : Bool := c.toNat < 128 && c != '\r'

/-- **An alphabet**: characters, all of ASCII but the carriage return among them. -/
structure Alphabet where
  has : Char → Prop
  plain : ∀ c, isPlainChar c = true → has c

namespace Alphabet

def Spells (A : Alphabet) (s : Text) : Prop := ∀ c ∈ s, A.has c

def SpellsAll (A : Alphabet) (texts : List Text) : Prop := ∀ s ∈ texts, A.Spells s

def isPlain (s : Text) : Bool := s.all isPlainChar

variable {A : Alphabet} {s t sep : Text} {texts : List Text}

theorem isPlain_ofList (h : isPlain s) : isPlain (String.ofList s).toList := by
  rwa [String.toList_ofList]

theorem spells_of_isPlain (A : Alphabet) (h : isPlain s) : A.Spells s := fun c hc =>
  A.plain c (all_eq_true.mp h c hc)

theorem spellsAll_of_isPlain (A : Alphabet) (h : texts.all isPlain) : A.SpellsAll texts :=
  fun s hs => A.spells_of_isPlain (all_eq_true.mp h s hs)

theorem spells_nil (A : Alphabet) : A.Spells [] := fun _ hc => absurd hc not_mem_nil

theorem spellsAll_nil (A : Alphabet) : A.SpellsAll [] := fun _ hs => absurd hs not_mem_nil

theorem spells_replicate (A : Alphabet) (hc : isPlainChar c) (n : Nat) :
    A.Spells (List.replicate n c) := fun d hd => by
  rw [eq_of_mem_replicate hd]
  exact A.plain c hc

theorem spells_append : A.Spells (s ++ t) ↔ A.Spells s ∧ A.Spells t := forall_mem_append

theorem spells_cons : A.Spells (c :: s) ↔ A.has c ∧ A.Spells s := forall_mem_cons

theorem spellsAll_cons : A.SpellsAll (s :: texts) ↔ A.Spells s ∧ A.SpellsAll texts :=
  forall_mem_cons

theorem spellsAll_append : A.SpellsAll (texts ++ texts') ↔ A.SpellsAll texts ∧ A.SpellsAll texts' := forall_mem_append

theorem spellsAll_singleton : A.SpellsAll [s] ↔ A.Spells s := forall_mem_singleton

theorem spells_flatten : A.Spells texts.flatten ↔ A.SpellsAll texts := by
  constructor
  · intro h s hs c hc
    exact h c (mem_flatten.mpr ⟨s, hs, hc⟩)
  · intro h c hc
    obtain ⟨s, hs, hc⟩ := mem_flatten.mp hc
    exact h s hs c hc

/-! ## Parts of a list of texts -/

namespace SpellsAll

variable (h : A.SpellsAll texts)

include h

theorem of_subset (hsub : texts' ⊆ texts) : A.SpellsAll texts' :=
  fun s hs => h s (hsub hs)

theorem drop (n : Nat) : A.SpellsAll (texts.drop n) := h.of_subset (drop_subset n texts)

theorem take (n : Nat) : A.SpellsAll (texts.take n) := h.of_subset (take_subset n texts)

theorem dropLast : A.SpellsAll texts.dropLast := h.of_subset (dropLast_subset texts)

theorem filter (p : Text → Bool) : A.SpellsAll (texts.filter p) := fun s hs =>
  h s (mem_filter.mp hs).1

theorem reverse : A.SpellsAll texts.reverse := h.of_subset (reverse_subset.mpr (List.Subset.refl _))

theorem map {f : Text → Text} (hf : ∀ s, A.Spells s → A.Spells (f s)) : A.SpellsAll (texts.map f) :=
  fun s hs => by
    obtain ⟨t, ht, rfl⟩ := mem_map.mp hs
    exact hf t (h t ht)

theorem headD : A.Spells (texts.headD []) := by
  cases texts with
  | nil => exact A.spells_nil
  | cons s rest => exact (spellsAll_cons.mp h).1

theorem flatten : A.Spells texts.flatten := spells_flatten.mpr h

theorem join (hsep : A.Spells sep) : A.Spells (Text.join sep texts) := by
  induction texts with
  | nil => exact A.spells_nil
  | cons s rest ih =>
    obtain ⟨hs, hr⟩ := spellsAll_cons.mp h
    cases rest with
    | nil => exact hs
    | cons t rest => exact spells_append.mpr ⟨spells_append.mpr ⟨hs, hsep⟩, ih hr⟩

theorem commaList : A.Spells (Text.commaList texts) :=
  h.join (A.spells_of_isPlain (by decide))

end SpellsAll

/-! ## Parts of a text -/

namespace Spells

variable (h : A.Spells s)

include h

theorem of_subset (hs : t ⊆ s) : A.Spells t := fun c hc => h c (hs hc)

theorem append (ht : A.Spells t) : A.Spells (s ++ t) := spells_append.mpr ⟨h, ht⟩

theorem append_plain (ht : isPlain t) : A.Spells (s ++ t) :=
  h.append (A.spells_of_isPlain ht)

theorem take (n : Nat) : A.Spells (s.take n) := h.of_subset (take_subset n s)

theorem drop (n : Nat) : A.Spells (s.drop n) := h.of_subset (drop_subset n s)

theorem dropEnd (n : Nat) : A.Spells (s.dropEnd n) := h.take _

theorem takeTo (n : Int) : A.Spells (s.takeTo n) := by
  rw [Text.takeTo]
  split
  · exact h.dropEnd _
  · exact h.take _

theorem slice (lo hi : Nat) : A.Spells (s.slice lo hi) := (h.take hi).drop lo

theorem trimLeftWhile (p : Char → Bool) : A.Spells (s.trimLeftWhile p) :=
  h.of_subset (dropWhile_suffix p).subset

theorem trimRightWhile (p : Char → Bool) : A.Spells (s.trimRightWhile p) := by
  refine h.of_subset fun c hc => ?_
  rw [Text.trimRightWhile, mem_reverse] at hc
  exact mem_reverse.mp ((dropWhile_suffix p).subset hc)

theorem trimLeft : A.Spells s.trimLeft := h.trimLeftWhile _

theorem trimRight : A.Spells s.trimRight := h.trimRightWhile _

theorem trim : A.Spells s.trim := h.trimLeft.trimRight

theorem trimRightOf (set : Text) : A.Spells (s.trimRightOf set) := h.trimRightWhile _

theorem trimOf (set : Text) : A.Spells (s.trimOf set) := (h.trimLeftWhile _).trimRightOf set

/-! ### Searching -/

theorem splitOn (sep : Text) : A.SpellsAll (s.splitOn sep) := fun _ hp =>
  h.of_subset (Text.infix_of_mem_splitOn hp).subset

theorem firstPiece (sep : Text) : A.Spells (s.firstPiece sep) := h.of_subset (Text.firstPiece_isPrefix s sep).subset

theorem replaceGo {old : Text} (hn : A.Spells new) : ∀ (n : Nat), A.Spells (Text.replaceGo old new n s) := by
  induction s with
  | nil => exact fun n => by cases n <;> exact A.spells_nil
  | cons c cs ih =>
    obtain ⟨hc, hcs⟩ := spells_cons.mp h
    intro n
    cases n with
    | succ n => exact ih hcs n
    | zero =>
      rw [Text.replaceGo]
      split
      · exact hn.append (ih hcs _)
      · exact spells_cons.mpr ⟨hc, ih hcs 0⟩

theorem replaceAll (old : Text) (hn : A.Spells new) : A.Spells (s.replaceAll old new) :=
  h.replaceGo hn 0

theorem replaceEach (hr : ∀ rule ∈ rules, A.Spells rule.2) : A.Spells (s.replaceEach rules) := by
  induction rules generalizing s with
  | nil => exact h
  | cons rule rules ih =>
    obtain ⟨hru, hr⟩ := forall_mem_cons.mp hr
    exact ih (h.replaceAll rule.1 hru) hr

theorem replaceEach_plain (hr : (rules.all fun rule => isPlain rule.2)) : A.Spells (s.replaceEach rules) :=
  h.replaceEach fun rule hru => A.spells_of_isPlain (all_eq_true.mp hr rule hru)

theorem cut? {needle : Text} {r : Text × Text} (hr : s.cut? needle = some r) : A.Spells r.1 ∧ A.Spells r.2 := by
  induction s generalizing r with
  | nil =>
    rw [Text.cut?] at hr
    split at hr
    · obtain rfl := Option.some.inj hr
      exact ⟨A.spells_nil, A.spells_nil⟩
    · cases hr
  | cons c cs ih =>
    obtain ⟨hc, hcs⟩ := spells_cons.mp h
    rw [Text.cut?] at hr
    split at hr
    · obtain rfl := Option.some.inj hr
      exact ⟨A.spells_nil, h.drop _⟩
    · obtain ⟨r', hr', rfl⟩ := Option.map_eq_some_iff.mp hr
      exact ⟨spells_cons.mpr ⟨hc, (ih hcs hr').1⟩, (ih hcs hr').2⟩

theorem beforeLast? (ht : s.beforeLast? c = some t) : A.Spells t := by
  rw [Text.beforeLast?] at ht
  split at ht
  · cases ht
  next d r hd =>
    obtain rfl := Option.some.inj ht
    refine h.of_subset fun x hx => ?_
    have hx' : x ∈ s.reverse.dropWhile (· != c) := hd ▸ mem_cons_of_mem d (mem_reverse.mp hx)
    exact mem_reverse.mp ((dropWhile_suffix _).subset hx')

theorem eraseFirst (c : Char) : ∀ (n : Nat), A.Spells (Text.eraseFirst c n s) := by
  induction s with
  | nil => exact fun n => by cases n <;> exact A.spells_nil
  | cons d ds ih =>
    obtain ⟨hd, hds⟩ := spells_cons.mp h
    intro n
    cases n with
    | zero => exact h
    | succ n =>
      rw [Text.eraseFirst]
      split
      · exact ih hds n
      · exact spells_cons.mpr ⟨hd, ih hds (n + 1)⟩

theorem reverse : A.Spells s.reverse := h.of_subset (reverse_subset.mpr (List.Subset.refl _))

theorem eraseLast (c : Char) (n : Nat) : A.Spells (s.eraseLast c n) := (h.reverse.eraseFirst c n).reverse

/-! ### Rows and indentation -/

theorem rows : A.SpellsAll s.rows := fun row hr => h.of_subset (Text.infix_of_mem_rows s row hr).subset

theorem traces {fixed : List Text} (ht : Text.Traces fixed s t)
    (hf : ∀ v ∈ fixed, v ≠ [] ∧ isPlain v) : A.Spells t := by
  intro c hc
  by_cases hm : ∃ v ∈ fixed, c ∈ v
  · obtain ⟨v, hv, hcv⟩ := hm
    exact A.spells_of_isPlain (hf v hv).2 c hcv
  · have ha : ∀ v ∈ fixed, Text.Apart v [c] := fun v hv =>
      Text.apart_singleton (hf v hv).1 fun hcv => hm ⟨v, hv, hcv⟩
    obtain ⟨u, w, huw⟩ := append_of_mem hc
    have hh : t.has [c] := Text.has_iff_infix.mpr ⟨u, w, by rw [huw]; simp⟩
    exact h c ((Text.has_iff_infix.mp (ht [c] ha hh)).subset mem_cons_self)

end Spells

theorem spells_of_isRowBlank (A : Alphabet) (h : ∀ c ∈ indent, isRowBlank c) :
    A.Spells indent := fun c hc => by
  have hb := h c hc
  refine A.plain c ?_
  simp only [isRowBlank, Bool.or_eq_true, beq_iff_eq] at hb
  rcases hb with (rfl | rfl) | rfl <;> decide

theorem spells_indent (A : Alphabet) {line : Text} (h : line.indent = .ok indent) : A.Spells indent :=
  A.spells_of_isRowBlank (Text.indent_blank h)

end Alphabet

end QtMigration
