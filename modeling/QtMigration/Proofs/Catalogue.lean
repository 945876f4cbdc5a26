import QtMigration.Retarget
import QtMigration.Proofs.Text.Search

/-!
# Proofs/Catalogue — what the names of the moved classes have in common

The classes that have left the graphics module are in four lists.
-/

namespace QtMigration

open List

namespace Catalogue

def movedClasses : List Text := core ++ widgets ++ multimedia ++ printSupport

/-! ## Spelling names out -/

theorem map_toList_cons {name : Text} {strings : List String} {names : List Text}
    (h : strings.map String.toList = names) :
    (String.ofList name :: strings).map String.toList = name :: names := by
  rw [map_cons, String.toList_ofList, h]

theorem append_congr {a b c d : List Text} (h : a = b) (h' : c = d) : a ++ c = b ++ d := by
  rw [h, h']

/-! ## The checks -/

/-- One word without `Qt` but at its beginning, where it is not the name of a module; or a text with a character
in it that ends a name. -/
def plainName (name : Text) : Bool :=
  (name.all Text.isWord || name.any endsName) && (!Text.has (name.drop 1) ['Q', 't'] &&
    ((!(['Q', 't'].isPrefixOf name) || name.length ≤ 2) && (!name.isEmpty && (!name.any Text.isBlank &&
      !name.contains ','))))

/-- Names of classes that are in none of the lists: they are treated apart. -/
def apart : List Text :=
  [['Q', 'S', 'o', 'u', 'n', 'd'], ['Q', 'M', 'a', 't', 'r', 'i', 'x'],
   ['Q', 'I', 'c', 'o', 'n', 'E', 'n', 'g', 'i', 'n', 'e', 'V', '2']]

def nameCode (name : Text) : Nat := name.foldl (fun n c => (n * 131 + c.toNat) % 1000003) 0

/-- The numbers are different from each other and from the positions of the bits in `seen`. -/
def allNew : Nat → List Nat → Bool
  | _, [] => true
  | seen, n :: ns => !seen.testBit n && allNew (seen ||| 1 <<< n) ns

theorem nodup_of_allNew : ∀ {seen : Nat} {ns : List Nat}, allNew seen ns →
    ns.Nodup ∧ ∀ n ∈ ns, seen.testBit n = false
  | _, [], _ => ⟨nodup_nil, by simp⟩
  | seen, n :: ns, h => by
    rw [allNew, Bool.and_eq_true, Bool.not_eq_true'] at h
    obtain ⟨hn, hnew⟩ := nodup_of_allNew h.2
    have hb : ∀ m ∈ ns, seen.testBit m = false ∧ m ≠ n := by
      intro m hm
      have := hnew m hm
      rw [Nat.testBit_or, Bool.or_eq_false_iff, Nat.one_shiftLeft] at this
      refine ⟨this.1, fun heq => ?_⟩
      subst heq
      simp at this
    refine ⟨nodup_cons.mpr ⟨fun hmem => (hb n hmem).2 rfl, hn⟩, ?_⟩
    exact forall_mem_cons.mpr ⟨h.1, fun m hm => (hb m hm).1⟩

theorem exists_spelled : ∃ names, movedClasses = names ∧ (names.all plainName && allNew 0 (names.map nameCode) &&
      apart.all fun name => !names.contains name) := by
  apply Exists.intro
  apply And.intro
  · unfold movedClasses core widgets multimedia printSupport
    repeat apply append_congr
    all_goals repeat apply map_toList_cons
    all_goals exact map_nil
  · decide +kernel

theorem nodup_movedClasses : movedClasses.Nodup := by
  obtain ⟨names, rfl, h⟩ := exists_spelled
  rw [Bool.and_eq_true, Bool.and_eq_true] at h
  exact List.Pairwise.of_map nameCode (fun _ _ hne heq => hne (congrArg nameCode heq)) (nodup_of_allNew h.1.2).1

theorem notMem_movedClasses_of_apart {name : Text} (hn : name ∈ apart) : name ∉ movedClasses := by
  obtain ⟨names, rfl, h⟩ := exists_spelled
  rw [Bool.and_eq_true, all_eq_true] at h
  simpa using h.2 name hn

theorem sound_notMem_movedClasses : ("QSound" : Text) ∉ movedClasses :=
  notMem_movedClasses_of_apart (by decide)

section Names

variable {name : Text} (h : name ∈ movedClasses)

include h

theorem plainName_of_mem : plainName name := by
  obtain ⟨names, rfl, hc⟩ := exists_spelled
  rw [Bool.and_eq_true, Bool.and_eq_true, all_eq_true] at hc
  exact hc.1.1 name h

theorem ne_nil_of_mem : name ≠ [] := by
  have hp := plainName_of_mem h
  simp only [plainName, Bool.and_eq_true, Bool.not_eq_true'] at hp
  simpa using hp.2.2.2.1

theorem comma_notMem_of_mem : ',' ∉ name := by
  have hp := plainName_of_mem h
  simp only [plainName, Bool.and_eq_true, Bool.not_eq_true'] at hp
  simpa using hp.2.2.2.2.2

theorem not_blank_of_mem : ∀ c ∈ name, Text.isBlank c = false := by
  have hp := plainName_of_mem h
  simp only [plainName, Bool.and_eq_true, Bool.not_eq_true'] at hp
  simpa using hp.2.2.2.2.1

theorem all_isWord_of_mem (he : ∀ c ∈ name, endsName c = false) : name.all Text.isWord := by
  have hp := plainName_of_mem h
  simp only [plainName, Bool.and_eq_true, Bool.or_eq_true] at hp
  exact hp.1.resolve_right (by simpa using he)

theorem not_suffix_of_mem {m : Text} (hqt : ['Q', 't'] <+: m) (hl : 2 < m.length) : ¬ m <:+ name := by
  have hp := plainName_of_mem h
  simp only [plainName, Bool.and_eq_true, Bool.not_eq_true'] at hp
  rintro ⟨v, rfl⟩
  cases v with
  | nil =>
    simp only [nil_append, Bool.or_eq_true, Bool.not_eq_true', decide_eq_true_eq] at hp
    have hs := hp.2.2.1.resolve_left (by rw [ isPrefixOf_iff_prefix.mpr hqt]; simp)
    omega
  | cons c v =>
    refine Text.has_eq_false_iff.mp hp.2.1 ?_
    exact hqt.isInfix.trans (suffix_append v m).isInfix

end Names

end Catalogue

end QtMigration
