import Mathlib.Data.List.Nodup
import Mathlib.Data.List.Pairwise
import QtMigration.Import.Sorting
import QtMigration.Proofs.Catalogue

/-!
# Proofs/Import/Homes — the modules that classes of the graphics module are in now

Four modules list classes that used to be in the graphics module, and no class is listed by two of them, so
the order in which the lists are gone through does not matter (`newModule_of_mem`).
-/

namespace QtMigration

open List

variable {name : Text}

/-- The modules that classes of the graphics module have moved to, with their classes. -/
def newHomes : List (Text × List Text) :=
  [("QtCore", Catalogue.core), ("QtWidgets", Catalogue.widgets), ("QtMultimedia", Catalogue.multimedia),
   ("QtPrintSupport", Catalogue.printSupport)]

/-- **The module that a name of the graphics module is in now**: the one that lists it, or else still
the graphics module. -/
def newModule (name : Text) : Text :=
  ((newHomes.find? fun home => home.2.contains name).map (·.1)).getD "QtGui"

theorem flatMap_newHomes : newHomes.flatMap (·.2) = Catalogue.movedClasses := by
  simp [newHomes, Catalogue.movedClasses]

theorem newModule_of_mem {home : Text × List Text} (hh : home ∈ newHomes) {name : Text}
    (hn : name ∈ home.2) : newModule name = home.1 := by
  have hno : (newHomes.flatMap (·.2)).Nodup := flatMap_newHomes ▸ Catalogue.nodup_movedClasses
  obtain ⟨first, hf⟩ : ∃ first, newHomes.find? (fun home => home.2.contains name) = some first :=
    Option.isSome_iff_exists.mp (find?_isSome.mpr ⟨home, hh, by simpa using hn⟩)
  have hm := mem_of_find?_eq_some hf
  have hfo : name ∈ first.2 := by simpa using find?_some hf
  have hd := (nodup_flatMap.mp hno).2
  have hs : Std.Symm (Function.onFun List.Disjoint fun home : Text × List Text => home.2) :=
    ⟨fun _ _ h _ ha hb => h hb ha⟩
  obtain rfl : first = home := by
    by_contra hne
    exact hd.forall hm hh hne hfo hn
  rw [newModule, hf]
  rfl

theorem newModule_of_notMem (h : name ∉ Catalogue.movedClasses) : newModule name = "QtGui" := by
  have hno : newHomes.find? (fun home => home.2.contains name) = none :=
    find?_eq_none.mpr fun home hh hn => h (by
      rw [← flatMap_newHomes]
      exact mem_flatMap.mpr ⟨home, hh, by simpa using hn⟩)
  rw [newModule, hno]
  rfl

/-! ## Sorting -/

def Home.module : Home → Text
  | core => "QtCore"
  | gui => "QtGui"
  | widgets => "QtWidgets"
  | printing => "QtPrintSupport"
  | media => "QtMultimedia"
  | comment => []

def SortedNames.at (s : SortedNames) : Home → List Text
  | .core => s.core
  | .gui => s.gui
  | .widgets => s.widgets
  | .printing => s.printing
  | .media => s.media
  | .comment => s.comments

/-- A name as it is sorted to a home: those that stay get their present names. -/
def Home.kept (h : Home) (name : Text) : Text := if h = .gui then presentName name else name

theorem SortedNames.at_insert (s : SortedNames) (name : Text) (h : Home) :
    (s.insert name).at h = s.at h ++ if homeOf name = h then [h.kept name] else [] := by
  rw [SortedNames.insert]
  cases homeOf name <;> cases h <;> simp [SortedNames.at, Home.kept]

theorem SortedNames.at_foldl (h : Home) : ∀ (names : List Text) (s : SortedNames),
    (names.foldl SortedNames.insert s).at h = s.at h ++ (names.filter fun n => homeOf n = h).map h.kept
  | [], s => by simp
  | name :: names, s => by
    rw [foldl_cons, at_foldl h names, at_insert, append_assoc]
    by_cases hn : homeOf name = h <;> simp [hn]

def Home.all : List Home := [.core, .gui, .widgets, .printing, .media]

def Home.lists {α : Type} (core gui widgets printing media : List α) : Home → List α
  | .core => core
  | .gui => gui
  | .widgets => widgets
  | .printing => printing
  | .media => media
  | .comment => []

theorem perm_homes {α : Type} [DecidableEq α] (f : Text → α) : ∀ {names : List Text},
    (∀ n ∈ names, homeOf n ≠ .comment) →
    (Home.all.flatMap fun home => (names.filter fun n => homeOf n = home).map f).Perm (names.map f)
  | [], _ => by simp [Home.all]
  | name :: names, h => by
    obtain ⟨hn, h⟩ := forall_mem_cons.mp h
    have ih := perm_homes f h
    rw [perm_iff_count] at ih ⊢
    intro a
    have hc := ih a
    simp only [Home.all, flatMap_cons, flatMap_nil, append_nil, count_append] at hc ⊢
    cases hh : homeOf name with
    | comment => exact absurd hh hn
    | core | gui | widgets | printing | media =>
      simp [hh, count_cons] at hc ⊢
      omega

theorem homeOf_cases (h : name.isComment = false) :
    (∃ home ∈ newHomes, name ∈ home.2 ∧ (homeOf name).module = home.1) ∨
      (name ∉ Catalogue.movedClasses ∧ homeOf name = .gui) := by
  rw [homeOf, if_neg (by simp [h])]
  split
  next hc => exact .inl ⟨_, .head _, by simpa using hc, rfl⟩
  next hc =>
  split
  next hw => exact .inl ⟨_, .tail _ (.head _), by simpa using hw, rfl⟩
  next hw =>
  split
  next hme => exact .inl ⟨_, .tail _ (.tail _ (.head _)), by simpa using hme, rfl⟩
  next hme =>
  split
  next hp => exact .inl ⟨_, .tail _ (.tail _ (.tail _ (.head _))), by simpa using hp, rfl⟩
  next hp =>
    rw [contains_eq_mem, decide_eq_true_eq] at hc hw hme hp
    refine .inr ⟨fun hm => ?_, rfl⟩
    rw [Catalogue.movedClasses, mem_append, mem_append, mem_append] at hm
    rcases hm with ((hm | hm) | hm) | hm
    · exact hc hm
    · exact hw hm
    · exact hme hm
    · exact hp hm

theorem homeOf_ne_comment (h : name.isComment = false) : homeOf name ≠ .comment := by
  rcases homeOf_cases h with ⟨home, hh, -, hm⟩ | ⟨-, hg⟩
  · intro hc
    rw [hc] at hm
    have hn : ∀ home ∈ newHomes, home.1 ≠ [] := by simp [newHomes]
    exact hn home hh hm.symm
  · rw [hg]
    decide

theorem module_homeOf (h : name.isComment = false) : (homeOf name).module = newModule name := by
  rcases homeOf_cases h with ⟨home, hh, hn, hm⟩ | ⟨hs, hg⟩
  · rw [hm, newModule_of_mem hh hn]
  · rw [hg, newModule_of_notMem hs]
    rfl

theorem homeOf_of_notMem (h : name.isComment = false)
    (hs : name ∉ Catalogue.movedClasses) : homeOf name = .gui := by
  rcases homeOf_cases h with ⟨home, hh, hn, -⟩ | ⟨-, hg⟩
  · refine absurd ?_ hs
    rw [← flatMap_newHomes]
    exact mem_flatMap.mpr ⟨home, hh, hn⟩
  · exact hg

theorem kept_homeOf (name : Text) : (homeOf name).kept name = presentName name := by
  have hr : ∀ old ∈ Catalogue.apart, name = old → homeOf name = .gui := fun old ho hn => by
    have hc : ∀ old ∈ Catalogue.apart, old.isComment = false := by decide
    rw [hn]
    exact homeOf_of_notMem (hc old ho) (Catalogue.notMem_movedClasses_of_apart ho)
  by_cases hg : homeOf name = .gui
  · rw [Home.kept, if_pos hg]
  · have hne : ∀ old ∈ Catalogue.apart, ¬ (name == old) := fun old ho heq =>
      hg (hr old ho (beq_iff_eq.mp heq))
    rw [Home.kept, if_neg hg, presentName, if_neg (hne "QIconEngineV2" (by decide)),
      if_neg (hne "QMatrix" (by decide))]

def newPlace (name : Text) : Text × Text := ("PyQt5." ++ newModule name, presentName name)

theorem newPlace_eq (name : Text) : newPlace name = ("PyQt5." ++ newModule name, presentName name) := rfl

end QtMigration
