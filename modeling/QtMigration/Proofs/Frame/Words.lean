import QtMigration.Proofs.Catalogue
import QtMigration.Proofs.Frame.Unsought

/-!
# Proofs/Frame/Words — words that no edit writes

Some words overlap with none of the texts that edits put in.
-/

namespace QtMigration

open List

open Text (Apart Traces)

def moduleNames : List Text := Catalogue.modules.map fun m => m.1

def importWords : List Text := ["import", "from"]

def placeWords : List Text := ["QStandardPaths", ".displayName", ".storageLocation"]

/-- The texts that are put in, those of places and of the translation apart. -/
def ordinaryTexts : List Text :=
  ((Pass.apiPasses.erase .desktopServices).map Pass.writes).flatten ++ definitionTexts

/-! ## The check -/

section Check

def apartAll (texts words : List Text) : Bool := words.all fun word => texts.all fun v => decide (Apart v word)

variable {texts words : List Text}

theorem apart_of_apartAll (h : apartAll texts words) {v word : Text} (hv : v ∈ texts)
    (hw : word ∈ words) : Apart v word :=
  of_decide_eq_true (all_eq_true.mp (all_eq_true.mp h word hw) v hv)

theorem apartAll_of_spelled {texts' words' : List Text} (ht : texts = texts') (hw : words = words')
    (h : apartAll texts' words') : apartAll texts words := by
  rwa [ht, hw]

theorem spelled_cons {word : Text} (h : texts = words) : (String.ofList word).toList :: texts = word :: words := by
  rw [String.toList_ofList, h]

theorem spelled_append_cons {front word : Text} (h : texts = words) :
    ((String.ofList front).toList ++ (String.ofList word).toList) :: texts = (front ++ word) :: words := by
  rw [String.toList_ofList, String.toList_ofList, h]

end Check

theorem apartAll_ordinary : apartAll (ordinaryTexts ++ Pass.desktopServices.writes)
    (gluePieces ++ importWords ++ moduleNames ++ [(".translate" : Text)]) := by
  apply apartAll_of_spelled
  · repeat apply spelled_cons
    rfl
  · repeat first | apply spelled_cons | apply spelled_append_cons
    rfl
  · decide +kernel

theorem apartAll_place : apartAll ordinaryTexts placeWords := by
  apply apartAll_of_spelled
  · repeat apply spelled_cons
    rfl
  · repeat apply spelled_cons
    rfl
  · decide +kernel

theorem apartAll_translation : apartAll translationTexts (gluePieces ++ importWords ++ placeWords) := by
  apply apartAll_of_spelled
  · repeat apply spelled_cons
    rfl
  · repeat first | apply spelled_cons | apply spelled_append_cons
    rfl
  · decide +kernel

/-! ## What edits leave lacking -/

theorem Pass.writes_subset {pass : Pass} (h : pass ≠ .desktopServices) : pass.writes ⊆ ordinaryTexts := by
  intro v hv
  have hm : pass ∈ Pass.apiPasses.erase .desktopServices := by
    have hne : pass.writes ≠ [] := ne_nil_of_mem hv
    revert h hne
    cases pass <;> decide
  exact mem_append_left _ (mem_flatten.mpr ⟨_, mem_map_of_mem hm, hv⟩)

section Edit

variable {line line' word : Text} (h : Edit line line') (hglue : line.hasAny gluePieces = false)

include h hglue

theorem Edit.lacks_of_apart
    (hw : ∀ pass : Pass, line.hasAny pass.seeks → ∀ v ∈ pass.writes, Apart v word)
    (htr : line.has ".translate" → ∀ v ∈ translationTexts, Apart v word)
    (hl : line.has word = false) : line'.has word = false := by
  cases h with
  | written pass hp ht => exact ht.lacks (hw pass hp) hl
  | translated hp ht => exact ht.lacks (htr hp) hl
  | glued hp =>
    rw [hglue] at hp
    cases hp

omit h hglue in
theorem apart_writes {pass : Pass} {v : Text} (hv : v ∈ pass.writes)
    (hw : word ∈ gluePieces ++ importWords ++ moduleNames ++ [(".translate" : Text)]) : Apart v word := by
  refine apart_of_apartAll apartAll_ordinary ?_ hw
  by_cases hp : pass = .desktopServices
  · exact mem_append_right _ (hp ▸ hv)
  · exact mem_append_left _ (Pass.writes_subset hp hv)

theorem Edit.lacks_quiet (hw : word ∈ gluePieces ++ importWords) (hl : line.has word = false) :
    line'.has word = false :=
  h.lacks_of_apart hglue (fun _ _ _ hv => apart_writes hv (mem_append_left _ (mem_append_left _ hw)))
    (fun _ _ hv => apart_of_apartAll apartAll_translation hv (mem_append_left _ hw)) hl

theorem Edit.lacks_place (hw : word ∈ placeWords) (hpl : line.hasAny placePieces = false)
    (hl : line.has word = false) : line'.has word = false := by
  refine h.lacks_of_apart hglue (fun pass hp v hv => ?_)
    (fun _ v hv => apart_of_apartAll apartAll_translation hv (mem_append_right _ hw)) hl
  refine apart_of_apartAll apartAll_place (Pass.writes_subset (fun hpa => ?_) hv) hw
  rw [hpa, Pass.seeks, hpl] at hp
  cases hp

end Edit

/-! ## Lines that are put in -/

theorem hasAny_indent_append {indent t : Text} (hi : ∀ c ∈ indent, isRowBlank c)
    {pieces : List Text} (hpi : ∀ piece ∈ pieces, piece.head?.any (fun c => !isRowBlank c))
    (h : t.hasAny pieces = false) : Text.hasAny (indent ++ t) pieces = false := by
  refine Text.hasAny_eq_false_iff.mpr fun piece hp => ?_
  have hl := Text.hasAny_eq_false_iff.mp h piece hp
  obtain ⟨c, hh, hc⟩ := (Option.any_eq_true _ _).mp (hpi piece hp)
  obtain ⟨cs, rfl⟩ := head?_eq_some_iff.mp hh
  refine Text.has_append_of_notMem hl fun hm => ?_
  rw [hi c hm] at hc
  cases hc

theorem exists_spelled_pieces : ∃ pieces, editPieces ++ placeWords = pieces ∧
    (pieces.all fun piece => (piece.head?.any fun c => !isRowBlank c) &&
      !Text.has "from PyQt5.QtWidgets import *\n" piece) := by
  apply Exists.intro
  apply And.intro
  · repeat first | apply spelled_cons | apply spelled_append_cons
    rfl
  · decide +kernel

theorem widgetsImport_lacks {indent : Text} (hi : ∀ c ∈ indent, isRowBlank c) :
    Text.hasAny (indent ++ "from PyQt5.QtWidgets import *\n") (editPieces ++ placeWords) = false := by
  obtain ⟨pieces, rfl, ha⟩ := exists_spelled_pieces
  simp only [all_eq_true, Bool.and_eq_true, Bool.not_eq_true'] at ha
  exact hasAny_indent_append hi (fun piece hp => (ha piece hp).1)
    (Text.hasAny_eq_false_iff.mpr fun piece hp => (ha piece hp).2)

theorem lacks_of_definition {line word : Text} (h : Traces definitionTexts [] line)
    (hw : word ∈ gluePieces ++ importWords ++ moduleNames ++ [(".translate" : Text)] ∨ word ∈ placeWords) :
    line.has word = false := by
  have ha : ∀ v ∈ definitionTexts, Apart v word := fun v hv => by
    have hv : v ∈ ordinaryTexts := mem_append_right _ hv
    rcases hw with hw | hw
    · exact apart_of_apartAll apartAll_ordinary (mem_append_left _ hv) hw
    · exact apart_of_apartAll apartAll_place hv hw
  refine h.lacks ha (Text.has_eq_false_iff.mpr fun hin => ?_)
  have he := ha "\ntry:\n" mem_cons_self
  rw [infix_nil.mp hin] at he
  cases he.2

end QtMigration
