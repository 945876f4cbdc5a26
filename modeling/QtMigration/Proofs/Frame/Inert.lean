import QtMigration.Proofs.Frame.Passes

/-!
# Proofs/Frame/Inert — lines that no pass has business with

What a pass looks for in a line has a dot, one of the letters `Q` and `q`, an at sign or a dollar sign in it,
or is an import statement, a conversion from UTF-8 or a call of a base class.
-/

namespace QtMigration

def activePieces : List Text := [".", "Q", "q", "@", "$", "_fromUtf8", "super("]

def inert (line : Text) : Bool := !line.hasAny activePieces && !line.isImport

def isMark (c : Char) : Bool := c == '.' || c == 'Q' || c == 'q' || c == '@' || c == '$'

section Line

variable {line : Text} (h : inert line = true)

include h

theorem inert_not_import : line.isImport = false := by
  rw [inert, Bool.and_eq_true, Bool.not_eq_true', Bool.not_eq_true'] at h
  exact h.2

theorem inert_lacks {piece : Text} (hp : piece ∈ activePieces) : line.has piece = false := by
  rw [inert, Bool.and_eq_true, Bool.not_eq_true'] at h
  exact Text.hasAny_eq_false_iff.mp h.1 piece hp

theorem inert_lacks_marked {piece : Text} (hp : piece.any isMark) : line.has piece = false := by
  obtain ⟨c, hc, hm⟩ := List.any_eq_true.mp hp
  have ha : [c] ∈ activePieces := by
    simp only [isMark, Bool.or_eq_true, beq_iff_eq] at hm
    rcases hm with (((rfl | rfl) | rfl) | rfl) | rfl <;> decide
  obtain ⟨front, rest, rfl⟩ := List.append_of_mem hc
  exact Text.has_eq_false_of_subneedle (inert_lacks h ha) ⟨front, rest, by simp⟩

theorem inert_lacks_any {pieces : List Text} (hp : ∀ p ∈ pieces, p.any isMark) : line.hasAny pieces = false :=
  Text.hasAny_eq_false_iff.mpr fun p hpm => inert_lacks_marked h (hp p hpm)

/-! ## Signals, modules and imports -/

theorem inert_emitsNothing : emitsNothing line := by
  rw [emitsNothing, inert_lacks_marked h (by decide), Bool.not_false, Bool.or_true, Bool.true_or]

theorem inert_callsNothing (verb : Text) : callsNothing verb line := by
  have hm : line.has ("." ++ verb ++ "(") = false := inert_lacks_marked h (by simp [isMark])
  rw [callsNothing, hm, Bool.not_false, Bool.or_true, Bool.true_or]

theorem inert_signalDecorator (target : Target) : signalDecorator target line = line :=
  signalDecorator_of_lacks target (inert_lacks_marked h (by decide))

theorem inert_slotDecorator (target : Target) : slotDecorator target line = line :=
  slotDecorator_of_lacks target (inert_lacks_any h (by decide))

theorem inert_newLibraryLine (cfg : Settings) (p : Progress) :
    newLibraryLine cfg p line.trimLeft line = .ok ([line], p) :=
  newLibraryLine_of_lacks cfg p (inert_lacks_marked h (by decide))

theorem inert_importLine (cfg : Settings) (p : Progress) : importLine cfg p line = .ok ([line], p) := by
  simp only [importLine, inert_not_import h, Bool.false_and, Bool.false_eq_true, if_false, inert_newLibraryLine h]
  split
  · rfl
  · split <;> rfl

/-! ## Conversions from UTF-8 -/

theorem inert_unwrapLine {line' : Text} (hu : unwrapLine line = .ok line') : line' = line := by
  refine unwrapLine_of_lacks (Text.hasAny_eq_false_iff.mpr (List.forall_mem_cons.mpr ⟨?_, ?_⟩)) hu
  · exact inert_lacks h (by decide)
  · exact Text.hasAny_eq_false_iff.mp (inert_lacks_any h (by decide))

/-! ## Parts of the library -/

theorem inert_not_initialisesBase (name : Option Text) (item : Text) :
    initialisesBase (superCall name) item line = false := by
  have hc : line.trimLeft.startsWith (superCall name) = false := by
    refine Bool.eq_false_iff.mpr fun hs => ?_
    rw [Text.startsWith, List.isPrefixOf_iff_prefix] at hs
    have hsu : Text.has line "super(" = false := inert_lacks h (by decide)
    exact Text.has_eq_false_iff.mp hsu
      (((List.prefix_append _ _).trans hs).isInfix.trans (List.dropWhile_suffix _).isInfix)
  rw [initialisesBase, hc, inert_lacks_marked h (by simp [isMark]), Bool.false_or]

theorem inert_leaves {pass : Pass} (hp : pass ∈ Pass.apiPasses) : pass.Leaves line := by
  have hm : ∀ pass ∈ Pass.apiPasses, ∀ piece ∈ pass.soughtAnywhere ++ pass.soughtInCode,
      piece.any isMark := by decide +kernel
  obtain ⟨ha, hc⟩ := List.forall_mem_append.mp (hm pass hp)
  refine ⟨inert_lacks_any h ha, fun _ => inert_lacks_any h hc, fun name item _ _ hb => ?_⟩
  rw [inert_not_initialisesBase h] at hb
  cases hb

theorem inert_unmarked : unmarked line = line := unmarked_of_lacks (inert_lacks_marked h (by decide))

end Line

end QtMigration
