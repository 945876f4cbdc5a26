import QtMigration.Proofs.Alphabet.Imports
import QtMigration.Proofs.Frame.Inherited

/-!
# Proofs/Alphabet/Api — the passes for parts of the library stay within an alphabet

Edits write plain texts between parts of the line, and what is put in is plain; so the alphabet of a line is
inherited (`inherited_spells`).
-/

namespace QtMigration

namespace Alphabet

variable {A : Alphabet}

/-! ## Conversions from UTF-8 -/

theorem unwrapGo_spells : ∀ (limit : Nat) {line line' : Text}, A.Spells line →
    unwrapGo limit line = .ok line' → A.Spells line'
  | 0, _, _, _, h => by cases h
  | limit + 1, line, line', hl, h => by
    rw [unwrapGo] at h
    obtain ⟨⟨opening, closing⟩, -, h⟩ := bind_eq_ok.mp h
    dsimp only at h
    split at h
    · obtain rfl := Except.ok.inj h
      exact hl
    · refine unwrapGo_spells limit ?_ h
      exact ((hl.takeTo _).append (hl.slice _ _)).append (hl.drop _)

theorem unwrapLine_spells {line line' : Text} (hl : A.Spells line)
    (h : unwrapLine line = .ok line') : A.Spells line' :=
  unwrapGo_spells _ (hl.replaceEach_plain (by decide)) h

theorem removeConversionsGo_spells : ∀ (skip : Nat) (before lines : List Text) {out : List Text},
    A.SpellsAll before → A.SpellsAll lines → removeConversionsGo skip before lines = .ok out → A.SpellsAll out
  | _, before, [], out, hb, _, h => by
    obtain rfl : before.reverse = out := by
      unfold removeConversionsGo at h
      exact Except.ok.inj h
    exact hb.reverse
  | skip + 1, before, _ :: lines, out, hb, hl, h =>
    removeConversionsGo_spells skip before lines hb (spellsAll_cons.mp hl).2 h
  | 0, before, line :: lines, out, hb, hl, h => by
    obtain ⟨hli, hl⟩ := spellsAll_cons.mp hl
    have ih : ∀ {line' : Text}, A.Spells line' →
        removeConversionsGo 0 (line' :: before) lines = .ok out → A.SpellsAll out :=
      fun hli' => removeConversionsGo_spells 0 _ lines (spellsAll_cons.mpr ⟨hli', hb⟩) hl
    rw [removeConversionsGo] at h
    split at h
    · exact ih hli h
    split at h
    · obtain ⟨indent, hi, h⟩ := bind_eq_ok.mp h
      exact ih ((A.spells_indent hi).append_plain (by decide)) h
    split at h
    · exact removeConversionsGo_spells _ _ lines (hb.drop 1) hl h
    · obtain ⟨line', hli', h⟩ := bind_eq_ok.mp h
      exact ih (unwrapLine_spells hli hli') h

/-! ## Parts of the library -/

theorem writes_isPlain (pass : Pass) : ∀ v ∈ pass.writes, v ≠ [] ∧ isPlain v := by
  cases pass <;> decide

theorem Spells.edit {line line' : Text} (hl : A.Spells line) (h : Edit line line') : A.Spells line' := by
  cases h with
  | written pass _ h => exact hl.traces h (writes_isPlain pass)
  | translated _ h => exact hl.traces h (by decide)
  | glued _ h => exact h A hl

theorem Spells.fresh {line : Text} (h : Fresh line) : A.Spells line := by
  cases h with
  | widgets indent hi => exact (A.spells_of_isRowBlank hi).append_plain (by decide)
  | definition h => exact A.spells_nil.traces h (by decide)

theorem Spells.note {line : Text} (h : Note line) : A.Spells line := by
  cases h with
  | comment hi hr => exact (A.spells_of_isRowBlank hi).append_plain (isPlain_ofList hr)

theorem inherited_spells (A : Alphabet) : Inherited A.Spells :=
  ⟨fun _ _ hl h _ => hl.edit h, fun _ => .fresh, fun _ => .note, A.spells_of_isPlain (by decide)⟩

theorem convertApi_spells {p : Progress} {lines out : List Text} (hl : A.SpellsAll lines)
    (h : convertApi p lines = .ok out) : A.SpellsAll out :=
  convertApi_inherited A.inherited_spells hl h

end Alphabet

end QtMigration
