import QtMigration.Proofs.Frame.Inherited

/-!
# Proofs/Frame/Unsought — lines that the passes for parts of the library do not look for

`editPieces` are all the pieces by which a pass for a part of the library finds the lines that it edits.
-/

namespace QtMigration

open List Text

variable {lines out : List Text} {pass : Pass} {p : Progress} {line line' piece : Text}

def editPieces : List Text :=
  (".translate" : Text) :: gluePieces ++ (Pass.apiPasses.map Pass.seeks).flatten

theorem mem_editPieces_of_glue (h : piece ∈ gluePieces) : piece ∈ editPieces :=
  mem_cons_of_mem _ (mem_append_left _ h)

theorem Pass.mem_apiPasses_of_seeks (h : pass.seeks ≠ []) : pass ∈ Pass.apiPasses := by
  revert h
  cases pass <;> simp [Pass.seeks, Pass.apiPasses]

theorem mem_editPieces_of_seeks (h : piece ∈ pass.seeks) : piece ∈ editPieces :=
  mem_cons_of_mem _ (mem_append_right _ (mem_flatten.mpr
    ⟨pass.seeks, mem_map_of_mem (Pass.mem_apiPasses_of_seeks (ne_nil_of_mem h)), h⟩))

theorem Text.hasAny_mono {s : Text} {pieces pieces' : List Text} (hs : pieces ⊆ pieces')
    (h : s.hasAny pieces) : s.hasAny pieces' := by
  obtain ⟨piece, hp, hh⟩ := any_eq_true.mp h
  exact hasAny_of_has (hs hp) hh

theorem Edit.sought (h : Edit line line') : line.hasAny editPieces := by
  cases h with
  | written pass hp => exact hasAny_mono (fun _ => mem_editPieces_of_seeks) hp
  | translated hp => exact hasAny_of_has mem_cons_self hp
  | glued hp => exact hasAny_mono (fun _ => mem_editPieces_of_glue) hp

theorem has_of_initLines {here : List Text} (h : initLines line = .ok here) : line.has "__init__" := by
  rw [initLines] at h
  obtain ⟨indent, -, h⟩ := bind_eq_ok.mp h
  split at h
  · cases h
  next tail ht =>
    by_contra hl
    rw [initTail?, splitOn_of_not_has (Bool.eq_false_iff.mpr hl)] at ht
    cases ht

theorem Pass.exists_part (hpa : pass ∈ apiPasses) (hpi : piece ∈ pass.soughtAnywhere ++ pass.soughtInCode) :
    ∃ part ∈ editPieces, part <:+: piece := by
  have ha : ∀ pass ∈ apiPasses, pass ≠ .variants → ∀ piece ∈ pass.soughtAnywhere ++ pass.soughtInCode,
      piece.hasAny (".translate" :: "AndFilter" :: "convertSeparators" :: pass.seeks) := by decide +kernel
  by_cases hv : pass = .variants
  · subst hv
    obtain ⟨m, hm, rfl⟩ := mem_map.mp hpi
    exact ⟨_, mem_editPieces_of_glue (mem_append_right _ (mem_map_of_mem hm)), (prefix_append _ _).isInfix⟩
  · obtain ⟨part, hp, hh⟩ := any_eq_true.mp (ha pass hpa hv piece hpi)
    refine ⟨part, ?_, has_iff_infix.mp hh⟩
    simp only [mem_cons] at hp
    rcases hp with rfl | rfl | rfl | hp
    · exact mem_cons_self
    · exact mem_editPieces_of_glue mem_cons_self
    · exact mem_editPieces_of_glue (by simp only [gluePieces, mem_append, mem_cons, true_or, or_true])
    · exact mem_editPieces_of_seeks hp

theorem Pass.leaves_of_unsought (hpass : pass ∈ apiPasses) (h : line.hasAny editPieces = false) : pass.Leaves line := by
  have hl : ∀ piece ∈ pass.soughtAnywhere ++ pass.soughtInCode, line.has piece = false := fun piece hp => by
    obtain ⟨part, hpa, hin⟩ := exists_part hpass hp
    exact has_eq_false_of_subneedle (hasAny_eq_false_iff.mp h part hpa) hin
  obtain ⟨ha, hc⟩ := forall_mem_append.mp hl
  refine ⟨hasAny_eq_false_iff.mpr ha, fun _ => hasAny_eq_false_iff.mpr hc, fun _ _ _ _ _ hinit => ?_⟩
  have hi : ("__init__" : Text) ∈ Pass.graphics.seeks := mem_cons_self
  have hn := hasAny_eq_false_iff.mp h _ (mem_editPieces_of_seeks hi)
  rw [has_of_initLines hinit] at hn
  cases hn

theorem mem_convertApi_of_lacks
    (h : convertApi p lines = .ok out) (hla : line.hasAny editPieces = false) (hl : line ∈ lines) :
    line ∈ out := by
  have hke : Keeps (· == line) lines out := convertApi_keeps
    (fun pass hp line' hk => pass.leaves_of_unsought hp (by rwa [eq_of_beq hk])) h
  exact hke.subset (mem_filter.mpr ⟨hl, BEq.rfl⟩)

end QtMigration
