import QtMigration.Proofs.Frame.Pipeline

/-!
# Proofs/Retarget/Noted — what the module passes note

A module pass notes the modules that it writes, and nothing else.
-/

namespace QtMigration

variable {classes lines out : List Text} {p p' : Progress} {r : Retargeted} {line name other : Text}

/-! ## Notes -/

theorem Progress.uses_note : (p.note name).uses other ↔ other = name ∨ p.uses other := by
  rw [note]
  split
  next hu =>
    refine ⟨.inr, fun h => h.elim (fun heq => ?_) id⟩
    rwa [heq]
  next => rw [uses, uses, List.contains_cons, Bool.or_eq_true, beq_iff_eq]

def notedNames : List Text := ["QtMultimedia", "QSound", "QtCore"]

theorem moduleOf_notes_only {old new : Text} (h : (moduleOf old new classes p name).2.uses other) :
    p.uses other ∨ other ∈ old :: new :: notedNames := by
  rw [moduleOf] at h
  split at h
  · rcases Progress.uses_note.mp h with rfl | h
    · exact .inr (by simp [notedNames])
    · rcases Progress.uses_note.mp h with rfl | h
      · exact .inr (by simp [notedNames])
      · exact .inl h
  split at h
  · rcases Progress.uses_note.mp h with rfl | h
    · exact .inr (by simp [notedNames])
    · exact .inl h
  split at h
  · exact (Progress.uses_note.mp h).symm.imp_right fun heq => by simp [heq]
  · exact (Progress.uses_note.mp h).symm.imp_right fun heq => by simp [heq]

/-! ## What looking names up keeps -/

section Kept

variable {I : Progress → Prop}

section Choice

variable {choose : Progress → Text → Text × Progress} (hI : ∀ p name, I p → I (choose p name).2)

include hI

theorem Retargeting.next_progress {r : Retargeting} (h : I r.progress) : I (r.next choose).progress := by
  rw [next]
  split
  · exact h
  · exact hI _ _ h

theorem Retargeting.pieces_progress : ∀ (r : Retargeting) (ps : List Text), I r.progress →
    I (r.pieces choose ps).progress
  | _, [], h => h
  | _, [_], h => h
  | r, piece :: next :: rest, h => by
    rw [pieces]
    split
    · exact pieces_progress r (next :: rest) h
    · exact pieces_progress _ (next :: rest) (next_progress hI h)
    · simp

end Choice

section Pass

variable {old new : Text} (hI : ∀ classes p name, I p → I (moduleOf old new classes p name).2)

include hI

theorem retargetNames_progress {names : List Text}
    (h : retargetNames old new classes p line names = .ok r) (hp : I p) : I r.progress := by
  rw [retargetNames] at h
  dsimp only at h
  generalize hr : Retargeting.pieces (moduleOf old new classes)
    (if line.startsWith old then (⟨names, [], 0, p⟩ : Retargeting).next (moduleOf old new classes)
      else ⟨names, [], 0, p⟩) (line.splitOn old) = pieces at h
  have hpi : I pieces.progress := by
    rw [← hr]
    refine Retargeting.pieces_progress (hI classes) _ _ ?_
    split
    · exact Retargeting.next_progress (hI classes) hp
    · exact hp
  split at h
  · obtain rfl := Except.ok.inj h
    exact hpi
  · obtain ⟨indent, -, hpu⟩ := bind_eq_ok.mp h
    obtain rfl := Except.ok.inj hpu
    exact hpi

theorem retargetLine_progress (h : retargetLine old new classes p line = .ok r) (hp : I p) : I r.progress := by
  rw [retargetLine] at h
  split at h
  · obtain rfl := Except.ok.inj h
    exact hp
  split at h
  · cases h
  split at h
  · obtain rfl := Except.ok.inj h
    exact hp
  · exact retargetNames_progress hI h hp

theorem retargetGo_progress {classes : List Text} : ∀ (skip : Nat) (lines : List Text) {p p' : Progress}
    {out : List Text}, retargetGo old new classes skip p lines = .ok (out, p') → I p → I p'
  | _, [], p, p', out, h, hp => by
    unfold retargetGo at h
    cases h
    exact hp
  | skip + 1, _ :: lines, p, p', out, h, hp => retargetGo_progress skip lines h hp
  | 0, line :: lines, p, p', out, h, hp => by
    obtain ⟨r, rest, hr, hre, -⟩ := retargetGo_cons_eq_ok.mp h
    exact retargetGo_progress _ lines hre (retargetLine_progress hI hr hp)

theorem retarget_progress (h : retarget old new p lines = .ok (out, p')) (hp : I p) : I p' := by
  rw [retarget] at h
  split at h
  · cases h
  · exact retargetGo_progress hI 0 lines h hp

end Pass

theorem retargetAll_progress : ∀ {passes : List (Text × Text)},
    (∀ pass ∈ passes, ∀ classes p name, I p → I (moduleOf pass.1 pass.2 classes p name).2) →
    ∀ {p p' : Progress} {lines out : List Text}, retargetAll passes p lines = .ok (out, p') → I p → I p'
  | [], _, p, p', lines, out, h, hp => by
    cases h
    exact hp
  | (old, new) :: passes, hI, p, p', lines, out, h, hp => by
    obtain ⟨ht, ho⟩ := List.forall_mem_cons.mp hI
    rw [retargetAll] at h
    obtain ⟨⟨lines', q⟩, hr, h⟩ := bind_eq_ok.mp h
    exact retargetAll_progress ho h (retarget_progress ht hr hp)

end Kept

theorem retargetAll_notes_only {passes : List (Text × Text)} (hp : p.uses name = false)
    (hn : ∀ pass ∈ passes, name ∉ pass.1 :: pass.2 :: notedNames)
    (h : retargetAll passes p lines = .ok (out, p')) : p'.uses name = false := by
  refine retargetAll_progress (I := fun q => q.uses name = false) (fun pass hpa classes q other hq => ?_) h hp
  refine Bool.eq_false_iff.mpr fun hu => ?_
  rcases moduleOf_notes_only hu with ho | hm
  · rw [hq] at ho
    cases ho
  · exact hn pass hpa hm

end QtMigration
