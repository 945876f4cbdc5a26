import QtMigration.Proofs.Frame.Pipeline

/-!
# Proofs/Frame/OldLibrary — a conversion for the old library touches signals and imports only

A conversion that stays with the old library runs the signal passes and the import pass.
-/

namespace QtMigration

/-- What marks the lines that a conversion for the old library may rewrite. -/
def signalMarks : List Text := ["SIGNAL(", "@pyqtSignature", "@pyqtSignal", "@pyqtSlot", noteMark]

/-- **A line without signals**: it has none of the marks and is no import statement. -/
def unsignalled (line : Text) : Bool := !line.hasAny signalMarks && !(line.isCode && line.isImport)

section Line

variable {line : Text} (h : unsignalled line = true)

include h

theorem unsignalled_lacks {mark : Text} (hm : mark ∈ signalMarks) : line.has mark = false := by
  rw [unsignalled, Bool.and_eq_true, Bool.not_eq_true', Text.hasAny_eq_false_iff] at h
  exact h.1 mark hm

theorem unsignalled_emitsNothing : emitsNothing line := by
  rw [emitsNothing, unsignalled_lacks h (show ("SIGNAL(" : Text) ∈ signalMarks by simp [signalMarks])]
  simp

theorem unsignalled_callsNothing (verb : Text) : callsNothing verb line := by
  rw [callsNothing, unsignalled_lacks h (show ("SIGNAL(" : Text) ∈ signalMarks by simp [signalMarks])]
  simp

theorem unsignalled_signalDecorator (target : Target) : signalDecorator target line = line := by
  rw [signalDecorator, unsignalled_lacks h (by simp [signalMarks]), if_neg (by decide)]

theorem unsignalled_slotDecorator (target : Target) : slotDecorator target line = line := by
  rw [slotDecorator, Text.replaceAll_of_not_has (unsignalled_lacks h (by simp [signalMarks])),
    unsignalled_lacks h (by simp [signalMarks]), if_neg (by decide)]

theorem unsignalled_importLine (indent : Text) (p : Progress) :
    importLine ⟨.old, indent⟩ p line = .ok ([line], p) := by
  rw [importLine]
  split
  · rfl
  next hc =>
    rw [Bool.not_eq_true', Bool.not_eq_false] at hc
    rw [unsignalled, hc, Bool.true_and, Bool.and_eq_true, Bool.not_eq_true', Bool.not_eq_true'] at h
    rw [h.2]
    rfl

theorem unsignalled_unmarked : unmarked line = line := by
  rw [unmarked, isNote, unsignalled_lacks h (by simp [signalMarks]), Bool.and_false, if_neg (by decide)]

end Line

/-! ## A whole conversion -/

theorem runPasses_keeps_unsignalled {s : Survey} {indent : Text} {lines out : List Text}
    (h : (runPasses .old s indent lines).outcome = .ok out) : Keeps unsignalled lines out := by
  obtain ⟨st, p', hst, hi⟩ := runPasses_old_stages h
  have hs : Keeps unsignalled lines st.lines := by
    split at hst
    · exact convertSignals_keeps (fun _ => unsignalled_emitsNothing)
        (fun _ hu => unsignalled_callsNothing hu _) (fun _ hu => unsignalled_callsNothing hu _)
        (fun _ hu => unsignalled_signalDecorator hu _) (fun _ hu => unsignalled_slotDecorator hu _) hst
    · obtain rfl := Except.ok.inj hst
      exact Keeps.refl _
  exact hs.trans (updateImports_keeps (fun q _ hu => unsignalled_importLine hu _ q) hi)

theorem convertLines_keeps_unsignalled {lines out : List Text}
    (h : (convertLines .old lines).outcome = .ok (some out)) : Keeps unsignalled lines out := by
  obtain ⟨-, indent, ho⟩ := exists_runPasses h
  exact runPasses_keeps_unsignalled ho

/-- **Lines without signals come through a conversion for the old library.**  Whenever it gets so far that
lines are saved, those of the source that have no signals are a subsequence of the saved ones. -/
theorem saved_keeps_unsignalled {lines out : List Text} (hrun : (convertLines .old lines).outcome = .ok (some out)) :
    Keeps unsignalled lines (collectNotes out).1 ∧ ∀ path file, (readSource path file).outcome = .ok (.lines lines) →
        (convertSource .old path file).saved? =
          (Codec.ofLabel? ((readSource path file).encoding.getD [])).bind fun codec =>
            codec.encode? (collectNotes out).1.flatten :=
  ⟨(convertLines_keeps_unsignalled hrun).trans (map_keeps (fun _ => unsignalled_unmarked) out),
    fun _ _ hread => convertSource_saved? hread hrun⟩

def connectingLines : List Text := ["import SLOT\n", "x.connect(y, SIGNAL('s'), z)\n", "n = 1\n"]

/-- The import has lost its name, and the connection is written the new way. -/
def connectingOut : List Text := ["y.s.connect(z)\n", "n = 1\n"]

theorem saved_keeps_unsignalled_connectingLines :
    (convertLines .old connectingLines).outcome = .ok (some connectingOut) ∧
      Keeps unsignalled connectingLines (collectNotes connectingOut).1 := by
  have hrun : (convertLines .old connectingLines).outcome = .ok (some connectingOut) := by
    decide +kernel
  exact ⟨hrun, (saved_keeps_unsignalled hrun).1⟩

end QtMigration
