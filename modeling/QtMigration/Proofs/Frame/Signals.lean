import QtMigration.Conversion
import QtMigration.Proofs.Frame.Keeps

/-!
# Proofs/Frame/Signals — the signal passes keep what they do not rewrite

Each pass rewrites the lines with an old-style call and may declare signals, which only puts lines in.
-/

namespace QtMigration

variable {d : Declared} {st : Declaring} {lines : List Text}

variable {keep : Text → Bool} {target : Target}

/-! ## Declarations -/

theorem insertDeclaration_sublist {p : Int} {decl : Text}
    (h : insertDeclaration lines p decl = .ok d) : lines.Sublist d.lines := by
  rw [insertDeclaration] at h
  have hd := sublist_insertAt lines (if lineAt? lines (p - 1) == some "\n" then p - 1 else p) decl
  split at h
  · cases h
  split at h
  all_goals obtain rfl := Except.ok.inj h
  · exact hd.trans (sublist_insertAt _ _ _)
  · exact hd

theorem declareSignal_sublist {i : Int} {signal : Text}
    (h : (declareSignal target lines i signal).outcome = .ok d) : lines.Sublist d.lines := by
  rw [declareSignal] at h
  obtain ⟨parts, -, h⟩ := Run.bind_eq_ok.mp h
  split at h
  · cases h
  · dsimp only at h
    split at h
    · cases h
    · obtain rfl := Except.ok.inj h
      exact List.Sublist.refl _
    · obtain ⟨indent, -, h⟩ := Run.bind_eq_ok.mp h
      exact insertDeclaration_sublist h

theorem visitLines_keeps {visit : Nat → List Text → Run Declared}
    (hv : ∀ i lines d, (visit i lines).outcome = .ok d → Keeps keep lines d.lines) :
    ∀ (n i : Nat) {st st' : Declaring}, (visitLines visit n i st).outcome = .ok st' → Keeps keep st.lines st'.lines
  | 0, _, st, st', h => by
    obtain rfl := Except.ok.inj h
    exact Keeps.refl _
  | n + 1, i, st, st', h => by
    rw [visitLines] at h
    obtain ⟨d, hd, h⟩ := Run.bind_eq_ok.mp h
    exact (hv i st.lines d hd).trans (visitLines_keeps hv n _ h)

/-! ## Emissions -/

def emitsNothing (line : Text) : Bool := !line.isCode || !line.has ".emit(" || !line.has "SIGNAL("

theorem emitAt_keeps (hke : ∀ line, keep line → emitsNothing line) (i : Nat)
    (lines : List Text) (d : Declared) (h : (emitAt target i lines).outcome = .ok d) :
    Keeps keep lines d.lines := by
  have hs : ∀ {d : Declared}, (pure ⟨lines, 0⟩ : Run Declared).outcome = .ok d →
      Keeps keep lines d.lines := fun h => by
    obtain rfl := Except.ok.inj h
    exact Keeps.refl _
  rw [emitAt] at h
  split at h
  · exact hs h
  next line hi =>
  split at h
  · exact hs h
  next he =>
  split at h
  · exact hs h
  · obtain ⟨args, -, h⟩ := Run.bind_eq_ok.mp h
    obtain ⟨⟨line', signal⟩, -, h⟩ := Run.bind_eq_ok.mp h
    have hl : keep line = false := Bool.eq_false_iff.mpr fun hk => he (hke line hk)
    exact (Keeps.set hi hl).trans_sublist (declareSignal_sublist h)

theorem updateEmissions_keeps (hk : ∀ line, keep line → emitsNothing line)
    (h : (updateEmissions target lines).outcome = .ok st) : Keeps keep lines st.lines :=
  visitLines_keeps (emitAt_keeps hk) _ _ h

/-! ## Connections -/

def callsNothing (verb line : Text) : Bool :=
  !line.isCode || !line.has ("." ++ verb ++ "(") || !line.has "SIGNAL("

theorem updateCall_of_callsNothing {verb line : Text} {parse : List Text → Run (Option Connection)}
    (h : callsNothing verb line) : updateCall verb parse line = pure none := by
  rw [updateCall]
  exact if_pos h

theorem connectAt_keeps (hke : ∀ line, keep line → callsNothing "connect" line)
    (i : Nat) (lines : List Text) (d : Declared) (h : (connectAt target i lines).outcome = .ok d) :
    Keeps keep lines d.lines := by
  rw [connectAt] at h
  split at h
  · obtain rfl := Except.ok.inj h
    exact Keeps.refl _
  next line hi =>
    obtain ⟨call, hc, h⟩ := Run.bind_eq_ok.mp h
    cases call with
    | none =>
      obtain rfl := Except.ok.inj h
      exact Keeps.refl _
    | some call =>
      have hl : keep line = false := Bool.eq_false_iff.mpr fun hk => by
        rw [updateCall_of_callsNothing (hke line hk)] at hc
        cases hc
      have hs : Keeps keep lines (lines.set i call.1) := Keeps.set hi hl
      dsimp only at h
      split at h
      · obtain rfl := Except.ok.inj h
        exact hs
      · exact hs.trans_sublist (declareSignal_sublist h)

theorem updateConnections_keeps
    (hk : ∀ line, keep line → callsNothing "connect" line)
    (h : (updateConnections target lines).outcome = .ok st) : Keeps keep lines st.lines :=
  visitLines_keeps (connectAt_keeps hk) _ _ h

theorem updateDisconnections_keeps (hke : ∀ line, keep line → callsNothing "disconnect" line) :
    ∀ (lines : List Text) {out : List Text}, (updateDisconnections target lines).outcome = .ok out →
      Keeps keep lines out
  | [], out, _ => List.nil_sublist out
  | line :: lines, out, h => by
    rw [updateDisconnections] at h
    obtain ⟨line', hl, h⟩ := Run.bind_eq_ok.mp h
    obtain ⟨rest, hr, h⟩ := Run.bind_eq_ok.mp h
    obtain rfl := Except.ok.inj h
    refine (updateDisconnections_keeps hke lines hr).cons fun hk => ?_
    rw [disconnectLine, updateCall_of_callsNothing (hke line hk)] at hl
    exact (Except.ok.inj hl).symm

/-! ## All signal passes -/

theorem convertSignals_keeps (hem : ∀ line, keep line → emitsNothing line)
    (hco : ∀ line, keep line → callsNothing "connect" line)
    (hd : ∀ line, keep line → callsNothing "disconnect" line)
    (hs : ∀ line, keep line → signalDecorator target line = line)
    (hsl : ∀ line, keep line → slotDecorator target line = line)
    (h : (convertSignals target lines).outcome = .ok st) : Keeps keep lines st.lines := by
  rw [convertSignals] at h
  obtain ⟨emitted, he, h⟩ := Run.bind_eq_ok.mp h
  obtain ⟨connected, hc, h⟩ := Run.bind_eq_ok.mp h
  obtain ⟨cut, hcut, h⟩ := Run.bind_eq_ok.mp h
  obtain rfl := Except.ok.inj h
  exact (updateEmissions_keeps hem he).trans <| (updateConnections_keeps hco hc).trans <|
    (updateDisconnections_keeps hd _ hcut).trans <|
    (map_keeps hs _).trans (map_keeps hsl _)

end QtMigration
