import Mathlib.Data.List.Basic
import QtMigration.Signal.Connection
import QtMigration.Proofs.Failure
import QtMigration.Proofs.Line.Indent
import QtMigration.Proofs.Text.Split
import QtMigration.Proofs.Text.Trim

/-!
# Proofs/Signal/Disconnection — disconnections are rewritten like the connections they undo

`disconnecting` is a line with `disconnect` called where `connect` was.
-/

namespace QtMigration

open List Text

/-! ## The line with the other call -/

/-- The line with the signal disconnected where it was connected. -/
def disconnecting (line : Text) : Text := line.replaceAll ".connect(" ".disconnect("

theorem connect_eq : (".connect(" : Text) = (".connect" : Text) ++ ['('] := by decide

theorem disconnect_eq : (".disconnect(" : Text) = (".disconnect" : Text) ++ ['('] := by decide

theorem exists_call {line : Text} (hone : (line.splitOn ".connect(").length = 2)
    (hnone : line.has ".disconnect(" = false) :
    ∃ before behind : Text, line = before ++ (".connect(" ++ behind) ∧
      disconnecting line = before ++ (".disconnect(" ++ behind) ∧
      line.splitOn ".connect(" = [before, behind] ∧
      (disconnecting line).splitOn ".disconnect(" = [before, behind] := by
  obtain ⟨before, behind, hs⟩ := length_eq_two.mp hone
  have hw : before ++ (".connect(" ++ behind) = line := by
    simpa using flatten_splitOn (by decide) hs
  have hl : ∀ piece ∈ [before, behind], Text.has piece ".connect(" = false := fun piece hp =>
    has_eq_false_iff.mpr (splitOn_lacks (by decide) (hs ▸ hp))
  have hb := hl before (by simp)
  have hbe := hl behind (by simp)
  have hpa : ∀ {piece : Text}, piece <:+: line → piece.has ".disconnect(" = false := fun hp =>
    has_eq_false_iff.mpr fun h => has_eq_false_iff.mp hnone (h.trans hp)
  have ho : disconnecting line = before ++ (".disconnect(" ++ behind) := by
    rw [disconnecting, ← hw]
    rw [connect_eq] at hb hbe ⊢
    rw [replaceAll_pass _ before fun k hk =>
        not_prefix_drop_of_not_has (by decide) hb hk,
      replaceAll_self_append (by decide), replaceAll_of_not_has hbe]
  refine ⟨before, behind, hw.symm, ho, hs, ?_⟩
  have hf := hpa (hw ▸ infix_append [] before _)
  have hba := @hpa behind ⟨before ++ ".connect(", [], by simp [← hw]⟩
  rw [ho]
  rw [disconnect_eq] at hf hba ⊢
  exact splitOn_eq_pair (by decide) hf hba

theorem Text.margin_append_cons {c : Char} (hc : isRowBlank c = false) : ∀ (s t t' : Text),
    margin (s ++ c :: t) = margin (s ++ c :: t') := by
  intro s t t'
  have ht : ∀ u : Text, (s ++ c :: u).takeWhile isRowBlank = s.takeWhile isRowBlank := fun u => by
    rw [takeWhile_append, takeWhile_cons_of_neg (by simp [hc]), append_nil]
    split
    next ha =>
      exact ( takeWhile_prefix isRowBlank).eq_of_length ha |>.symm
    next => rfl
  have hh : ∀ u : Text, ((s ++ c :: u).dropWhile isRowBlank).head? =
      some (((s.dropWhile isRowBlank).head?).getD c) := fun u => by
    rw [dropWhile_append]
    cases s.dropWhile isRowBlank with
    | nil => simp [hc]
    | cons d ds => simp
  obtain ⟨cs, hcs⟩ := head?_eq_some_iff.mp (hh t)
  obtain ⟨cs', hcs'⟩ := head?_eq_some_iff.mp (hh t')
  rw [margin, margin, hcs, hcs', ht, ht]

section Lines

variable {line : Text} (hone : (line.splitOn ".connect(").length = 2)
  (hnone : line.has ".disconnect(" = false)

include hone hnone

theorem isCode_disconnecting : (disconnecting line).isCode = line.isCode := by
  obtain ⟨before, behind, hl, ho, -, -⟩ := exists_call hone hnone
  rw [ho, hl]
  exact (isCode_append_cons (by decide) before ("disconnect(" ++ behind)).trans
    (isCode_append_cons (by decide) before ("connect(" ++ behind)).symm

theorem margin_disconnecting : (disconnecting line).margin = line.margin := by
  obtain ⟨before, behind, hl, ho, -, -⟩ := exists_call hone hnone
  rw [ho, hl]
  exact margin_append_cons (by decide) before ("disconnect(" ++ behind) ("connect(" ++ behind)

theorem has_signal_disconnecting (hs : line.has "SIGNAL(") :
    (disconnecting line).has "SIGNAL(" := by
  obtain ⟨before, behind, hli, ho, -, -⟩ := exists_call hone hnone
  rw [ho]
  rw [hli, has_iff_infix] at hs
  rw [ has_iff_infix]
  rcases infix_or_infix_of_head (x := '.') (by decide) hs with h | h
  · exact h.trans (infix_append [] before _)
  · -- the name does not begin inside the method
    by_contra hl
    have hb : behind.has "SIGNAL(" = false := has_eq_false_iff.mpr fun hin =>
      hl (hin.trans ⟨before ++ ".disconnect(", [], by simp⟩)
    have hn := @Text.has_append_of_notMem 'S' "IGNAL(" behind hb ".connect(" (by decide)
    exact has_eq_false_iff.mp hn h

theorem callContent?_disconnecting :
    callContent? (disconnecting line) ".disconnect(" = callContent? line ".connect(" := by
  obtain ⟨before, behind, -, -, hs, hs'⟩ := exists_call hone hnone
  rw [callContent?, callContent?, hs, hs']

end Lines

/-! ## The two readers -/

/-- **The arguments have a form that both calls know**: there are three of them, or four, the fourth of
which declares a slot or a signal while the third does not. -/
def isPaired : List Text → Bool
  | [_, _, _] => true
  | [_, _, third, fourth] => isDeclared fourth && !isDeclared third
  | _ => false

theorem ofDisconnect?_of_isPaired (target : Target) : ∀ {args : List Text}, isPaired args →
    Connection.ofDisconnect? target args = Connection.ofConnect? target args
  | [_, _, _], _ => rfl
  | [_, _, third, fourth], h => by
    rw [isPaired, Bool.and_eq_true, Bool.not_eq_true'] at h
    obtain ⟨hf, ht⟩ := h
    simp only [Connection.ofDisconnect?, Connection.ofConnect?, hf, ht]
    rfl

theorem updateCall_cases {verb line content : Text} {args : List Text}
    {parse : List Text → Run (Option Connection)} {r : Option (Text × Connection)}
    (hco : line.isCode) (hs : line.has "SIGNAL(")
    (hc : callContent? line ("." ++ verb ++ "(") = some content)
    (ha : splitArguments content = .ok args) (hm : line.has ("." ++ verb ++ "("))
    (h : (updateCall verb parse line).outcome = .ok r) :
    ((parse args).outcome = .ok none ∧ r = none) ∨
      ∃ c, (parse args).outcome = .ok (some c) ∧ r = some (c.render line.margin verb, c) := by
  rw [updateCall] at h
  rw [hco, hs, hm, hc] at h
  obtain ⟨args', ha', h⟩ := Run.bind_eq_ok.mp h
  obtain rfl : args = args' := Except.ok.inj (ha.symm.trans ha')
  obtain ⟨call, hca, h⟩ := Run.bind_eq_ok.mp h
  cases call with
  | none =>
    obtain ⟨-, -, h⟩ := Run.bind_eq_ok.mp h
    exact .inl ⟨hca, (Except.ok.inj h).symm⟩
  | some c =>
    obtain ⟨indent, hi, h⟩ := Run.bind_eq_ok.mp h
    obtain rfl := indent_eq_margin hi
    exact .inr ⟨c, hca, (Except.ok.inj h).symm⟩

theorem updateCall_alike {target : Target} {line content : Text} {args : List Text}
    (hco : line.isCode) (hone : (line.splitOn ".connect(").length = 2)
    (hnone : line.has ".disconnect(" = false) (hs : line.has "SIGNAL(")
    (hc : callContent? line ".connect(" = some content)
    (ha : splitArguments content = .ok args) (hf : isPaired args)
    {call call' : Option (Text × Connection)}
    (h : (updateCall "connect" (Connection.ofConnect? target) line).outcome = .ok call)
    (h' : (updateCall "disconnect" (Connection.ofDisconnect? target) (disconnecting line)).outcome = .ok call') :
    (call = none ∧ call' = none) ∨ ∃ c : Connection, call = some (c.render line.margin "connect", c) ∧
        call' = some (c.render line.margin "disconnect", c) := by
  obtain ⟨before, behind, hli, ho, -, -⟩ := exists_call hone hnone
  have hm : line.has ".connect(" := by
    rw [hli]
    exact has_iff_infix.mpr ⟨before, behind, by simp⟩
  have hm' : (disconnecting line).has ".disconnect(" := by
    rw [ho]
    exact has_iff_infix.mpr ⟨before, behind, by simp⟩
  have hl := updateCall_cases hco hs hc ha hm h
  have hri := updateCall_cases ((isCode_disconnecting hone hnone).trans hco)
    (has_signal_disconnecting hone hnone hs)
    ((callContent?_disconnecting hone hnone).trans hc) ha hm' h'
  rw [margin_disconnecting hone hnone, ofDisconnect?_of_isPaired target hf] at hri
  rcases hl with ⟨hr, rfl⟩ | ⟨c, hr, rfl⟩
  · rcases hri with ⟨-, rfl⟩ | ⟨c', hr', -⟩
    · exact .inl ⟨rfl, rfl⟩
    · cases hr.symm.trans hr'
  · rcases hri with ⟨hr', -⟩ | ⟨c', hr', rfl⟩
    · cases hr.symm.trans hr'
    · cases hr.symm.trans hr'
      exact .inr ⟨c, rfl, rfl⟩

/-! ## The two passes -/

/-- The lines with `line'` written at `i` for a connection; a signal that it relays to is declared. -/
def Connection.writeAt (c : Connection) (target : Target) (lines : List Text) (i : Nat) (line' : Text) :
    Run Declared :=
  if c.relayed.isEmpty then return ⟨lines.set i line', 0⟩
  else declareSignal target (lines.set i line') i c.relayed

theorem connectAt_eq_ok {target : Target} {i : Nat} {lines : List Text} {line : Text} {r : Declared}
    (hl : lines[i]? = some line) (h : (connectAt target i lines).outcome = .ok r) :
    ∃ call, (updateCall "connect" (Connection.ofConnect? target) line).outcome = .ok call ∧
      ((call = none ∧ r.lines = lines) ∨
        ∃ line' c, call = some (line', c) ∧ (c.writeAt target lines i line').outcome = .ok r) := by
  rw [connectAt, hl] at h
  obtain ⟨call, hc, h⟩ := Run.bind_eq_ok.mp h
  refine ⟨call, hc, ?_⟩
  cases call with
  | none =>
    obtain rfl := Except.ok.inj h
    exact .inl ⟨rfl, rfl⟩
  | some found => exact .inr ⟨found.1, found.2, rfl, h⟩

theorem disconnectLine_eq_ok {target : Target} {line written : Text}
    (h : (disconnectLine target line).outcome = .ok written) :
    ∃ call, (updateCall "disconnect" (Connection.ofDisconnect? target) line).outcome = .ok call ∧
      ((call = none ∧ written = line) ∨ ∃ c, call = some (written, c)) := by
  obtain ⟨call, hc, h⟩ := Run.bind_eq_ok.mp h
  refine ⟨call, hc, ?_⟩
  cases call with
  | none => exact .inl ⟨rfl, (Except.ok.inj h).symm⟩
  | some found =>
    obtain rfl : found.1 = written := Except.ok.inj h
    exact .inr ⟨found.2, rfl⟩

theorem exists_disconnectLine {target : Target} {line : Text} {below : List Text} :
    ∀ {above out : List Text}, (updateDisconnections target (above ++ line :: below)).outcome = .ok out →
      ∃ written, out[above.length]? = some written ∧ (disconnectLine target line).outcome = .ok written
  | [], out, h => by
    obtain ⟨written, hw, h⟩ := Run.bind_eq_ok.mp h
    obtain ⟨rest, -, h⟩ := Run.bind_eq_ok.mp h
    obtain rfl := Except.ok.inj h
    exact ⟨written, rfl, hw⟩
  | first :: above, out, h => by
    obtain ⟨first', -, h⟩ := Run.bind_eq_ok.mp h
    obtain ⟨rest, hr, h⟩ := Run.bind_eq_ok.mp h
    obtain rfl := Except.ok.inj h
    obtain ⟨written, ho, hw⟩ := exists_disconnectLine hr
    exact ⟨written, ho, hw⟩

/-- **A disconnection is rewritten like the connection it undoes.** -/
theorem disconnection_alike {target : Target} {line content : Text} {args : List Text}
    (hcode : line.isCode = true) (hone : (line.splitOn ".connect(").length = 2)
    (hnone : line.has ".disconnect(" = false) (hsignal : line.has "SIGNAL(" = true)
    (hcontent : callContent? line ".connect(" = some content)
    (hargs : splitArguments content = .ok args) (hform : isPaired args = true)
    {n i : Nat} {st st' : Declaring} (hline : st.lines[i]? = some line)
    (hconnect : (visitLines (connectAt target) (n + 1) i st).outcome = .ok st')
    {above below out : List Text}
    (hdisconnect : (updateDisconnections target (above ++ disconnecting line :: below)).outcome = .ok out) :
    ∃ r written, (connectAt target i st.lines).outcome = .ok r ∧ out[above.length]? = some written ∧
      ((r.lines = st.lines ∧ written = disconnecting line) ∨ ∃ c : Connection, ∃ indent : Text,
          (c.writeAt target st.lines i (c.render indent "connect")).outcome = .ok r ∧
            written = c.render indent "disconnect") := by
  obtain ⟨r, hr, -⟩ := Run.bind_eq_ok.mp hconnect
  obtain ⟨written, hout, hwritten⟩ := exists_disconnectLine hdisconnect
  refine ⟨r, written, hr, hout, ?_⟩
  obtain ⟨call, hcall, hr⟩ := connectAt_eq_ok hline hr
  obtain ⟨call', hcall', hwritten⟩ := disconnectLine_eq_ok hwritten
  rcases updateCall_alike hcode hone hnone hsignal hcontent hargs hform hcall hcall' with
    ⟨rfl, rfl⟩ | ⟨c, rfl, rfl⟩
  · rcases hr with ⟨-, hkept⟩ | ⟨_, _, hsome, -⟩
    · rcases hwritten with ⟨-, hkept'⟩ | ⟨_, hsome⟩
      · exact .inl ⟨hkept, hkept'⟩
      · cases hsome
    · cases hsome
  · rcases hr with ⟨hnone, -⟩ | ⟨line', c', hsome, hr⟩
    · cases hnone
    · rcases hwritten with ⟨hnone, -⟩ | ⟨c'', hsome'⟩
      · cases hnone
      · cases hsome
        cases hsome'
        exact .inr ⟨c, line.margin, hr, rfl⟩

def overloadLine : Text := "    QObject.connect(a, SIGNAL('s(int)'), b, SLOT('t(int)'))\n"

theorem disconnection_alike_overloadLine :
    (visitLines (connectAt .new) 1 1 ⟨["if x:\n", overloadLine], false⟩).outcome =
        .ok ⟨["if x:\n", "    a.s[int].connect(b.t)\n"], false⟩ ∧
      (updateDisconnections .new ([] ++ disconnecting overloadLine :: [])).outcome =
        .ok ["    a.s[int].disconnect(b.t)\n"] ∧
      ∃ c : Connection, ∃ indent : Text,
        (c.writeAt .new ["if x:\n", overloadLine] 1 (c.render indent "connect")).outcome =
            (connectAt .new 1 ["if x:\n", overloadLine]).outcome ∧
          c.render indent "disconnect" = "    a.s[int].disconnect(b.t)\n" := by
  have hconnect : (visitLines (connectAt .new) 1 1 ⟨["if x:\n", overloadLine], false⟩).outcome =
      .ok ⟨["if x:\n", "    a.s[int].connect(b.t)\n"], false⟩ := by decide
  have hdisconnect : (updateDisconnections .new ([] ++ disconnecting overloadLine :: [])).outcome =
      .ok ["    a.s[int].disconnect(b.t)\n"] := by decide
  refine ⟨hconnect, hdisconnect, ?_⟩
  have hcontent : callContent? overloadLine ".connect(" = some "a, SIGNAL('s(int)'), b, SLOT('t(int)')" := by decide
  have hargs : splitArguments "a, SIGNAL('s(int)'), b, SLOT('t(int)')" =
      .ok ["a", "SIGNAL('s(int)')", "b", "SLOT('t(int)')"] := by decide
  obtain ⟨r, written, hr, hout, halike⟩ := disconnection_alike (by decide) (by decide) (by decide)
    (by decide) hcontent hargs (by decide) rfl hconnect hdisconnect
  obtain rfl := Option.some.inj hout
  rcases halike with ⟨-, hkept⟩ | ⟨c, indent, hwrite, hwritten⟩
  · exact absurd hkept (by decide)
  · exact ⟨c, indent, hwrite.trans hr.symm, hwritten.symm⟩

end QtMigration
