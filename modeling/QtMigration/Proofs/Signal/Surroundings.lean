import QtMigration.Signal.Emission
import QtMigration.Proofs.Failure
import QtMigration.Proofs.Text.Search
import QtMigration.Proofs.Token.Scan

/-!
# Proofs/Signal/Surroundings — what stands around a signal call when it is rewritten

A line with an old-style call is the call, the text before its receiver and the text behind its closing
parenthesis.
-/

namespace QtMigration

open List

/-! ## The three calls -/

/-- A call on a signal that has a new style. -/
inductive SignalCall
  | connect
  | disconnect
  | emit
  deriving DecidableEq, Repr

namespace SignalCall

/-- The method that is called, with its dot and its opening parenthesis. -/
def method : SignalCall → Text
  | connect => ".connect("
  | disconnect => ".disconnect("
  | emit => ".emit("

/-- A line with a call: text, the receiver, the arguments in parentheses, and text again. -/
def line (call : SignalCall) (before receiver args behind : Text) : Text :=
  before ++ receiver ++ call.method ++ args ++ ")" ++ behind ++ "\n"

end SignalCall

/-- The emission of a line in the new style, and the signal it needs; nothing for any other line. -/
def updateEmission (target : Target) (line : Text) : Run (Option (Text × Text)) := do
  if !line.isCode || !line.has ".emit(" || !line.has "SIGNAL(" then return none
  match callContent? line ".emit(" with
  | none => return none
  | some content =>
    let args ← splitArguments content
    return some (← emissionLine target (line.firstPiece ".emit(") args)

/-- **The line that a pass writes for a line with its call**; nothing for any other line. -/
def writtenLine (target : Target) (line : Text) : SignalCall → Run (Option Text)
  | .connect => do
    return (← updateCall "connect" (Connection.ofConnect? target) line).map Prod.fst
  | .disconnect => do
    return (← updateCall "disconnect" (Connection.ofDisconnect? target) line).map Prod.fst
  | .emit => do return (← updateEmission target line).map Prod.fst

variable {target : Target} {front kept line line' s signal : Text}

theorem emitAt_eq {i : Nat} {lines : List Text}
    (hi : lines[i]? = some line) : emitAt target i lines = (do
      match ← updateEmission target line with
      | none => return ⟨lines, 0⟩
      | some (line', signal) => declareSignal target (lines.set i line') i signal) := by
  rw [emitAt, hi, updateEmission]
  dsimp only
  split
  · rw [pure_bind]
  · cases callContent? line ".emit(" with
    | none => rw [pure_bind]
    | some content => simp only [bind_assoc, pure_bind]

/-! ## The line that is written -/

/-- The front of a line that a pass keeps: its indentation, or the text before its first emission. -/
def keptFront (line : Text) : SignalCall → Except Failure Text
  | .connect | .disconnect => line.indent
  | .emit => .ok (line.firstPiece ".emit(")

theorem Text.indent_blank (h : line.indent = .ok kept) :
    ∀ c ∈ kept, isRowBlank c := by
  rw [Text.indent] at h
  split at h
  · cases h
    simp
  · cases h
  next token rest fault hs =>
    have hp : token.PieceOf line :=
      pieceOf_of_mem_scan (by rw [hs]; exact mem_cons_self)
    split at h <;> cases h
    next hk => exact hp.blank_of_indent (eq_of_beq hk)
    next => simp

theorem Connection.exists_render (c : Connection) (verb : Text) :
    ∃ written : Text, ∀ indent, c.render indent verb = indent ++ written ++ ")\n" :=
  ⟨c.sender ++ "." ++ c.signal ++ wrapped "[" c.signalTypes "]" ++ "." ++ verb ++ "(" ++
    wrapped "" c.receiver "." ++ c.slot ++
    (if c.relayed.isEmpty then [] else wrapped "[" c.slotTypes "]") ++ wrapped ", " c.options "",
    fun indent => by simp only [render, append_assoc]⟩

theorem updateCall_eq {verb : Text} {parse : List Text → Run (Option Connection)}
    {c : Connection} (h : (updateCall verb parse line).outcome = .ok (some (line', c))) :
    ∃ indent, line.indent = .ok indent ∧ line' = c.render indent verb := by
  rw [updateCall] at h
  split at h
  · cases h
  split at h
  · cases h
  · obtain ⟨args, -, h⟩ := Run.bind_eq_ok.mp h
    obtain ⟨call, -, h⟩ := Run.bind_eq_ok.mp h
    cases call with
    | none =>
      obtain ⟨-, -, h⟩ := Run.bind_eq_ok.mp h
      cases h
    | some c' =>
      obtain ⟨indent, hi, h⟩ := Run.bind_eq_ok.mp h
      obtain ⟨rfl, rfl⟩ := Prod.mk.inj (Option.some.inj (Except.ok.inj h))
      exact ⟨indent, hi, rfl⟩

theorem updateEmission_eq
    (h : (updateEmission target line).outcome = .ok (some (line', signal))) :
    ∃ args, (emissionLine target (line.firstPiece ".emit(") args).outcome = .ok (line', signal) := by
  rw [updateEmission] at h
  split at h
  · cases h
  split at h
  · cases h
  · obtain ⟨args, -, h⟩ := Run.bind_eq_ok.mp h
    obtain ⟨r, hr, h⟩ := Run.bind_eq_ok.mp h
    obtain rfl := Option.some.inj (Except.ok.inj h)
    exact ⟨args, hr⟩

theorem close_surplus (last : Text) : ')' :: surplus last = surplus last ++ [')'] := by
  rw [surplus, ← replicate_succ, replicate_succ']

theorem emissionLine_eq {before : Text} {args : List Text}
    (h : (emissionLine target before args).outcome = .ok (line', signal)) :
    ∃ written : Text, line' = before ++ written ++ ")\n" := by
  rw [emissionLine] at h
  split at h
  · cases h
  next last _ =>
    obtain ⟨parts, -, h⟩ := Run.bind_eq_ok.mp h
    cases h
    have hs : (")" : Text) ++ (surplus last ++ "\n") = surplus last ++ ")\n" := by
      have hc : ')' :: (surplus last ++ ['\n']) = surplus last ++ [')', '\n'] := by
        rw [← cons_append, close_surplus, append_assoc]
        rfl
      exact hc
    refine ⟨"." ++ signatureName parts ++ ".emit(" ++
      Text.commaList ((dropEmptyValues (args.dropLast ++ [balanceLast last])).drop 1) ++
      surplus last, ?_⟩
    simp only [append_assoc, ← hs]

/-! ## What survives -/

theorem prefix_append_iff {rest : Text} :
    s <+: front ++ rest ↔ s <+: front ∨ ∃ t, s = front ++ t ∧ t <+: rest := by
  constructor
  · rintro ⟨tail, ht⟩
    rcases append_eq_append_iff.mp ht with ⟨t, rfl, -⟩ | ⟨t, rfl, rfl⟩
    · exact .inl (prefix_append _ _)
    · exact .inr ⟨t, rfl, prefix_append _ _⟩
  · rintro (h | ⟨t, rfl, h⟩)
    · exact h.trans (prefix_append _ _)
    · exact (prefix_append_right_inj _).mpr h

theorem suffix_paren_iff (hs : ')' ∉ s) :
    (s ++ "\n" : Text) <:+ (front ++ ")\n" : Text) ↔ s = [] := by
  constructor
  · rintro ⟨head, hh⟩
    rcases eq_nil_or_concat s with rfl | ⟨t, c, rfl⟩
    · rfl
    · have hl : head ++ t ++ [c] ++ ['\n'] = front ++ [')'] ++ ['\n'] := by simpa using hh
      obtain rfl : c = ')' := by simpa using (append_inj' (append_cancel_right hl) rfl).2
      exact absurd (by simp) hs
  · rintro rfl
    exact ⟨front ++ [')'], by simp⟩

theorem writtenLine_eq {call : SignalCall}
    (h : (writtenLine target line call).outcome = .ok (some line')) :
    ∃ kept written : Text, keptFront line call = .ok kept ∧ line' = kept ++ written ++ ")\n" := by
  have hc : ∀ {verb : Text} {parse : List Text → Run (Option Connection)},
      (do return (← updateCall verb parse line).map Prod.fst : Run (Option Text)).outcome =
        .ok (some line') → ∃ kept written : Text, line.indent = .ok kept ∧
          line' = kept ++ written ++ ")\n" := by
    intro verb parse h
    obtain ⟨r, hr, h⟩ := Run.bind_eq_ok.mp h
    obtain ⟨⟨_, c⟩, rfl, rfl⟩ := Option.map_eq_some_iff.mp (Except.ok.inj h)
    obtain ⟨indent, hi, rfl⟩ := updateCall_eq hr
    obtain ⟨written, hw⟩ := c.exists_render verb
    exact ⟨indent, written, hi, hw indent⟩
  cases call with
  | connect => exact hc h
  | disconnect => exact hc h
  | emit =>
    obtain ⟨r, hr, h⟩ := Run.bind_eq_ok.mp h
    obtain ⟨⟨_, signal⟩, rfl, rfl⟩ := Option.map_eq_some_iff.mp (Except.ok.inj h)
    obtain ⟨args, hl⟩ := updateEmission_eq hr
    obtain ⟨written, hw⟩ := emissionLine_eq hl
    exact ⟨_, written, rfl, hw⟩

theorem keptFront_emit {before receiver args behind : Text} (hr : '(' ∉ receiver)
    (hb : before.has ".emit(" = false) :
    keptFront (SignalCall.emit.line before receiver args behind) .emit = .ok (before ++ receiver) := by
  have hm : (".emit(" : Text) = (".emit" : Text) ++ ['('] := by decide
  rw [keptFront, SignalCall.line]
  simp only [append_assoc]
  exact congrArg Except.ok (Text.firstPiece_method hm (by decide) hr hb)

theorem keptFront_blank {call : SignalCall} (hc : call ≠ .emit)
    (h : keptFront line call = .ok kept) : ∀ c ∈ kept, isRowBlank c := by
  cases call with
  | connect => exact Text.indent_blank h
  | disconnect => exact Text.indent_blank h
  | emit => exact absurd rfl hc

/-- **What surrounds a rewritten call survives only in the front that the pass keeps.** -/
theorem surroundings_survive_iff {target : Target} {call : SignalCall}
    {before receiver args behind line' : Text} (hreceiver : '(' ∉ receiver) (hbehind : ')' ∉ behind)
    (h : (writtenLine target (call.line before receiver args behind) call).outcome = .ok (some line')) :
    ∃ kept written : Text, keptFront (call.line before receiver args behind) call = .ok kept ∧
      line' = kept ++ written ++ ")\n" ∧
      (call ≠ .emit → ∀ c ∈ kept, isRowBlank c = true) ∧
      (call = .emit → before.has ".emit(" = false → kept = before ++ receiver) ∧
      ((before <+: line' ∧ (behind ++ "\n" : Text) <:+ line') ↔
        behind = [] ∧ (before <+: kept ∨ ∃ t, before = kept ++ t ∧ t <+: (written ++ ")\n" : Text))) := by
  obtain ⟨kept, written, hkept, rfl⟩ := writtenLine_eq h
  refine ⟨kept, written, hkept, rfl, fun hcall => keptFront_blank hcall hkept, ?_, ?_⟩
  · rintro rfl hb
    rw [keptFront_emit hreceiver hb] at hkept
    exact (Except.ok.inj hkept).symm
  · rw [suffix_paren_iff hbehind, List.append_assoc, prefix_append_iff]
    exact and_comm

theorem surroundings_survive_iff_emit :
    (writtenLine .new (SignalCall.emit.line "if x: " "self" "SIGNAL('s()')" "") .emit).outcome =
        .ok (some "if x: self.s.emit()\n") ∧
      ("if x: " : Text) <+: "if x: self.s.emit()\n" := by
  have h : (writtenLine .new (SignalCall.emit.line "if x: " "self" "SIGNAL('s()')" "") .emit).outcome =
      .ok (some "if x: self.s.emit()\n") := by decide +kernel
  obtain ⟨kept, _, _, hline, _, hkept, _⟩ := surroundings_survive_iff (by decide) (by decide) h
  have hfront : kept = "if x: " ++ "self" := hkept rfl (by decide)
  refine ⟨h, ?_⟩
  rw [hline, hfront]
  simp only [List.append_assoc]
  exact List.prefix_append _ _

/-- **The condition of a connection and the statement behind it are lost.** -/
theorem connection_loses_surroundings :
    (updateConnections .new
        [SignalCall.connect.line "if x: " "QObject" "a, SIGNAL('s()'), f" "; return"]).outcome =
      .ok ⟨["a.s.connect(f)\n"], false⟩ ∧
      ¬ ("if x: " : Text) <+: "a.s.connect(f)\n" ∧
      ¬ ("; return\n" : Text) <:+ "a.s.connect(f)\n" := by
  refine ⟨by decide +kernel, by decide, by decide⟩

end QtMigration
