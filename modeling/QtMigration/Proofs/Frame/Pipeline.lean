import QtMigration.Proofs.Frame.Inert
import QtMigration.Proofs.Retarget

/-!
# Proofs/Frame/Pipeline — inert lines come through a whole conversion

Every pass keeps the inert lines (`Proofs/Frame/Inert`), with two exceptions that are conditions of the
result: a definition of the conversion from UTF-8 may take the lines around it with it, and retargeting passes
over lines behind an occurrence without a name.
-/

namespace QtMigration

variable {lines out : List Text} {p p' : Progress} {s : Survey} {target : Target} {indent : Text}

/-! ## The module passes -/

/-- The module passes that a source gets: the old module and the new one of each. -/
def modulePasses (s : Survey) : List (Text × Text) :=
  let gui : List (Text × Text) :=
    [("QtGui", "QtCore"), ("QtGui", "QtWidgets"), ("QtGui", "QtPrintSupport")]
  let web : List (Text × Text) := [("QtWebKit", "QtWebKitWidgets")]
  (if s.gui then gui else []) ++ (if s.web then web else [])

def retargetAll : List (Text × Text) → Progress → List Text → Except Failure (List Text × Progress)
  | [], p, lines => .ok (lines, p)
  | (old, new) :: passes, p, lines => do
    let (lines, p) ← retarget old new p lines
    retargetAll passes p lines

theorem convertModules_eq_retargetAll (s : Survey) (p : Progress) (lines : List Text) :
    convertModules s p lines = retargetAll (modulePasses s) p lines := by
  have hl : ∀ x : Except Failure (List Text × Progress), (x >>= fun r => .ok (r.1, r.2)) = x :=
    fun x => by cases x <;> rfl
  rw [convertModules, modulePasses]
  cases s.gui <;> cases s.web <;> simp [retargetAll, hl]
  rfl

/-- **No module pass writes a note**: none of them meets an occurrence without a name. -/
def namesAll : List (Text × Text) → Progress → List Text → Bool
  | [], _, _ => true
  | (old, new) :: passes, p, lines =>
    (lines.all fun line => unnamed old line == 0) &&
      match retarget old new p lines with
      | .ok (lines', p') => namesAll passes p' lines'
      | .error _ => true

theorem retargetAll_keeps {keep : Text → Bool} : ∀ (passes : List (Text × Text)),
    (∀ pass ∈ passes, ∀ line, keep line → line.has pass.1 = false) →
    ∀ {p p' : Progress} {lines out : List Text}, namesAll passes p lines →
      retargetAll passes p lines = .ok (out, p') → Keeps keep lines out
  | [], _, p, p', lines, out, _, h => by
    cases h
    exact Keeps.refl _
  | (old, new) :: passes, hk, p, p', lines, out, hn, h => by
    obtain ⟨hold, ho⟩ := List.forall_mem_cons.mp hk
    rw [retargetAll] at h
    obtain ⟨⟨lines', q⟩, hr, h⟩ := bind_eq_ok.mp h
    rw [namesAll, hr, Bool.and_eq_true, List.all_eq_true] at hn
    have hov : passedOver old 0 lines = [] :=
      passedOver_eq_nil fun line hl => by simpa using hn.1 line hl
    exact (retarget_keeps hold hr (by simp [hov])).trans (retargetAll_keeps passes ho hn.2 h)

/-! ## The passes before and behind -/

def beforeModules (s : Survey) (lines : List Text) : Run Declaring := do
  let lines ← removeConversions lines
  if s.signals then convertSignals .new lines else return ⟨lines, false⟩

def signalProgress (st : Declaring) : Progress :=
  { Progress.initial with signalDeclared := st.declared }

theorem runPasses_stages (h : (runPasses .new s indent lines).outcome = .ok out) :
    ∃ st named p imported p', (beforeModules s lines).outcome = .ok st ∧
      retargetAll (modulePasses s) (signalProgress st) st.lines = .ok (named, p) ∧
      updateImports ⟨.new, indent⟩ p named = .ok (imported, p') ∧
      convertApi p' imported = .ok out := by
  rw [runPasses] at h
  simp only [beq_self_eq_true, if_true] at h
  obtain ⟨cut, hc, h⟩ := Run.bind_eq_ok.mp h
  obtain ⟨st, hst, h⟩ : ∃ st : Declaring,
      (if s.signals then convertSignals .new cut else pure ⟨cut, false⟩).outcome = .ok st ∧ (do
          let (lines, p) ← convertModules s (signalProgress st) st.lines
          let (lines, p) ← updateImports ⟨.new, indent⟩ p lines
          convertApi p lines : Run (List Text)).outcome = .ok out := by
    cases hs : s.signals <;> rw [hs] at h <;> exact Run.bind_eq_ok.mp h
  obtain ⟨⟨named, p⟩, hn, h⟩ := Run.bind_eq_ok.mp h
  obtain ⟨⟨imported, p'⟩, hi, h⟩ := Run.bind_eq_ok.mp h
  rw [Run.outcome_lift, convertModules_eq_retargetAll] at hn
  exact ⟨st, named, p, imported, p', Run.bind_eq_ok.mpr ⟨cut, hc, hst⟩, hn, hi, h⟩

theorem runPasses_old_stages (h : (runPasses .old s indent lines).outcome = .ok out) :
    ∃ st p', (if s.signals then convertSignals .old lines else pure ⟨lines, false⟩).outcome = .ok st ∧
      updateImports ⟨.old, indent⟩ (signalProgress st) st.lines = .ok (out, p') := by
  rw [runPasses] at h
  simp only [show (Target.old == Target.new) = false from rfl, Bool.false_eq_true, if_false] at h
  obtain ⟨same, hsa, h⟩ := Run.bind_eq_ok.mp h
  obtain rfl := Except.ok.inj hsa
  obtain ⟨st, hst, h⟩ : ∃ st : Declaring,
      (if s.signals then convertSignals .old lines else pure ⟨lines, false⟩).outcome = .ok st ∧ (do
          let r ← updateImports ⟨.old, indent⟩ (signalProgress st) st.lines
          return r.1 : Run (List Text)).outcome = .ok out := by
    cases hs : s.signals <;> rw [hs] at h <;> exact Run.bind_eq_ok.mp h
  obtain ⟨⟨imported, p'⟩, hi, h⟩ := Run.bind_eq_ok.mp h
  obtain rfl := Except.ok.inj h
  exact ⟨st, p', hst, hi⟩

theorem exists_runPasses (h : (convertLines target lines).outcome = .ok (some out)) : (survey lines).isEmpty = false ∧
      ∃ indent, (runPasses target (survey lines) indent lines).outcome = .ok out := by
  rw [convertLines] at h
  obtain ⟨indent, -, h⟩ := Run.bind_eq_ok.mp h
  dsimp only at h
  split at h
  · cases h
  next hs =>
    obtain ⟨out', ho, h⟩ := Run.bind_eq_ok.mp h
    obtain rfl := Option.some.inj (Except.ok.inj h)
    exact ⟨Bool.eq_false_iff.mpr hs, indent, ho⟩

def unambiguous (lines : List Text) : Bool :=
  match (beforeModules (survey lines) lines).outcome with
  | .ok st => namesAll (modulePasses (survey lines)) (signalProgress st) st.lines
  | .error _ => true

/-! ## Inert lines -/

theorem beforeModules_keeps_inert {st : Declaring} (hd : ∀ line ∈ lines, isConversionDefinition line = false)
    (h : (beforeModules s lines).outcome = .ok st) : Keeps inert lines st.lines := by
  rw [beforeModules] at h
  obtain ⟨cut, hc, h⟩ := Run.bind_eq_ok.mp h
  have hk : Keeps inert lines cut := by
    refine (removeConversions_expands (fun line hl _ => hd line hl) hc).keeps ?_
    rintro line _ (rfl | ⟨-, line', hu, rfl⟩) hi
    · exact List.mem_cons_self
    · rw [inert_unwrapLine hi hu]
      exact List.mem_cons_self
  refine hk.trans ?_
  split at h
  · exact convertSignals_keeps (fun _ => inert_emitsNothing) (fun _ hi => inert_callsNothing hi _)
      (fun _ hi => inert_callsNothing hi _) (fun _ hi => inert_signalDecorator hi _)
      (fun _ hi => inert_slotDecorator hi _) h
  · obtain rfl := Except.ok.inj h
    exact Keeps.refl _

theorem mem_modulePasses_marked (s : Survey) : ∀ pass ∈ modulePasses s, pass.1.any isMark := by
  rw [modulePasses]
  cases s.gui <;> cases s.web <;> decide

theorem convertLines_keeps_inert (hd : ∀ line ∈ lines, isConversionDefinition line = false)
    (hn : unambiguous lines)
    (h : (convertLines .new lines).outcome = .ok (some out)) : Keeps inert lines out := by
  obtain ⟨-, indent, ho⟩ := exists_runPasses h
  obtain ⟨st, named, p, imported, p', hst, hna, himported, ha⟩ := runPasses_stages ho
  rw [unambiguous, hst] at hn
  have hm := retargetAll_keeps _ (fun pass hp line hi =>
    inert_lacks_marked hi (mem_modulePasses_marked _ pass hp)) hn hna
  exact (beforeModules_keeps_inert hd hst).trans <| hm.trans <|
    (updateImports_keeps (fun q _ hi => inert_importLine hi _ q) himported).trans
      (convertApi_keeps (fun _ hp _ hi => inert_leaves hi hp) ha)

/-! ## What is saved -/

theorem Conversion.saved?_eq_none {c : Conversion} (h : ∀ bytes, Event.save bytes ∉ c.events) : c.saved? = none := by
  rw [saved?, List.findSome?_eq_none_iff]
  intro e he
  cases e with
  | save bytes => exact absurd he (h bytes)
  | say message => rfl
  | print text => rfl

theorem Conversion.saved?_after {events : List Event} (h : ∀ bytes, Event.save bytes ∉ events)
    (c : Conversion) : (c.after events).saved? = c.saved? := by
  have hn : (⟨events, none⟩ : Conversion).saved? = none := saved?_eq_none h
  rw [saved?, after, List.findSome?_append]
  exact (congrArg (Option.or · _) hn).trans Option.none_or

theorem save_notMem_printEvent (text : Text) (bytes : Bytes) : Event.save bytes ∉ printEvent text := by
  rw [printEvent]
  split <;> simp

theorem finish_saved? (label : Text) (lines : List Text) : (finish label lines).saved? =
      (Codec.ofLabel? label).bind fun codec => codec.encode? (collectNotes lines).1.flatten := by
  rw [finish]
  dsimp only
  split
  next hn => exact hn.symm
  next hs => exact hs.symm

theorem convertSource_saved? {path : Text} {file : Except FileFault Bytes}
    (hre : (readSource path file).outcome = .ok (.lines lines))
    (hr : (convertLines target lines).outcome = .ok (some out)) :
    (convertSource target path file).saved? =
      (Codec.ofLabel? ((readSource path file).encoding.getD [])).bind fun codec =>
        codec.encode? (collectNotes out).1.flatten := by
  rw [convertSource, Conversion.saved?_after (by simp [announce]), convertContent,
    Conversion.saved?_after (save_notMem_printEvent _), hre]
  dsimp only
  rw [convertRead]
  split
  next h => rw [h] at hr; cases hr
  next h => rw [h] at hr; cases hr
  next h =>
    rw [h] at hr
    obtain rfl := Option.some.inj (Except.ok.inj hr)
    rw [Conversion.saved?_after (save_notMem_printEvent _), finish_saved?]

/-- **Inert lines come through a conversion for the new library.** -/
theorem saved_keeps_inert {lines out : List Text} (hdef : ∀ line ∈ lines, isConversionDefinition line = false)
    (hnames : unambiguous lines = true)
    (hrun : (convertLines .new lines).outcome = .ok (some out)) :
    Keeps inert lines (collectNotes out).1 ∧ ∀ path file, (readSource path file).outcome = .ok (.lines lines) →
        (convertSource .new path file).saved? =
          (Codec.ofLabel? ((readSource path file).encoding.getD [])).bind fun codec =>
            codec.encode? (collectNotes out).1.flatten :=
  ⟨(convertLines_keeps_inert hdef hnames hrun).trans (map_keeps (fun _ => inert_unmarked) out),
    fun _ _ hread => convertSource_saved? hread hrun⟩

/-- A source with an import of the old library, the use of a widget and an inert line. -/
def widgetLines : List Text := ["import PyQt4  # QAbstractButton\n", "n = 1\n"]

/-- The same source for the new library: the widgets are imported. -/
def widgetOut : List Text :=
  ["import PyQt5  # QAbstractButton\n", "from PyQt5.QtWidgets import *\n", "n = 1\n"]

theorem saved_keeps_inert_widgetLines : (∀ line ∈ widgetLines, isConversionDefinition line = false) ∧
      unambiguous widgetLines = true ∧
      (convertLines .new widgetLines).outcome = .ok (some widgetOut) ∧
      Keeps inert widgetLines (collectNotes widgetOut).1 := by
  have hdef : ∀ line ∈ widgetLines, isConversionDefinition line = false := by decide +kernel
  have hnames : unambiguous widgetLines = true := by decide +kernel
  have hrun : (convertLines .new widgetLines).outcome = .ok (some widgetOut) := by decide +kernel
  exact ⟨hdef, hnames, hrun, (saved_keeps_inert hdef hnames hrun).1⟩

end QtMigration
