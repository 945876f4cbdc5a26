import QtMigration.Proofs.Alphabet.Saving
import QtMigration.Proofs.Encoding.RoundTrip
import QtMigration.Proofs.Frame.AtRest

/-!
# Proofs/Frame/SecondRun — converting what has been converted

What a conversion writes has no carriage returns (`return_notMem_saved`), so that it is read again as it was
written.
-/

namespace QtMigration

variable {bytes out : Bytes} {file : Except FileFault Bytes} {lines : List Text} {target : Target}
  {indent path : Text}

/-! ## What is saved -/

theorem exists_of_saved? (h : (convertSource target path file).saved? = some out) :
    ∃ bytes lines converted, file = .ok bytes ∧ (readSource path (.ok bytes)).outcome = .ok (.lines lines) ∧
      (convertLines target lines).outcome = .ok (some converted) := by
  rw [convertSource, Conversion.saved?_after (by simp [announce]), convertContent,
    Conversion.saved?_after (save_notMem_printEvent _)] at h
  cases file with
  | error fault => cases h
  | ok bytes =>
    split at h
    · cases h
    · cases h
    · cases h
    next lines hr =>
      rw [convertRead] at h
      split at h
      · rw [Conversion.saved?_eq_none (save_notMem_printEvent _)] at h
        cases h
      · rw [Conversion.saved?_eq_none fun b => by simp [save_notMem_printEvent]] at h
        cases h
      next converted hrun => exact ⟨bytes, lines, converted, rfl, hr, by rw [hrun]⟩

def Alphabet.unreturned : Alphabet where
  has c := c ≠ '\r'
  plain c hc := by simpa using (Bool.and_eq_true_iff.mp hc).2

theorem Alphabet.unreturned_of_readSource
    (h : (readSource path (.ok bytes)).outcome = .ok (.lines lines)) : unreturned.SpellsAll lines := by
  obtain ⟨label, codec, decoded, -, -, -, -, hf⟩ := exists_decoded_of_readSource h
  have hs : unreturned.Spells (universalNewlines decoded) := fun c hc heq =>
    return_notMem_universalNewlines decoded (heq ▸ hc)
  rw [← spells_flatten, hf]
  exact hs.ended

theorem return_notMem_saved (h : (convertSource target path file).saved? = some out) : 13 ∉ out := by
  obtain ⟨bytes, lines, converted, rfl, hre, hrun⟩ := exists_of_saved? h
  have ht : Alphabet.unreturned.Spells (collectNotes converted).1.flatten :=
    Alphabet.spells_flatten.mpr (Alphabet.collectNotes_spells
      (Alphabet.convertLines_spells (Alphabet.unreturned_of_readSource hre) hrun))
  rw [convertSource_saved? hre hrun, Option.bind_eq_some_iff] at h
  obtain ⟨codec, -, he⟩ := h
  intro hr
  exact ht '\r' ((Codec.mem_of_encode? he (by decide)).mp hr) rfl

/-! ## The second conversion -/

theorem encode?_of_readSource (h : (readSource path (.ok bytes)).outcome = .ok (.lines lines)) (hr : 13 ∉ bytes)
    (hended : bytes.getLast? = some 10) :
    (Codec.ofLabel? ((readSource path (.ok bytes)).encoding.getD [])).bind
      (fun codec => codec.encode? lines.flatten) = some bytes := by
  obtain ⟨label, codec, decoded, hl, hen, hc, hd, hf⟩ := exists_decoded_of_readSource h
  have he : codec.encode? decoded = some bytes := Codec.encode?_of_decode hd fun hs =>
    byteOrderMark_of_encodingOf hl (hs ▸ hc)
  have hn : '\r' ∉ decoded := fun hin => hr ((Codec.mem_of_encode? he (by decide)).mpr hin)
  have hsa : Text.ended decoded = decoded := by
    rw [Text.ended, Codec.getLast?_of_encode? he hended]
    rfl
  rw [hen, Option.getD_some, hc, Option.bind_some, hf, universalNewlines_of_notMem hn, hsa, he]

/-- **What has been converted is converted to nothing or to itself**, if nothing in it sets a conversion
off, or if all its lines are at rest and the last one is ended. -/
theorem second_conversion_same {path path' : Text} {file : Except FileFault Bytes} {out : Bytes}
    (hfirst : (convertSource .new path file).saved? = some out)
    (hlines : ∀ lines, (readSource path' (.ok out)).outcome = .ok (.lines lines) →
      (survey lines).isEmpty = true ∨ (∀ line ∈ lines, AtRest line) ∧ out.getLast? = some 10) :
    (convertSource .new path' (.ok out)).saved? = none ∨
      (convertSource .new path' (.ok out)).saved? = some out := by
  cases hsecond : (convertSource .new path' (.ok out)).saved? with
  | none => exact .inl rfl
  | some out' =>
    refine .inr ?_
    obtain ⟨bytes, lines, converted, hbytes, hread, hrun⟩ := exists_of_saved? hsecond
    obtain rfl := Except.ok.inj hbytes
    rcases hlines lines hread with hempty | ⟨hrest, hended⟩
    · -- a conversion that nothing sets off converts no lines
      rw [(exists_runPasses hrun).1] at hempty
      cases hempty
    · obtain rfl := convertLines_of_atRest hrest hrun
      rw [← hsecond, convertSource_saved? hread hrun, collectNotes_of_atRest hrest]
      exact encode?_of_readSource hread (return_notMem_saved hfirst) hended

/-! ## A text that is converted to itself -/

def emittingSource : Bytes :=
  [105, 109, 112, 111, 114, 116, 32, 80, 121, 81, 116, 52, 10, 101, 109, 105, 116, 40, 41, 10]

def emittingOut : Bytes :=
  [105, 109, 112, 111, 114, 116, 32, 80, 121, 81, 116, 53, 10, 101, 109, 105, 116, 40, 41, 10]

def emittingBefore : List Text :=
  [['i', 'm', 'p', 'o', 'r', 't', ' ', 'P', 'y', 'Q', 't', '4', '\n'], ['e', 'm', 'i', 't', '(', ')', '\n'], []]

def emittingLines : List Text :=
  [['i', 'm', 'p', 'o', 'r', 't', ' ', 'P', 'y', 'Q', 't', '5', '\n'], ['e', 'm', 'i', 't', '(', ')', '\n'], []]

open Catalogue in
theorem emittingLines_lack_widgets : ∃ names, widgets ++ [] = names ∧
    (names.all fun name => emittingLines.all fun line => !line.has name) := by
  apply Exists.intro
  apply And.intro
  · unfold widgets
    apply append_congr
    · repeat apply map_toList_cons
      exact List.map_nil
    · rfl
  · decide +kernel

theorem emittingLines_atRest : ∀ line ∈ emittingLines, AtRest line := by
  have ho : ∀ line ∈ emittingLines, ∀ pieces ∈ soughtPieces, CodeLacks pieces line := by
    decide +kernel
  obtain ⟨names, hn, ha⟩ := emittingLines_lack_widgets
  rw [List.append_nil] at hn
  intro line hl
  refine ⟨?_, List.forall_mem_cons.mpr ⟨fun _ => ?_, ho line hl⟩, ?_⟩
  · revert line
    decide +kernel
  · rw [hn, Text.hasAny_eq_false_iff]
    intro name hna
    simpa using List.all_eq_true.mp (List.all_eq_true.mp ha name hna) line hl
  · revert line
    decide +kernel

theorem runPasses_of_stages {s : Survey} {named imported out : List Text} {st : Declaring}
    {p p' : Progress} (hst : (beforeModules s lines).outcome = .ok st)
    (hn : retargetAll (modulePasses s) (signalProgress st) st.lines = .ok (named, p))
    (hi : updateImports ⟨.new, indent⟩ p named = .ok (imported, p'))
    (ha : convertApi p' imported = .ok out) : (runPasses .new s indent lines).outcome = .ok out := by
  obtain ⟨cut, hc, hst⟩ := Run.bind_eq_ok.mp hst
  have hr : (do
      let r ← convertModules s (signalProgress st) st.lines
      let r ← updateImports ⟨.new, indent⟩ r.2 r.1
      convertApi r.2 r.1 : Run (List Text)).outcome = .ok out := by
    refine Run.bind_eq_ok.mpr ⟨(named, p), ?_, Run.bind_eq_ok.mpr ⟨(imported, p'), hi, ha⟩⟩
    rw [Run.outcome_lift, convertModules_eq_retargetAll, hn]
  rw [runPasses]
  simp only [beq_self_eq_true, if_true]
  refine Run.bind_eq_ok.mpr ⟨cut, hc, ?_⟩
  cases hs : s.signals <;> rw [hs] at hst <;> exact Run.bind_eq_ok.mpr ⟨st, hst, hr⟩

theorem emittingBefore_passes :
    (runPasses .new (survey emittingBefore) [' '] emittingBefore).outcome = .ok emittingLines := by
  have hst : (beforeModules (survey emittingBefore) emittingBefore).outcome = .ok ⟨emittingBefore, false⟩ := by
    decide +kernel
  have hn : retargetAll (modulePasses (survey emittingBefore)) (signalProgress ⟨emittingBefore, false⟩)
      emittingBefore = .ok (emittingBefore, signalProgress ⟨emittingBefore, false⟩) := by decide +kernel
  have hi : updateImports ⟨.new, [' ']⟩ (signalProgress ⟨emittingBefore, false⟩) emittingBefore =
      .ok (emittingLines, signalProgress ⟨emittingBefore, false⟩) := by decide +kernel
  have ha : ∀ p, convertApi p emittingLines = .ok emittingLines := fun p => by
    rw [convertApi_of_atRest emittingLines_atRest]
    decide +kernel
  exact runPasses_of_stages hst hn hi (ha _)

theorem convertLines_of_passes {out : List Text}
    (hi : indentUnit lines = .ok indent) (hn : (survey lines).isEmpty = false)
    (hp : (runPasses target (survey lines) indent lines).outcome = .ok out) :
    (convertLines target lines).outcome = .ok (some out) := by
  rw [convertLines]
  refine Run.bind_eq_ok.mpr ⟨indent, hi, ?_⟩
  dsimp only
  rw [hn, if_neg Bool.false_ne_true]
  exact Run.bind_eq_ok.mpr ⟨out, hp, rfl⟩

theorem emittingBefore_converted : (convertLines .new emittingBefore).outcome = .ok (some emittingLines) :=
  convertLines_of_passes (by decide +kernel) (by decide +kernel) emittingBefore_passes

theorem emittingSource_saved : (convertSource .new "m.py" (.ok emittingSource)).saved? = some emittingOut := by
  have hr : (readSource "m.py" (.ok emittingSource)).outcome = .ok (.lines emittingBefore) := by
    decide +kernel
  rw [convertSource_saved? hr emittingBefore_converted]
  decide +kernel

theorem second_conversion_same_emittingSource : (convertSource .new "n.py" (.ok emittingOut)).saved? = none ∨
      (convertSource .new "n.py" (.ok emittingOut)).saved? = some emittingOut := by
  refine second_conversion_same emittingSource_saved fun lines hread => .inr ⟨?_, by decide⟩
  have hlines : (readSource "n.py" (.ok emittingOut)).outcome = .ok (.lines emittingLines) := by
    decide +kernel
  rw [hlines] at hread
  obtain rfl := SourceLines.lines.inj (Except.ok.inj hread)
  exact emittingLines_atRest

/-! ## A text that is not -/

def buttonSource : Text := "import PyQt4#QAbstractButton\nemit()\n"

def buttonOnce : Text := "import PyQt5#QAbstractButton\nfrom PyQt5.QtWidgets import *\nemit()\n"

def buttonTwice : Text :=
  "import PyQt5#QAbstractButton\nfrom PyQt5.QtWidgets import *\nfrom PyQt5.QtWidgets import *\nemit()\n"

-- the signal sets the second conversion off, and an import of all widgets is no sign that they are
-- imported: only the pass that writes it knows
theorem widgets_imported_again :
    (convertSource .new "m.py" (.ok (encodeUtf8 buttonSource))).saved? = some (encodeUtf8 buttonOnce) ∧
      (convertSource .new "m.py" (.ok (encodeUtf8 buttonOnce))).saved? = some (encodeUtf8 buttonTwice) := by
  constructor <;> decide +kernel

end QtMigration
