import QtMigration.Proofs.Frame.Pipeline
import QtMigration.Proofs.Text.Trim

/-!
# Proofs/Frame/AtRest — lines that a conversion leaves as they are

A line is at rest if it has none of the pieces that a pass looks for, and is laid out as an import statement
is after cleaning if it is one. **A conversion of lines at rest that comes to its end answers the same lines**
(`convertLines_of_atRest`).
-/

namespace QtMigration

open List Text

def soughtAnywhere : List Text :=
  slotPieces ++ headerMethods.map (·.1) ++
    (["@pyqtSignal", ".setYMD(", "QInputDialog.getInteger(", noteMark] : List Text)

/-- What the passes look for on lines of code, the classes of widgets apart. -/
def soughtPieces : List (List Text) :=
  [["SIGNAL", "SLOT"], ["PyQt4"], conversionPieces, dialogPieces, directoryPieces, ["QtScript", "QScript"],
   ["QtXml"], ["QtDeclarative", "QDeclarative", "QPyDeclarative"], Catalogue.droppedOpenGL, localizedPieces,
   [".delta()"], marginPieces, placePieces, itemClasses, ["QChar"], ["QString"], ["qInstallMsgHandler("],
   Catalogue.variantMethods.map ("." ++ · ++ "()"), ["QMatrix", "QIconEngineV2"], ["qApp"]]

def soughtInCode : List (List Text) := Catalogue.widgets :: soughtPieces

/-- An import statement that imports something, with neither empty rows nor blanks at its end. -/
def isTidy (line : Text) : Bool :=
  line.trimRight ++ "\n" == line && dropEmptyRows line == line && !importsNothing line

/-- **A line that no pass has anything to do with.** -/
structure AtRest (line : Text) : Prop where
  anywhere : line.hasAny soughtAnywhere = false
  inCode : ∀ pieces ∈ soughtInCode, CodeLacks pieces line
  tidy : line.isImport = true → isTidy line = true

/-! ## Passes that leave every line -/

theorem mapM_of_fixed {f : Text → Except Failure Text} : ∀ {lines : List Text},
    (∀ line ∈ lines, f line = .ok line) → lines.mapM f = .ok lines
  | [], _ => rfl
  | line :: lines, h => by
    obtain ⟨hli, hl⟩ := forall_mem_cons.mp h
    rw [mapM_cons, hli, mapM_of_fixed hl]
    rfl

theorem map_of_fixed {f : Text → Text} {lines : List Text} (h : ∀ line ∈ lines, f line = line) :
    lines.map f = lines :=
  (map_congr_left h).trans (map_id _)

theorem noteLines_of_fixed {note : Text} {concerns : Text → Bool} : ∀ {lines : List Text},
    (∀ line ∈ lines, line.isCode → concerns line = false) → noteLines note concerns lines = .ok lines
  | [], _ => rfl
  | line :: lines, h => by
    obtain ⟨hli, hl⟩ := forall_mem_cons.mp h
    have hn : noteLine note concerns line = .ok [line] := by
      rw [noteLine, if_neg]
      rw [Bool.and_eq_true]
      rintro ⟨hco, hc⟩
      rw [hli hco] at hc
      cases hc
    have hr : expandLines (noteLine note concerns) lines = .ok lines := noteLines_of_fixed hl
    rw [noteLines, expandLines, hn, hr]
    rfl

theorem visitLines_of_fixed {visit : Nat → List Text → Run Declared} {lines : List Text}
    (h : ∀ i, visit i lines = pure ⟨lines, 0⟩) : ∀ (n i : Nat),
      visitLines visit n i ⟨lines, false⟩ = pure ⟨lines, false⟩
  | 0, _ => rfl
  | n + 1, i => by
    rw [visitLines, h, pure_bind]
    exact visitLines_of_fixed h n (i + 1)

/-! ## Signals -/

section Signals

variable {target : Target} {lines : List Text}

theorem emitAt_of_fixed (h : ∀ line ∈ lines, emitsNothing line) (i : Nat) :
    emitAt target i lines = pure ⟨lines, 0⟩ := by
  rw [emitAt]
  split
  · rfl
  next line hi => exact if_pos (h line (mem_of_getElem? hi))

theorem connectAt_of_fixed (h : ∀ line ∈ lines, callsNothing "connect" line) (i : Nat) :
    connectAt target i lines = pure ⟨lines, 0⟩ := by
  rw [connectAt]
  split
  · rfl
  next line hi => rw [updateCall_of_callsNothing (h line (mem_of_getElem? hi)), pure_bind]

theorem updateDisconnections_of_fixed : ∀ {lines : List Text},
    (∀ line ∈ lines, callsNothing "disconnect" line) → updateDisconnections target lines = pure lines
  | [], _ => rfl
  | line :: lines, h => by
    obtain ⟨hli, hl⟩ := forall_mem_cons.mp h
    rw [updateDisconnections, disconnectLine, updateCall_of_callsNothing hli, pure_bind, pure_bind,
      updateDisconnections_of_fixed hl, pure_bind]

end Signals

attribute [local simp] soughtAnywhere soughtInCode soughtPieces

namespace AtRest

variable {line : Text} (h : AtRest line)

include h

theorem lacks {piece : Text} (hp : piece ∈ soughtAnywhere) : line.has piece = false :=
  hasAny_eq_false_iff.mp h.anywhere piece hp

theorem codeLacks {pieces : List Text} (hp : pieces ∈ soughtInCode) : CodeLacks pieces line :=
  h.inCode pieces hp

theorem not_signal (hc : line.isCode) : line.has "SIGNAL(" = false := by
  have hl : CodeLacks ["SIGNAL", "SLOT"] line := h.codeLacks (by simp)
  exact has_eq_false_of_subneedle (hl.has hc mem_cons_self) ( has_iff_infix.mp (by decide))

theorem emitsNothing : emitsNothing line := by
  rw [QtMigration.emitsNothing]
  cases hc : line.isCode with
  | false => rfl
  | true => rw [h.not_signal hc, Bool.not_false, Bool.or_true]

theorem callsNothing (verb : Text) : callsNothing verb line := by
  rw [QtMigration.callsNothing]
  cases hc : line.isCode with
  | false => rfl
  | true => rw [h.not_signal hc, Bool.not_false, Bool.or_true]

theorem slotDecorator (target : Target) : slotDecorator target line = line :=
  slotDecorator_of_lacks target (hasAny_eq_false_iff.mpr fun _ hp =>
    h.lacks (mem_append_left _ (mem_append_left _ hp)))

theorem not_conversionDefinition (hc : line.isCode) : isConversionDefinition line = false := by
  have hl : CodeLacks conversionPieces line := h.codeLacks (by simp)
  refine Bool.eq_false_iff.mpr fun hd => ?_
  rw [isConversionDefinition, beq_iff_eq] at hd
  have hi : conversionName <:+: line := by
    refine List.IsInfix.trans ?_ ( trim_infix line)
    rw [hd]
    exact has_iff_infix.mp (by decide)
  exact has_eq_false_iff.mp (hl.has hc mem_cons_self) hi

theorem cleanImport (hi : line.isImport) :
    cleanImport .new false line = line ∧ importsNothing line = false := by
  have hc := isCode_of_isImport hi
  have ht := h.tidy hi
  rw [isTidy, Bool.and_eq_true, Bool.and_eq_true, beq_iff_eq, beq_iff_eq, Bool.not_eq_true'] at ht
  obtain ⟨⟨htr, hro⟩, hn⟩ := ht
  have hr : ∀ {name piece : Text}, line.has piece = false → name.has piece →
      removeName line name = line := by
    intro name piece hl hp
    have hru : line.replaceEach (removeRules name) = line := by
      refine replaceEach_of_lacks hl fun rule hrule => ?_
      obtain ⟨border, -, rfl⟩ := mem_map.mp hrule
      exact has_iff_infix.mpr (( has_iff_infix.mp hp).trans ⟨border.1, border.2.1, rfl⟩)
    rw [removeName, hru, hro]
  have hs : CodeLacks ["SIGNAL", "SLOT"] line := h.codeLacks (by simp)
  have hst : CodeLacks ["QString"] line := h.codeLacks (by simp)
  refine ⟨?_, hn⟩
  rw [QtMigration.cleanImport, htr, if_neg Bool.false_ne_true,
    hr (hs.has hc mem_cons_self) (by decide),
    hr (hs.has hc (mem_cons_of_mem _ mem_cons_self)) (by decide),
    hr (hst.has hc mem_cons_self) (by decide),
    hr (hst.has hc mem_cons_self) (by decide)]

theorem importLine (indent : Text) {p : Progress} (hp : p.signalDeclared = false) :
    importLine ⟨.new, indent⟩ p line = .ok ([line], p) := by
  have hl : CodeLacks ["PyQt4"] line := h.codeLacks (by simp)
  rw [QtMigration.importLine]
  cases hco : line.isCode with
  | false => rfl
  | true =>
    have hnew := newLibraryLine_of_lacks ⟨.new, indent⟩ p (hl.has hco mem_cons_self)
    rw [hp]
    cases hi : line.isImport with
    | false => exact hnew
    | true =>
      obtain ⟨hc, hn⟩ := h.cleanImport hi
      simp only [if_true, hc, hn, Bool.and_false, Bool.false_eq_true, if_false, Bool.not_true]
      exact hnew

end AtRest

/-! ## The passes one after the other -/

section Passes

variable {lines out : List Text} (h : ∀ line ∈ lines, AtRest line)

include h

theorem removeConversions_of_atRest (hcut : removeConversions lines = .ok out) : out = lines := by
  refine (removeConversions_expands (fun line hl => (h line hl).not_conversionDefinition) hcut).eq_self ?_
  rintro line hl _ (rfl | ⟨hc, line', hu, rfl⟩)
  · rfl
  · have hla : CodeLacks conversionPieces line := (h line hl).codeLacks (by simp)
    rw [unwrapLine_of_lacks (hla hc) hu]

theorem convertSignals_of_atRest (target : Target) : convertSignals target lines = pure ⟨lines, false⟩ := by
  have he : updateEmissions target lines = pure ⟨lines, false⟩ :=
    visitLines_of_fixed (emitAt_of_fixed fun line hl => (h line hl).emitsNothing) _ _
  have hc : updateConnections target lines = pure ⟨lines, false⟩ :=
    visitLines_of_fixed (connectAt_of_fixed fun line hl => (h line hl).callsNothing _) _ _
  have hd : updateDisconnections target lines = pure lines :=
    updateDisconnections_of_fixed fun line hl => (h line hl).callsNothing _
  have hs : cleanSignalDecorators target lines = lines := map_of_fixed fun line hl =>
    signalDecorator_of_lacks target ((h line hl).lacks (by simp))
  have hsl : cleanSlotDecorators target lines = lines :=
    map_of_fixed fun line hl => (h line hl).slotDecorator target
  rw [convertSignals, he, pure_bind, hc, pure_bind, hd, pure_bind, hs, hsl]
  rfl

theorem updateImports_of_atRest (indent : Text) {p : Progress} (hp : p.signalDeclared = false) :
    updateImports ⟨.new, indent⟩ p lines = .ok (lines, p) := by
  induction lines with
  | nil => rfl
  | cons line lines ih =>
    obtain ⟨hli, hl⟩ := forall_mem_cons.mp h
    rw [updateImports, hli.importLine indent hp]
    change (updateImports ⟨.new, indent⟩ p lines >>= fun r => _) = _
    rw [ih hl]
    rfl

theorem ensureWidgets_of_atRest (p : Progress) : ensureWidgets p lines = .ok (lines, p) := by
  have hn : lines.any usesWidget = false := any_eq_false.mpr fun line hl => by
    have hla : CodeLacks Catalogue.widgets line := (h line hl).codeLacks (by simp)
    rw [usesWidget, Bool.and_eq_true]
    rintro ⟨hc, hu⟩
    rw [hla hc] at hu
    cases hu
  rw [ensureWidgets, hn, Bool.not_false, Bool.or_true, if_pos rfl]

theorem wheelGo_of_atRest (hgo : wheelGo none lines = .ok out) : out = lines := by
  refine (wheelGo_expands none lines hgo).eq_self ?_
  rintro line hli _ (rfl | ⟨hc, handler, rfl⟩)
  · rfl
  · have hl : CodeLacks [".delta()"] line := (h line hli).codeLacks (by simp)
    rw [handlerLine_of_lacks handler (hl.has hc mem_cons_self)]

theorem updateDates_of_atRest : updateDates lines = lines := by
  have hla : ∀ line ∈ lines, line.has ".setYMD(" = false := fun line hl =>
    (h line hl).lacks (by simp)
  have hc : dateClasses false lines = lines := by
    refine (dateClasses_expands false lines).eq_self ?_
    rintro line hli _ (rfl | ⟨hs, -⟩)
    · rfl
    · rw [has_eq_false_of_subneedle (hla line hli) ( has_iff_infix.mp (by decide))] at hs
      cases hs
  rw [updateDates, hc]
  refine (dateNames_expands [] lines).eq_self ?_
  rintro line hli _ (rfl | ⟨⟨-, hca⟩, -⟩)
  · rfl
  · rw [hla line hli] at hca
    cases hca

theorem updateDesktopServices_of_atRest (p : Progress) : updateDesktopServices p lines = .ok (lines, p) := by
  have hp : ∀ services, placesGo services lines = .ok (lines, false) := by
    intro services
    induction lines with
    | nil => rfl
    | cons line lines ih =>
      obtain ⟨hli, hl⟩ := forall_mem_cons.mp h
      rw [placesGo, placeLine_of_lacks services (hli.codeLacks (by simp)), ih hl]
      rfl
  rw [updateDesktopServices, hp]
  rfl

theorem updateGraphics_of_atRest : updateGraphics lines = .ok lines := by
  have hitems : ∀ item ∈ itemClasses, updateItems item lines = .ok lines := by
    intro item hitem
    rw [updateItems]
    induction lines with
    | nil => rfl
    | cons line lines ih =>
      obtain ⟨hline, hli⟩ := forall_mem_cons.mp h
      have hl : CodeLacks itemClasses line := hline.codeLacks (by simp)
      have hp : (!line.isCode || line.isImport || !line.has item) := by
        cases hc : line.isCode with
        | false => rfl
        | true => rw [hl.has hc hitem, Bool.not_false, Bool.or_true]
      rw [updateItemsGo, if_pos hp, ih hli]
      rfl
  rw [updateGraphics]
  have hf : ∀ items : List Text, (∀ item ∈ items, item ∈ itemClasses) →
      items.foldlM (fun ls item => updateItems item ls) lines = .ok lines := by
    intro items
    induction items with
    | nil => exact fun _ => rfl
    | cons item items ih =>
      intro hm
      obtain ⟨hitem, hr⟩ := forall_mem_cons.mp hm
      rw [foldlM_cons, hitems item hitem]
      exact ih hr
  exact hf itemClasses fun _ hi => hi

theorem updateHeaders_of_atRest : updateHeaders lines = .ok lines := by
  have hgo : ∀ methods : List (Text × Text), (∀ m ∈ methods, m ∈ headerMethods) →
      headersGo (headers lines) methods lines = .ok lines := by
    intro methods
    induction methods with
    | nil => exact fun _ => rfl
    | cons m methods ih =>
      intro hmem
      obtain ⟨hm, hr⟩ := forall_mem_cons.mp hmem
      have hp : lines.mapM (headerLine (headers lines) m.1 m.2) = .ok lines :=
        mapM_of_fixed fun line hl => headerLine_of_lacks _ _ ((h line hl).lacks
          (mem_append_left _ (mem_append_right _ (mem_map_of_mem hm))))
      rw [headersGo, hp]
      exact ih hr
  exact hgo headerMethods fun _ hm => hm

theorem updateChars_of_atRest : updateChars lines = .ok lines := by
  have hla : ∀ line ∈ lines, CodeLacks ["QChar"] line := fun line hl =>
    (h line hl).codeLacks (by simp)
  have hlines : lines.map charLine = lines := map_of_fixed fun line hl => charLine_of_lacks (hla line hl)
  have hn : lines.any usesChar = false := any_eq_false.mpr fun line hl => by
    rw [usesChar, Bool.and_eq_true]
    rintro ⟨hc, hu⟩
    have hli := (hla line hl).has hc mem_cons_self
    rw [replaceEach_of_lacks hli (by decide), hli] at hu
    cases hu
  rw [updateChars, hlines, hn, if_neg Bool.false_ne_true]

theorem updateStrings_of_atRest : updateStrings lines = .ok lines := by
  have hla : ∀ line ∈ lines, CodeLacks ["QString"] line := fun line hl =>
    (h line hl).codeLacks (by simp)
  have hlines : lines.map stringLine = lines :=
    map_of_fixed fun line hl => stringLine_of_lacks (hla line hl)
  have hs : lines.any usesString = false := any_eq_false.mpr fun line hl => by
    rw [usesString, Bool.and_eq_true]
    rintro ⟨hc, hu⟩
    have hli := (hla line hl).has hc mem_cons_self
    rw [replaceEach_of_lacks hli (by decide), hli] at hu
    cases hu
  have hlists : lines.any usesStringList = false := any_eq_false.mpr fun line hl => by
    rw [usesStringList, Bool.and_eq_true]
    rintro ⟨hc, hu⟩
    have hli := (hla line hl).has hc mem_cons_self
    rw [replaceEach_of_lacks hli (by decide)] at hu
    exact has_eq_false_iff.mp hli (List.IsInfix.trans ( has_iff_infix.mp (by decide)) ( has_iff_infix.mp hu))
  rw [updateStrings, hlines, hs, hlists, Bool.false_or, if_neg Bool.false_ne_true]

theorem renameInCode_of_atRest {rules : List (Text × Text)} (hr : rules.map (·.1) ∈ soughtInCode) :
    renameInCode rules lines = lines :=
  map_of_fixed fun line hl => by
    cases hc : line.isCode with
    | false => rfl
    | true =>
      have hla := (h line hl).inCode _ hr
      rw [if_pos rfl]
      exact replaceEach_of_not_has fun rule hru => hla.has hc (mem_map_of_mem hru)

theorem updateInputDialogs_of_atRest : updateInputDialogs lines = lines :=
  map_of_fixed fun line hl => if_neg (by
    rw [(h line hl).lacks (by simp)]
    exact Bool.false_ne_true)

theorem notes_of_atRest : noteScript lines = .ok lines ∧ noteXml lines = .ok lines ∧
    noteDeclarative lines = .ok lines ∧ noteItemAnimation lines = .ok lines ∧ noteOpenGL lines = .ok lines := by
  refine ⟨?_, ?_, ?_, ?_, ?_⟩
  · exact noteLines_of_fixed fun line hl => (h line hl).codeLacks (by simp)
  · refine noteLines_of_fixed fun line hl hc => ?_
    have hla : CodeLacks ["QtXml"] line := (h line hl).codeLacks (by simp)
    exact hla.has hc mem_cons_self
  · exact noteLines_of_fixed fun line hl => (h line hl).codeLacks (by simp)
  · refine noteLines_of_fixed fun line hl hc => ?_
    have hla : CodeLacks itemClasses line := (h line hl).codeLacks (by simp)
    have hi : line.has "QGraphicsItem" = false := hla.has hc (by decide)
    exact has_eq_false_of_subneedle hi ( has_iff_infix.mp (by decide))
  · refine noteLines_of_fixed fun line hl hc => ?_
    have hla : CodeLacks Catalogue.droppedOpenGL line := (h line hl).codeLacks (by simp)
    rw [hla hc, Bool.and_false]

/-- **Of the passes for parts of the library only the one for wheel events looks at lines at rest**, and
only to fail where it cannot tell an indentation. -/
theorem convertApi_of_atRest (p : Progress) : convertApi p lines = updateWheelEvents lines := by
  have hdialogs : updateFileDialogs lines = .ok lines := mapM_of_fixed fun line hl =>
    fileDialogLine_of_lacks ((h line hl).codeLacks (by simp))
  have hdi : updateDirectories lines = lines := map_of_fixed fun line hl =>
    directoryLine_of_lacks ((h line hl).codeLacks (by simp))
  have hlo : updateLocalizedTexts lines = lines := map_of_fixed fun line hl =>
    localizedLine_of_lacks ((h line hl).codeLacks (by simp))
  have hm : updateLayoutMargins lines = lines := map_of_fixed fun line hl =>
    marginLine_of_lacks _ ((h line hl).codeLacks (by simp))
  have hh : updateMessageHandlers lines = lines :=
    renameInCode_of_atRest h (by simp [soughtInCode, soughtPieces])
  have hv : updateVariants lines = lines :=
    renameInCode_of_atRest h (by simp [soughtInCode, soughtPieces])
  have hc : updateClassNames lines = lines :=
    renameInCode_of_atRest h (by simp [soughtInCode, soughtPieces])
  have ha : updateApplication lines = lines := map_of_fixed fun line hl =>
    applicationLine_of_lacks ((h line hl).codeLacks (by simp))
  obtain ⟨hs, hx, hd, han, ho⟩ := notes_of_atRest h
  have hok : ∀ {α β : Type} (a : α) (f : α → Except Failure β), (Except.ok a >>= f) = f a := fun _ _ => rfl
  simp only [convertApi, hdialogs, hdi, ensureWidgets_of_atRest h, hs, hx, hd,
    han, ho, hlo, hok]
  cases hw : updateWheelEvents lines with
  | error failure => rfl
  | ok wheel =>
    obtain rfl := wheelGo_of_atRest h hw
    simp only [hm, updateDesktopServices_of_atRest h, updateDates_of_atRest h,
      updateGraphics_of_atRest h, updateHeaders_of_atRest h, updateInputDialogs_of_atRest h,
      updateChars_of_atRest h, updateStrings_of_atRest h, hh, hv, hc, ha,
      hok]
    rfl

theorem beforeModules_of_atRest {s : Survey} {st : Declaring} (hst : (beforeModules s lines).outcome = .ok st) :
    st = ⟨lines, false⟩ := by
  rw [beforeModules] at hst
  obtain ⟨cut, hc, hs⟩ := Run.bind_eq_ok.mp hst
  rw [removeConversions_of_atRest h hc, convertSignals_of_atRest h, ite_self] at hs
  exact (Except.ok.inj hs).symm

theorem modulePasses_of_atRest : modulePasses (survey lines) = [] := by
  have hn : ∀ line ∈ lines, importsLibrary line = false := fun line hl => by
    rw [importsLibrary]
    cases hi : line.isImport with
    | false => rfl
    | true =>
      have hla : CodeLacks ["PyQt4"] line := (h line hl).codeLacks (by simp)
      exact hla.has (isCode_of_isImport hi) mem_cons_self
  have ha : ∀ pieces : List Text, (lines.any fun line => importsLibrary line && line.hasAny pieces) = false :=
    fun pieces => any_eq_false.mpr fun line hl => by
      rw [hn line hl, Bool.false_and]
      exact Bool.false_ne_true
  rw [modulePasses, survey, ha, ha]
  rfl

theorem convertLines_of_atRest (hr : (convertLines .new lines).outcome = .ok (some out)) : out = lines := by
  obtain ⟨-, indent, ho⟩ := exists_runPasses hr
  obtain ⟨st, named, p, imported, p', hst, hn, hi, ha⟩ := runPasses_stages ho
  obtain rfl := beforeModules_of_atRest h hst
  rw [modulePasses_of_atRest h] at hn
  cases hn
  rw [updateImports_of_atRest h indent rfl] at hi
  cases hi
  rw [convertApi_of_atRest h] at ha
  exact wheelGo_of_atRest h ha

theorem collectNotes_of_atRest : (collectNotes lines).1 = lines :=
  map_of_fixed fun line hl => unmarked_of_lacks ((h line hl).lacks (by simp))

end Passes

end QtMigration
