import QtMigration.Proofs.Frame.Lacks

/-!
# Proofs/Frame/Passes — the passes of a conversion as data

What holds of every pass is proved once for each constructor of `Pass`.
-/

namespace QtMigration

variable {lines out : List Text} {p : Progress}

/-- **The passes of a conversion.** -/
inductive Pass
  | conversions
  | emissions
  | connections
  | disconnections
  | signalDecorators
  | slotDecorators
  | coreClasses
  | widgetClasses
  | printClasses
  | webClasses
  | imports
  | fileDialogs
  | directories
  | widgets
  | scripting
  | xml
  | declarative
  | itemAnimations
  | openGL
  | localizedTexts
  | wheelEvents
  | layoutMargins
  | desktopServices
  | dates
  | graphics
  | headers
  | inputDialogs
  | chars
  | strings
  | messageHandlers
  | variants
  | classNames
  | application
  deriving DecidableEq, Repr

namespace Pass

def run (cfg : Settings) (p : Progress) (lines : List Text) : Pass → Except Failure (List Text)
  | conversions => removeConversions lines
  | emissions => (updateEmissions cfg.target lines).outcome.map (·.lines)
  | connections => (updateConnections cfg.target lines).outcome.map (·.lines)
  | disconnections => (updateDisconnections cfg.target lines).outcome
  | signalDecorators => .ok (cleanSignalDecorators cfg.target lines)
  | slotDecorators => .ok (cleanSlotDecorators cfg.target lines)
  | coreClasses => (retarget "QtGui" "QtCore" p lines).map (·.1)
  | widgetClasses => (retarget "QtGui" "QtWidgets" p lines).map (·.1)
  | printClasses => (retarget "QtGui" "QtPrintSupport" p lines).map (·.1)
  | webClasses => (retarget "QtWebKit" "QtWebKitWidgets" p lines).map (·.1)
  | imports => (updateImports cfg p lines).map (·.1)
  | fileDialogs => updateFileDialogs lines
  | directories => .ok (updateDirectories lines)
  | widgets => (ensureWidgets p lines).map (·.1)
  | scripting => noteScript lines
  | xml => noteXml lines
  | declarative => noteDeclarative lines
  | itemAnimations => noteItemAnimation lines
  | openGL => noteOpenGL lines
  | localizedTexts => .ok (updateLocalizedTexts lines)
  | wheelEvents => updateWheelEvents lines
  | layoutMargins => .ok (updateLayoutMargins lines)
  | desktopServices => (updateDesktopServices p lines).map (·.1)
  | dates => .ok (updateDates lines)
  | graphics => updateGraphics lines
  | headers => updateHeaders lines
  | inputDialogs => .ok (updateInputDialogs lines)
  | chars => updateChars lines
  | strings => updateStrings lines
  | messageHandlers => .ok (updateMessageHandlers lines)
  | variants => .ok (updateVariants lines)
  | classNames => .ok (updateClassNames lines)
  | application => .ok (updateApplication lines)

def apiPasses : List Pass :=
  [fileDialogs, directories, widgets, scripting, xml, declarative, itemAnimations, openGL,
   localizedTexts, wheelEvents, layoutMargins, desktopServices, dates, graphics, headers, inputDialogs,
   chars, strings, messageHandlers, variants, classNames, application]

/-- The pieces that a pass looks for on every line, code or not. -/
def soughtAnywhere : Pass → List Text
  | signalDecorators => ["@pyqtSignal"]
  | slotDecorators => slotPieces
  | dates => ["self.setYMD("]
  | headers => headerMethods.map (·.1)
  | inputDialogs => ["QInputDialog.getInteger("]
  | _ => []

/-- The pieces that a pass for a part of the library looks for on lines of code. -/
def soughtInCode : Pass → List Text
  | fileDialogs => dialogPieces
  | directories => directoryPieces
  | localizedTexts => localizedPieces
  | wheelEvents => [".delta()"]
  | layoutMargins => marginPieces
  | desktopServices => placePieces
  | dates => [".setYMD("]
  | graphics => itemClasses
  | chars => ["QChar"]
  | strings => ["QString"]
  | messageHandlers => ["qInstallMsgHandler("]
  | variants => Catalogue.variantMethods.map ("." ++ · ++ "()")
  | classNames => ["QMatrix", "QIconEngineV2"]
  | application => ["qApp"]
  | _ => []

/-- **The pass has nothing to do on the line.** -/
structure Leaves (pass : Pass) (line : Text) : Prop where
  anywhere : line.hasAny pass.soughtAnywhere = false
  inCode : CodeLacks pass.soughtInCode line
  bases : ∀ name item here, line.isCode = true → initialisesBase (superCall name) item line = true →
    initLines line ≠ .ok here

variable {keep : Text → Bool}

theorem renameInCode_keeps {rules : List (Text × Text)} {pieces : List Text} (hr : ∀ rule ∈ rules, rule.1 ∈ pieces)
    (hke : ∀ line, keep line → CodeLacks pieces line) (lines : List Text) :
    Keeps keep lines (renameInCode rules lines) := by
  refine map_keeps (fun line hk => ?_) lines
  split
  next hc =>
    exact Text.replaceEach_of_not_has fun rule hru => (hke line hk).has hc (hr rule hru)
  · rfl

theorem run_keeps_of_leaves {pass : Pass} (hpa : pass ∈ apiPasses) {cfg : Settings}
    (hke : ∀ line, keep line → pass.Leaves line)
    (h : pass.run cfg p lines = .ok out) : Keeps keep lines out := by
  have hc := fun line hk => (hke line hk).inCode
  have ha := fun line hk => Text.hasAny_eq_false_iff.mp (hke line hk).anywhere
  have hs : ∀ {f : Text → Text}, (∀ line, keep line → f line = line) →
      (Except.ok (lines.map f) : Except Failure _) = .ok out → Keeps keep lines out :=
    fun hf h => Except.ok.inj h ▸ map_keeps hf lines
  cases pass with
  | fileDialogs =>
    refine mapM_keeps (fun line line' hk hl => ?_) h
    rw [fileDialogLine_of_lacks (hc line hk)] at hl
    exact (Except.ok.inj hl).symm
  | directories => exact hs (fun line hk => directoryLine_of_lacks (hc line hk)) h
  | widgets =>
    obtain ⟨⟨out', p'⟩, ho, rfl⟩ := map_eq_ok.mp h
    exact .of_sublist (ensureWidgets_sublist ho)
  | scripting | xml | declarative | itemAnimations | openGL => exact noteLines_keeps h
  | localizedTexts => exact hs (fun line hk => localizedLine_of_lacks (hc line hk)) h
  | wheelEvents =>
    refine (wheelGo_expands none lines h).keeps ?_
    rintro line _ (rfl | ⟨hl, handler, rfl⟩) hk
    · exact List.mem_cons_self
    · rw [handlerLine_of_lacks handler ((hc line hk).has hl List.mem_cons_self)]
      exact List.mem_cons_self
  | layoutMargins => exact hs (fun line hk => marginLine_of_lacks _ (hc line hk)) h
  | desktopServices =>
    obtain ⟨services, hp⟩ := updateDesktopServices_expands h
    refine hp.keeps ?_
    rintro line here ⟨changed, hl⟩ hk
    rw [placeLine_of_lacks _ (hc line hk)] at hl
    cases hl
    exact List.mem_cons_self
  | dates =>
    exact Except.ok.inj h ▸ updateDates_keeps (fun line hk => ha line hk _ List.mem_cons_self)
      (fun line hk hl => (hc line hk).has hl List.mem_cons_self) lines
  | graphics =>
    refine updateGraphics_keeps (fun name item line here hk hl hb hi => ?_) (fun item hitem line hk => ?_) h
    · exact absurd hi ((hke line hk).bases name item here hl hb)
    · rw [passesItem]
      cases hl : line.isCode with
      | false => rfl
      | true => rw [(hc line hk).has hl hitem, Bool.not_false, Bool.or_true]
  | headers =>
    refine headersGo_keeps headerMethods (fun m hm line line' hk hl => ?_) lines h
    rw [headerLine_of_lacks _ _ (ha line hk _ (List.mem_map_of_mem hm))] at hl
    exact (Except.ok.inj hl).symm
  | inputDialogs =>
    exact hs (fun line hk => if_neg (by rw [ha line hk _ List.mem_cons_self]; decide)) h
  | chars => exact updateChars_keeps (fun line hk => charLine_of_lacks (hc line hk)) h
  | strings => exact updateStrings_keeps (fun line hk => stringLine_of_lacks (hc line hk)) h
  | messageHandlers | classNames => exact Except.ok.inj h ▸ renameInCode_keeps (by decide) hc lines
  | variants =>
    refine Except.ok.inj h ▸ renameInCode_keeps (fun rule hr => ?_) hc lines
    obtain ⟨m, hm, rfl⟩ := List.mem_map.mp hr
    exact List.mem_map_of_mem hm
  | application => exact hs (fun line hk => applicationLine_of_lacks (hc line hk)) h
  | _ => exact absurd hpa (by decide)

end Pass

theorem map_updateDesktopServices (p q : Progress) (lines : List Text) :
    (updateDesktopServices q lines).map (·.1) = (updateDesktopServices p lines).map (·.1) := by
  rw [updateDesktopServices, updateDesktopServices]
  cases placesGo (desktopServices ++ lines.filterMap servicesName?) lines <;> rfl

theorem convertApi_eq_foldlM (cfg : Settings) (p : Progress) (lines : List Text) :
    convertApi p lines = Pass.apiPasses.foldlM (fun ls pass => pass.run cfg p ls) lines := by
  have hok : ∀ {α β : Type} (a : α) (f : α → Except Failure β), (Except.ok a >>= f) = f a :=
    fun _ _ => rfl
  simp only [Pass.apiPasses, List.foldlM_cons, List.foldlM_nil, Pass.run, convertApi, hok]
  refine bind_congr fun dialogs => ?_
  cases ensureWidgets p (updateDirectories dialogs) with
  | error e => rfl
  | ok r =>
    rw [show (Except.ok r).map (·.1) = .ok r.1 from rfl, hok, hok]
    refine bind_congr fun _ => bind_congr fun _ => bind_congr fun _ => bind_congr fun _ =>
      bind_congr fun _ => bind_congr fun lines => ?_
    rw [← map_updateDesktopServices p r.2]
    cases updateDesktopServices r.2 (updateLayoutMargins lines) <;> rfl

theorem convertApi_induction {P : List Text → Prop}
    (h : convertApi p lines = .ok out) (hl : P lines)
    (hp : ∀ pass ∈ Pass.apiPasses, ∀ cfg before after, P before →
      pass.run cfg p before = .ok after → P after) : P out := by
  rw [convertApi_eq_foldlM ⟨.new, []⟩] at h
  generalize Pass.apiPasses = passes at h hp
  induction passes generalizing lines with
  | nil => exact Except.ok.inj h ▸ hl
  | cons pass passes ih =>
    rw [List.foldlM_cons] at h
    obtain ⟨middle, hm, h⟩ := bind_eq_ok.mp h
    exact ih (hp pass List.mem_cons_self _ _ _ hl hm) h
      fun pass' hmem => hp pass' (List.mem_cons_of_mem _ hmem)

theorem convertApi_keeps {keep : Text → Bool}
    (hk : ∀ pass ∈ Pass.apiPasses, ∀ line, keep line → pass.Leaves line)
    (h : convertApi p lines = .ok out) : Keeps keep lines out :=
  convertApi_induction (P := Keeps keep lines) h (Keeps.refl lines) fun pass hp _ _ _ hb hr =>
    hb.trans (Pass.run_keeps_of_leaves hp (hk pass hp) hr)

end QtMigration
