import QtMigration.Proofs.Frame.Api
import QtMigration.Proofs.Frame.Signals

/-!
# Proofs/Frame/Lacks — what each line function looks for

A line function looks for certain pieces, most of them on lines of code only.
-/

namespace QtMigration

open List Text

def CodeLacks (pieces : List Text) (line : Text) : Prop :=
  line.isCode = true → line.hasAny pieces = false

instance (pieces : List Text) : DecidablePred (CodeLacks pieces) := fun line =>
  inferInstanceAs (Decidable (line.isCode = true → line.hasAny pieces = false))

def conversionPieces : List Text := conversionName :: conversionRules.map (·.1)

def dialogPieces : List Text := pairCalls ++ nameCalls

/-- The pieces of a directory filter and of a change of separators. -/
def directoryPieces : List Text := [".convertSeparators(", dotFilter]

def localizedPieces : List Text := [".translate", ".trUtf8("]

def marginPieces : List Text := [".setMargin(", ".margin("]

def placePieces : List Text := [".displayName(", ".storageLocation("]

def slotPieces : List Text := ["@pyqtSignature", "@pyqtSlot"]

section Line

variable {line piece : Text} {pieces : List Text}

theorem CodeLacks.has (h : CodeLacks pieces line) (hc : line.isCode) (hp : piece ∈ pieces) :
    line.has piece = false :=
  hasAny_eq_false_iff.mp (h hc) piece hp

theorem replaceEach_of_lacks {rules : List (Text × Text)} (h : line.has piece = false)
    (hr : ∀ rule ∈ rules, rule.1.has piece) : line.replaceEach rules = line :=
  replaceEach_of_not_has fun rule hru =>
    has_eq_false_of_subneedle h ( has_iff_infix.mp (hr rule hru))

/-! ## Signals and imports -/

theorem signalDecorator_of_lacks (target : Target) (h : line.has "@pyqtSignal" = false) :
    signalDecorator target line = line := by
  rw [signalDecorator, h, if_neg Bool.false_ne_true]

theorem slotDecorator_of_lacks (target : Target) (h : line.hasAny slotPieces = false) :
    slotDecorator target line = line := by
  rw [hasAny_eq_false_iff] at h
  rw [slotDecorator, replaceAll_of_not_has (h _ (by decide)), h _ (by decide), if_neg Bool.false_ne_true]

theorem not_startsWith_of_lacks {head : Text} (h : line.has piece = false) (hp : head.has piece) :
    line.trimLeft.startsWith head = false := by
  refine Bool.eq_false_iff.mpr fun hs => ?_
  rw [Text.startsWith, isPrefixOf_iff_prefix] at hs
  exact has_eq_false_iff.mp h (( has_iff_infix.mp hp).trans (hs.isInfix.trans (dropWhile_suffix _).isInfix))

theorem newLibraryLine_of_lacks (cfg : Settings) (p : Progress) (h : line.has "PyQt4" = false) :
    newLibraryLine cfg p line.trimLeft line = .ok ([line], p) := by
  have hs : ∀ {head : Text}, head.has "PyQt4" → line.trimLeft.startsWith head = false :=
    fun hp => not_startsWith_of_lacks h hp
  rw [newLibraryLine, hs (by decide), hs (by decide), hs (by decide), hs (by decide),
    hs (by decide), replaceAll_of_not_has h]
  rfl

/-! ## Conversions from UTF-8 -/

theorem unwrapLine_of_lacks {line' : Text} (h : line.hasAny conversionPieces = false)
    (hu : unwrapLine line = .ok line') : line' = line := by
  rw [hasAny_eq_false_iff] at h
  have hr : line.replaceEach conversionRules = line := replaceEach_of_not_has
    fun rule hru => h rule.1 (mem_cons_of_mem _ (mem_map_of_mem hru))
  rw [unwrapLine, hr] at hu
  exact unwrapGo_of_not_has (h _ mem_cons_self) hu

/-! ## Parts of the library -/

theorem fileDialogLine_of_lacks (h : CodeLacks dialogPieces line) : fileDialogLine line = .ok line := by
  rw [fileDialogLine]
  split
  · rfl
  next hco =>
    have hl := hasAny_eq_false_iff.mp (h (by simpa using hco))
    have hpa : line.hasAny pairCalls = false :=
      hasAny_eq_false_iff.mpr fun p hp => hl p (mem_append_left _ hp)
    have hc : nameCalls.find? line.has = none := find?_eq_none.mpr fun call hca => by
      rw [hl call (mem_append_right _ hca)]
      exact Bool.false_ne_true
    rw [hpa, hc]
    split
    · rfl
    · split <;> rfl

theorem directoryLine_of_lacks (h : CodeLacks directoryPieces line) : directoryLine line = line := by
  rw [directoryLine]
  split
  · rfl
  next hc =>
    have hc : line.isCode := by simpa using hc
    rw [h.has hc (by decide), h.has hc (by decide)]
    rfl

theorem localizedLine_of_lacks (h : CodeLacks localizedPieces line) : localizedLine line = line := by
  rw [localizedLine]
  split
  · rfl
  next hc =>
    have hc : line.isCode := by simpa using hc
    rw [h.has hc (by decide), h.has hc (by decide)]
    rfl

theorem handlerLine_of_lacks (handler : WheelHandler) (h : line.has ".delta()" = false) :
    handlerLine handler line = line := by
  rw [handlerLine, replaceAll_of_not_has h, ite_self]

theorem marginLine_of_lacks (layouts : List Text) (h : CodeLacks marginPieces line) :
    marginLine layouts line = line := by
  rw [marginLine]
  split
  · rfl
  next hc =>
    have hc : line.isCode := by simpa using hc
    rw [splitOn_of_not_has (h.has hc (by decide)), h.has hc (by decide)]
    rfl

theorem placeLine_of_lacks (services : List Text) (h : CodeLacks placePieces line) :
    placeLine services line = .ok ([line], false) := by
  rw [placeLine]
  split
  · rfl
  next hc =>
    have hc : line.isCode := by simpa using hc
    rw [placeMethod?, h.has hc (by decide), h.has hc (by decide)]
    rfl

theorem headerLine_of_lacks (known : List Text) {old : Text} (new : Text) (h : line.has old = false) :
    headerLine known old new line = .ok line := by
  rw [headerLine, h, if_neg Bool.false_ne_true]

theorem charLine_of_lacks (h : CodeLacks ["QChar"] line) : charLine line = line := by
  rw [charLine]
  split
  · rfl
  next hc =>
    have hl := h.has (by simpa using hc) mem_cons_self
    rw [replaceEach_of_lacks hl (by decide)]
    dsimp only
    rw [replaceEach_of_lacks hl (by decide), ite_self]

theorem stringLine_of_lacks (h : CodeLacks ["QString"] line) : stringLine line = line := by
  rw [stringLine]
  split
  · rfl
  next hc =>
    have hl := h.has (by simpa using hc) mem_cons_self
    rw [replaceEach_of_lacks hl (by decide)]
    dsimp only
    rw [replaceEach_of_lacks hl (by decide), ite_self]

theorem applicationLine_of_lacks (h : CodeLacks ["qApp"] line) : applicationLine line = line := by
  rw [applicationLine]
  split
  · rfl
  next hc =>
    rw [Bool.or_eq_true, not_or, Bool.not_eq_true', Bool.not_eq_false, Bool.not_eq_true', Bool.not_eq_false] at hc
    rw [h.has hc.1 mem_cons_self] at hc
    cases hc.2

theorem unmarked_of_lacks (h : line.has noteMark = false) : unmarked line = line := by
  rw [unmarked, isNote, h, Bool.and_false, if_neg Bool.false_ne_true]

end Line

end QtMigration
