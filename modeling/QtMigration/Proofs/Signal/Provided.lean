import QtMigration.Proofs.Retarget.Agreement
import QtMigration.Proofs.Signal.Enclosed
import QtMigration.Proofs.Token.Order

/-!
# Proofs/Signal/Provided — does an emission find its signal declared?

**Between the class line and the emission the signal is declared exactly if it was before, or if the
search comes to a place for it in the class body** (`emission_declared_iff`).
-/

namespace QtMigration

open List

/-! ## Lines that declare a signal -/

/-- What may stand before a name of a module: nothing, or names with a dot behind each. -/
def isQualifier (module : Text) : Bool :=
  module.isEmpty || (module.all fun c => isNamePart c || c == '.') && module.getLast? == some '.'

/-- **The line declares a signal of this name**, behind its indentation. -/
def Declares (name line : Text) : Prop :=
  ∃ module rest, isQualifier module = true ∧ line.trimLeft = name ++ (" = " ++ (module ++ ("pyqtSignal(" ++ rest)))

theorem trimLeft_indent_append {line kept name : Text} (hk : line.indent = .ok kept)
    (hname : isIdentifier name) (rest : Text) : Text.trimLeft (kept ++ (name ++ rest)) = name ++ rest := by
  have hb : Text.trimLeft kept = [] :=
    dropWhile_eq_nil_iff.mpr fun c hc => isBlank_of_isRowBlank (Text.indent_blank hk c hc)
  cases name with
  | nil => exact absurd rfl (ne_nil_of_isIdentifier hname)
  | cons c name =>
    have hc : Text.isBlank c = false := isBlank_of_isNamePart (isNamePart_of_mem hname mem_cons_self)
    rw [Text.trimLeft_append, hb, if_pos (isEmpty_nil), cons_append, Text.trimLeft_cons hc]

theorem declares_declarationLine {line kept module : Text} {parts : List Text} (hk : line.indent = .ok kept)
    (hname : isIdentifier (signatureName parts)) (hm : isQualifier module) :
    Declares (signatureName parts) (declarationLine kept module parts) := by
  refine ⟨module, signatureTypes parts ++ ")\n", hm, ?_⟩
  simp only [declarationLine, append_assoc]
  exact trimLeft_indent_append hk hname _

theorem exists_place {name : Text} {body : List Text} (hf : ∀ l ∈ body, l.isCode → l.has name = false)
    (hpl : ∃ l ∈ body, l.isCode ∧ l.has "pyqtSignal" = false) :
    ∃ l, body.find? (fun l => placeAt name l != .further) = some l ∧ placeAt name l = .here := by
  obtain ⟨l, hl, hcode, hs⟩ := hpl
  have hhe : placeAt name l = .here := by
    rw [placeAt, hcode, hf l hl hcode, hs]
    rfl
  obtain ⟨x, hx⟩ := Option.isSome_iff_exists.mp
    (find?_isSome (p := fun l => placeAt name l != .further).mpr ⟨l, hl, by rw [hhe]; rfl⟩)
  refine ⟨x, hx, ?_⟩
  have he := find?_some hx
  cases hp : placeAt name x with
  | here => rfl
  | further => rw [hp] at he; cases he
  | known =>
    have hh : x.isCode ∧ x.has name := by
      rw [placeAt] at hp
      split at hp
      next hb => exact Bool.and_eq_true_iff.mp hb
      · split at hp <;> cases hp
    rw [hf x (mem_of_find?_eq_some hx) hh.1] at hh
    cases hh.2

/-! ## The lines between a class line and an emission -/

section Between

variable {target : Target} {signal line : Text} {parts front body behind : List Text} {cls : Text} {d : Declared}
  (hparts : (signature target signal).outcome = .ok parts)

include hparts

theorem declareSignal_own (hop : opensClass line) {before : List Text}
    (h : (declareSignal target (before ++ line :: behind) before.length signal).outcome = .ok d) :
    ∃ behind', d.lines = before ++ line :: behind' ∧ Grown behind behind' := by
  rcases declareSignal_cases hparts (.own before behind hop) with
    ⟨-, ho⟩ | ⟨passed, l, rest, rfl, -, ⟨-, ho⟩ | ⟨-, ho⟩⟩
  · cases h.symm.trans ho
  · obtain rfl := Except.ok.inj (h.symm.trans ho)
    exact ⟨_, rfl, .refl _⟩
  · obtain ⟨kept, -, hi⟩ := bind_eq_ok.mp (ho.symm.trans h)
    obtain ⟨grown, n, hb, -, hd⟩ := @insertDeclaration_append before passed rest line l
      (declarationLine kept (signal.firstPiece "SIGNAL(") parts) (ne_newline_of_opensClass hop)
      (isAddition_declarationLine _ _ _)
    rw [append_assoc, cons_append] at hd
    obtain rfl := Except.ok.inj (hi.symm.trans hd)
    exact ⟨grown ++ l :: rest, by simp, hb.toGrown.append (.refl _)⟩

variable (hcls : opensClass cls = true) (hbody : ∀ l ∈ body, opensClass l = false)
  (hcode : line.isCode = true) (hname : line.has (signatureName parts) = true)

include hcls hbody hcode hname

/-- **In the class around a line the lines stay as they are, or the declaration is one of them.** -/
theorem declareSignal_body (hop : opensClass line = false)
    (h : (declareSignal target (front ++ cls :: body ++ line :: behind) (front ++ cls :: body).length signal).outcome =
      .ok d) :
    ∃ body', d.lines = front ++ cls :: body' ++ line :: behind ∧ Grown body body' ∧
      ((∀ l, body.find? (fun l => placeAt (signatureName parts) l != .further) = some l →
          placeAt (signatureName parts) l = .known) ∧ body' = body ∨
        ∃ l kept, body.find? (fun l => placeAt (signatureName parts) l != .further) = some l ∧
          placeAt (signatureName parts) l = .here ∧ l.indent = .ok kept ∧
          declarationLine kept (signal.firstPiece "SIGNAL(") parts ∈ body') := by
  rcases declareSignal_around hparts behind hcls hbody hop hcode hname front with
    ⟨passed, l, rest, hs, hp, hl, ho⟩ | ⟨passed, l, inside, rfl, hp, hl, ho⟩
  · obtain rfl := Except.ok.inj (h.symm.trans ho)
    refine ⟨body, rfl, .refl body, .inl ⟨fun x hx => ?_, rfl⟩⟩
    have hf := find?_endsSearch hp (by rw [hl]; decide) rest
    rw [← hs, find?_append, hx, Option.some_or, Option.some.injEq] at hf
    rw [hf, hl]
  · obtain ⟨kept, hk, hi⟩ := bind_eq_ok.mp (ho.symm.trans h)
    obtain ⟨grown, n, hb, hm, hd⟩ := @insertDeclaration_body front passed inside behind cls l line
      (declarationLine kept (signal.firstPiece "SIGNAL(") parts) (ne_newline_of_opensClass hcls)
      (isAddition_declarationLine _ _ _)
    obtain rfl := Except.ok.inj (hi.symm.trans hd)
    exact ⟨grown, rfl, hb.toGrown,
      .inr ⟨l, kept, find?_endsSearch hp (by rw [hl]; decide) inside, hl, hk, hm⟩⟩

end Between

/-- **When an emission behind a class line finds its signal declared.** -/
theorem emission_declared_iff {target : Target} {front body behind parts : List Text} {cls line line' signal : Text}
    {d : Declared} (hcls : opensClass cls = true) (hbody : ∀ l ∈ body, opensClass l = false)
    (hemits : (updateEmission target line).outcome = .ok (some (line', signal)))
    (hparts : (signature target signal).outcome = .ok parts) (hname : isIdentifier (signatureName parts) = true)
    (hmodule : isQualifier (signal.firstPiece "SIGNAL(") = true)
    (h : (emitAt target (front ++ cls :: body).length (front ++ cls :: body ++ line :: behind)).outcome = .ok d) :
    ∃ body' behind', d.lines = front ++ cls :: body' ++ line' :: behind' ∧ Grown body body' ∧ Grown behind behind' ∧
      ((∃ l ∈ body', Declares (signatureName parts) l) ↔ (∃ l ∈ body, Declares (signatureName parts) l) ∨
        opensClass line' = false ∧ ∃ l, body.find? (fun l => placeAt (signatureName parts) l != .further) = some l ∧
          placeAt (signatureName parts) l = .here) ∧
      (opensClass line' = false → (∀ l ∈ body, l.isCode = true → l.has (signatureName parts) = false) →
        (∃ l ∈ body, l.isCode = true ∧ l.has "pyqtSignal" = false) → ∃ l ∈ body', Declares (signatureName parts) l) := by
  have hline : (front ++ cls :: body ++ line :: behind)[(front ++ cls :: body).length]? = some line := by simp
  have hset : (front ++ cls :: body ++ line :: behind).set (front ++ cls :: body).length line' =
      front ++ cls :: body ++ line' :: behind := by simp
  rw [emitAt_eq hline, Run.outcome_bind, hemits] at h
  dsimp only [Except.bind] at h
  rw [hset] at h
  obtain ⟨-, hcode, parts', hparts', hnamed⟩ := updateEmission_spec hemits
  obtain rfl := Except.ok.inj (hparts.symm.trans hparts')
  cases hopens : opensClass line' with
  | true =>
    obtain ⟨behind', hlines, hbehind⟩ := declareSignal_own hparts hopens h
    exact ⟨body, behind', hlines, .refl body, hbehind, by simp, by simp⟩
  | false =>
    obtain ⟨body', hlines, hgrown, ⟨hnone, rfl⟩ | ⟨l, kept, hfind, hl, hkept, hmem⟩⟩ :=
      declareSignal_body hparts hcls hbody hcode hnamed hopens h
    · have hno : ¬ ∃ l, body'.find? (fun l => placeAt (signatureName parts) l != .further) = some l ∧
          placeAt (signatureName parts) l = .here := by
        rintro ⟨l, hfind, hl⟩
        rw [hnone l hfind] at hl
        cases hl
      exact ⟨body', behind, hlines, hgrown, .refl behind, by simp [hno], fun _ hfree hplaces =>
        absurd (exists_place hfree hplaces) hno⟩
    · have hdeclares : ∃ l ∈ body', Declares (signatureName parts) l :=
        ⟨_, hmem, declares_declarationLine hkept hname hmodule⟩
      exact ⟨body', behind, hlines, hgrown, .refl behind, iff_of_true hdeclares (.inr ⟨rfl, l, hfind, hl⟩),
        fun _ _ _ => hdeclares⟩

theorem emission_declared_iff_sentLines :
    (emitAt .new 2 sentLines).outcome = .ok ⟨["class A:\n", "    sent = pyqtSignal()\n", "\n", "    def f(self):\n",
        "        self.sent.emit()\n"], 2⟩ ∧
      ∃ body' behind' : List Text, (["class A:\n", "    sent = pyqtSignal()\n", "\n", "    def f(self):\n",
          "        self.sent.emit()\n"] : List Text) =
            ("class A:\n" : Text) :: body' ++ ("        self.sent.emit()\n" : Text) :: behind' ∧
        ∃ l ∈ body', Declares "sent" l := by
  have hrun : (emitAt .new 2 sentLines).outcome = .ok ⟨["class A:\n", "    sent = pyqtSignal()\n", "\n",
      "    def f(self):\n", "        self.sent.emit()\n"], 2⟩ := by decide
  obtain ⟨body', behind', hlines, -, -, -, hdeclared⟩ := @emission_declared_iff .new [] ["    def f(self):\n"] []
    ["sent"] "class A:\n" "        self.emit(SIGNAL('sent()'))\n" "        self.sent.emit()\n" "SIGNAL('sent()')" _
    (by decide) (by decide) (by decide) (by decide) (by decide) (by decide) hrun
  exact ⟨hrun, body', behind', hlines, hdeclared (by decide) (by decide) (by decide)⟩

theorem Declares.isPrefix {name line : Text} (h : Declares name line) : name <+: line.trimLeft := by
  obtain ⟨module, rest, -, hl⟩ := h
  exact ⟨_, hl.symm⟩

/-- **A function whose name has the name of the signal in it passes for its declaration.** -/
theorem emission_left_undeclared :
    (emitAt .new 2 ["class A:\n", "    def present(self):\n", "        self.emit(SIGNAL('sent()'))\n"]).outcome =
        .ok ⟨["class A:\n", "    def present(self):\n", "        self.sent.emit()\n"], 0⟩ ∧
      ∀ l ∈ (["class A:\n", "    def present(self):\n", "        self.sent.emit()\n"] : List Text),
        ¬ Declares "sent" l := by
  have hfirst : ∀ l ∈ (["class A:\n", "    def present(self):\n", "        self.sent.emit()\n"] : List Text),
      ¬ ("sent" : Text) <+: l.trimLeft := by decide
  exact ⟨by decide, fun l hl hdeclares => hfirst l hl hdeclares.isPrefix⟩

end QtMigration
