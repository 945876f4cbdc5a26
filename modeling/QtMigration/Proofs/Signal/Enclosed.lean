import QtMigration.Proofs.Signal.Emitted

/-!
# Proofs/Signal/Enclosed — is a signal declared in the class that uses it?

A line that emits a signal or relays to one needs a declaration (`UsesSignal`), and its new line has the name
of the signal. **Behind a class line the declaration goes into that class, or nowhere.**
-/

namespace QtMigration

open List

variable {c : Connection} {before behind lines searched : List Text}

/-! ## Lines that use a signal -/

/-- **The line emits a signal, or connects one to a signal**: `line'` is its new style, and `signal` is to be
declared. -/
inductive UsesSignal (target : Target) (line : Text) : Text → Text → Prop
  | emits {line' signal : Text} (h : (updateEmission target line).outcome = .ok (some (line', signal))) :
    UsesSignal target line line' signal
  | relays {line' : Text} {c : Connection}
    (h : (updateCall "connect" (Connection.ofConnect? target) line).outcome = .ok (some (line', c)))
    (hrelayed : c.relayed ≠ []) : UsesSignal target line line' c.relayed

theorem exists_args_of_updateCall {verb line line' : Text} {parse : List Text → Run (Option Connection)}
    (h : (updateCall verb parse line).outcome = .ok (some (line', c))) :
    ∃ args, (parse args).outcome = .ok (some c) := by
  rw [updateCall] at h
  split at h
  · cases h
  split at h
  · cases h
  obtain ⟨args, -, h⟩ := Run.bind_eq_ok.mp h
  obtain ⟨call, hc, h⟩ := Run.bind_eq_ok.mp h
  cases call with
  | none =>
    obtain ⟨-, -, h⟩ := Run.bind_eq_ok.mp h
    cases h
  | some c' =>
    obtain ⟨_, -, h⟩ := Run.bind_eq_ok.mp h
    obtain ⟨-, rfl⟩ := Prod.mk.inj (Option.some.inj (Except.ok.inj h))
    exact ⟨args, hc⟩

/-- A connection to a further signal is written with the name of that signal. -/
def NamesRelay (target : Target) (c : Connection) : Prop :=
  c.relayed ≠ [] → ∃ parts, (signature target c.relayed).outcome = .ok parts ∧ c.slot = signatureName parts

theorem namesRelay_connectionTo {target : Target} {sender : Text} {signal : List Text} {slot : Slot}
    (h : (connectionTo target sender signal slot).outcome = .ok c) : NamesRelay target c := by
  obtain ⟨parts, hparts, h⟩ := Run.bind_eq_ok.mp h
  obtain rfl := Except.ok.inj h
  intro hr
  have hre : relayOf slot.declaration = slot.declaration := by
    rw [relayOf] at hr ⊢
    split at hr
    next hs => exact if_pos hs
    · exact absurd rfl hr
  exact ⟨parts, by rw [hre]; exact hparts, rfl⟩

theorem namesRelay_ofConnect? {target : Target} {args : List Text}
    (h : (Connection.ofConnect? target args).outcome = .ok (some c)) : NamesRelay target c := by
  have hto : ∀ {sender : Text} {signal : List Text} {slot : Slot},
      (do return some (← connectionTo target sender signal slot) : Run (Option Connection)).outcome = .ok (some c) →
        NamesRelay target c := fun h => by
    obtain ⟨c', hc', h⟩ := Run.bind_eq_ok.mp h
    obtain rfl := Option.some.inj (Except.ok.inj h)
    exact namesRelay_connectionTo hc'
  have hca : ∀ {sender : Text} {signal : List Text} {callable options : Text},
      some (connectionToCallable sender signal callable options) = some c → NamesRelay target c := fun h => by
    obtain rfl := Option.some.inj h
    exact fun hr => absurd rfl hr
  unfold Connection.ofConnect? at h
  split at h
  next sender signal third rest =>
    dsimp only at h
    split at h
    · cases h
    obtain ⟨parts, -, h⟩ := Run.bind_eq_ok.mp h
    split at h
    · exact hto h
    split at h
    · split at h
      · exact hto h
      · exact hca (Except.ok.inj h)
    · exact hca (Except.ok.inj h)
  · cases h

namespace UsesSignal

variable {target : Target} {line line' signal : Text}

theorem exists_name (h : UsesSignal target line line' signal) :
    ∃ parts, (signature target signal).outcome = .ok parts ∧ line'.has (signatureName parts) := by
  cases h with
  | emits h => exact (updateEmission_spec h).2.2
  | @relays c h hr =>
    obtain ⟨args, ha⟩ := exists_args_of_updateCall h
    obtain ⟨parts, hparts, hs⟩ := namesRelay_ofConnect? ha hr
    obtain ⟨indent, -, rfl⟩ := updateCall_eq h
    refine ⟨parts, hparts, Text.has_iff_infix.mpr ?_⟩
    rw [← hs, Connection.render]
    refine ⟨indent ++ c.sender ++ "." ++ c.signal ++ Connection.wrapped "[" c.signalTypes "]" ++ "." ++ "connect" ++
      "(" ++ Connection.wrapped "" c.receiver ".",
      (if c.relayed.isEmpty then [] else Connection.wrapped "[" c.slotTypes "]") ++
        Connection.wrapped ", " c.options "" ++ ")\n", ?_⟩
    simp only [append_assoc]

theorem visit_eq (h : UsesSignal target line line' signal) {i : Nat} (hl : lines[i]? = some line) :
    (emitAt target i lines).outcome = (declareSignal target (lines.set i line') i signal).outcome ∨
      (connectAt target i lines).outcome = (declareSignal target (lines.set i line') i signal).outcome := by
  cases h with
  | emits h =>
    rw [emitAt_eq hl, Run.outcome_bind, h]
    exact .inl rfl
  | @relays c h hr =>
    have hrun : (connectAt target i lines).outcome = (if c.relayed.isEmpty then return ⟨lines.set i line', 0⟩
          else declareSignal target (lines.set i line') i c.relayed : Run Declared).outcome := by
      rw [connectAt, hl]
      dsimp only
      rw [Run.outcome_bind, h]
      rfl
    rw [hrun, if_neg (by simpa using hr)]
    exact .inr rfl

end UsesSignal

/-! ## The class around a line -/

/-- **The signal is declared in the class around the line at `i`, or nowhere**: nothing breaks off, and the lines are
as they were, or a block of lines is put in between the nearest class line and the line. -/
def DeclaredInClass (lines : List Text) (i : Nat) (outcome : Except Failure Declared) : Prop :=
  outcome = .ok ⟨lines, 0⟩ ∨ ∃ before line behind grown n, lines = before ++ line :: behind ∧ i = before.length ∧
    PutInClass before grown n ∧ outcome = .ok ⟨grown ++ line :: behind, n⟩

/-- **What a search from a line finds that opens no class**: the class around the line, or the last one of all. -/
theorem ClassSearch.around_or_last {line : Text} {c : Int}
    (h : ClassSearch (before ++ line :: behind) before.length c searched) (hli : opensClass line = false) :
    (∃ front cls body, before = front ++ cls :: body ∧ opensClass cls ∧ (∀ l ∈ body, opensClass l = false) ∧
      c = front.length ∧ searched = body ++ line :: behind) ∨
    ((∀ l ∈ before, opensClass l = false) ∧ ∃ between cls tail, behind = between ++ cls :: tail ∧
      c = -1 - (tail.length : Int) ∧ searched = tail ++ (before ++ line :: behind)) := by
  generalize hl : before ++ line :: behind = lines at h
  generalize hi : before.length = i at h
  cases h with
  | @own front cls _ hc =>
    obtain ⟨-, hr⟩ := append_inj hl hi
    obtain ⟨rfl, -⟩ := cons.inj hr
    rw [hli] at hc
    cases hc
  | @enclosing front cls body line' behind' hc hbo _ =>
    obtain ⟨rfl, hr⟩ := append_inj hl hi
    obtain ⟨rfl, rfl⟩ := cons.inj hr
    exact .inl ⟨front, cls, body, rfl, hc, hbo, rfl, rfl⟩
  | @last before' line' between cls tail hb _ hc ht =>
    obtain ⟨rfl, hr⟩ := append_inj hl hi
    obtain ⟨rfl, rfl⟩ := cons.inj hr
    exact .inr ⟨hb, between, cls, tail, rfl, rfl, rfl⟩

theorem added_ne_zero_of_insertDeclaration {p : Int} {decl : Text} {d : Declared}
    (h : insertDeclaration lines p decl = .ok d) : d.added ≠ 0 := by
  rw [insertDeclaration] at h
  split at h
  · cases h
  split at h
  all_goals
    obtain rfl := Except.ok.inj h
    exact Nat.succ_ne_zero _

theorem declareSignal_eq_error {target : Target} {signal : Text} {parts : List Text}
    (hparts : (signature target signal).outcome = .ok parts) (h : ∀ l ∈ lines, opensClass l = false) (i : Int) :
    (declareSignal target lines i signal).outcome = .error .pieceMissing := by
  rw [declareSignal, Run.outcome_bind, hparts]
  dsimp only [Except.bind]
  rw [classBefore?_eq_none h]
  rfl

theorem find?_endsSearch {name l : Text} {passed : List Text} (hp : ∀ x ∈ passed, placeAt name x = .further)
    (hl : placeAt name l ≠ .further) (rest : List Text) :
    (passed ++ l :: rest).find? (fun l => placeAt name l != .further) = some l := by
  refine find?_eq_some_iff_append.mpr ⟨bne_iff_ne.mpr hl, passed, rest, rfl, fun x hx => ?_⟩
  rw [hp x hx]
  rfl

section Around

variable {target : Target} {signal line : Text} {parts : List Text}
  (hparts : (signature target signal).outcome = .ok parts) (hopens : opensClass line = false)
  (hcode : line.isCode = true) (hname : line.has (signatureName parts) = true)

include hparts hopens hcode hname

theorem exists_find?_of_search {c : Int} (h : ClassSearch (before ++ line :: behind) before.length c searched) :
    ∃ passed l rest, searched = passed ++ l :: rest ∧
      searched.find? (fun l => placeAt (signatureName parts) l != .further) = some l ∧
      (placeAt (signatureName parts) l = .known ∧
          (declareSignal target (before ++ line :: behind) before.length signal).outcome =
            .ok ⟨before ++ line :: behind, 0⟩ ∨
        placeAt (signatureName parts) l = .here ∧
          (declareSignal target (before ++ line :: behind) before.length signal).outcome =
            l.indent.bind fun indent => insertDeclaration (before ++ line :: behind) (c + 1 + passed.length)
              (declarationLine indent (signal.firstPiece "SIGNAL(") parts)) := by
  have hm : line ∈ searched := by
    rcases h.around_or_last hopens with ⟨_, _, _, -, -, -, -, rfl⟩ | ⟨-, _, _, _, -, -, rfl⟩ <;> simp
  have hk : placeAt (signatureName parts) line = .known := by
    rw [placeAt, hcode, hname]
    rfl
  rcases declareSignal_cases hparts h with ⟨ha, -⟩ | ⟨passed, l, rest, hs, hp, hf⟩
  · rw [ha line hm] at hk
    cases hk
  · refine ⟨passed, l, rest, hs, ?_, hf⟩
    rw [hs]
    refine find?_endsSearch hp ?_ rest
    rcases hf with ⟨hl, -⟩ | ⟨hl, -⟩ <;> rw [hl] <;> decide

/-- **A declaration stays in the class around the line exactly if the search finds that class and can place the
declaration in it, or finds the name.** -/
theorem declaredInClass_iff (before behind : List Text) : DeclaredInClass (before ++ line :: behind) before.length
        (declareSignal target (before ++ line :: behind) before.length signal).outcome ↔
      ∃ c searched l, ClassSearch (before ++ line :: behind) before.length c searched ∧
        searched.find? (fun l => placeAt (signatureName parts) l != .further) = some l ∧
        (placeAt (signatureName parts) l = .known ∨ 0 ≤ c ∧ ∃ kept, l.indent = .ok kept) := by
  have hline : (before ++ line :: behind)[before.length]? = some line := by simp
  constructor
  · intro hde
    rcases ClassSearch.exists_or_forall hline with ⟨c, searched, hs⟩ | hn
    · obtain ⟨passed, l, rest, -, hf, hfo⟩ := exists_find?_of_search hparts hopens hcode hname hs
      refine ⟨c, searched, l, hs, hf, ?_⟩
      rcases hfo with ⟨hl, -⟩ | ⟨-, ho⟩
      · exact .inl hl
      · obtain ⟨d, hd⟩ : ∃ d, (declareSignal target (before ++ line :: behind) before.length signal).outcome = .ok d := by
          rcases hde with h | ⟨_, _, _, _, _, -, -, -, h⟩ <;> exact ⟨_, h⟩
        obtain ⟨kept, hk, hin⟩ := bind_eq_ok.mp (ho.symm.trans hd)
        refine .inr ⟨?_, kept, hk⟩
        -- a declaration is put in, so a class is opened before the line
        rcases hde with h | ⟨before', line', behind', grown, n, hli, hle, hput, -⟩
        · rw [hd, Except.ok.injEq] at h
          rw [h] at hin
          exact absurd rfl (added_ne_zero_of_insertDeclaration hin)
        · obtain ⟨front, cls, body, -, hb', hcls, -, -, -⟩ := hput
          obtain ⟨rfl, -⟩ := append_inj hli hle
          rcases hs.around_or_last hopens with ⟨front', _, _, -, -, -, rfl, -⟩ | ⟨hfr, _⟩
          · exact Int.natCast_nonneg _
          · rw [hfr cls (by rw [hb']; simp)] at hcls
            cases hcls
    · have hfa : (declareSignal target (before ++ line :: behind) before.length signal).outcome =
          .error .pieceMissing := declareSignal_eq_error hparts hn _
      rcases hde with h | ⟨_, _, _, _, _, -, -, -, h⟩ <;> cases hfa.symm.trans h
  · rintro ⟨c, searched, l, hs, hf, hp⟩
    obtain ⟨passed, l', rest, -, hf', hfo⟩ := exists_find?_of_search hparts hopens hcode hname hs
    obtain rfl := Option.some.inj (hf.symm.trans hf')
    rcases hfo with ⟨-, ho⟩ | ⟨hl, ho⟩
    · exact .inl ho
    · rw [hl] at hp
      obtain ⟨hc, kept, hk⟩ := hp.resolve_left (by decide)
      rcases hs.around_or_last hopens with ⟨front, cls, body, rfl, hcls, hbo, rfl, rfl⟩ | ⟨-, _, _, tail, -, rfl, -⟩
      · rcases declareSignal_enclosing hparts behind hcls hbo hopens hcode hname with
          ⟨body', n, hbl, hdo⟩ | ⟨passed', l', rest', failure, rfl, hpa', hl', hi, -⟩
        · exact .inr ⟨_, line, behind, _, n, rfl, rfl, ⟨front, cls, body, body', rfl, hcls, hbo, hbl, rfl⟩, hdo⟩
        · have hfi := find?_endsSearch hpa' (by rw [hl']; decide) (rest' ++ line :: behind)
          rw [← cons_append, ← append_assoc, hf, Option.some.injEq] at hfi
          rw [← hfi, hk] at hi
          cases hi
      · omega

end Around

/-- **When a signal is declared in the class that uses it, or nowhere.** -/
theorem declared_in_class_iff {target : Target} {lines : List Text} {i : Nat} {line line' signal : Text}
    (hline : lines[i]? = some line) (huse : UsesSignal target line line' signal) (hcode : line'.isCode = true)
    (hfree : line'.has "class " = false) :
    ∃ name outcome, line'.has name = true ∧ outcome = (declareSignal target (lines.set i line') i signal).outcome ∧
      ((emitAt target i lines).outcome = outcome ∨ (connectAt target i lines).outcome = outcome) ∧
      (DeclaredInClass (lines.set i line') i outcome ↔ ∃ c searched l, ClassSearch (lines.set i line') i c searched ∧
          searched.find? (fun l => placeAt name l != .further) = some l ∧
          (placeAt name l = .known ∨ 0 ≤ c ∧ ∃ kept, l.indent = .ok kept)) ∧
      ((∃ l ∈ lines.take i, opensClass l = true) → ∀ d, outcome = .ok d → DeclaredInClass (lines.set i line') i outcome) ∧
      (ClassOpen (lines.take i) → DeclaredInClass (lines.set i line') i outcome) ∧
      ((∀ l ∈ lines.take i ++ lines.drop (i + 1), opensClass l = false) → outcome = .error .pieceMissing) := by
  obtain ⟨parts, hparts, hname⟩ := huse.exists_name
  have hopens : opensClass line' = false := by rw [opensClass, hfree, Bool.and_false]
  obtain ⟨before, behind, rfl, rfl⟩ := exists_append_of_getElem? hline
  have hvisit := huse.visit_eq hline
  have hset : (before ++ line :: behind).set before.length line' = before ++ line' :: behind := by simp
  have hdrop : (before ++ line :: behind).drop (before.length + 1) = behind := by
    rw [List.append_cons, List.drop_left' (by simp)]
  rw [hset] at hvisit ⊢
  rw [List.take_left, hdrop]
  refine ⟨signatureName parts, _, hname, rfl, hvisit, declaredInClass_iff hparts hopens hcode hname before behind,
    fun hclass d hd => ?_, fun hopen => ?_, fun hnone => ?_⟩
  · obtain ⟨grown, hput, hlines⟩ := putInClass_of_declareSignal hparts hclass hopens hcode hname hd
    refine .inr ⟨before, line', behind, grown, d.added, rfl, rfl, hput, ?_⟩
    rw [hd, ← hlines]
  · obtain ⟨grown, n, -, -, hd⟩ := declareSignal_open behind hparts hopen hopens hcode hname
    obtain ⟨front, cls, body, hbefore, hcls, -, -⟩ := hopen.exists_nearest
    obtain ⟨grown', hput, hlines⟩ := putInClass_of_declareSignal hparts ⟨cls, by rw [hbefore]; simp, hcls⟩ hopens hcode
      hname hd
    refine .inr ⟨before, line', behind, grown', n, rfl, rfl, hput, ?_⟩
    rw [hd, ← hlines]
  · refine declareSignal_eq_error hparts (List.forall_mem_append.mpr ⟨fun l hl => ?_, List.forall_mem_cons.mpr
      ⟨hopens, fun l hl => ?_⟩⟩) _
    · exact hnone l (List.mem_append_left _ hl)
    · exact hnone l (List.mem_append_right _ hl)

def sentLines : List Text := ["class A:\n", "    def f(self):\n", "        self.emit(SIGNAL('sent()'))\n"]

theorem declared_in_class_iff_sentLines :
    UsesSignal .new "        self.emit(SIGNAL('sent()'))\n" "        self.sent.emit()\n" "SIGNAL('sent()')" ∧
      ClassOpen (sentLines.take 2) ∧
      DeclaredInClass (sentLines.set 2 "        self.sent.emit()\n") 2
        (declareSignal .new (sentLines.set 2 "        self.sent.emit()\n") 2 "SIGNAL('sent()')").outcome := by
  have huse : UsesSignal .new "        self.emit(SIGNAL('sent()'))\n" "        self.sent.emit()\n"
      "SIGNAL('sent()')" := .emits (by decide)
  have hopen : ClassOpen (sentLines.take 2) :=
    ⟨[], "class A:\n", ["    def f(self):\n"], rfl, by decide, List.forall_mem_singleton.mpr fun _ _ =>
      ⟨"    ", by decide⟩⟩
  have hline : sentLines[2]? = some ("        self.emit(SIGNAL('sent()'))\n" : Text) := rfl
  obtain ⟨_, outcome, -, rfl, -, -, -, hdeclared, -⟩ := declared_in_class_iff hline huse (by decide) (by decide)
  exact ⟨huse, hopen, hdeclared hopen⟩

/-- **Before the first class line a signal is declared in the last class of all, and without a class line the pass
breaks off.** -/
theorem declared_in_foreign_class :
    (updateEmissions .new ["x.emit(SIGNAL('sent()'))\n", "class A:\n", "    pass\n"]).outcome =
        .ok ⟨["x.sent.emit()\n", "class A:\n", "    sent = pyqtSignal()\n", "    pass\n"], true⟩ ∧
      (updateEmissions .new ["x.emit(SIGNAL('sent()'))\n"]).outcome = .error .pieceMissing := by
  decide

end QtMigration
