import QtMigration.Proofs.Frame.Signals
import QtMigration.Proofs.Signal.Declared
import QtMigration.Proofs.Signal.Surroundings
import QtMigration.Proofs.Text.Split
import QtMigration.Proofs.Text.Trim

/-!
# Proofs/Signal/Emitted — emissions in the lines of a source

**Where every emission stands in a class, the pass replaces each of them once and puts in blocks of
declarations, each between a class line and its emission** (`emissions_tracked`).
-/

namespace QtMigration

open List

variable {d : Declared} {before behind grown : List Text} {n : Nat} {line' signal : Text}

/-! ## An emission -/

/-- What the line becomes; a line that is no emission stays as it is. -/
def emitted (target : Target) (line : Text) : Text :=
  match (updateEmission target line).outcome with
  | .ok (some (line', _)) => line'
  | _ => line

theorem emitted_eq {target : Target} {line : Text}
    (h : (updateEmission target line).outcome = .ok (some (line', signal))) : emitted target line = line' := by
  rw [emitted, h]

theorem emitted_eq_self {target : Target} {line : Text} (h : (updateEmission target line).outcome = .ok none) :
    emitted target line = line := by
  rw [emitted, h]

theorem updateEmission_of_emitsNothing {target : Target} {line : Text} (h : emitsNothing line) :
    updateEmission target line = pure none := by
  rw [updateEmission]
  exact if_pos h

theorem updateEmission_spec {target : Target} {line : Text}
    (h : (updateEmission target line).outcome = .ok (some (line', signal))) :
    emitsNothing line = false ∧ line'.isCode ∧
      ∃ parts, (signature target signal).outcome = .ok parts ∧ line'.has (signatureName parts) := by
  have he : emitsNothing line = false := Bool.eq_false_iff.mpr fun hn => by
    rw [updateEmission_of_emitsNothing hn] at h
    cases h
  have hg := he
  rw [emitsNothing, Bool.or_eq_false_iff, Bool.or_eq_false_iff, Bool.not_eq_false', Bool.not_eq_false'] at hg
  obtain ⟨⟨hc, hm⟩, -⟩ := hg
  obtain ⟨args, hl⟩ := updateEmission_eq h
  rw [emissionLine] at hl
  split at hl
  · cases hl
  next last _ =>
  obtain ⟨parts, hp, hl⟩ := Run.bind_eq_ok.mp hl
  cases hl
  refine ⟨he, ?_, parts, hp, ?_⟩
  · obtain ⟨before, next, rest, hs⟩ := Text.exists_splitOn_of_infix (by decide) (Text.has_iff_infix.mp hm)
    have hf : line.firstPiece ".emit(" = before := by
      rw [Text.splitOn, cons.injEq] at hs
      exact hs.1
    have hw := Text.flatten_splitOn (by decide) hs
    rw [← hw] at hc
    have hd := (Text.isCode_append_cons (c := '.') (by decide) before _).symm.trans hc
    rw [hf]
    simp only [append_assoc]
    exact (Text.isCode_append_cons (c := '.') (by decide) before _).trans hd
  · refine Text.has_iff_infix.mpr ⟨line.firstPiece ".emit(" ++ ".", ".emit(" ++
      Text.commaList ((dropEmptyValues (args.dropLast ++ [balanceLast last])).drop 1) ++ ")" ++ surplus last ++ "\n", ?_⟩
    simp only [append_assoc]

/-! ## A declaration in its class -/

/-- **`grown` is `before` with a block of `n` lines put in behind its last class line.** -/
def PutInClass (before grown : List Text) (n : Nat) : Prop :=
  ∃ front cls body body', before = front ++ cls :: body ∧ opensClass cls = true ∧
    (∀ l ∈ body, opensClass l = false) ∧ Block body body' n ∧ grown = front ++ cls :: body'

theorem PutInClass.toGrown (h : PutInClass before grown n) : Grown before grown := by
  obtain ⟨front, cls, body, body', rfl, -, -, hb, rfl⟩ := h
  exact (Grown.refl front).append (hb.toGrown.keep cls)

theorem PutInClass.length_eq (h : PutInClass before grown n) : grown.length = before.length + n := by
  obtain ⟨front, cls, body, body', rfl, -, -, hb, rfl⟩ := h
  simp only [length_append, length_cons, hb.length_eq]
  omega

theorem putInClass_of_declareSignal {target : Target} {line : Text} {parts : List Text}
    (hp : (signature target signal).outcome = .ok parts)
    (hc : ∃ l ∈ before, opensClass l) (hli : opensClass line = false) (hco : line.isCode)
    (hn : line.has (signatureName parts))
    (h : (declareSignal target (before ++ line :: behind) before.length signal).outcome = .ok d) :
    ∃ grown, PutInClass before grown d.added ∧ d.lines = grown ++ line :: behind := by
  obtain ⟨l, hl, hop⟩ := hc
  obtain ⟨front, cls, body, rfl, hcls, hb⟩ := exists_last_class hl hop
  rcases declareSignal_enclosing hp behind hcls hb hli hco hn with
    ⟨body', n, hbl, ho⟩ | ⟨_, _, _, failure, -, -, -, -, ho⟩
  · obtain rfl := Except.ok.inj (h.symm.trans ho)
    exact ⟨front ++ cls :: body', ⟨front, cls, body, body', rfl, hcls, hb, hbl, rfl⟩, rfl⟩
  · cases h.symm.trans ho

/-- **What the pass does with a line**, where a class is opened before it: the line is no emission and everything
stays as it is, or it is rewritten and its signal is declared in the class. -/
def EmissionStep (target : Target) (before : List Text) (line : Text) (behind : List Text) (d : Declared) : Prop :=
  (updateEmission target line).outcome = .ok none ∧ d = ⟨before ++ line :: behind, 0⟩ ∨
  ∃ signal grown, (updateEmission target line).outcome = .ok (some (emitted target line, signal)) ∧
    (declareSignal target (before ++ emitted target line :: behind) before.length signal).outcome = .ok d ∧
    PutInClass before grown d.added ∧ d.lines = grown ++ emitted target line :: behind

theorem EmissionStep.exists_grown {target : Target} {line : Text} (h : EmissionStep target before line behind d) :
    ∃ grown, Grown before grown ∧ grown.length = before.length + d.added ∧
      d.lines = grown ++ emitted target line :: behind := by
  rcases h with ⟨hn, rfl⟩ | ⟨signal, grown, -, -, hp, hl⟩
  · exact ⟨before, .refl before, rfl, by rw [emitted_eq_self hn]⟩
  · exact ⟨grown, hp.toGrown, hp.length_eq, hl⟩

/-- **Every emission stands in a class**: a class is opened before it, and it opens none, nor does its new line. -/
def EmitsInClasses (target : Target) (lines : List Text) : Prop :=
  ∀ front line back, lines = front ++ line :: back → emitsNothing line = false →
    (∃ l ∈ front, opensClass l = true) ∧ line.has "class " = false ∧ (emitted target line).has "class " = false

namespace EmitsInClasses

variable {target : Target} {done rest : List Text} {line : Text}

theorem emitted_of_opensClass (h : EmitsInClasses target (done ++ rest)) {l : Text} (hl : l ∈ done)
    (ho : opensClass l) : emitted target l = l := by
  obtain ⟨front, back, rfl⟩ := append_of_mem hl
  rw [opensClass, Bool.and_eq_true] at ho
  cases he : emitsNothing l with
  | true => exact emitted_eq_self (congrArg Run.outcome (updateEmission_of_emitsNothing he))
  | false =>
    have hn := (h front l (back ++ rest) (by simp) he).2.1
    rw [ho.2] at hn
    cases hn

theorem emissionStep (h : EmitsInClasses target (done ++ line :: rest))
    (hdo : Grown (done.map (emitted target)) before)
    (hd : (emitAt target before.length (before ++ line :: rest)).outcome = .ok d) :
    EmissionStep target before line rest d := by
  have hline : (before ++ line :: rest)[before.length]? = some line := by simp
  rw [emitAt_eq hline] at hd
  obtain ⟨emission, he, hd⟩ := Run.bind_eq_ok.mp hd
  cases emission with
  | none => exact .inl ⟨he, (Except.ok.inj hd).symm⟩
  | some found =>
    obtain ⟨line', signal⟩ := found
    obtain ⟨hem, hc, parts, hp, hn⟩ := updateEmission_spec he
    obtain ⟨⟨l, hl, ho⟩, -, hf⟩ := h done line rest rfl hem
    obtain rfl := emitted_eq he
    have hset : (before ++ line :: rest).set before.length (emitted target line) = before ++ emitted target line :: rest := by
      simp
    have hmem : l ∈ before := by
      have hm : l ∈ done.map (emitted target) := mem_map.mpr ⟨l, hl, h.emitted_of_opensClass hl ho⟩
      obtain ⟨front, back, hs⟩ := append_of_mem hm
      rw [hs] at hdo
      obtain ⟨front', back', rfl, -, -⟩ := hdo.exists_append_cons
      simp
    have hb : opensClass (emitted target line) = false := by
      rw [opensClass, hf, Bool.and_false]
    dsimp only at hd
    rw [hset] at hd
    obtain ⟨grown, hput, hli⟩ := putInClass_of_declareSignal hp ⟨l, hmem, ho⟩ hb hc hn hd
    exact .inr ⟨signal, grown, he, hd, hput, hli⟩

theorem visitLines_emissions {rest : List Text} {st : Declaring} : ∀ (front done : List Text) {before : List Text}
    {declared : Bool}, EmitsInClasses target (done ++ (front ++ rest)) → Grown (done.map (emitted target)) before →
      (visitLines (emitAt target) (front ++ rest).length before.length
        ⟨before ++ (front ++ rest), declared⟩).outcome = .ok st →
      ∃ before' declared', Grown ((done ++ front).map (emitted target)) before' ∧
        (visitLines (emitAt target) front.length before.length ⟨before ++ (front ++ rest), declared⟩).outcome =
          .ok ⟨before' ++ rest, declared'⟩ ∧
        (visitLines (emitAt target) rest.length before'.length ⟨before' ++ rest, declared'⟩).outcome = .ok st
  | [], done, before, declared, _, hdo, hr => ⟨before, declared, by rwa [append_nil], rfl, hr⟩
  | line :: front, done, before, declared, hc, hdo, hr => by
    rw [cons_append, length_cons, visitLines] at hr
    obtain ⟨d, hd, hr⟩ := Run.bind_eq_ok.mp hr
    have hs : EmissionStep target before line (front ++ rest) d := hc.emissionStep hdo hd
    obtain ⟨grown, hg, hle, hl⟩ := hs.exists_grown
    have hp : before.length + d.added + 1 = (grown ++ [emitted target line]).length := by
      rw [length_append, hle]
      rfl
    have hn : Grown ((done ++ [line]).map (emitted target)) (grown ++ [emitted target line]) := by
      rw [map_append]
      exact (hdo.trans hg).append (.refl _)
    have hl' : d.lines = (grown ++ [emitted target line]) ++ (front ++ rest) := by
      rw [hl, append_cons]
    rw [hl', hp] at hr
    have hc' : EmitsInClasses target ((done ++ [line]) ++ (front ++ rest)) := by
      rwa [← append_cons]
    obtain ⟨before', declared', hb', hf, hre⟩ :=
      visitLines_emissions front (done ++ [line]) hc' hn hr
    refine ⟨before', declared', by rwa [append_cons], ?_, hre⟩
    rw [length_cons, visitLines]
    refine Run.bind_eq_ok.mpr ⟨d, hd, ?_⟩
    rw [hl', hp]
    exact hf

end EmitsInClasses

/-! ## A whole source -/

/-- **The pass for emissions keeps its place.** -/
theorem emissions_tracked {target : Target} {lines : List Text} {st : Declaring}
    (hclasses : EmitsInClasses target lines) (h : (updateEmissions target lines).outcome = .ok st) :
    (∀ line, emitsNothing line = true → emitted target line = line) ∧
    Grown (lines.map (emitted target)) st.lines ∧
    ∀ front line back, lines = front ++ line :: back → ∃ before declared d,
      Grown (front.map (emitted target)) before ∧
      (visitLines (emitAt target) front.length 0 ⟨lines, false⟩).outcome = .ok ⟨before ++ line :: back, declared⟩ ∧
      (emitAt target before.length (before ++ line :: back)).outcome = .ok d ∧
      EmissionStep target before line back d ∧
      (visitLines (emitAt target) back.length (before.length + d.added + 1)
        ⟨d.lines, declared || d.added != 0⟩).outcome = .ok st := by
  refine ⟨fun line hnothing => ?_, ?_, ?_⟩
  · exact emitted_eq_self (congrArg Run.outcome (updateEmission_of_emitsNothing hnothing))
  · have hwhole : (visitLines (emitAt target) (lines ++ []).length 0 ⟨[] ++ (lines ++ []), false⟩).outcome = .ok st := by
      rw [List.append_nil]
      exact h
    obtain ⟨before, declared, hgrown, -, hend⟩ := EmitsInClasses.visitLines_emissions lines []
      (by rwa [List.append_nil]) .nil hwhole
    obtain rfl := Except.ok.inj hend
    rw [List.append_nil]
    exact hgrown
  · rintro front line back rfl
    obtain ⟨before, declared, hgrown, hfront, hrest⟩ :=
      EmitsInClasses.visitLines_emissions front [] hclasses .nil h
    rw [List.length_cons, visitLines] at hrest
    obtain ⟨d, hd, hrest⟩ := Run.bind_eq_ok.mp hrest
    exact ⟨before, declared, d, hgrown, hfront, hd, hclasses.emissionStep hgrown hd, hrest⟩

def sentAndMoved : List Text :=
  ["class A:\n", "    def f(self):\n", "        self.emit(SIGNAL('sent()'))\n",
    "        self.emit(SIGNAL('moved(int)'), 1)\n"]

def sentAndMovedDeclared : List Text :=
  ["class A:\n", "    sent = pyqtSignal()\n", "    moved = pyqtSignal(int)\n", "\n", "    def f(self):\n",
    "        self.sent.emit()\n", "        self.moved.emit(1)\n"]

theorem emissions_tracked_sentAndMoved :
    (updateEmissions .new sentAndMoved).outcome = .ok ⟨sentAndMovedDeclared, true⟩ ∧
      Grown (sentAndMoved.map (emitted .new)) sentAndMovedDeclared := by
  have hclasses : EmitsInClasses .new sentAndMoved := by
    intro front line back hsplit hemits
    rcases front with _ | ⟨a, _ | ⟨b, _ | ⟨c, _ | ⟨d, front⟩⟩⟩⟩
    · obtain ⟨rfl, -⟩ := List.cons.inj hsplit
      exact absurd hemits (by decide)
    · obtain ⟨rfl, -⟩ := List.cons.inj (List.cons.inj hsplit).2
      exact absurd hemits (by decide)
    · obtain ⟨rfl, hrest⟩ := List.cons.inj hsplit
      obtain ⟨rfl, -⟩ := List.cons.inj (List.cons.inj hrest).2
      exact ⟨⟨_, List.mem_cons_self, by decide⟩, by decide, by decide⟩
    · obtain ⟨rfl, hrest⟩ := List.cons.inj hsplit
      obtain ⟨rfl, -⟩ := List.cons.inj (List.cons.inj (List.cons.inj hrest).2).2
      exact ⟨⟨_, List.mem_cons_self, by decide⟩, by decide, by decide⟩
    · exact absurd (congrArg List.length hsplit) (by simp [sentAndMoved])
  have hrun : (updateEmissions .new sentAndMoved).outcome = .ok ⟨sentAndMovedDeclared, true⟩ := by decide
  exact ⟨hrun, (emissions_tracked hclasses hrun).2.1⟩

end QtMigration
