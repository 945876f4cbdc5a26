import QtMigration.Proofs.Signal.Declared
import QtMigration.Proofs.Signal.Overloads

/-!
# Proofs/Signal/Connected — old-style connections in the lines of a source

A connection to a further signal declares that signal in the class before it. **A source of old-style calls
and of lines that declare nothing gets each of its calls in the new style** (`connections_new_style`).
-/

namespace QtMigration

open List

/-! ## A call among lines -/

namespace OldCall

variable (c : OldCall) {target : Target}

/-- The new line stands in the body of a class: it is code, and opens no class itself. -/
def isBody : Bool := c.newLine.isCode && !c.newLine.has "class "

/-- **A signal can be declared for the call**, if it relays to one: the call stands in the body of a class that is
opened before it, and the indentation of the lines between them can be read. -/
def Ready (before : List Text) : Prop :=
  c.goal.relayed = [] ∨ c.isBody = true ∧
    ∃ front l body, before = front ++ l :: body ∧ opensClass l = true ∧ ∀ l ∈ body, Readable l

theorem Ready.grown {c : OldCall} {before before' : List Text} (h : c.Ready before) (hg : Grown before before') :
    c.Ready before' := by
  refine h.imp_right ?_
  rintro ⟨hb, ho⟩
  exact ⟨hb, ClassOpen.grown ho hg⟩

theorem readable_newLine : Readable c.newLine := by
  obtain ⟨d, s, hs, hd⟩ := c.sender.exists_cons
  obtain ⟨e, name, hn⟩ := exists_cons_of_ne_nil (ne_nil_of_isName c.signal.name)
  have he : e ≠ '\n' ∧ isQuote e = false := by
    have hc : ∀ x, isNameChar x = false → e ≠ x := fun x hx heq => by
      refine notMem_of_isName c.signal.name hx ?_
      rw [hn, heq]
      exact mem_cons_self
    refine ⟨hc '\n' (by decide), ?_⟩
    rw [isQuote, beq_eq_false_iff_ne.mpr (hc '\'' (by decide)), beq_eq_false_iff_ne.mpr (hc '"' (by decide))]
    rfl
  have hl : c.newLine = c.indent ++ (c.sender.text ++ '.' :: e :: (name ++ (bracketed c.types ++ (".connect(" ++
      (Text.commaList (c.goal.newStyle :: c.option.toList.map PlainArgument.text) ++ ")\n"))))) := by
    simp [newLine, hn]
  obtain ⟨a, b, x, rest, hb, ha, hf⟩ := exists_three c.sender.facts.1.1
    (fun y hy => (c.sender.facts.2.1.2 y hy).symm) (x := '.') (by decide) (y := e) he
  rw [hs, head?_cons] at ha
  obtain rfl := Option.some.inj ha
  intro _ _
  rw [hl, hb]
  refine Text.exists_indent (fun y hy => by rw [c.spaces y hy]; decide) (fun hm => (hf _ hm).1 rfl)
    (stringMark_of_noQuote fun y hy => (hf y hy).2) hd

theorem exists_signature_relayed (hcl : c.isClear target) (hr : c.goal.relayed ≠ []) :
    ∃ parts, signature target c.goal.relayed = pure parts ∧ c.newLine.has (signatureName parts) := by
  have hc := c.clean_of_isClear hcl
  rw [map_append, forall_mem_append] at hc
  have hs : c.goal.newStyle <:+: c.newLine := by
    refine ⟨c.indent ++ c.sender.text ++ "." ++ c.signal.text ++ bracketed c.types ++ ".connect(",
      Connection.wrapped ", " (Text.commaList (c.option.toList.map PlainArgument.text)) "" ++ ")\n", ?_⟩
    rw [newLine, commaList_option]
    simp only [append_assoc]
  have hn : ∀ {name : Text}, name <:+: c.goal.newStyle → c.newLine.has name := fun h =>
    Text.has_iff_infix.mpr (h.trans hs)
  cases hg : c.goal with
  | slot object name types => exact absurd (by rw [hg]; rfl) hr
  | callable function => exact absurd (by rw [hg]; rfl) hr
  | signal object name types =>
    rw [hg] at hc hn
    exact ⟨_, signature_declaration name.name isName_of_mem_types (by decide) hc.2, hn ⟨_, _, rfl⟩⟩
  | ownSignal name types =>
    rw [hg] at hc hn
    exact ⟨_, signature_declaration name.name isName_of_mem_types (by decide) hc.2, hn ⟨_, _, rfl⟩⟩

theorem connectAt_call (hc : c.isClear target) (before behind : List Text) (hre : c.Ready before) :
    ∃ grown n, Grown before grown ∧ grown.length = before.length + n ∧ (c.goal.relayed = [] → grown = before) ∧
      (connectAt target before.length (before ++ c.line :: behind)).outcome =
        .ok ⟨grown ++ c.newLine :: behind, n⟩ := by
  obtain ⟨conn, hca, hr⟩ := c.updateCall_line hc
  have hl : (before ++ c.line :: behind)[before.length]? = some c.line := by simp
  have hset : (before ++ c.line :: behind).set before.length c.newLine = before ++ c.newLine :: behind := by simp
  rw [connectAt, hl]
  dsimp only
  rw [hca, pure_bind]
  dsimp only
  rw [hset, hr]
  by_cases hn : c.goal.relayed = []
  · rw [hn, isEmpty_nil, if_pos rfl]
    exact ⟨before, 0, .refl before, rfl, fun _ => rfl, rfl⟩
  · obtain ⟨hb, ho⟩ := hre.resolve_left hn
    rw [isBody, Bool.and_eq_true, Bool.not_eq_true'] at hb
    obtain ⟨parts, hp, hna⟩ := c.exists_signature_relayed hc hn
    have hs : (signature target c.goal.relayed).outcome = .ok parts := congrArg Run.outcome hp
    have hl : opensClass c.newLine = false := by
      rw [opensClass, hb.1, hb.2]
      rfl
    obtain ⟨grown, n, hg, hle, hd⟩ :=
      declareSignal_open behind hs ho hl hb.1 hna
    rw [if_neg (by simpa using hn)]
    exact ⟨grown, n, hg, hle, fun h => absurd h hn, hd⟩

end OldCall

/-! ## A whole source -/

/-- The pass writes `written` for the line, and declares no signal: the line is no call, or a call of any form
that connects to something else than a signal. -/
def DeclaresNothing (target : Target) (line written : Text) : Prop :=
  ∃ call, (updateCall "connect" (Connection.ofConnect? target) line).outcome = .ok call ∧
    (call = none ∧ written = line ∨ ∃ conn : Connection, call = some (written, conn) ∧ conn.relayed = [])

theorem connectAt_other {target : Target} {line written : Text} (h : DeclaresNothing target line written)
    (before behind : List Text) :
    (connectAt target before.length (before ++ line :: behind)).outcome = .ok ⟨before ++ written :: behind, 0⟩ := by
  obtain ⟨call, hc, hw⟩ := h
  have hl : (before ++ line :: behind)[before.length]? = some line := by simp
  rw [connectAt, hl]
  refine Run.bind_eq_ok.mpr ⟨call, hc, ?_⟩
  rcases hw with ⟨rfl, rfl⟩ | ⟨conn, rfl, hr⟩
  · rfl
  · dsimp only
    rw [hr, isEmpty_nil, if_pos rfl]
    simp only [set_append_right _ _ (Nat.le_refl before.length), Nat.sub_self, set_cons_zero]
    rfl

/-- A line of a source: an old-style call, or a line that declares no signal. -/
inductive SourceLine (target : Target)
  | other (line written : Text) (h : DeclaresNothing target line written)
  | call (c : OldCall) (h : c.isClear target = true)

namespace SourceLine

variable {target : Target}

def line : SourceLine target → Text
  | other line _ _ => line
  | call c _ => c.line

def written : SourceLine target → Text
  | other _ written _ => written
  | call c _ => c.newLine

def relayed : SourceLine target → Text
  | other .. => []
  | call c _ => c.goal.relayed

/-- The indentation of what it is to become can be read; that of a new-style call always can. -/
def Plain : SourceLine target → Prop
  | other _ written _ => Readable written
  | call .. => True

theorem Plain.readable_written : ∀ {p : SourceLine target}, p.Plain → Readable p.written
  | other .., h => h
  | call c _, _ => c.readable_newLine

/-- A signal can be declared for the line, if it relays to one. -/
def Ready (before : List (SourceLine target)) : SourceLine target → Prop
  | other .. => True
  | call c _ => c.goal.relayed = [] ∨ c.isBody = true ∧
      ∃ front p body, before = front ++ p :: body ∧ opensClass p.written = true ∧ ∀ q ∈ body, q.Plain

theorem ready_of_call {before : List (SourceLine target)} {c : OldCall} {h : c.isClear target}
    (hr : (call c h).Ready before) : c.Ready (before.map written) := by
  refine hr.imp_right ?_
  rintro ⟨hb, front, p, body, rfl, hc, hp⟩
  refine ⟨hb, front.map written, p.written, body.map written, by simp, hc, fun l hl => ?_⟩
  obtain ⟨q, hq, rfl⟩ := mem_map.mp hl
  exact (hp q hq).readable_written

theorem connectAt_sourceLine (p : SourceLine target) {done : List (SourceLine target)} (hr : p.Ready done)
    {before : List Text} (hd : Grown (done.map written) before) (behind : List Text) :
    ∃ grown n, Grown before grown ∧ grown.length = before.length + n ∧ (p.relayed = [] → grown = before) ∧
      (connectAt target before.length (before ++ p.line :: behind)).outcome =
        .ok ⟨grown ++ p.written :: behind, n⟩ := by
  cases p with
  | other line written h => exact ⟨before, 0, .refl before, rfl, fun _ => rfl, connectAt_other h before behind⟩
  | call c h => exact c.connectAt_call h before behind ((ready_of_call hr).grown hd)

theorem visitLines_sourceLines : ∀ (rest done : List (SourceLine target)) {before : List Text} (declared : Bool),
    (∀ front p back, rest = front ++ p :: back → p.Ready (done ++ front)) → Grown (done.map written) before →
      ∃ st, (visitLines (connectAt target) rest.length before.length
          ⟨before ++ rest.map line, declared⟩).outcome = .ok st ∧
        Grown (before ++ rest.map written) st.lines ∧
        ((∀ p ∈ rest, p.relayed = []) → st.lines = before ++ rest.map written)
  | [], done, before, declared, _, hd => by
    refine ⟨_, rfl, ?_, fun _ => ?_⟩ <;> simp [Grown.refl]
  | p :: rest, done, before, declared, hre, hd => by
    have hp : p.Ready done := by simpa using hre [] p rest rfl
    obtain ⟨grown, n, hg, hle, hno, hc⟩ := p.connectAt_sourceLine hp hd (rest.map line)
    have hn : Grown ((done ++ [p]).map written) (grown ++ [p.written]) := by
      rw [map_append]
      exact (hd.trans hg).append (.refl _)
    obtain ⟨st, hst, hl, hs⟩ := visitLines_sourceLines rest (done ++ [p]) (declared || n != 0)
      (fun front q back hrest => by
        have hq := hre (p :: front) q back (by rw [hrest]; rfl)
        rwa [append_cons] at hq) hn
    refine ⟨st, ?_, ?_, fun hr => ?_⟩
    · rw [length_cons, visitLines, map_cons]
      refine Run.bind_eq_ok.mpr ⟨_, hc, ?_⟩
      have hpo : before.length + n + 1 = (grown ++ [p.written]).length := by simp [hle]
      have hw : grown ++ p.written :: rest.map line = (grown ++ [p.written]) ++ rest.map line := by simp
      dsimp only
      rw [hpo, hw]
      exact hst
    · have hstep : Grown (before ++ p.written :: rest.map written) (grown ++ p.written :: rest.map written) :=
        hg.append (.refl _)
      rw [append_assoc] at hl
      exact hstep.trans hl
    · rw [hs fun q hq => hr q (mem_cons_of_mem p hq), hno (hr p mem_cons_self), append_assoc]
      rfl

end SourceLine

/-- **Old-style calls are rewritten to their new style.** -/
theorem connections_new_style (target : Target) :
    (∀ (c : OldCall) (before behind : List Text), c.isClear target = true → c.Ready before →
      ∃ grown n, Grown before grown ∧ grown.length = before.length + n ∧ (c.goal.relayed = [] → grown = before) ∧
        (connectAt target before.length (before ++ c.line :: behind)).outcome =
          .ok ⟨grown ++ c.newLine :: behind, n⟩) ∧
    ∀ source : List (SourceLine target), (∀ front p back, source = front ++ p :: back → p.Ready front) →
      ∃ st, (updateConnections target (source.map SourceLine.line)).outcome = .ok st ∧
        Grown (source.map SourceLine.written) st.lines ∧
        ((∀ p ∈ source, p.relayed = []) → st.lines = source.map SourceLine.written) := by
  refine ⟨fun c before behind hclear hready => c.connectAt_call hclear before behind hready, fun source hready => ?_⟩
  rw [updateConnections, List.length_map]
  exact SourceLine.visitLines_sourceLines source [] false hready .nil

def relayingCall : OldCall where
  indent := "        "
  path := "self"
  sender := ⟨"self.a", by decide⟩
  signal := ⟨"n", by decide, by decide⟩
  types := [⟨"int", by decide, by decide⟩, ⟨"QObject", by decide, by decide⟩]
  goal := .signal ⟨"f(b, c)", by decide⟩ ⟨"m", by decide, by decide⟩ [⟨"int", by decide, by decide⟩]
  option := some ⟨"Qt.QueuedConnection", by decide⟩
  spaces := by simp
  dotted := by decide

def relayingLines : List (SourceLine .new) :=
  [.other "class A:\n" "class A:\n" ⟨none, by decide, .inl ⟨rfl, rfl⟩⟩,
    .other "    def f(self):\n" "    def f(self):\n" ⟨none, by decide, .inl ⟨rfl, rfl⟩⟩,
    .call relayingCall (by decide)]

theorem connections_new_style_relayingLines : relayingCall.line =
      "        self.connect(self.a, SIGNAL(\"n(int, QObject)\"), f(b, c), SIGNAL(\"m(int)\"), Qt.QueuedConnection)\n" ∧
    relayingCall.newLine = "        self.a.n[int, QObject].connect(f(b, c).m[int], Qt.QueuedConnection)\n" ∧
    ∃ st, (updateConnections .new (relayingLines.map SourceLine.line)).outcome = .ok st ∧
      Grown (relayingLines.map SourceLine.written) st.lines := by
  have hready : ∀ front p back, relayingLines = front ++ p :: back → p.Ready front := by
    intro front p back hsplit
    rcases front with _ | ⟨a, _ | ⟨b, _ | ⟨c, front⟩⟩⟩
    · obtain ⟨rfl, -⟩ := List.cons.inj hsplit
      trivial
    · obtain ⟨rfl, -⟩ := List.cons.inj (List.cons.inj hsplit).2
      trivial
    · obtain ⟨rfl, hrest⟩ := List.cons.inj hsplit
      obtain ⟨rfl, hlast⟩ := List.cons.inj hrest
      obtain ⟨rfl, -⟩ := List.cons.inj hlast
      refine .inr ⟨by decide, [], _, [_], rfl, by decide, List.forall_mem_singleton.mpr fun _ _ => ?_⟩
      exact ⟨"    ", by decide⟩
    · exact absurd (congrArg List.length hsplit) (by simp [relayingLines])
  obtain ⟨st, hrun, hgrown, -⟩ := (connections_new_style .new).2 relayingLines hready
  exact ⟨by decide, by decide, st, hrun, hgrown⟩

/-- A call to a slot whose name ends in the keyword of signals. -/
def misreadCall : OldCall where
  indent := "    "
  path := "x"
  sender := ⟨"a", by decide⟩
  signal := ⟨"n", by decide, by decide⟩
  types := [⟨"int", by decide, by decide⟩]
  goal := .slot ⟨"b", by decide⟩ ⟨"mSIGNAL", by decide, by decide⟩ [⟨"int", by decide, by decide⟩]
  option := none
  spaces := by simp
  dotted := by decide

/-- **A slot whose name ends in the keyword of signals is taken for a signal**, and written with its types. -/
theorem slot_taken_for_signal :
    misreadCall.line = "    x.connect(a, SIGNAL(\"n(int)\"), b, SLOT(\"mSIGNAL(int)\"))\n" ∧
    misreadCall.newLine = "    a.n[int].connect(b.mSIGNAL)\n" ∧
    (updateConnections .new ["class A:\n", misreadCall.line]).outcome =
      .ok ⟨["class A:\n", "    a.n[int].connect(b.mSIGNAL[int])\n"], false⟩ := by
  decide

end QtMigration
