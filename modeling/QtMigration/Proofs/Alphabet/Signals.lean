import QtMigration.Conversion
import QtMigration.Proofs.Alphabet.Basic
import QtMigration.Proofs.Signal.Arguments

/-!
# Proofs/Alphabet/Signals — the signal passes stay within an alphabet

An old-style call is taken apart and put together again. All parts are pieces of the line, with some replaced
by ASCII, and so is the declaration that is put into the class (`declareSignal_spells`).
-/

namespace QtMigration

variable {c : Connection} {d : Declared} {i : Int} {args lines parts signal : List Text}
  {before content line s sender verb : Text}

def Connection.texts (c : Connection) : List Text :=
  [c.sender, c.signal, c.signalTypes, c.receiver, c.slot, c.slotTypes, c.relayed, c.options]

namespace Alphabet

variable {A : Alphabet} {target : Target}

/-! ## Arguments -/

theorem splitArguments_spells (hs : A.Spells s) (h : splitArguments s = .ok args) : A.SpellsAll args :=
  fun _ ha c hc => hs c ((infix_of_splitArguments h ha).subset hc)

theorem parenContent?_spells {t : Text} (hs : A.Spells s) (h : parenContent? s = some t) : A.Spells t := by
  rw [parenContent?] at h
  split at h
  · cases h
  next hc => exact (hs.cut? hc).2.beforeLast? h

theorem callContent?_spells {method : Text} (hl : A.Spells line)
    (h : callContent? line method = some content) : A.Spells content := by
  have hp := hl.splitOn method
  rw [callContent?] at h
  split at h
  next hs =>
    rw [hs, spellsAll_cons, spellsAll_cons] at hp
    exact hp.2.1.beforeLast? h
  · cases h

/-! ## Signatures -/

theorem cleanTypes_spells (hs : A.Spells s) : A.Spells (cleanTypes target s) := by
  refine hs.replaceEach_plain ?_
  cases target <;> decide

theorem signatureParts_spells (hs : A.Spells content)
    (h : signatureParts target content = .ok parts) : A.SpellsAll parts := by
  have hp := hs.splitOn "("
  rw [signatureParts] at h
  split at h
  · obtain rfl := Except.ok.inj h
    exact A.spellsAll_nil
  next hsp =>
    obtain rfl := Except.ok.inj h
    rw [hsp, spellsAll_singleton] at hp
    exact spellsAll_singleton.mpr hp.trimLeft
  next name types _ hsp =>
    rw [hsp, spellsAll_cons, spellsAll_cons] at hp
    obtain ⟨args, ha, rfl⟩ := map_eq_ok.mp h
    have ht := hp.2.1.replaceAll ")" (A.spells_of_isPlain (by decide : isPlain ""))
    exact spellsAll_cons.mpr ⟨hp.1.trimLeft, splitArguments_spells (cleanTypes_spells ht) ha⟩

theorem signature_spells (hs : A.Spells s) (h : (signature target s).outcome = .ok parts) : A.SpellsAll parts := by
  rw [signature] at h
  split at h
  · split at h
    · cases h
    next inner hi =>
      have hc := (parenContent?_spells hs hi).trim
      dsimp only at h
      split at h
      · exact signatureParts_spells (hc.trimOf _) h
      · obtain ⟨-, -, h⟩ := Run.bind_eq_ok.mp h
        obtain rfl := Except.ok.inj h
        exact spellsAll_singleton.mpr hc
  · obtain rfl := Except.ok.inj h
    exact spellsAll_singleton.mpr hs

theorem signatureTypes_spells (h : A.SpellsAll parts) : A.Spells (signatureTypes parts) := by
  rw [signatureTypes]
  split
  · exact (h.drop 1).commaList.replaceAll "::" (A.spells_of_isPlain (by decide))
  · exact A.spells_nil

/-! ## Connections -/

theorem relayOf_spells {declaration : Text} (h : A.Spells declaration) : A.Spells (relayOf declaration) := by
  rw [relayOf]
  split
  · exact h
  · exact A.spells_nil

theorem connectionTo_spells {slot : Slot} (hse : A.Spells sender) (hs : A.SpellsAll signal)
    (hsl : A.SpellsAll [slot.receiver, slot.declaration, slot.options])
    (h : (connectionTo target sender signal slot).outcome = .ok c) : A.SpellsAll c.texts := by
  rw [connectionTo] at h
  obtain ⟨parts, hp, h⟩ := Run.bind_eq_ok.mp h
  obtain rfl := Except.ok.inj h
  simp only [spellsAll_cons] at hsl
  obtain ⟨hr, hd, ho, -⟩ := hsl
  have hp := signature_spells hd hp
  simp only [Connection.texts, spellsAll_cons]
  exact ⟨hse, hs.headD, signatureTypes_spells hs, hr, hp.headD,
    signatureTypes_spells hp, relayOf_spells hd, ho, A.spellsAll_nil⟩

theorem connectionToCallable_spells {callable options : Text}
    (hse : A.Spells sender) (hs : A.SpellsAll signal) (hc : A.Spells callable)
    (ho : A.Spells options) :
    A.SpellsAll (connectionToCallable sender signal callable options).texts := by
  simp only [connectionToCallable, Connection.texts, spellsAll_cons]
  exact ⟨hse, hs.headD, signatureTypes_spells hs, A.spells_nil, hc, A.spells_nil,
    A.spells_nil, ho, A.spellsAll_nil⟩

theorem implicitReceiver_spells (A : Alphabet) (b : Bool) : A.Spells (if b then ("self" : Text) else "") := by
  cases b
  · exact A.spells_of_isPlain (by decide)
  · exact A.spells_of_isPlain (by decide)

theorem ofConnect?_spells (ha : A.SpellsAll args)
    (h : (Connection.ofConnect? target args).outcome = .ok (some c)) : A.SpellsAll c.texts := by
  unfold Connection.ofConnect? at h
  split at h
  next sender signal third rest =>
    simp only [spellsAll_cons] at ha
    obtain ⟨hs, hsi, ht, hr⟩ := ha
    split at h
    · cases h
    · obtain ⟨parts, hp, h⟩ := Run.bind_eq_ok.mp h
      have hp := signature_spells hsi hp
      split at h
      · obtain ⟨c', hc', h⟩ := Run.bind_eq_ok.mp h
        obtain rfl := Option.some.inj (Except.ok.inj h)
        refine connectionTo_spells hs hp ?_ hc'
        simp only [spellsAll_cons]
        exact ⟨A.implicitReceiver_spells _, ht, hr.commaList, A.spellsAll_nil⟩
      split at h
      next fourth others =>
        obtain ⟨hf, ho⟩ := spellsAll_cons.mp hr
        split at h
        · obtain ⟨c', hc', h⟩ := Run.bind_eq_ok.mp h
          obtain rfl := Option.some.inj (Except.ok.inj h)
          refine connectionTo_spells hs hp ?_ hc'
          simp only [spellsAll_cons]
          exact ⟨ht, hf, ho.commaList, A.spellsAll_nil⟩
        · obtain rfl := Option.some.inj (Except.ok.inj h)
          exact connectionToCallable_spells hs hp ht hr.commaList
      · obtain rfl := Option.some.inj (Except.ok.inj h)
        exact connectionToCallable_spells hs hp ht A.spells_nil
  · cases h

theorem ofDisconnect?_spells (ha : A.SpellsAll args)
    (h : (Connection.ofDisconnect? target args).outcome = .ok (some c)) : A.SpellsAll c.texts := by
  unfold Connection.ofDisconnect? at h
  split at h
  next sender signal third rest =>
    simp only [spellsAll_cons] at ha
    obtain ⟨hs, hsi, ht, hr⟩ := ha
    split at h
    · cases h
    · obtain ⟨parts, hp, h⟩ := Run.bind_eq_ok.mp h
      have hp := signature_spells hsi hp
      split at h
      · obtain ⟨c', hc', h⟩ := Run.bind_eq_ok.mp h
        obtain rfl := Option.some.inj (Except.ok.inj h)
        refine connectionTo_spells hs hp ?_ hc'
        simp only [spellsAll_cons]
        exact ⟨A.implicitReceiver_spells _, ht, A.spells_nil, A.spellsAll_nil⟩
      split at h
      next fourth others =>
        split at h
        · obtain ⟨c', hc', h⟩ := Run.bind_eq_ok.mp h
          obtain rfl := Option.some.inj (Except.ok.inj h)
          refine connectionTo_spells hs hp ?_ hc'
          simp only [spellsAll_cons]
          exact ⟨ht, (spellsAll_cons.mp hr).1, A.spells_nil, A.spellsAll_nil⟩
        · cases h
      · obtain rfl := Option.some.inj (Except.ok.inj h)
        exact connectionToCallable_spells hs hp ht A.spells_nil
  · cases h

theorem wrapped_spells {after : Text} (hb : isPlain before) (hs : A.Spells s)
    (ha : isPlain after) : A.Spells (Connection.wrapped before s after) := by
  rw [Connection.wrapped]
  split
  · exact A.spells_nil
  · exact ((A.spells_of_isPlain hb).append hs).append_plain ha

theorem render_spells {indent : Text} (hc : A.SpellsAll c.texts)
    (hi : A.Spells indent) (hv : A.Spells verb) : A.Spells (c.render indent verb) := by
  simp only [Connection.texts, spellsAll_cons] at hc
  obtain ⟨hse, hsi, hs, hr, hslot, hsl, -, ho, -⟩ := hc
  have hre : A.Spells (if c.relayed.isEmpty then [] else Connection.wrapped "[" c.slotTypes "]") := by
    split
    · exact A.spells_nil
    · exact wrapped_spells (by decide) hsl (by decide)
  have hd : A.Spells "." := A.spells_of_isPlain (by decide)
  simp only [Connection.render, spells_append, and_assoc]
  exact ⟨hi, hse, hd, hsi, wrapped_spells (by decide) hs (by decide), hd,
    hv, A.spells_of_isPlain (by decide), wrapped_spells (by decide) hr (by decide), hslot,
    hre, wrapped_spells (by decide) ho (by decide), A.spells_of_isPlain (by decide)⟩

theorem updateCall_spells {parse : List Text → Run (Option Connection)}
    {call : Text × Connection} (hv : A.Spells verb)
    (hpa : ∀ args c, A.SpellsAll args → (parse args).outcome = .ok (some c) → A.SpellsAll c.texts)
    (hl : A.Spells line) (h : (updateCall verb parse line).outcome = .ok (some call)) :
    A.Spells call.1 ∧ A.SpellsAll call.2.texts := by
  rw [updateCall] at h
  split at h
  · cases h
  split at h
  · cases h
  next content hco =>
    obtain ⟨args, ha, h⟩ := Run.bind_eq_ok.mp h
    obtain ⟨parsed, hp, h⟩ := Run.bind_eq_ok.mp h
    cases parsed with
    | none =>
      obtain ⟨-, -, h⟩ := Run.bind_eq_ok.mp h
      cases h
    | some c =>
      obtain ⟨indent, hi, h⟩ := Run.bind_eq_ok.mp h
      obtain rfl := Option.some.inj (Except.ok.inj h)
      have hc := hpa args c (splitArguments_spells (callContent?_spells hl hco) ha) hp
      exact ⟨render_spells hc (A.spells_indent hi) hv, hc⟩

/-! ## Declarations -/

theorem insertAt_spells (hl : A.SpellsAll lines)
    (hli : A.Spells line) : A.SpellsAll (insertAt lines i line) := by
  rw [insertAt]
  exact spellsAll_append.mpr ⟨hl.take _, spellsAll_cons.mpr ⟨hli, hl.drop _⟩⟩

theorem set_spells {i : Nat} (hl : A.SpellsAll lines)
    (hli : A.Spells line) : A.SpellsAll (lines.set i line) := fun s hs =>
  (List.mem_or_eq_of_mem_set hs).elim (hl s) fun heq => heq ▸ hli

theorem insertDeclaration_spells {p : Int} {decl : Text} (hl : A.SpellsAll lines) (hd : A.Spells decl)
    (h : insertDeclaration lines p decl = .ok d) : A.SpellsAll d.lines := by
  rw [insertDeclaration] at h
  split at h
  · cases h
  split at h
  all_goals obtain rfl := Except.ok.inj h
  · exact insertAt_spells (insertAt_spells hl hd) (A.spells_of_isPlain (by decide))
  · exact insertAt_spells hl hd

theorem declareSignal_spells {signal : Text} (hl : A.SpellsAll lines) (hs : A.Spells signal)
    (h : (declareSignal target lines i signal).outcome = .ok d) : A.SpellsAll d.lines := by
  rw [declareSignal] at h
  obtain ⟨parts, hp, h⟩ := Run.bind_eq_ok.mp h
  have hp := signature_spells hs hp
  split at h
  · cases h
  · dsimp only at h
    split at h
    · cases h
    · obtain rfl := Except.ok.inj h
      exact hl
    · obtain ⟨indent, hi, h⟩ := Run.bind_eq_ok.mp h
      refine insertDeclaration_spells hl ?_ h
      simp only [declarationLine, spells_append, and_assoc]
      exact ⟨A.spells_indent hi, hp.headD, A.spells_of_isPlain (by decide),
        hs.firstPiece _, A.spells_of_isPlain (by decide), signatureTypes_spells hp,
        A.spells_of_isPlain (by decide)⟩

theorem visitLines_spells {visit : Nat → List Text → Run Declared}
    (hv : ∀ i lines d, A.SpellsAll lines → (visit i lines).outcome = .ok d → A.SpellsAll d.lines) :
    ∀ (n i : Nat) (st : Declaring) {st' : Declaring}, A.SpellsAll st.lines →
      (visitLines visit n i st).outcome = .ok st' → A.SpellsAll st'.lines
  | 0, _, st, st', hst, h => by
    obtain rfl := Except.ok.inj h
    exact hst
  | n + 1, i, st, st', hst, h => by
    rw [visitLines] at h
    obtain ⟨d, hd, h⟩ := Run.bind_eq_ok.mp h
    exact visitLines_spells hv n _ _ (hv i st.lines d hst hd) h

/-! ## The passes -/

theorem balanceLast_spells {last : Text} (h : A.Spells last) : A.Spells (balanceLast last) := by
  rw [balanceLast]
  split
  · exact h.eraseLast _ _
  · exact h

theorem dropEmptyValues_spells (h : A.SpellsAll args) : A.SpellsAll (dropEmptyValues args) := by
  unfold dropEmptyValues
  split
  · split
    · exact spellsAll_singleton.mpr (spellsAll_cons.mp h).1
    · exact h
  · exact h

theorem emissionLine_spells {r : Text × Text} (hb : A.Spells before) (ha : A.SpellsAll args)
    (h : (emissionLine target before args).outcome = .ok r) : A.Spells r.1 ∧ A.Spells r.2 := by
  rw [emissionLine] at h
  split at h
  · cases h
  next last hl =>
    obtain ⟨parts, hp, h⟩ := Run.bind_eq_ok.mp h
    obtain rfl := Except.ok.inj h
    have hv : A.SpellsAll (dropEmptyValues (args.dropLast ++ [balanceLast last])) :=
      dropEmptyValues_spells <| spellsAll_append.mpr ⟨ha.dropLast, spellsAll_singleton.mpr
        (balanceLast_spells (ha last (List.mem_of_getLast? hl)))⟩
    refine ⟨?_, hv.headD⟩
    simp only [surplus, spells_append, and_assoc]
    exact ⟨hb, A.spells_of_isPlain (by decide), (signature_spells hv.headD hp).headD,
      A.spells_of_isPlain (by decide), (hv.drop 1).commaList, A.spells_of_isPlain (by decide),
      A.spells_replicate (by decide) _, A.spells_of_isPlain (by decide)⟩

theorem emitAt_spells (i : Nat) (lines : List Text) (d : Declared) (hl : A.SpellsAll lines)
    (h : (emitAt target i lines).outcome = .ok d) : A.SpellsAll d.lines := by
  have hs : (pure ⟨lines, 0⟩ : Run Declared).outcome = .ok d → A.SpellsAll d.lines := fun h => by
    obtain rfl := Except.ok.inj h
    exact hl
  rw [emitAt] at h
  split at h
  · exact hs h
  next line hi =>
    have hli := hl line (List.mem_of_getElem? hi)
    split at h
    · exact hs h
    split at h
    · exact hs h
    next content hc =>
      obtain ⟨args, ha, h⟩ := Run.bind_eq_ok.mp h
      obtain ⟨⟨line', signal⟩, he, h⟩ := Run.bind_eq_ok.mp h
      have ha := splitArguments_spells (callContent?_spells hli hc) ha
      obtain ⟨hli', hsi⟩ := emissionLine_spells (hli.firstPiece _) ha he
      exact declareSignal_spells (set_spells hl hli') hsi h

theorem connectAt_spells (i : Nat) (lines : List Text) (d : Declared) (hl : A.SpellsAll lines)
    (h : (connectAt target i lines).outcome = .ok d) : A.SpellsAll d.lines := by
  rw [connectAt] at h
  split at h
  · obtain rfl := Except.ok.inj h
    exact hl
  next line hi =>
    obtain ⟨call, hca, h⟩ := Run.bind_eq_ok.mp h
    cases call with
    | none =>
      obtain rfl := Except.ok.inj h
      exact hl
    | some call =>
      obtain ⟨hli', hc⟩ := updateCall_spells (A.spells_of_isPlain (by decide))
        (fun _ _ => ofConnect?_spells) (hl line (List.mem_of_getElem? hi)) hca
      have hs := set_spells (i := i) hl hli'
      dsimp only at h
      split at h
      · obtain rfl := Except.ok.inj h
        exact hs
      · exact declareSignal_spells hs (hc _ (by simp [Connection.texts])) h

theorem disconnectLine_spells {line' : Text} (hl : A.Spells line)
    (h : (disconnectLine target line).outcome = .ok line') : A.Spells line' := by
  rw [disconnectLine] at h
  obtain ⟨call, hc, h⟩ := Run.bind_eq_ok.mp h
  cases call with
  | none =>
    obtain rfl := Except.ok.inj h
    exact hl
  | some call =>
    obtain rfl := Except.ok.inj h
    exact (updateCall_spells (A.spells_of_isPlain (by decide)) (fun _ _ => ofDisconnect?_spells) hl hc).1

theorem updateDisconnections_spells : ∀ (lines : List Text) {out : List Text}, A.SpellsAll lines →
    (updateDisconnections target lines).outcome = .ok out → A.SpellsAll out
  | [], out, _, h => by
    obtain rfl := Except.ok.inj h
    exact A.spellsAll_nil
  | line :: lines, out, hl, h => by
    obtain ⟨hli, hl⟩ := spellsAll_cons.mp hl
    rw [updateDisconnections] at h
    obtain ⟨line', hli', h⟩ := Run.bind_eq_ok.mp h
    obtain ⟨rest, hr, h⟩ := Run.bind_eq_ok.mp h
    obtain rfl := Except.ok.inj h
    exact spellsAll_cons.mpr ⟨disconnectLine_spells hli hli', updateDisconnections_spells lines hl hr⟩

theorem cleanDecorator_spells (h : A.Spells line) : A.Spells (cleanDecorator target line) :=
  (cleanTypes_spells h).replaceEach_plain (by decide)

theorem signalDecorator_spells (line : Text) (h : A.Spells line) : A.Spells (signalDecorator target line) := by
  rw [signalDecorator]
  split
  · exact cleanDecorator_spells h
  · exact h

theorem slotDecorator_spells (line : Text) (h : A.Spells line) : A.Spells (slotDecorator target line) := by
  have hr := h.replaceAll "@pyqtSignature" (A.spells_of_isPlain (by decide : isPlain "@pyqtSlot"))
  rw [slotDecorator]
  split
  · exact cleanDecorator_spells hr
  · exact hr

theorem convertSignals_spells {st : Declaring} (hl : A.SpellsAll lines)
    (h : (convertSignals target lines).outcome = .ok st) : A.SpellsAll st.lines := by
  rw [convertSignals] at h
  obtain ⟨emitted, he, h⟩ := Run.bind_eq_ok.mp h
  obtain ⟨connected, hc, h⟩ := Run.bind_eq_ok.mp h
  obtain ⟨cut, hcut, h⟩ := Run.bind_eq_ok.mp h
  obtain rfl := Except.ok.inj h
  have he := visitLines_spells emitAt_spells _ _ ⟨lines, false⟩ hl he
  have hc := visitLines_spells connectAt_spells _ _ ⟨emitted.lines, false⟩ he hc
  have hcut := updateDisconnections_spells _ hc hcut
  exact (hcut.map signalDecorator_spells).map slotDecorator_spells

end Alphabet

end QtMigration
