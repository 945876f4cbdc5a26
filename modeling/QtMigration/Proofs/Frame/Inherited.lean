import QtMigration.Proofs.Frame.Edits

/-!
# Proofs/Frame/Inherited — what lines of code inherit from the lines they came from

Each pass for a part of the library makes its lines by edits, or puts fresh lines and notes in. So **what
every edit keeps and every line that is put in has** (`Inherited`), **all lines have behind all passes**
(`convertApi_inherited`).
-/

namespace QtMigration

open List Text

variable {c : Char} {lines out : List Text} {p : Progress} {indent line line' : Text} {f : Text → Text}

/-! ## Lines that are no code -/

theorem Text.isBlank_of_isCode (h : Text.isCode [c]) : Text.isBlank c = false := by
  by_contra hb
  rw [Bool.not_eq_false] at hb
  rw [isCode_eq_head, Text.trimLeft, Text.trimLeftWhile, dropWhile_cons_of_pos hb] at h
  cases h

theorem Text.isCode_cons (hc : Text.isBlank c = false) (s : Text) : Text.isCode (c :: s) = Text.isCode [c] :=
  isCode_append_cons hc [] s

theorem Text.isCode_cons_blank (hc : Text.isBlank c) (s : Text) : Text.isCode (c :: s) = Text.isCode s := by
  rw [isCode_eq_head, isCode_eq_head, Text.trimLeft, Text.trimLeftWhile, dropWhile_cons_of_pos hc]
  rfl

theorem Text.isCode_replaceAll {old new : Text} (ho : Text.isCode (old.take 1))
    (hn : Text.isCode (new.take 1)) : ∀ s : Text, Text.isCode (s.replaceAll old new) = s.isCode := by
  obtain ⟨c, cs, rfl⟩ : ∃ c cs, old = c :: cs := exists_cons_of_ne_nil (by rintro rfl; cases ho)
  obtain ⟨d, ds, rfl⟩ : ∃ d ds, new = d :: ds := exists_cons_of_ne_nil (by rintro rfl; cases hn)
  intro s
  rw [Text.replaceAll]
  induction s with
  | nil => rfl
  | cons x xs ih =>
    rw [Text.replaceGo]
    split
    next hm =>
      obtain ⟨rfl, -⟩ := cons_prefix_cons.mp ( isPrefixOf_iff_prefix.mp hm)
      rw [cons_append, isCode_cons (isBlank_of_isCode hn), isCode_cons (isBlank_of_isCode ho)]
      exact hn.trans ho.symm
    next =>
      cases hx : Text.isBlank x with
      | true => rw [isCode_cons_blank hx, isCode_cons_blank hx, ih]
      | false => rw [isCode_cons hx, isCode_cons hx xs]

/-! ## The passes -/

/-- **What edits keep and the lines that are put in have.** -/
structure Inherited (Q : Text → Prop) : Prop where
  edit : ∀ line line', Q line → Edit line line' → (line.isCode = false → line'.isCode = false) → Q line'
  fresh : ∀ line, Fresh line → Q line
  note : ∀ line, Note line → Q line
  lineEnd : Q ['\n']

section Passes

variable {Q : Text → Prop}

theorem map_inherited (hf : ∀ line, Q line → Q (f line))
    (hl : ∀ line ∈ lines, Q line) : ∀ line ∈ lines.map f, Q line :=
  forall_mem_map.mpr fun line hli => hf line (hl line hli)

variable (hQ : Inherited Q) (hli : ∀ line ∈ lines, Q line)

include hQ

theorem Inherited.edited (hl : Q line) (h : Edited line line')
    (hp : line.isCode = false → line'.isCode = false) : Q line' := by
  rcases h with rfl | h
  · exact hl
  · exact hQ.edit line line' hl h hp

theorem Inherited.made (hl : Q line) (hc : line.isCode) (h : Made line line') : Q line' := by
  rcases h with h | h
  · exact hQ.edited hl h fun hp => absurd hc (Bool.eq_false_iff.mp hp)
  · exact hQ.note line' h

theorem Inherited.lineEnds : ∀ line ∈ ([['\n']] : List Text), Q line := forall_mem_singleton.mpr hQ.lineEnd

theorem renameSetDate_inherited (hl : Q line) : Q (renameSetDate line) := by
  refine hQ.edited hl (renameSetDate_edited line) fun hc => ?_
  rw [← hc]
  exact isCode_replaceAll (by decide) (by decide) line

theorem headersGo_inherited {known : List Text} : ∀ (methods : List (Text × Text)) (lines : List Text)
    {out : List Text}, (∀ m ∈ methods, m ∈ headerMethods) → (∀ line ∈ lines, Q line) →
      headersGo known methods lines = .ok out → ∀ line ∈ out, Q line
  | [], lines, out, _, hl, h => by
    obtain rfl := Except.ok.inj h
    exact hl
  | rule :: methods, lines, out, hm, hl, h => by
    obtain ⟨hr, hm⟩ := forall_mem_cons.mp hm
    rw [headersGo] at h
    obtain ⟨lines', hl', h⟩ := bind_eq_ok.mp h
    refine headersGo_inherited methods lines' hm ((mapM_expands hl').forall_mem hl ?_) h
    rintro line _ ⟨line', hh, rfl⟩ hli
    refine forall_mem_singleton.mpr ?_
    rcases headerLine_eq hh with rfl | rfl
    · exact hli
    · have hc : ∀ rule ∈ headerMethods, Text.isCode (rule.1.take 1) ∧
          Text.isCode (rule.2.take 1) := by decide
      have hre : Edited line (line.replaceAll rule.1 rule.2) :=
        edited_replaceAll .headers (mem_map_of_mem hr) (infix_refl _) (joins_fixed (mem_map_of_mem hr))
      refine hQ.edited hli hre fun hp => ?_
      rw [isCode_replaceAll (hc rule hr).1 (hc rule hr).2, hp]

include hli

theorem noteLines_inherited {note : Text} {concerns : Text → Bool}
    (hn : ∀ indent, (∀ c ∈ indent, isRowBlank c) → Note (indent ++ note))
    (h : noteLines note concerns lines = .ok out) : ∀ line ∈ out, Q line := by
  refine (expandLines_expands h).forall_mem hli fun line here hh hl => ?_
  rw [noteLine] at hh
  split at hh
  · obtain ⟨indent, hi, rfl⟩ := map_eq_ok.mp hh
    exact forall_mem_cons.mpr ⟨hQ.note _ (hn indent (indent_blank hi)), forall_mem_singleton.mpr hl⟩
  · obtain rfl := Except.ok.inj hh
    exact forall_mem_singleton.mpr hl

theorem map_guarded (hf : ∀ line, Edited line (f line)) (hp : ∀ line, line.isCode = false → f line = line) :
    ∀ line ∈ lines.map f, Q line :=
  map_inherited (fun line hl => hQ.edited hl (hf line) fun hc => by rw [hp line hc, hc]) hli

theorem wheelGo_inherited (h : wheelGo none lines = .ok out) : ∀ line ∈ out, Q line := by
  refine (wheelGo_expands none lines h).forall_mem hli ?_
  rintro line _ (rfl | ⟨hc, handler, rfl⟩) hl
  · exact forall_mem_singleton.mpr hl
  · exact forall_mem_singleton.mpr (hQ.made hl hc (.inl (handlerLine_edited handler line)))

theorem updateDesktopServices_inherited (h : (updateDesktopServices p lines).map (·.1) = .ok out) :
    ∀ line ∈ out, Q line := by
  obtain ⟨services, hp⟩ := updateDesktopServices_expands h
  refine hp.forall_mem hli ?_
  rintro line here ⟨changed, hh⟩ hl line' hl'
  cases hc : line.isCode with
  | true => exact hQ.made hl hc (placeLine_edited hh line' hl')
  | false =>
    rw [placeLine_of_lacks services (codeLacks_of_not_code hc _)] at hh
    cases hh
    rwa [mem_singleton.mp hl']

theorem updateDates_inherited : ∀ line ∈ updateDates lines, Q line := by
  refine (dateNames_expands [] _).forall_mem ((dateClasses_expands false lines).forall_mem hli ?_) ?_ <;>
  · rintro line _ (rfl | ⟨-, rfl⟩) hl
    · exact forall_mem_singleton.mpr hl
    · exact forall_mem_singleton.mpr (renameSetDate_inherited hQ hl)

theorem inputDialogs_inherited : ∀ line ∈ updateInputDialogs lines, Q line := by
  refine map_inherited (fun line hl => ?_) hli
  split
  · have hr : Edited line (line.replaceAll ".getInteger(" ".getInt(") :=
      edited_replaceAll .inputDialogs mem_cons_self (infix_refl _) (joins_fixed mem_cons_self)
    refine hQ.edited hl hr fun hp => ?_
    rw [isCode_replaceAll (by decide) (by decide), hp]
  · exact hl

theorem renameInCode_inherited {rules : List (Text × Text)} (hr : ∀ line, Edited line (line.replaceEach rules)) :
    ∀ line ∈ renameInCode rules lines, Q line := by
  refine map_guarded hQ hli (fun line => ?_) fun line hc => ?_
  · split
    · exact hr line
    · exact .inl rfl
  · rw [hc, if_neg Bool.false_ne_true]

theorem updateItems_inherited {item : Text} (hitem : item ∈ itemClasses) (h : updateItems item lines = .ok out) :
    ∀ line ∈ out, Q line := by
  refine (updateItemsGo_expands 0 item lines h).forall_mem hli ?_
  rintro line here (⟨name, item', rfl | ⟨hc, -, hi⟩⟩ | ⟨hp, item', hh⟩) hl
  · exact forall_mem_singleton.mpr hl
  · exact fun line' hl' => hQ.made hl hc (initLines_edited hi line' hl')
  · simp only [passesItem, Bool.or_eq_false_iff, Bool.not_eq_false'] at hp
    have hpi : line.hasAny Pass.graphics.seeks := hasAny_of_has (mem_cons_of_mem _ hitem) hp.2
    obtain ⟨hb, ha⟩ := aroundItem_parts line item'
    exact fun line' hl' => hQ.made hl hp.1.1 (itemLines_edited hpi hb ha hh line' hl')

theorem updateGraphics_inherited (h : updateGraphics lines = .ok out) : ∀ line ∈ out, Q line := by
  suffices hf : ∀ (items : List Text), (∀ item ∈ items, item ∈ itemClasses) → ∀ lines, (∀ line ∈ lines, Q line) →
        items.foldlM (fun ls item => updateItems item ls) lines = .ok out → ∀ line ∈ out, Q line from
    hf itemClasses (fun _ hi => hi) lines hli h
  intro items
  induction items with
  | nil =>
    intro _ lines hl h
    obtain rfl := Except.ok.inj h
    exact hl
  | cons item items ih =>
    intro hitems lines hl h
    obtain ⟨hitem, hitems⟩ := forall_mem_cons.mp hitems
    rw [foldlM_cons] at h
    obtain ⟨lines', hl', h⟩ := bind_eq_ok.mp h
    exact ih hitems lines' (updateItems_inherited hQ hl hitem hl') h

omit hQ hli

theorem traces_definition (h : line ∈ definitionTexts) : Traces definitionTexts [] line := by
  simpa using (Traces.nil []).concat h

theorem indentation_mem_definitionTexts (hb : isRowBlank c) : [c] ∈ definitionTexts := by
  simp only [isRowBlank, Bool.or_eq_true, beq_iff_eq] at hb
  rcases hb with (rfl | rfl) | rfl <;> decide

theorem blockIndent_blank (hi : ∀ c ∈ indent, isRowBlank c) :
    ∀ c ∈ blockIndent indent, isRowBlank c := by
  intro c hc
  rw [blockIndent] at hc
  split at hc
  · exact all_eq_true.mp (by decide : (("    " : Text).all isRowBlank)) c hc
  · exact hi c hc

theorem fresh_typeDefinition {name second third : Text} (hi : ∀ c ∈ indent, isRowBlank c)
    (hs : name ++ " = " ++ second ++ "\nexcept NameError:\n" ∈ definitionTexts)
    (ht : name ++ " = " ++ third ++ "\n" ∈ definitionTexts) :
    Fresh (typeDefinition (blockIndent indent) name second third) := by
  have hb : ∀ c ∈ blockIndent indent, [c] ∈ definitionTexts := fun c hc =>
    indentation_mem_definitionTexts (blockIndent_blank hi c hc)
  have htry : ("\ntry:\n" : Text) ∈ definitionTexts := mem_cons_self
  have hco : ("# Python 3\n" : Text) ∈ definitionTexts := by
    simp only [definitionTexts, mem_cons, true_or, or_true]
  have hl := (traces_definition ht).indent hb
  have hh := (hl.front hco (suffix_refl _)).indent hb
  have hf := (hh.front hs (suffix_refl _)).indent hb
  have hw := hf.front htry (u := "try:\n") ⟨['\n'], by decide⟩
  simp only [← append_assoc] at hw
  exact .definition hw

include hQ

theorem importWidgets_inherited : ∀ (lines : List Text) {out : List Text}, (∀ line ∈ lines, Q line) →
    importWidgets lines = .ok out → ∀ line ∈ out, Q line
  | [], out, _, h => by
    obtain rfl := Except.ok.inj h
    simp
  | line :: lines, out, hl, h => by
    obtain ⟨hli, hl⟩ := forall_mem_cons.mp hl
    rw [importWidgets] at h
    split at h
    · obtain ⟨indent, hi, rfl⟩ := map_eq_ok.mp h
      have hw := hQ.fresh _ (.widgets indent (indent_blank hi))
      exact forall_mem_cons.mpr ⟨hli, forall_mem_cons.mpr ⟨hw, hl⟩⟩
    · obtain ⟨rest, hr, rfl⟩ := map_eq_ok.mp h
      exact forall_mem_cons.mpr ⟨hli, importWidgets_inherited lines hl hr⟩

omit hQ in
theorem insertDefinitions_inherited {block : Text → Except Failure (List Text)}
    (hb : ∀ line here, block line = .ok here → ∀ line' ∈ here, Q line') :
    ∀ (lines : List Text) {out : List Text}, (∀ line ∈ lines, Q line) →
      insertDefinitions block lines = .ok out → ∀ line ∈ out, Q line
  | [], out, _, h => by
    obtain rfl := Except.ok.inj h
    simp
  | line :: lines, out, hl, h => by
    rw [insertDefinitions] at h
    split at h
    · obtain ⟨rest, hr, rfl⟩ := map_eq_ok.mp h
      obtain ⟨hli, hl⟩ := forall_mem_cons.mp hl
      exact forall_mem_cons.mpr ⟨hli, insertDefinitions_inherited hb lines hl hr⟩
    · obtain ⟨here, hh, rfl⟩ := map_eq_ok.mp h
      exact forall_mem_append.mpr ⟨hb line here hh, hl⟩

theorem stringBlock_inherited {strings lists : Bool} {here : List Text}
    (h : stringBlock strings lists line = .ok here) : ∀ line' ∈ here, Q line' := by
  have hs : ∀ indent, (∀ c ∈ indent, isRowBlank c) →
      Q (typeDefinition (blockIndent indent) "QString" "unicode" "str") := fun indent hi =>
    hQ.fresh _ (fresh_typeDefinition hi (by decide) (by decide))
  have hl : ∀ line' ∈ (["QStringList = list\n", ['\n']] : List Text), Q line' := by
    refine forall_mem_cons.mpr ⟨hQ.fresh _ (.definition ?_), hQ.lineEnds⟩
    exact traces_definition (by simp only [definitionTexts, mem_cons, true_or, or_true])
  unfold stringBlock at h
  cases strings with
  | false =>
    obtain rfl := Except.ok.inj h
    cases lists with
    | false => exact hQ.lineEnds
    | true => exact hl
  | true =>
    cases lists with
    | false =>
      obtain ⟨indent, hi, h⟩ := bind_eq_ok.mp h
      obtain rfl := Except.ok.inj h
      exact forall_mem_cons.mpr ⟨hs indent (indent_blank hi), hQ.lineEnds⟩
    | true =>
      obtain rfl := Except.ok.inj h
      exact forall_mem_cons.mpr ⟨hs [] (by simp), hl⟩

include hli

theorem updateChars_inherited (h : updateChars lines = .ok out) : ∀ line ∈ out, Q line := by
  have hc := map_guarded hQ hli charLine_edited fun line hco =>
    charLine_of_lacks (codeLacks_of_not_code hco _)
  rw [updateChars] at h
  split at h
  · refine insertDefinitions_inherited (fun line here hh => ?_) _ hc h
    obtain ⟨indent, hi, rfl⟩ := map_eq_ok.mp hh
    have hd : Fresh (typeDefinition (blockIndent indent) "QChar" "unichr" "chr") :=
      fresh_typeDefinition (indent_blank hi) (by decide) (by decide)
    exact forall_mem_cons.mpr ⟨hQ.fresh _ hd, hQ.lineEnds⟩
  · obtain rfl := Except.ok.inj h
    exact hc

theorem updateStrings_inherited (h : updateStrings lines = .ok out) : ∀ line ∈ out, Q line := by
  have hs := map_guarded hQ hli stringLine_edited fun line hc =>
    stringLine_of_lacks (codeLacks_of_not_code hc _)
  rw [updateStrings] at h
  split at h
  · exact insertDefinitions_inherited (fun _ _ => stringBlock_inherited hQ) _ hs h
  · obtain rfl := Except.ok.inj h
    exact hs

theorem Pass.run_inherited {pass : Pass} (hpa : pass ∈ apiPasses) {cfg : Settings}
    (h : pass.run cfg p lines = .ok out) : ∀ line ∈ out, Q line := by
  have hma : ∀ {f : Text → Text}, (∀ line, Edited line (f line)) → (∀ line, line.isCode = false → f line = line) →
      (Except.ok (lines.map f) : Except Failure _) = .ok out → ∀ line ∈ out, Q line :=
    fun hf hp h => Except.ok.inj h ▸ map_guarded hQ hli hf hp
  cases pass with
  | fileDialogs =>
    refine (mapM_expands h).forall_mem hli ?_
    rintro line _ ⟨line', hd, rfl⟩ hl
    refine forall_mem_singleton.mpr (hQ.edited hl (fileDialogLine_edited hd) fun hc => ?_)
    rw [fileDialogLine_of_lacks (codeLacks_of_not_code hc _)] at hd
    rw [← Except.ok.inj hd, hc]
  | directories =>
    exact hma directoryLine_edited (fun line hc => directoryLine_of_lacks (codeLacks_of_not_code hc _)) h
  | widgets =>
    obtain ⟨⟨out', p'⟩, ho, rfl⟩ := map_eq_ok.mp h
    rw [ensureWidgets] at ho
    split at ho
    · cases ho
      exact hli
    · obtain ⟨lines', hli', heq⟩ := map_eq_ok.mp ho
      obtain ⟨rfl, -⟩ := Prod.mk.inj heq
      exact importWidgets_inherited hQ lines hli hli'
  | scripting | xml | declarative | itemAnimations | openGL =>
    exact noteLines_inherited hQ hli (fun _ hi => .comment hi (by decide)) h
  | localizedTexts =>
    exact hma localizedLine_edited (fun line hc => localizedLine_of_lacks (codeLacks_of_not_code hc _)) h
  | wheelEvents => exact wheelGo_inherited hQ hli h
  | layoutMargins =>
    exact hma (marginLine_edited _) (fun line hc => marginLine_of_lacks _ (codeLacks_of_not_code hc _)) h
  | desktopServices => exact updateDesktopServices_inherited hQ hli h
  | dates => exact Except.ok.inj h ▸ updateDates_inherited hQ hli
  | graphics => exact updateGraphics_inherited hQ hli h
  | headers => exact headersGo_inherited hQ headerMethods lines (fun _ hm => hm) hli h
  | inputDialogs =>
    obtain rfl := Except.ok.inj h
    exact inputDialogs_inherited hQ hli
  | chars => exact updateChars_inherited hQ hli h
  | strings => exact updateStrings_inherited hQ hli h
  | messageHandlers =>
    obtain rfl := Except.ok.inj h
    exact renameInCode_inherited hQ hli (fun _ => edited_replaceEach .messageHandlers (by decide))
  | variants =>
    obtain rfl := Except.ok.inj h
    exact renameInCode_inherited hQ hli variants_edited
  | classNames =>
    obtain rfl := Except.ok.inj h
    exact renameInCode_inherited hQ hli (fun _ => edited_replaceEach .classNames (by decide))
  | application =>
    exact hma applicationLine_edited
      (fun line hc => applicationLine_of_lacks (codeLacks_of_not_code hc _)) h
  | _ => exact absurd hpa (by decide)

theorem convertApi_inherited (h : convertApi p lines = .ok out) : ∀ line ∈ out, Q line :=
  convertApi_induction (P := fun lines => ∀ line ∈ lines, Q line) h hli
    fun _ hp _ _ _ hb hr => Pass.run_inherited hQ hb hp hr

end Passes

def InCode (P : Text → Prop) (line : Text) : Prop := line.isCode = true → P line

theorem convertApi_inCode {P : Text → Prop} (hed : ∀ line line', P line → Edit line line' → P line')
    (hf : ∀ line, Fresh line → P line)
    (hl : ∀ line ∈ lines, InCode P line) (h : convertApi p lines = .ok out) : ∀ line ∈ out, InCode P line := by
  have hend : InCode P ['\n'] := fun hc => by cases hc
  have hc : Inherited (InCode P) := by
    refine ⟨fun line line' hli he hp hc' => ?_, fun line h _ => hf line h,
      fun line hn hc => ?_, hend⟩
    · cases hc : line.isCode with
      | false => rw [hp hc] at hc'; cases hc'
      | true => exact hed line line' (hli hc) he
    · rw [hn.isCode] at hc
      cases hc
  exact convertApi_inherited hc hl h

end QtMigration
